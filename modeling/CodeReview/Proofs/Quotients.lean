import CodeReview.Proofs.TotalOrder
import Mathlib.Data.Int.Log
import Mathlib.Data.Rat.Floor
import Mathlib.Tactic.FieldSimp

/-!
# Rounded quotients

Rounding a quotient depends on the quotient alone, not on the two numbers that it is written with
(`roundMagnitude_congr`): its quantum is told by the binary logarithm of the quotient
(`floorLog_eq_log`), and whole numbers of quanta by numerator and denominator up to a common factor.

A natural number below `2 ^ 53` is a double as it stands (`Double.near_ofNat_of_small`).  So the
division of two such numbers, each made a double first, is their exact quotient rounded once
(`Double.ofNat_div_ofNat`).  A longer number is rounded before it is divided, and then the quotient is
off by three roundings (`Double.near_ofNat_div_ofNat`).
-/

namespace CodeReview

namespace BinaryFormat

variable {f : BinaryFormat} {a b c d k : Nat}

/-! ## Binary logarithms -/

theorem two_pow_toNat {e : Int} (h : 0 ≤ e) : (2 : ℚ) ^ e.toNat = 2 ^ e := by
  rw [← zpow_natCast, Int.toNat_of_nonneg h]

/-- Shifting the smaller side decides whether a power of two is not above a quotient. -/
theorem zpow_le_div_iff (hb : 0 < b) (e : Int) : (2 : ℚ) ^ e ≤ a / b ↔
    if 0 ≤ e then b * 2 ^ e.toNat ≤ a else b ≤ a * 2 ^ (-e).toNat := by
  have hb' : (0 : ℚ) < b := by exact_mod_cast hb
  rw [le_div_iff₀ hb']
  split
  · next h =>
    rw [← Nat.cast_le (α := ℚ)]
    push_cast
    rw [two_pow_toNat h, mul_comm]
  · next h =>
    rw [← Nat.cast_le (α := ℚ)]
    push_cast
    rw [two_pow_toNat (by omega : 0 ≤ -e), zpow_neg, ← div_eq_mul_inv,
      le_div_iff₀ (zpow_pos two_pos e), mul_comm]

/-- A number lies between the powers of two that its number of bits tells. -/
theorem log2_bounds (ha : a ≠ 0) : (2 : ℚ) ^ (a.log2 : Int) ≤ a ∧ (a : ℚ) < 2 ^ (a.log2 + 1 : Int) := by
  constructor
  · rw [zpow_natCast]
    exact_mod_cast Nat.log2_self_le ha
  · rw [← Nat.cast_succ, zpow_natCast]
    exact_mod_cast Nat.lt_log2_self

theorem floorLog_eq_log (ha : 0 < a) (hb : 0 < b) : floorLog a b = Int.log 2 (a / b : ℚ) := by
  have ha' : (0 : ℚ) < a := by exact_mod_cast ha
  have hb' : (0 : ℚ) < b := by exact_mod_cast hb
  have hpos : (0 : ℚ) < a / b := div_pos ha' hb'
  obtain ⟨hala, halb⟩ := log2_bounds ha.ne'
  obtain ⟨hbla, hblb⟩ := log2_bounds hb.ne'
  let guess : Int := a.log2 - b.log2
  -- the difference of the logarithms is right, or one too large
  have hlow : (2 : ℚ) ^ (guess - 1) ≤ a / b := by
    rw [le_div_iff₀ hb']
    calc (2 : ℚ) ^ (guess - 1) * b ≤ 2 ^ (guess - 1) * 2 ^ (b.log2 + 1 : Int) := by gcongr
      _ = 2 ^ (a.log2 : Int) := by rw [← zpow_add₀ two_ne_zero]; congr 1; omega
      _ ≤ a := hala
  have hhigh : (a / b : ℚ) < 2 ^ (guess + 1) := by
    rw [div_lt_iff₀ hb']
    calc (a : ℚ) < 2 ^ (a.log2 + 1 : Int) := halb
      _ = 2 ^ (guess + 1) * 2 ^ (b.log2 : Int) := by
        rw [← zpow_add₀ two_ne_zero]; congr 1; omega
      _ ≤ 2 ^ (guess + 1) * b := by gcongr
  have hlt : Int.log 2 (a / b : ℚ) < guess + 1 :=
    (Int.lt_zpow_iff_log_lt one_lt_two hpos).1 (by exact_mod_cast hhigh)
  have hge : guess - 1 ≤ Int.log 2 (a / b : ℚ) :=
    (Int.zpow_le_iff_le_log one_lt_two hpos).1 (by exact_mod_cast hlow)
  have hfits : guess ≤ Int.log 2 (a / b : ℚ) ↔
      if 0 ≤ guess then b * 2 ^ guess.toNat ≤ a else b ≤ a * 2 ^ (-guess).toNat := by
    rw [← zpow_le_div_iff hb, ← Int.zpow_le_iff_le_log one_lt_two hpos]
    norm_cast
  unfold floorLog
  simp only [Nat.pow_eq]
  by_cases h : guess ≤ Int.log 2 (a / b : ℚ)
  · rw [if_pos (hfits.1 h)]
    omega
  · rw [if_neg (mt hfits.2 h)]
    omega

/-! ## Equal quotients -/

theorem roundQuotient_mul_right (hk : 0 < k) :
    roundQuotient (a * k) (b * k) = roundQuotient a b := by
  have hmod : 2 * (a * k % (b * k)) = 2 * (a % b) * k := by
    rw [Nat.mul_mod_mul_right, Nat.mul_assoc]
  simp only [roundQuotient, Nat.mul_div_mul_right _ _ hk, hmod, Nat.mul_lt_mul_right hk,
    Nat.mul_left_inj hk.ne']

theorem roundQuotient_congr (hb : 0 < b) (hd : 0 < d) (h : a * d = c * b) :
    roundQuotient a b = roundQuotient c d := by
  rw [← roundQuotient_mul_right hd, h, Nat.mul_comm b d, roundQuotient_mul_right hb]

/-- Rounding depends on the quotient alone. -/
theorem roundMagnitude_congr (f : BinaryFormat) (hb : 0 < b) (hd : 0 < d) (h : a * d = c * b) :
    f.roundMagnitude a b = f.roundMagnitude c d := by
  rcases Nat.eq_zero_or_pos a with rfl | ha
  · have hc : c = 0 := by simpa [hb.ne'] using h.symm
    simp [roundMagnitude, hc]
  · have hc : 0 < c := Nat.pos_of_ne_zero fun hc => by simp [hc, ha.ne', hd.ne'] at h
    have hlog : floorLog a b = floorLog c d := by
      rw [floorLog_eq_log ha hb, floorLog_eq_log hc hd,
        (div_eq_div_iff (Nat.cast_ne_zero.2 hb.ne') (Nat.cast_ne_zero.2 hd.ne')).2
          (by exact_mod_cast h : (a * d : ℚ) = c * b)]
    unfold roundMagnitude
    rw [if_neg ha.ne', if_neg hc.ne', hlog]
    have hcoarse : ∀ n, roundQuotient a (b * Nat.pow 2 n) = roundQuotient c (d * Nat.pow 2 n) := by
      intro n
      have hn : 0 < Nat.pow 2 n := Nat.two_pow_pos n
      refine roundQuotient_congr (Nat.mul_pos hb hn) (Nat.mul_pos hd hn) ?_
      rw [← Nat.mul_assoc, ← Nat.mul_assoc, h]
    have hfine : ∀ n, roundQuotient (a * Nat.pow 2 n) b = roundQuotient (c * Nat.pow 2 n) d := by
      intro n
      refine roundQuotient_congr hb hd ?_
      rw [Nat.mul_right_comm, h, Nat.mul_right_comm]
    simp only [hcoarse, hfine]

/-! ## Distances -/

theorem roundQuotient_near (hb : 0 < b) : |(roundQuotient a b : ℚ) - a / b| ≤ 1 / 2 := by
  have hb' : (0 : ℚ) < b := by exact_mod_cast hb
  have hmod : a % b < b := Nat.mod_lt _ hb
  have hsplit : b * (a / b) + a % b = a := Nat.div_add_mod a b
  have hlow : 2 * a ≤ 2 * (b * roundQuotient a b) + b := by
    simp only [roundQuotient]
    split
    · rw [Nat.mul_succ]; omega
    · omega
  have hhigh : 2 * (b * roundQuotient a b) ≤ 2 * a + b := by
    simp only [roundQuotient]
    split
    · rw [Nat.mul_succ]; omega
    · omega
  have hlow' : (2 * a : ℚ) ≤ 2 * (b * roundQuotient a b) + b := by exact_mod_cast hlow
  have hhigh' : (2 * (b * roundQuotient a b) : ℚ) ≤ 2 * a + b := by exact_mod_cast hhigh
  have hdiv : (b : ℚ) * (a / b) = a := mul_div_cancel₀ _ hb'.ne'
  rw [abs_le]
  constructor
  · refine le_of_mul_le_mul_left ?_ hb'
    linarith [mul_sub (b : ℚ) (roundQuotient a b) (a / b)]
  · refine le_of_mul_le_mul_left ?_ hb'
    linarith [mul_sub (b : ℚ) (roundQuotient a b) (a / b)]

/-- The number of quanta that a quotient is rounded to. -/
theorem quanta_near (hb : 0 < b) (e : Int) :
    |((if 0 ≤ e then roundQuotient a (b * Nat.pow 2 e.toNat)
      else roundQuotient (a * Nat.pow 2 (-e).toNat) b : Nat) : ℚ) - a / b / 2 ^ e| ≤ 1 / 2 := by
  split
  · next h =>
    have hnear := roundQuotient_near (a := a) (Nat.mul_pos hb (Nat.two_pow_pos e.toNat))
    rwa [Nat.cast_mul, Nat.cast_pow, Nat.cast_two, two_pow_toNat h, ← div_div] at hnear
  · next h =>
    have hnear := roundQuotient_near (a := a * 2 ^ (-e).toNat) hb
    rwa [Nat.cast_mul, Nat.cast_pow, Nat.cast_two, two_pow_toNat (by omega), zpow_neg,
      ← div_eq_mul_inv, div_right_comm] at hnear

theorem div_scaled (m : Nat) (e : Int) :
    0 < (scaled m e).2 ∧ ((scaled m e).1 : ℚ) / (scaled m e).2 = m * 2 ^ e := by
  unfold scaled
  split
  · next h => exact ⟨Nat.one_pos, by simp [two_pow_toNat h]⟩
  · next h =>
    refine ⟨Nat.two_pow_pos _, ?_⟩
    simp [two_pow_toNat (by omega : 0 ≤ -e)]

end BinaryFormat

/-! ## Doubles -/

namespace Double

variable {a b c d m n : Nat} {e : Int} {x y : Double}

theorem ofQuotient_congr (negative : Bool) (hb : 0 < b) (hd : 0 < d)
    (h : (a / b : ℚ) = c / d) : ofQuotient negative a b = ofQuotient negative c d := by
  have hcross : a * d = c * b := by
    rw [div_eq_div_iff (Nat.cast_ne_zero.2 hb.ne') (Nat.cast_ne_zero.2 hd.ne')] at h
    exact_mod_cast h
  rw [ofQuotient, ofQuotient, BinaryFormat.round, BinaryFormat.round,
    format.roundMagnitude_congr hb hd hcross]

theorem value_of_bits_lt {magnitude : Nat} (h : magnitude < format.infinity) :
    (Double.mk (UInt64.ofNat magnitude)).value =
      if magnitude / 2 ^ 52 = 0 then .finite false (magnitude % 2 ^ 52) (-1074)
      else .finite false (2 ^ 52 + magnitude % 2 ^ 52) (-1074 + (magnitude / 2 ^ 52 - 1 : Nat)) := by
  have hsign : format.signBit = 9223372036854775808 := rfl
  have hinf : format.infinity = 9218868437227405312 := rfl
  have hbits : (UInt64.ofNat magnitude).toNat = magnitude :=
    UInt64.toNat_ofNat_of_lt' (by rw [hinf] at h; simp only [UInt64.size]; omega)
  have hmod : magnitude % format.signBit = magnitude := Nat.mod_eq_of_lt (by omega)
  have hneg : decide (format.signBit ≤ magnitude) = false := by
    rw [decide_eq_false_iff_not]
    omega
  rw [value, hbits, BinaryFormat.decode]
  simp only [hmod, hneg, if_neg h.not_gt, if_neg h.ne]
  rfl

/-- A whole number of quanta is a number of its binade, or the first one of the next binade. -/
theorem value_of_quanta (hk : n ≤ 2044) (hlow : 2 ^ 52 ≤ m) (hhigh : m ≤ 2 ^ 53) :
    ∃ k e, (Double.mk (UInt64.ofNat (n * 2 ^ 52 + m))).value = .finite false k e ∧
      (k * 2 ^ e : ℚ) = m * 2 ^ (n - 1074 : Int) := by
  have hinf : format.infinity = 9218868437227405312 := rfl
  rw [value_of_bits_lt (by omega), if_neg (by omega)]
  refine ⟨_, _, rfl, ?_⟩
  rcases hhigh.lt_or_eq with hlt | rfl
  · have hfraction : 2 ^ 52 + (n * 2 ^ 52 + m) % 2 ^ 52 = m := by omega
    have hexponent : -1074 + (((n * 2 ^ 52 + m) / 2 ^ 52 - 1 : Nat) : Int) = n - 1074 := by omega
    rw [hfraction, hexponent]
  · have hfraction : 2 ^ 52 + (n * 2 ^ 52 + 2 ^ 53) % 2 ^ 52 = 2 ^ 52 := by omega
    have hexponent : -1074 + (((n * 2 ^ 52 + 2 ^ 53) / 2 ^ 52 - 1 : Nat) : Int) =
        1 + (n - 1074) := by omega
    rw [hfraction, hexponent, zpow_add₀ two_ne_zero, zpow_one, ← mul_assoc]
    norm_num

theorem value_ofQuotient_zero (b : Nat) : (ofQuotient false 0 b).value = .finite false 0 (-1074) := by
  have hbits : ofQuotient false 0 b = zero := by
    rw [ofQuotient, BinaryFormat.round, BinaryFormat.roundMagnitude, if_pos rfl]
    rfl
  rw [hbits]
  rfl

/-- In the range of the normal numbers a rounded quotient is the nearest whole number of quanta. -/
theorem value_ofQuotient (ha : 0 < a) (hb : 0 < b) (hlow : -1022 ≤ Int.log 2 (a / b : ℚ))
    (hhigh : Int.log 2 (a / b : ℚ) ≤ 1022) :
    ∃ m e, ∃ k : Nat, (ofQuotient false a b).value = .finite false m e ∧
      (m * 2 ^ e : ℚ) = k * 2 ^ (Int.log 2 (a / b : ℚ) - 52) ∧
      |(k : ℚ) - a / b / 2 ^ (Int.log 2 (a / b : ℚ) - 52)| ≤ 1 / 2 := by
  have ha' : (0 : ℚ) < a := by exact_mod_cast ha
  have hb' : (0 : ℚ) < b := by exact_mod_cast hb
  have hpos : (0 : ℚ) < a / b := div_pos ha' hb'
  have hlog := BinaryFormat.floorLog_eq_log ha hb
  have hlogle : (2 : ℚ) ^ Int.log 2 (a / b : ℚ) ≤ a / b := by
    exact_mod_cast Int.zpow_log_le_self one_lt_two hpos
  have hltlog : (a / b : ℚ) < 2 ^ (Int.log 2 (a / b : ℚ) + 1) := by
    exact_mod_cast Int.lt_zpow_succ_log_self one_lt_two (a / b : ℚ)
  generalize Int.log 2 (a / b : ℚ) = log at *
  have hquantum : max format.leastExponent (BinaryFormat.floorLog a b - format.fractionBits) =
      log - 52 := by
    rw [hlog]
    exact max_eq_right (by change (-1074 : Int) ≤ log - 52; omega)
  have hnear := BinaryFormat.quanta_near (a := a) hb (log - 52)
  have hbinade : (log - 52 - format.leastExponent).toNat = (log + 1022).toNat := by
    change (log - 52 - -1074).toNat = _
    omega
  have hbits : ofQuotient false a b = ⟨UInt64.ofNat (format.roundMagnitude a b)⟩ := by
    rw [ofQuotient, BinaryFormat.round, BinaryFormat.withSign, if_neg Bool.false_ne_true]
  unfold BinaryFormat.roundMagnitude at hbits
  rw [if_neg ha.ne', hquantum] at hbits
  simp only [hbinade] at hbits
  generalize (if 0 ≤ log - 52 then _ else _ : Nat) = k at hnear hbits
  -- in quanta the quotient has 53 bits, so it is rounded to 53 bits or to the next power of two
  have hquanta : (2 : ℚ) ^ 52 ≤ a / b / 2 ^ (log - 52) ∧ (a / b / 2 ^ (log - 52) : ℚ) < 2 ^ 53 := by
    have htwo : (0 : ℚ) < 2 ^ (log - 52) := zpow_pos two_pos _
    constructor
    · rwa [le_div_iff₀ htwo, ← zpow_natCast, ← zpow_add₀ two_ne_zero,
        show ((52 : Nat) : Int) + (log - 52) = log by omega]
    · rwa [div_lt_iff₀ htwo, ← zpow_natCast, ← zpow_add₀ two_ne_zero,
        show ((53 : Nat) : Int) + (log - 52) = log + 1 by omega]
  obtain ⟨hbelow, habove⟩ := abs_le.1 hnear
  have hfrom : 2 ^ 52 ≤ k := by
    have h : (2 ^ 52 : ℚ) < k + 1 := by linarith [hquanta.1]
    exact Nat.lt_succ_iff.1 (by exact_mod_cast h)
  have hto : k ≤ 2 ^ 53 := by
    have h : (k : ℚ) < 2 ^ 53 + 1 := by linarith [hquanta.2]
    exact Nat.lt_succ_iff.1 (by exact_mod_cast h)
  obtain ⟨m, e, hvalue, hm⟩ := value_of_quanta (n := (log + 1022).toNat) (by omega) hfrom hto
  have hmin : min format.infinity ((log + 1022).toNat * Nat.pow 2 format.fractionBits + k) =
      (log + 1022).toNat * 2 ^ 52 + k := by
    refine min_eq_right ?_
    change (log + 1022).toNat * 4503599627370496 + k ≤ 9218868437227405312
    omega
  refine ⟨m, e, k, ?_, ?_, hnear⟩
  · rw [hbits, hmin, hvalue]
  · rw [hm]
    congr 2
    omega

/-- A double that is a number, off a rational number by at most a part `u` of that. -/
def Near (x : Double) (r u : ℚ) : Prop :=
  ∃ m e, x.value = .finite false m e ∧ |(m * 2 ^ e : ℚ) - r| ≤ r * u

/-- A natural number of at most 53 bits is a double. -/
theorem near_ofNat_of_small (h : n < 2 ^ 53) : (ofNat n).Near n 0 := by
  rcases Nat.eq_zero_or_pos n with rfl | hn
  · exact ⟨0, -1074, value_ofQuotient_zero 1, by simp⟩
  · have hlog : Int.log 2 ((n : ℚ) / (1 : Nat)) = Nat.log 2 n := by
      rw [Nat.cast_one, div_one, Int.log_natCast]
    have hle : Nat.log 2 n ≤ 52 := Nat.lt_succ_iff.1 (Nat.log_lt_of_lt_pow hn.ne' h)
    obtain ⟨m, e, k, hvalue, hm, hk⟩ := value_ofQuotient hn Nat.one_pos (by omega) (by omega)
    rw [hlog] at hm hk
    have hpow : (2 : ℚ) ^ ((Nat.log 2 n : Int) - 52) = 1 / 2 ^ (52 - Nat.log 2 n) := by
      rw [one_div, ← zpow_natCast, ← zpow_neg]
      congr 1
      omega
    -- the number is a whole number of quanta, and that is the only one at most half a quantum away
    have hwhole : k = n * 2 ^ (52 - Nat.log 2 n) := by
      rw [hpow, Nat.cast_one, div_one, div_div_eq_mul_div, div_one] at hk
      have habs : |(k : ℤ) - (n * 2 ^ (52 - Nat.log 2 n) : Nat)| < 1 := by
        have hlt : |(k : ℚ) - n * 2 ^ (52 - Nat.log 2 n)| < 1 := lt_of_le_of_lt hk one_half_lt_one
        exact_mod_cast hlt
      have hzero := Int.abs_lt_one_iff.1 habs
      omega
    refine ⟨m, e, hvalue, ?_⟩
    rw [hm, hwhole, hpow]
    simp

/-- A rounded quotient is off by at most half a unit in the last of its 53 bits. -/
theorem near_ofQuotient (hb : 0 < b) (h : a ≠ 0 → -1022 ≤ Int.log 2 (a / b : ℚ) ∧
    Int.log 2 (a / b : ℚ) ≤ 1022) : (ofQuotient false a b).Near (a / b) (1 / 2 ^ 53) := by
  rcases Nat.eq_zero_or_pos a with rfl | ha
  · exact ⟨0, -1074, value_ofQuotient_zero b, by simp⟩
  · have hpos : (0 : ℚ) < a / b := div_pos (by exact_mod_cast ha) (by exact_mod_cast hb)
    have hlogle : (2 : ℚ) ^ Int.log 2 (a / b : ℚ) ≤ a / b := by
      exact_mod_cast Int.zpow_log_le_self one_lt_two hpos
    obtain ⟨m, e, k, hvalue, hm, hk⟩ := value_ofQuotient ha hb (h ha.ne').1 (h ha.ne').2
    refine ⟨m, e, hvalue, ?_⟩
    rw [hm]
    generalize Int.log 2 (a / b : ℚ) = log at *
    have htwo : (0 : ℚ) < 2 ^ (log - 52) := zpow_pos two_pos _
    calc |(k * 2 ^ (log - 52) : ℚ) - a / b|
        = |(k : ℚ) - a / b / 2 ^ (log - 52)| * 2 ^ (log - 52) := by
          rw [← abs_of_pos htwo, ← abs_mul, abs_of_pos htwo, sub_mul, div_mul_cancel₀ _ htwo.ne']
      _ ≤ 1 / 2 * 2 ^ (log - 52) := by gcongr
      _ = 2 ^ log * (1 / 2 ^ 53) := by
          rw [zpow_sub₀ two_ne_zero]
          norm_num
          ring
      _ ≤ a / b * (1 / 2 ^ 53) := by gcongr

theorem div_eq_ofQuotient {d : Int} (hx : x.value = .finite false m d)
    (hy : y.value = .finite false n e) (hn : n ≠ 0) :
    ∃ a b, 0 < b ∧ x.div y = ofQuotient false a b ∧ (a / b : ℚ) = (m * 2 ^ d) / (n * 2 ^ e) := by
  obtain ⟨hden, hscaled⟩ := BinaryFormat.div_scaled m (d - e)
  refine ⟨(BinaryFormat.scaled m (d - e)).1, (BinaryFormat.scaled m (d - e)).2 * n,
    Nat.mul_pos hden (Nat.pos_of_ne_zero hn), ?_, ?_⟩
  · simp only [div, hx, hy, if_neg hn]
    rfl
  · have hn' : (n : ℚ) ≠ 0 := Nat.cast_ne_zero.2 hn
    have htwo : (2 : ℚ) ^ e ≠ 0 := zpow_ne_zero _ two_ne_zero
    rw [Nat.cast_mul, ← div_div, hscaled, zpow_sub₀ two_ne_zero]
    field_simp

/-- The quotient of two numbers of at most 53 bits is their exact quotient, rounded once. -/
theorem ofNat_div_ofNat (ha : a < 2 ^ 53) (hb : b < 2 ^ 53) (hne : b ≠ 0) :
    (ofNat a).div (ofNat b) = ofQuotient false a b := by
  obtain ⟨m, d, hx, hm⟩ := near_ofNat_of_small ha
  obtain ⟨n, e, hy, hn⟩ := near_ofNat_of_small hb
  rw [mul_zero, abs_nonpos_iff, sub_eq_zero] at hm hn
  have hpos : n ≠ 0 := by
    rintro rfl
    simp [eq_comm, hne] at hn
  obtain ⟨p, q, hq, hdiv, hquotient⟩ := div_eq_ofQuotient hx hy hpos
  rw [hdiv]
  exact ofQuotient_congr _ hq (Nat.pos_of_ne_zero hne) (by rw [hquotient, hm, hn])

/-- Three roundings, of dividend, divisor and quotient. -/
theorem quotient_near {a a' b b' q : ℚ} (ha : 0 ≤ a) (hb : 0 < b)
    (ha' : |a' - a| ≤ a * (1 / 2 ^ 53)) (hb' : |b' - b| ≤ b * (1 / 2 ^ 53))
    (hq : |q - a' / b'| ≤ a' / b' * (1 / 2 ^ 53)) : |q - a / b| ≤ a / b * (1 / 2 ^ 51) := by
  obtain ⟨halow, hahigh⟩ := abs_le.1 ha'
  obtain ⟨hblow, hbhigh⟩ := abs_le.1 hb'
  obtain ⟨hqlow, hqhigh⟩ := abs_le.1 hq
  have hr : 0 ≤ a / b := div_nonneg ha hb.le
  have hhigh : a' / b' ≤ a / b * ((1 + 1 / 2 ^ 53) / (1 - 1 / 2 ^ 53)) := by
    rw [div_mul_div_comm]
    exact div_le_div₀ (by positivity) (by linarith) (by norm_num [hb]) (by linarith)
  have hlow : a / b * ((1 - 1 / 2 ^ 53) / (1 + 1 / 2 ^ 53)) ≤ a' / b' := by
    rw [div_mul_div_comm]
    refine div_le_div₀ ?_ (by linarith) ?_ (by linarith)
    · linarith
    · linarith
  rw [abs_le]
  constructor
  · linarith
  · linarith

theorem near_ofNat (h : n < 2 ^ 64) : (ofNat n).Near n (1 / 2 ^ 53) := by
  have hquotient : (n : ℚ) / (1 : Nat) = n := by rw [Nat.cast_one, div_one]
  have hnear := near_ofQuotient (a := n) Nat.one_pos fun hn => by
    have hlog : Nat.log 2 n < 64 := Nat.log_lt_of_lt_pow hn h
    rw [hquotient, Int.log_natCast]
    omega
  rwa [hquotient] at hnear

/-- A number near to one of at most 64 bits, unless that is zero. -/
theorem bounds_of_near {r : ℚ} (hn : n ≠ 0) (h : n < 2 ^ 64)
    (hr : |r - n| ≤ n * (1 / 2 ^ 53)) : 1 / 2 ≤ r ∧ r ≤ 2 ^ 65 := by
  have hone : (1 : ℚ) ≤ n := by exact_mod_cast Nat.one_le_iff_ne_zero.2 hn
  have hlt : (n : ℚ) < 2 ^ 64 := by exact_mod_cast h
  obtain ⟨hlow, hhigh⟩ := abs_le.1 hr
  constructor <;> linarith

/-- The quotient of two numbers of at most 64 bits is off their exact quotient by what three roundings
amount to. -/
theorem near_ofNat_div_ofNat (ha : a < 2 ^ 64) (hb : b < 2 ^ 64) (hne : b ≠ 0) :
    ((ofNat a).div (ofNat b)).Near (a / b) (1 / 2 ^ 51) := by
  obtain ⟨m, d, hx, hm⟩ := near_ofNat ha
  obtain ⟨n, e, hy, hn⟩ := near_ofNat hb
  obtain ⟨hdivisor, hdivisor'⟩ := bounds_of_near hne hb hn
  have hpos : n ≠ 0 := by
    rintro rfl
    norm_num at hdivisor
  obtain ⟨p, q, hq, hdiv, hquotient⟩ := div_eq_ofQuotient hx hy hpos
  have hrange : p ≠ 0 → -1022 ≤ Int.log 2 (p / q : ℚ) ∧ Int.log 2 (p / q : ℚ) ≤ 1022 := by
    intro hp
    have hp' : (0 : ℚ) < p / q :=
      div_pos (by exact_mod_cast Nat.pos_of_ne_zero hp) (by exact_mod_cast hq)
    have hdividend : a ≠ 0 := by
      rintro rfl
      rw [Nat.cast_zero, zero_mul, abs_nonpos_iff, sub_zero] at hm
      rw [hquotient, hm, zero_div] at hp'
      exact hp'.false
    obtain ⟨hlow, hhigh⟩ := bounds_of_near hdividend ha hm
    have hfrom : ((2 : Nat) : ℚ) ^ (-66 : Int) ≤ p / q := by
      rw [hquotient, le_div_iff₀ (by linarith)]
      norm_num at hlow hdivisor' ⊢
      linarith
    have hto : (p / q : ℚ) < ((2 : Nat) : ℚ) ^ (67 : Int) := by
      rw [hquotient, div_lt_iff₀ (by linarith)]
      norm_num at hhigh hdivisor ⊢
      linarith
    have hlog := (Int.zpow_le_iff_le_log one_lt_two hp').1 hfrom
    have hlog' := (Int.lt_zpow_iff_log_lt one_lt_two hp').1 hto
    omega
  obtain ⟨k, f, hvalue, hk⟩ := near_ofQuotient hq hrange
  refine ⟨k, f, hdiv ▸ hvalue, quotient_near (Nat.cast_nonneg a) ?_ hm hn (hquotient ▸ hk)⟩
  exact_mod_cast Nat.pos_of_ne_zero hne

end Double

end CodeReview
