import CodeReview.Number.Binary
import Mathlib.Algebra.Order.Field.Power
import Mathlib.Algebra.Order.Ring.Rat
import Mathlib.Order.Monotone.Basic
import Mathlib.Tactic.Ring

/-!
# The total order of floating-point numbers

The total order of IEEE 754 has a place for every pattern (`Single.Before`).  Numbers come in their
order, a negative zero before the positive one.  What is no number comes before all of them if its
sign is negative and behind all of them if it is positive, and among themselves these patterns are
ordered by their fractions.  The place that a pattern has as a natural number is its place in this
order (`before_iff_orderKey_lt`).

The reason is that magnitudes, read as natural numbers, ascend with the numbers: a number is a
multiple of the smallest positive one, and a larger magnitude is a larger multiple
(`multiple_strictMono`).
-/

namespace CodeReview

namespace BinaryValue

/-- The number `± m * 2 ^ e`. -/
def rational (negative : Bool) (m : Nat) (e : Int) : ℚ :=
  (if negative then -1 else 1) * (m * 2 ^ e)

/-- The order of numbers, infinities included.  Both zeros are one number here, and what is no number
is neither less nor greater than anything. -/
def Less : BinaryValue → BinaryValue → Prop
  | .infinite s, .infinite t => s = true ∧ t = false
  | .infinite s, .finite _ _ _ => s = true
  | .finite _ _ _, .infinite t => t = false
  | .finite s m d, .finite t n e => rational s m d < rational t n e
  | .notANumber, _ => False
  | _, .notANumber => False

theorem Less.left_ne {v w : BinaryValue} (h : v.Less w) : v ≠ .notANumber := by
  rintro rfl
  exact h

theorem Less.right_ne {v w : BinaryValue} (h : v.Less w) : w ≠ .notANumber := by
  rintro rfl
  cases v <;> exact h

end BinaryValue

namespace BinaryFormat

variable {f : BinaryFormat} {m n b c : Nat}

/-! ## Magnitudes -/

/-- A magnitude as a multiple of the smallest positive number.  Infinity counts as the number that
would come next to the largest one. -/
def multiple (f : BinaryFormat) (magnitude : Nat) : Nat :=
  if magnitude / 2 ^ f.fractionBits = 0 then magnitude % 2 ^ f.fractionBits
  else (2 ^ f.fractionBits + magnitude % 2 ^ f.fractionBits) *
    2 ^ (magnitude / 2 ^ f.fractionBits - 1)

theorem multiple_lt (f : BinaryFormat) (m : Nat) :
    f.multiple m < 2 ^ f.fractionBits * 2 ^ (m / 2 ^ f.fractionBits) := by
  have hfraction : m % 2 ^ f.fractionBits < 2 ^ f.fractionBits := Nat.mod_lt _ (Nat.two_pow_pos _)
  unfold multiple
  split
  · next hzero => rwa [hzero, Nat.pow_zero, Nat.mul_one]
  · next hne =>
    calc (2 ^ f.fractionBits + m % 2 ^ f.fractionBits) * 2 ^ (m / 2 ^ f.fractionBits - 1)
        < (2 ^ f.fractionBits * 2) * 2 ^ (m / 2 ^ f.fractionBits - 1) :=
          Nat.mul_lt_mul_of_pos_right (by omega) (Nat.two_pow_pos _)
      _ = 2 ^ f.fractionBits * 2 ^ (m / 2 ^ f.fractionBits) := by
          rw [Nat.mul_assoc, Nat.mul_comm 2, Nat.two_pow_pred_mul_two (Nat.pos_of_ne_zero hne)]

theorem le_multiple (h : m / 2 ^ f.fractionBits ≠ 0) :
    2 ^ f.fractionBits * 2 ^ (m / 2 ^ f.fractionBits - 1) ≤ f.multiple m := by
  rw [multiple, if_neg h]
  exact Nat.mul_le_mul_right _ (Nat.le_add_right _ _)

/-- A larger magnitude is a larger multiple: in one binade by its fraction, and otherwise because
binades follow each other. -/
theorem multiple_strictMono (f : BinaryFormat) : StrictMono f.multiple := by
  intro m n h
  rcases (Nat.div_le_div_right (c := 2 ^ f.fractionBits) h.le).lt_or_eq with hlt | heq
  · calc f.multiple m < 2 ^ f.fractionBits * 2 ^ (m / 2 ^ f.fractionBits) := f.multiple_lt m
      _ ≤ 2 ^ f.fractionBits * 2 ^ (n / 2 ^ f.fractionBits - 1) :=
        Nat.mul_le_mul_left _ (Nat.pow_le_pow_right (by omega) (Nat.le_sub_one_of_lt hlt))
      _ ≤ f.multiple n := le_multiple (Nat.ne_zero_of_lt hlt)
  · have hfraction : m % 2 ^ f.fractionBits < n % 2 ^ f.fractionBits := by
      have hm := Nat.div_add_mod m (2 ^ f.fractionBits)
      have hn := Nat.div_add_mod n (2 ^ f.fractionBits)
      rw [heq] at hm
      omega
    unfold multiple
    rw [heq]
    split
    · exact hfraction
    · exact Nat.mul_lt_mul_of_pos_right (by omega) (Nat.two_pow_pos _)

theorem multiple_zero (f : BinaryFormat) : f.multiple 0 = 0 := by
  simp [multiple]

/-! ## Patterns of numbers -/

/-- A pattern as a multiple of the smallest positive number, with its sign. -/
def signed (f : BinaryFormat) (bits : Nat) : Int :=
  if f.signBit ≤ bits then -f.multiple (bits % f.signBit) else f.multiple (bits % f.signBit)

theorem decode_eq_notANumber_iff :
    f.decode b = .notANumber ↔ f.infinity < b % f.signBit := by
  unfold decode
  dsimp only
  split
  · next h => simp [h]
  · next h => split <;> [simp [h]; (split <;> simp [h])]

theorem decode_of_infinity (h : b % f.signBit = f.infinity) :
    f.decode b = .infinite (decide (f.signBit ≤ b)) := by
  simp [decode, h]

theorem decode_of_finite (h : b % f.signBit < f.infinity) :
    ∃ s m e, f.decode b = .finite s m e ∧
      BinaryValue.rational s m e = f.signed b * 2 ^ f.leastExponent := by
  have hsigned : ∀ (m : Nat) (e : Int),
      (m * 2 ^ e : ℚ) = f.multiple (b % f.signBit) * 2 ^ f.leastExponent →
      BinaryValue.rational (decide (f.signBit ≤ b)) m e = f.signed b * 2 ^ f.leastExponent := by
    intro m e hm
    rw [BinaryValue.rational, hm, signed]
    split <;> simp_all
  simp only [decode, if_neg h.not_gt, if_neg h.ne]
  by_cases hzero : b % f.signBit / 2 ^ f.fractionBits = 0
  · refine ⟨_, _, _, if_pos hzero, hsigned _ _ ?_⟩
    rw [multiple, if_pos hzero]
    rfl
  · refine ⟨_, _, _, if_neg hzero, hsigned _ _ ?_⟩
    rw [multiple, if_neg hzero, zpow_add₀ two_ne_zero, Nat.pow_eq, zpow_natCast]
    push_cast
    ring

theorem signed_of_infinity (h : b % f.signBit = f.infinity) :
    f.signed b =
      if f.signBit ≤ b then -(f.multiple f.infinity : Int) else f.multiple f.infinity := by
  rw [signed, h]

theorem signed_bounds (h : b % f.signBit < f.infinity) :
    -f.multiple f.infinity < f.signed b ∧ f.signed b < f.multiple f.infinity := by
  have hsmaller := f.multiple_strictMono h
  unfold signed
  split <;> omega

/-- Numbers are ordered as the multiples of the smallest positive one that they are. -/
theorem less_decode_iff (hinf : 0 < f.infinity) (hb : b % f.signBit ≤ f.infinity)
    (hc : c % f.signBit ≤ f.infinity) :
    (f.decode b).Less (f.decode c) ↔ f.signed b < f.signed c := by
  have hpos : 0 < f.multiple f.infinity := Nat.zero_lt_of_lt (f.multiple_strictMono hinf)
  rcases hb.lt_or_eq with hbfin | hbinf <;> rcases hc.lt_or_eq with hcfin | hcinf
  · obtain ⟨s, m, d, hdecode, hvalue⟩ := decode_of_finite hbfin
    obtain ⟨t, n, e, hdecode', hvalue'⟩ := decode_of_finite hcfin
    rw [hdecode, hdecode', BinaryValue.Less, hvalue, hvalue',
      mul_lt_mul_iff_left₀ (zpow_pos two_pos _), Int.cast_lt]
  · obtain ⟨s, m, d, hdecode, -⟩ := decode_of_finite hbfin
    obtain ⟨hlow, hhigh⟩ := signed_bounds hbfin
    rw [hdecode, decode_of_infinity hcinf, BinaryValue.Less, decide_eq_false_iff_not,
      signed_of_infinity hcinf]
    split <;> omega
  · obtain ⟨t, n, e, hdecode, -⟩ := decode_of_finite hcfin
    obtain ⟨hlow, hhigh⟩ := signed_bounds hcfin
    rw [hdecode, decode_of_infinity hbinf, BinaryValue.Less, decide_eq_true_iff,
      signed_of_infinity hbinf]
    split <;> omega
  · rw [decode_of_infinity hbinf, decode_of_infinity hcinf, BinaryValue.Less, decide_eq_true_iff,
      decide_eq_false_iff_not, signed_of_infinity hbinf, signed_of_infinity hcinf]
    split <;> split <;> omega

end BinaryFormat

namespace Single

variable {x y : Single}

/-! ## The order of patterns -/

def negative (x : Single) : Bool :=
  decide (format.signBit ≤ x.bits.toNat)

/-- The fraction of a pattern.  Where it denotes no number, the leading bit of the fraction says that
the pattern is quiet, and the others are its payload. -/
def fraction (x : Single) : Nat :=
  x.bits.toNat % 2 ^ format.fractionBits

/-- Whether a pattern denotes no number and has a certain sign. -/
def IsNaN (x : Single) (negative : Bool) : Prop :=
  x.value = .notANumber ∧ x.negative = negative

/-- The total order of IEEE 754: numbers in their order, a negative zero before the positive one, and
what is no number before or behind them all, by its sign.  Among themselves, patterns that denote no
number ascend with their fractions if they are positive and descend if they are negative. -/
inductive Before (x y : Single) : Prop
  | numbers (h : x.value.Less y.value)
  | zeros (hx : x.bits = 0x80000000) (hy : y.bits = 0)
  | first (hx : x.IsNaN true) (hy : ¬ y.IsNaN true)
  | last (hx : ¬ x.IsNaN false) (hy : y.IsNaN false)
  | descending (hx : x.IsNaN true) (hy : y.IsNaN true) (h : y.fraction < x.fraction)
  | ascending (hx : x.IsNaN false) (hy : y.IsNaN false) (h : x.fraction < y.fraction)

theorem signBit_eq : format.signBit = 2147483648 :=
  rfl

theorem infinity_eq : format.infinity = 2139095040 :=
  rfl

theorem orderKey_eq (x : Single) :
    x.orderKey = if x.bits.toNat < 2147483648 then x.bits.toNat + 2147483648
      else 4294967295 - x.bits.toNat :=
  rfl

theorem fraction_eq (x : Single) : x.fraction = x.bits.toNat % 8388608 :=
  rfl

theorem isNaN_true_iff : x.IsNaN true ↔
    2139095040 < x.bits.toNat % 2147483648 ∧ 2147483648 ≤ x.bits.toNat := by
  rw [IsNaN, value, BinaryFormat.decode_eq_notANumber_iff, negative, decide_eq_true_iff, signBit_eq,
    infinity_eq]

theorem isNaN_false_iff : x.IsNaN false ↔
    2139095040 < x.bits.toNat % 2147483648 ∧ x.bits.toNat < 2147483648 := by
  rw [IsNaN, value, BinaryFormat.decode_eq_notANumber_iff, negative, decide_eq_false_iff_not,
    not_le, signBit_eq, infinity_eq]

theorem value_ne_notANumber_iff :
    x.value ≠ .notANumber ↔ x.bits.toNat % 2147483648 ≤ 2139095040 := by
  rw [value, ne_eq, BinaryFormat.decode_eq_notANumber_iff, signBit_eq, infinity_eq, not_lt]

/-! ## Places -/

/-- The places of numbers ascend with the numbers, but for the two zeros. -/
theorem less_iff_orderKey_lt (hx : x.bits.toNat % 2147483648 ≤ 2139095040)
    (hy : y.bits.toNat % 2147483648 ≤ 2139095040) :
    x.value.Less y.value ↔
      x.orderKey < y.orderKey ∧ ¬ (x.bits.toNat = 2147483648 ∧ y.bits.toNat = 0) := by
  have hxlt := x.bits.toNat_lt
  have hylt := y.bits.toNat_lt
  have hmono : ∀ m n, format.multiple m < format.multiple n ↔ m < n := fun _ _ =>
    format.multiple_strictMono.lt_iff_lt
  have hzero : ∀ m, 0 < format.multiple m ↔ 0 < m := fun m => by
    rw [← hmono 0 m, BinaryFormat.multiple_zero]
  have hless := hmono (x.bits.toNat % 2147483648) (y.bits.toNat % 2147483648)
  have hgreater := hmono (y.bits.toNat % 2147483648) (x.bits.toNat % 2147483648)
  have hxzero := hzero (x.bits.toNat % 2147483648)
  have hyzero := hzero (y.bits.toNat % 2147483648)
  rw [value, value, BinaryFormat.less_decode_iff (by decide) hx hy, BinaryFormat.signed,
    BinaryFormat.signed, orderKey_eq, orderKey_eq, signBit_eq]
  split <;> split <;> split <;> split <;> omega

theorem Before.orderKey_lt (h : x.Before y) : x.orderKey < y.orderKey := by
  have hxlt := x.bits.toNat_lt
  have hylt := y.bits.toNat_lt
  cases h with
  | numbers h =>
    have hx := value_ne_notANumber_iff.1 h.left_ne
    have hy := value_ne_notANumber_iff.1 h.right_ne
    exact ((less_iff_orderKey_lt hx hy).1 h).1
  | zeros hx hy =>
    rw [orderKey_eq, orderKey_eq, hx, hy]
    decide
  | first hx hy =>
    rw [isNaN_true_iff] at hx hy
    rw [orderKey_eq, orderKey_eq]
    split <;> split <;> omega
  | last hx hy =>
    rw [isNaN_false_iff] at hx hy
    rw [orderKey_eq, orderKey_eq]
    split <;> split <;> omega
  | descending hx hy h =>
    rw [isNaN_true_iff] at hx hy
    rw [fraction_eq, fraction_eq] at h
    rw [orderKey_eq, orderKey_eq]
    split <;> split <;> omega
  | ascending hx hy h =>
    rw [isNaN_false_iff] at hx hy
    rw [fraction_eq, fraction_eq] at h
    rw [orderKey_eq, orderKey_eq]
    split <;> split <;> omega

theorem before_of_orderKey_lt (h : x.orderKey < y.orderKey) : x.Before y := by
  have hxlt := x.bits.toNat_lt
  have hylt := y.bits.toNat_lt
  rw [orderKey_eq, orderKey_eq] at h
  by_cases hxneg : x.IsNaN true
  · by_cases hyneg : y.IsNaN true
    · refine .descending hxneg hyneg ?_
      rw [isNaN_true_iff] at hxneg hyneg
      rw [fraction_eq, fraction_eq]
      split at h <;> split at h <;> omega
    · exact .first hxneg hyneg
  by_cases hypos : y.IsNaN false
  · by_cases hxpos : x.IsNaN false
    · refine .ascending hxpos hypos ?_
      rw [isNaN_false_iff] at hxpos hypos
      rw [fraction_eq, fraction_eq]
      split at h <;> split at h <;> omega
    · exact .last hxpos hypos
  -- what is no number but was not met so far lies on the wrong side of the other pattern
  obtain ⟨hx, hy⟩ : x.bits.toNat % 2147483648 ≤ 2139095040 ∧
      y.bits.toNat % 2147483648 ≤ 2139095040 := by
    rw [isNaN_true_iff] at hxneg
    rw [isNaN_false_iff] at hypos
    split at h <;> split at h <;> omega
  by_cases hzeros : x.bits.toNat = 2147483648 ∧ y.bits.toNat = 0
  · exact .zeros (UInt32.toNat_inj.1 hzeros.1) (UInt32.toNat_inj.1 hzeros.2)
  · rw [← orderKey_eq, ← orderKey_eq] at h
    exact .numbers ((less_iff_orderKey_lt hx hy).2 ⟨h, hzeros⟩)

/-- The place of a pattern is its place in the total order. -/
theorem before_iff_orderKey_lt : x.Before y ↔ x.orderKey < y.orderKey :=
  ⟨Before.orderKey_lt, before_of_orderKey_lt⟩

instance (x y : Single) : Decidable (x.Before y) :=
  decidable_of_iff _ before_iff_orderKey_lt.symm

/-- Patterns of which neither comes before the other are the same. -/
theorem orderKey_injective : Function.Injective orderKey := by
  intro x y h
  have hxlt := x.bits.toNat_lt
  have hylt := y.bits.toNat_lt
  rw [orderKey_eq, orderKey_eq] at h
  have hbits : x.bits.toNat = y.bits.toNat := by
    split at h <;> split at h <;> omega
  exact congrArg Single.mk (UInt32.toNat_inj.1 hbits)

end Single

end CodeReview
