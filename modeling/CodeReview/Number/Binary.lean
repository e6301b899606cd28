/-!
# Binary floating point

Binary interchange formats as bit patterns.  A pattern denotes a signed infinity, no number, or a
finite number `m * 2 ^ e`; every arithmetic operation is the exact one on what its operands denote,
followed by one rounding to the nearest pattern, a tie going to the even one.

The rounding works on exact quotients of natural numbers.  It uses that the patterns of the
non-negative numbers of a format, read as natural numbers, ascend with the numbers: stepping to the
next quantum carries from the fraction into the exponent by itself.
-/

namespace CodeReview

/-- A binary format: how many bits its fraction and its exponent have. -/
structure BinaryFormat where
  fractionBits : Nat
  exponentBits : Nat
deriving DecidableEq, Repr

/-- The number that a pattern denotes: none, an infinity, or `significand * 2 ^ exponent`, each but
the first with a sign. -/
inductive BinaryValue where
  | notANumber
  | infinite (negative : Bool)
  | finite (negative : Bool) (significand : Nat) (exponent : Int)
deriving DecidableEq, Repr

namespace BinaryFormat

/-- The pattern of the sign bit alone. -/
def signBit (f : BinaryFormat) : Nat :=
  Nat.pow 2 (f.fractionBits + f.exponentBits)

/-- The pattern of positive infinity. -/
def infinity (f : BinaryFormat) : Nat :=
  (Nat.pow 2 f.exponentBits - 1) * Nat.pow 2 f.fractionBits

/-- The quiet pattern that denotes no number. -/
def quietNaN (f : BinaryFormat) : Nat :=
  f.infinity + Nat.pow 2 (f.fractionBits - 1)

/-- The exponent of the smallest positive number, which is a power of two. -/
def leastExponent (f : BinaryFormat) : Int :=
  2 - Nat.pow 2 (f.exponentBits - 1) - f.fractionBits

/-- The number that a pattern denotes. -/
def decode (f : BinaryFormat) (bits : Nat) : BinaryValue :=
  let negative := decide (f.signBit ≤ bits)
  let magnitude := bits % f.signBit
  let fraction := magnitude % Nat.pow 2 f.fractionBits
  let exponent := magnitude / Nat.pow 2 f.fractionBits
  if f.infinity < magnitude then .notANumber
  else if magnitude = f.infinity then .infinite negative
  else if exponent = 0 then .finite negative fraction f.leastExponent
  else
    .finite negative (Nat.pow 2 f.fractionBits + fraction) (f.leastExponent + (exponent - 1 : Nat))

/-- A quotient rounded to the nearest whole number, a tie to the even one. -/
def roundQuotient (num den : Nat) : Nat :=
  let q := num / den
  let r := 2 * (num % den)
  if den < r ∨ (r = den ∧ q % 2 = 1) then q + 1 else q

/-- The exponent of the largest power of two that is not above `num / den`. -/
def floorLog (num den : Nat) : Int :=
  let guess : Int := (num.log2 : Int) - den.log2
  let fits :=
    if 0 ≤ guess then den * Nat.pow 2 guess.toNat ≤ num
    else den ≤ num * Nat.pow 2 (-guess).toNat
  if fits then guess else guess - 1

/-- The pattern nearest to the quotient `num / den` of positive numbers, without sign. -/
def roundMagnitude (f : BinaryFormat) (num den : Nat) : Nat :=
  if num = 0 then 0
  else
    let quantum := max f.leastExponent (floorLog num den - f.fractionBits)
    let steps :=
      if 0 ≤ quantum then roundQuotient num (den * Nat.pow 2 quantum.toNat)
      else roundQuotient (num * Nat.pow 2 (-quantum).toNat) den
    min f.infinity ((quantum - f.leastExponent).toNat * Nat.pow 2 f.fractionBits + steps)

/-- Put a sign on a pattern. -/
def withSign (f : BinaryFormat) (negative : Bool) (magnitude : Nat) : Nat :=
  if negative then f.signBit + magnitude else magnitude

/-- The pattern nearest to `± num / den`. -/
def round (f : BinaryFormat) (negative : Bool) (num den : Nat) : Nat :=
  f.withSign negative (f.roundMagnitude num den)

/-- A number `m * 2 ^ e` as a quotient of natural numbers. -/
def scaled (m : Nat) (e : Int) : Nat × Nat :=
  if 0 ≤ e then (m * Nat.pow 2 e.toNat, 1) else (m, Nat.pow 2 (-e).toNat)

/-- The pattern of a number. -/
def encode (f : BinaryFormat) : BinaryValue → Nat
  | .notANumber => f.quietNaN
  | .infinite negative => f.withSign negative f.infinity
  | .finite negative m e => f.round negative (scaled m e).1 (scaled m e).2

end BinaryFormat

namespace BinaryValue

def isInfinite : BinaryValue → Bool
  | .infinite _ => true
  | _ => false

/-- A finite number as an integer multiple of `2 ^ e`, for an `e` that is not above its exponent. -/
def multipleOf (negative : Bool) (m : Nat) (exponent e : Int) : Int :=
  let k : Int := (m * Nat.pow 2 (exponent - e).toNat : Nat)
  if negative then -k else k

/-- The exact sum.  A zero sum is positive unless both zeros are negative. -/
def add : BinaryValue → BinaryValue → BinaryValue
  | .notANumber, _ => .notANumber
  | _, .notANumber => .notANumber
  | .infinite s, .infinite t => if s = t then .infinite s else .notANumber
  | .infinite s, .finite .. => .infinite s
  | .finite .., .infinite t => .infinite t
  | .finite s m d, .finite t n e =>
    let low := min d e
    let sum := multipleOf s m d low + multipleOf t n e low
    if sum = 0 then .finite (s && t) 0 low else .finite (sum < 0) sum.natAbs low

end BinaryValue

/-- A 32-bit floating-point number by its pattern. -/
structure Single where
  bits : UInt32
deriving DecidableEq, Repr, Inhabited

/-- A 64-bit floating-point number by its pattern. -/
structure Double where
  bits : UInt64
deriving DecidableEq, Repr, Inhabited

namespace Double

/-- The 64-bit format. -/
def format : BinaryFormat := ⟨52, 11⟩

/-- The number that a pattern denotes. -/
def value (x : Double) : BinaryValue :=
  format.decode x.bits.toNat

/-- The nearest number. -/
def ofValue (v : BinaryValue) : Double :=
  ⟨UInt64.ofNat (format.encode v)⟩

/-- The number nearest to `± num / den`. -/
def ofQuotient (negative : Bool) (num den : Nat) : Double :=
  ⟨UInt64.ofNat (format.round negative num den)⟩

/-- The number nearest to a natural number. -/
def ofNat (n : Nat) : Double :=
  ofQuotient false n 1

/-- Positive zero. -/
def zero : Double := ⟨0⟩

/-- One. -/
def one : Double := ⟨0x3ff0000000000000⟩

/-- The rounded sum. -/
def add (x y : Double) : Double :=
  ofValue (x.value.add y.value)

/-- The rounded quotient by a finite number that is not zero; an infinity stays infinite, and
everything else gives no number. -/
def div (x y : Double) : Double :=
  match x.value, y.value with
  | .infinite s, .finite t _ _ => ofValue (.infinite (s != t))
  | .finite s m d, .finite t n e =>
    if n = 0 then ofValue .notANumber
    else
      let p := BinaryFormat.scaled m (d - e)
      ofQuotient (s != t) p.1 (p.2 * n)
  | _, _ => ofValue .notANumber

/-- Whether the pattern denotes no number. -/
def isNaN (x : Double) : Bool :=
  x.value = .notANumber

/-- Whether the pattern denotes an infinity. -/
def isInfinite (x : Double) : Bool :=
  x.value.isInfinite

end Double

namespace Single

/-- The 32-bit format. -/
def format : BinaryFormat := ⟨23, 8⟩

/-- The number that a pattern denotes. -/
def value (x : Single) : BinaryValue :=
  format.decode x.bits.toNat

/-- The nearest number. -/
def ofValue (v : BinaryValue) : Single :=
  ⟨UInt32.ofNat (format.encode v)⟩

/-- The nearest 32-bit number. -/
def ofDouble (x : Double) : Single :=
  ofValue x.value

/-- The same number in 64 bits. -/
def toDouble (x : Single) : Double :=
  Double.ofValue x.value

/-- Whether the pattern denotes an infinity. -/
def isInfinite (x : Single) : Bool :=
  x.value.isInfinite

/-- Positive zero. -/
def zero : Single := ⟨0⟩

/-- One. -/
def one : Single := ⟨0x3f800000⟩

/-- The number clamped into the range from zero to one.  What is no number becomes zero; a negative
zero lies in the range and stays. -/
def clampUnit (x : Single) : Single :=
  match x.value with
  | .notANumber => zero
  | .infinite negative => if negative then zero else one
  | .finite negative m _ =>
    if negative then (if m = 0 then x else zero)
    else if one.bits < x.bits then one else x

/-- The place of a pattern in the total order of patterns: negative ones descend with their
magnitude, and come before the positive ones, which ascend. -/
def orderKey (x : Single) : Nat :=
  let signBit := Single.format.signBit
  if x.bits.toNat < signBit then x.bits.toNat + signBit else UInt32.size - 1 - x.bits.toNat

end Single

end CodeReview
