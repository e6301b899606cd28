import CodeReview.Number.Binary
import CodeReview.Text.Characters

/-!
# Decimal numerals

A decimal numeral as it is written: sign, whole digits, fraction digits and exponent.  It denotes a
natural number when it has neither sign, fraction nor exponent.  As a binary number it is read as the
one of a format that is nearest to what it denotes, by one rounding of the exact number.
-/

namespace CodeReview

/-- A decimal numeral.  A fraction that is present has at least one digit. -/
structure Numeral where
  negative : Bool
  whole : List Char
  fraction : List Char
  exponent : Option Int
deriving DecidableEq, Repr, Inhabited

namespace Numeral

/-- The numeral of a natural number. -/
def ofNat (n : Nat) : Numeral :=
  ⟨false, decimalDigits n, [], none⟩

/-- The numeral of an integer. -/
def ofInt (i : Int) : Numeral :=
  ⟨i < 0, decimalDigits i.natAbs, [], none⟩

/-- The text of a numeral. -/
def render (n : Numeral) : String :=
  (if n.negative then "-" else "") ++ String.ofList n.whole ++
    (if n.fraction = [] then "" else "." ++ String.ofList n.fraction) ++
    (match n.exponent with
      | some e => "e" ++ decimalInt e
      | none => "")

/-- Whether a numeral is written as a whole number. -/
def isWhole (n : Numeral) : Bool :=
  n.fraction = [] && n.exponent.isNone

/-- The natural number that a numeral denotes, if it is written as one and fits in 64 bits. -/
def word? (n : Numeral) : Option Nat :=
  if n.isWhole && !n.negative && decimalValue n.whole ≤ maxWord then some (decimalValue n.whole)
  else none

/-- The pattern nearest to what a numeral denotes, in a binary format.  The number lies between two
powers of ten, and `10 ^ n` is farther from one than `2 ^ (3 * n)`, so the place of its first digit
tells the numbers that are far above or far below the format without rounding them. -/
def pattern (f : BinaryFormat) (n : Numeral) : Nat :=
  let digits := (n.whole ++ n.fraction).dropWhile (· = '0')
  let exponent := n.exponent.getD 0 - n.fraction.length
  let places := digits.length + exponent
  f.withSign n.negative <|
    if digits.isEmpty || 3 * places < f.leastExponent - 1 then 0
    else if Nat.pow 2 (f.exponentBits - 1) ≤ 3 * (places - 1) then f.infinity
    else if 0 ≤ exponent then f.roundMagnitude (decimalValue digits * Nat.pow 10 exponent.toNat) 1
    else f.roundMagnitude (decimalValue digits) (Nat.pow 10 (-exponent).toNat)

/-- The 64-bit number nearest to what a numeral denotes. -/
def toDouble (n : Numeral) : Double :=
  ⟨UInt64.ofNat (n.pattern Double.format)⟩

/-- The 32-bit number nearest to what a numeral denotes. -/
def toSingle (n : Numeral) : Single :=
  ⟨UInt32.ofNat (n.pattern Single.format)⟩

/-- Whether a numeral that is not negative denotes a number that rounds to infinity. -/
def exceedsRange (n : Numeral) : Bool :=
  !n.negative && n.toDouble.isInfinite

end Numeral

end CodeReview
