/-!
# Blank characters, letters and digits

A character is blank when it has the Unicode property `White_Space`.  Trimming removes blank
characters at both ends of a text and nothing inside it.

Names are read without regard to the case of ASCII letters; letters outside ASCII have no case here.
Digits are the ten ASCII digits only.  Numbers are written in decimal, in decimal with leading zeros up
to a width, and in hexadecimal with lower-case letters.
-/

namespace CodeReview

/-! ## Blank characters -/

/-- The code points with the property `White_Space`, as closed ranges. -/
def blankRanges : List (Nat × Nat) :=
  [(0x09, 0x0D), (0x20, 0x20), (0x85, 0x85), (0xA0, 0xA0), (0x1680, 0x1680), (0x2000, 0x200A),
   (0x2028, 0x2029), (0x202F, 0x202F), (0x205F, 0x205F), (0x3000, 0x3000)]

def isBlank (c : Char) : Bool :=
  blankRanges.any fun r => r.1 ≤ c.toNat && c.toNat ≤ r.2

/-- A list of characters without the blank ones it starts with. -/
def trimLeft (cs : List Char) : List Char :=
  cs.dropWhile isBlank

/-- A list of characters without the blank ones at either end. -/
def trimChars (cs : List Char) : List Char :=
  (trimLeft (trimLeft cs).reverse).reverse

/-- A text without the blank characters at either end. -/
def trim (text : String) : String :=
  String.ofList (trimChars text.toList)

/-- Whether a text holds blank characters only. -/
def isBlankText (text : String) : Bool :=
  text.toList.all isBlank

/-! ## Letters -/

/-- The lower-case form of an ASCII letter; every other character is itself. -/
def lowerAscii (c : Char) : Char :=
  if 'A' ≤ c ∧ c ≤ 'Z' then Char.ofNat (c.toNat + 32) else c

def lowerAsciiText (text : String) : String :=
  String.ofList (text.toList.map lowerAscii)

/-! ## Reading digits -/

def digitValue? (c : Char) : Option Nat :=
  if '0' ≤ c ∧ c ≤ '9' then some (c.toNat - '0'.toNat) else none

def isDigit (c : Char) : Bool :=
  (digitValue? c).isSome

/-- The value of an ASCII hexadecimal digit, of either case. -/
def hexValue? (c : Char) : Option Nat :=
  if '0' ≤ c ∧ c ≤ '9' then some (c.toNat - '0'.toNat)
  else if 'a' ≤ c ∧ c ≤ 'f' then some (c.toNat - 'a'.toNat + 10)
  else if 'A' ≤ c ∧ c ≤ 'F' then some (c.toNat - 'A'.toNat + 10)
  else none

/-- The bytes that are written as two hexadecimal digits each. -/
def readHexBytes? : List Char → Option (List UInt8)
  | [] => some []
  | a :: b :: rest => do
    some (UInt8.ofNat (16 * (← hexValue? a) + (← hexValue? b)) :: (← readHexBytes? rest))
  | _ => none

/-- The value of a sequence of digits in a base, most significant first, where each character must
be a digit of that base. -/
def readDigits? (value? : Char → Option Nat) (base : Nat) (cs : List Char) : Option Nat :=
  cs.foldlM (fun n c => do
    let d ← value? c
    if d < base then some (n * base + d) else none) 0

/-- The value of a sequence of decimal digits; characters that are no digits count as zero. -/
def decimalValue (cs : List Char) : Nat :=
  cs.foldl (fun n c => n * 10 + (digitValue? c).getD 0) 0

/-- The largest number that fits in 64 bits without sign. -/
def maxWord : Nat := UInt64.size - 1

/-- Read a whole number that fits in 64 bits: at least one digit, a plus sign allowed in front, and
nothing else. -/
def readWord? (cs : List Char) : Option Nat :=
  let digits := match cs with
    | '+' :: rest => rest
    | _ => cs
  if digits.isEmpty then none
  else match readDigits? digitValue? 10 digits with
    | some n => if n ≤ maxWord then some n else none
    | none => none

/-! ## Writing digits -/

def decimalDigits (n : Nat) : List Char :=
  Nat.toDigits 10 n

/-- A number in decimal. -/
def decimal (n : Nat) : String :=
  String.ofList (decimalDigits n)

/-- An integer in decimal, with a minus sign when negative. -/
def decimalInt (i : Int) : String :=
  if i < 0 then "-" ++ decimal i.natAbs else decimal i.natAbs

/-- Fill a sequence of digits with zeros in front up to a width; longer ones stay as they are. -/
def padZeros (width : Nat) (digits : List Char) : List Char :=
  List.replicate (width - digits.length) '0' ++ digits

/-- A number in decimal with at least `width` digits. -/
def paddedDecimal (width n : Nat) : String :=
  String.ofList (padZeros width (decimalDigits n))

/-- The digits of a number in hexadecimal, letters in lower case. -/
def hexDigits (n : Nat) : List Char :=
  Nat.toDigits 16 n

/-- A number in hexadecimal with at least `width` digits. -/
def paddedHex (width n : Nat) : String :=
  String.ofList (padZeros width (hexDigits n))

end CodeReview
