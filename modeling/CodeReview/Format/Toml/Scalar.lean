import CodeReview.Calendar
import CodeReview.Number.Decimal

/-!
# Scalars of TOML

Readers for the values of TOML that hold no other values: strings of four kinds, numbers, times.
Each reader takes the text from where the value begins and answers with the value and the rest, or
fails.
-/

namespace CodeReview.Toml

/-- Whether a character is a blank inside a line. -/
def isSpace (c : Char) : Bool :=
  c = ' ' || c = '\t'

/-- The rest after blanks. -/
def skipSpace (cs : List Char) : List Char :=
  cs.dropWhile isSpace

/-- Whether a character may stand in a comment or a string: a tab, or no control character. -/
def isPlain (c : Char) : Bool :=
  c = '\t' || (0x20 ≤ c.toNat && c.toNat ≠ 0x7F)

/-- The rest after the end of a line. -/
def newline? : List Char → Option (List Char)
  | '\n' :: rest => some rest
  | '\r' :: '\n' :: rest => some rest
  | _ => none

/-- The rest after a comment, if there is one, up to the end of its line. -/
def skipComment : List Char → List Char
  | '#' :: rest => rest.dropWhile isPlain
  | cs => cs

/-! ### Strings -/

/-- A character by its code, written with that many hexadecimal digits. -/
def codeEscape (digits : Nat) (cs : List Char) : Option (Char × List Char) := do
  let code := cs.take digits
  if code.length ≠ digits then none
  let n ← readDigits? hexValue? 16 code
  if n < 0xD800 ∨ (0xDFFF < n ∧ n < 0x110000) then some (Char.ofNat n, cs.drop digits) else none

/-- A character after a backslash. -/
def escape : List Char → Option (Char × List Char)
  | 'b' :: rest => some ('\x08', rest)
  | 't' :: rest => some ('\t', rest)
  | 'n' :: rest => some ('\n', rest)
  | 'f' :: rest => some ('\x0c', rest)
  | 'r' :: rest => some ('\r', rest)
  | '"' :: rest => some ('"', rest)
  | '\\' :: rest => some ('\\', rest)
  | 'u' :: rest => codeEscape 4 rest
  | 'U' :: rest => codeEscape 8 rest
  | _ => none

/-- A string up to its closing quote; `fuel` bounds the number of characters. -/
def basicString : Nat → List Char → Option (List Char × List Char)
  | 0, _ => none
  | _ + 1, '"' :: rest => some ([], rest)
  | fuel + 1, '\\' :: rest => do
    let (c, rest) ← escape rest
    let (s, rest) ← basicString fuel rest
    some (c :: s, rest)
  | fuel + 1, c :: rest =>
    if isPlain c then (basicString fuel rest).map fun r => (c :: r.1, r.2) else none
  | _ + 1, [] => none

/-- A string without escapes up to its closing quote. -/
def literalString : List Char → Option (List Char × List Char)
  | '\'' :: rest => some ([], rest)
  | c :: rest => if isPlain c then (literalString rest).map fun r => (c :: r.1, r.2) else none
  | [] => none

/-- The rest after blanks and ends of lines. -/
def skipBlankLines : List Char → List Char
  | '\r' :: '\n' :: rest => skipBlankLines rest
  | c :: rest => if isSpace c || c = '\n' then skipBlankLines rest else c :: rest
  | [] => []

/-- The rest after a backslash that ends its line, and after the blank lines and blanks behind it. -/
def lineJoint? (cs : List Char) : Option (List Char) :=
  (newline? (skipSpace cs)).map skipBlankLines

/-- The end of a string over several lines that is closed by three times `q`; at most two more of
them come before and belong to the string. -/
def closing? (q : Char) (cs : List Char) : Option (List Char × List Char) :=
  let run := (cs.takeWhile (· = q)).length
  if run < 3 then none
  else
    let inner := min (run - 3) 2
    some (List.replicate inner q, cs.drop (inner + 3))

/-- A string over several lines, after its opening quotes and the first end of line; `fuel` bounds
the number of characters. -/
def basicLines : Nat → List Char → Option (List Char × List Char)
  | 0, _ => none
  | fuel + 1, cs =>
    match closing? '"' cs with
    | some r => some r
    | none =>
      match cs with
      | '\\' :: rest =>
        match lineJoint? rest with
        | some rest => basicLines fuel rest
        | none => do
          let (c, rest) ← escape rest
          let (s, rest) ← basicLines fuel rest
          some (c :: s, rest)
      | '\r' :: '\n' :: rest => (basicLines fuel rest).map fun r => ('\n' :: r.1, r.2)
      | c :: rest =>
        if isPlain c || c = '\n' then (basicLines fuel rest).map fun r => (c :: r.1, r.2) else none
      | [] => none

/-- A string over several lines without escapes; `fuel` bounds the number of characters. -/
def literalLines : Nat → List Char → Option (List Char × List Char)
  | 0, _ => none
  | fuel + 1, cs =>
    match closing? '\'' cs with
    | some r => some r
    | none =>
      match cs with
      | '\r' :: '\n' :: rest => (literalLines fuel rest).map fun r => ('\n' :: r.1, r.2)
      | c :: rest =>
        if isPlain c || c = '\n' then (literalLines fuel rest).map fun r => (c :: r.1, r.2)
        else none
      | [] => none

/-- The rest after an end of line, if there is one. -/
def skipNewline (cs : List Char) : List Char :=
  (newline? cs).getD cs

/-- A string of any kind. -/
def readString : List Char → Option (List Char × List Char)
  | '"' :: '"' :: '"' :: rest => basicLines (rest.length + 1) (skipNewline rest)
  | '"' :: rest => basicString (rest.length + 1) rest
  | '\'' :: '\'' :: '\'' :: rest => literalLines (rest.length + 1) (skipNewline rest)
  | '\'' :: rest => literalString rest
  | _ => none

/-! ### Numbers -/

/-- Digits with single underscores between them; the first character is a digit. -/
def readDigits (digit : Char → Bool) : List Char → Option (List Char × List Char)
  | c :: '_' :: d :: rest =>
    if !digit c then none
    else if digit d then (readDigits digit (d :: rest)).map fun r => (c :: r.1, r.2)
    else none
  | c :: d :: rest =>
    if !digit c then none
    else if digit d then (readDigits digit (d :: rest)).map fun r => (c :: r.1, r.2)
    else some ([c], d :: rest)
  | [c] => if digit c then some ([c], []) else none
  | [] => none

/-- A sign, if there is one: whether it is a minus. -/
def readSign : List Char → Bool × List Char
  | '-' :: rest => (true, rest)
  | '+' :: rest => (false, rest)
  | cs => (false, cs)

/-- Decimal digits without a zero in front. -/
def readDecimal : List Char → Option (List Char × List Char)
  | '0' :: rest => some (['0'], rest)
  | cs => readDigits isDigit cs

/-- Whether an integer fits in 64 bits with sign. -/
def fitsInteger (i : Int) : Bool :=
  Int64.minValue.toInt ≤ i && i ≤ Int64.maxValue.toInt

/-- Digits of a base after its letter. -/
def readBased (value? : Char → Option Nat) (base : Nat) (cs : List Char) : Option (Int × List Char) := do
  let isDigit := fun c => (value? c).any (· < base)
  let (ds, rest) ← readDigits isDigit cs
  let n ← readDigits? value? base ds
  if fitsInteger n then some (n, rest) else none

def readInteger : List Char → Option (Int × List Char)
  | '0' :: 'x' :: rest => readBased hexValue? 16 rest
  | '0' :: 'o' :: rest => readBased digitValue? 8 rest
  | '0' :: 'b' :: rest => readBased digitValue? 2 rest
  | cs => do
    let (negative, cs) := readSign cs
    let (ds, rest) ← readDecimal cs
    let n : Int := decimalValue ds
    let i := if negative then -n else n
    if fitsInteger i then some (i, rest) else none

def readExponent : List Char → Option (Option Int × List Char)
  | [] => some (none, [])
  | c :: rest =>
    if c = 'e' ∨ c = 'E' then do
      let (negative, rest) := readSign rest
      let (ds, rest) ← readDigits isDigit rest
      let n : Int := decimalValue ds
      some (some (if negative then -n else n), rest)
    else some (none, c :: rest)

/-- A number with a fraction or an exponent.  It may not be too large for a binary number of 64
bits. -/
def readFloat (cs : List Char) : Option (Unit × List Char) := do
  let (negative, cs) := readSign cs
  let (whole, cs) ← readDecimal cs
  let (fraction, cs) ← match cs with
    | '.' :: rest => readDigits isDigit rest
    | _ => some ([], cs)
  let (exponent, cs) ← readExponent cs
  if fraction = [] && exponent.isNone then none
  if (Numeral.mk negative whole fraction exponent).exceedsRange then none
  some ((), cs)

/-- A number that is infinite or none. -/
def readSpecial (cs : List Char) : Option (Unit × List Char) :=
  match (readSign cs).2 with
  | 'i' :: 'n' :: 'f' :: rest => some ((), rest)
  | 'n' :: 'a' :: 'n' :: rest => some ((), rest)
  | _ => none

/-! ### Times -/

/-- Exactly that many digits. -/
def fixedDigits (count : Nat) (cs : List Char) : Option (Nat × List Char) :=
  let ds := cs.take count
  if ds.length = count && ds.all isDigit then some (decimalValue ds, cs.drop count) else none

/-- The rest after a character. -/
def expect (c : Char) : List Char → Option (List Char)
  | [] => none
  | d :: rest => if d = c then some rest else none

def readDate (cs : List Char) : Option (Unit × List Char) := do
  let (year, cs) ← fixedDigits 4 cs
  let cs ← expect '-' cs
  let (month, cs) ← fixedDigits 2 cs
  let cs ← expect '-' cs
  let (day, cs) ← fixedDigits 2 cs
  if (Date.mk year month day).isValid then some ((), cs) else none

/-- Digits of a second behind a point, if there is one. -/
def readSecondFraction : List Char → Option (Unit × List Char)
  | '.' :: rest => if rest.head?.any isDigit then some ((), rest.dropWhile isDigit) else none
  | cs => some ((), cs)

/-- A time of day. -/
def readTime (cs : List Char) : Option (Unit × List Char) := do
  let (hour, cs) ← fixedDigits 2 cs
  let cs ← expect ':' cs
  let (minute, cs) ← fixedDigits 2 cs
  let cs ← expect ':' cs
  let (second, cs) ← fixedDigits 2 cs
  if hour < 24 && minute < 60 && second ≤ 60 then readSecondFraction cs else none

/-- An offset from universal time, if there is one. -/
def readOffset : List Char → Option (Unit × List Char)
  | [] => some ((), [])
  | c :: cs =>
    if c = 'Z' ∨ c = 'z' then some ((), cs)
    else if c = '+' ∨ c = '-' then do
      let (hour, cs) ← fixedDigits 2 cs
      let cs ← expect ':' cs
      let (minute, cs) ← fixedDigits 2 cs
      if hour < 24 && minute < 60 then some ((), cs) else none
    else some ((), c :: cs)

/-- What may follow a date: a delimiter and a time, and an offset after it. -/
def readTimeOfDate (cs : List Char) : Option (Unit × List Char) :=
  match cs with
  | [] => some ((), [])
  | c :: rest =>
    if c = 'T' ∨ c = 't' ∨ c = ' ' then
      match readTime rest with
      | some (_, rest) => readOffset rest
      | none => some ((), cs)
    else some ((), cs)

def readDateTime (cs : List Char) : Option (Unit × List Char) :=
  match readDate cs with
  | some (_, rest) => readTimeOfDate rest
  | none => readTime cs

end CodeReview.Toml
