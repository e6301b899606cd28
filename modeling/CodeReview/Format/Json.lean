import CodeReview.Number.Decimal

/-!
# JSON

JSON values, their reader and their printer.  The reader accepts exactly the JSON grammar: one
value, blanks around it, nothing else.  It keeps numbers as they are written and objects with every
member in the order given, repeated names included; what to make of them is for the type that is
read.

A string may hold an escape that denotes no character (one half of a surrogate pair).  Such a string
has no value; it is read over where its value is not asked for.
-/

namespace CodeReview

/-- A JSON value.  A string without value is one with an escape that denotes no character. -/
inductive Json where
  | null
  | bool (b : Bool)
  | number (n : Numeral)
  | string (s : Option String)
  | array (items : List Json)
  | object (members : List (Option String × Json))
deriving Inhabited

namespace Json

def str (s : String) : Json :=
  .string (some s)

/-- A natural number. -/
def nat (n : Nat) : Json :=
  .number (Numeral.ofNat n)

/-- An integer. -/
def int (i : Int) : Json :=
  .number (Numeral.ofInt i)

/-- An object. -/
def obj (members : List (String × Json)) : Json :=
  .object (members.map fun m => (some m.1, m.2))

/-- A value that may be missing, `null` when it is. -/
def opt {α : Type} (f : α → Json) : Option α → Json
  | some a => f a
  | none => .null

/-- The values of a list. -/
def list {α : Type} (f : α → Json) (as : List α) : Json :=
  .array (as.map f)

/-- The member of that name, the last one if there are several. -/
def member? (j : Json) (name : String) : Option Json :=
  match j with
  | .object ms => (ms.reverse.find? fun m => m.1 = some name).map Prod.snd
  | _ => none

/-! ### Reading -/

/-- Blanks between tokens. -/
def isSpace (c : Char) : Bool :=
  c = ' ' || c = '\n' || c = '\t' || c = '\r'

/-- The rest of a text after blanks. -/
def skipSpace (cs : List Char) : List Char :=
  cs.dropWhile isSpace

/-- A part of a string: a character, or a code unit written as an escape. -/
inductive StringPart where
  | char (c : Char)
  | unit (n : Nat)

/-- The character that a one-letter escape denotes. -/
def shortEscape? : Char → Option Char
  | '"' => some '"'
  | '\\' => some '\\'
  | '/' => some '/'
  | 'b' => some '\x08'
  | 'f' => some '\x0c'
  | 'n' => some '\n'
  | 'r' => some '\r'
  | 't' => some '\t'
  | _ => none

/-- The parts of a string up to its closing quote, newest first, and the rest. -/
def stringParts (acc : List StringPart) : List Char → Option (List StringPart × List Char)
  | [] => none
  | '"' :: rest => some (acc, rest)
  | '\\' :: 'u' :: a :: b :: c :: d :: rest =>
    match readDigits? hexValue? 16 [a, b, c, d] with
    | some n => stringParts (.unit n :: acc) rest
    | none => none
  | '\\' :: e :: rest =>
    match shortEscape? e with
    | some c => stringParts (.char c :: acc) rest
    | none => none
  | c :: rest => if c.toNat < 0x20 then none else stringParts (.char c :: acc) rest

/-- Whether a code unit is the first half of a surrogate pair. -/
def isHighSurrogate (n : Nat) : Bool :=
  0xD800 ≤ n && n < 0xDC00

/-- Whether a code unit is the second half of a surrogate pair. -/
def isLowSurrogate (n : Nat) : Bool :=
  0xDC00 ≤ n && n < 0xE000

/-- The characters of a string, given its parts newest first; none if half of a pair stands
alone. -/
def assemble (acc : List Char) : List StringPart → Option (List Char)
  | [] => some acc
  | .char c :: rest => assemble (c :: acc) rest
  | .unit l :: .unit h :: rest =>
    if isLowSurrogate l then
      if isHighSurrogate h then
        assemble (Char.ofNat (0x10000 + (h - 0xD800) * 0x400 + (l - 0xDC00)) :: acc) rest
      else none
    else if isHighSurrogate l then none
    else assemble (Char.ofNat l :: acc) (.unit h :: rest)
  | .unit n :: rest =>
    if isLowSurrogate n || isHighSurrogate n then none else assemble (Char.ofNat n :: acc) rest

/-- A string after its opening quote. -/
def readString (cs : List Char) : Option (Option String × List Char) :=
  match stringParts [] cs with
  | some (parts, rest) => some ((assemble [] parts).map String.ofList, rest)
  | none => none

/-- The digits at the start of a text, at least one. -/
def readDigits (cs : List Char) : Option (List Char × List Char) :=
  match cs.takeWhile isDigit with
  | [] => none
  | ds => some (ds, cs.dropWhile isDigit)

/-- The fraction of a number, if one follows. -/
def readFraction : List Char → Option (List Char × List Char)
  | '.' :: rest => readDigits rest
  | cs => some ([], cs)

/-- The exponent of a number after its letter. -/
def readExponentDigits (cs : List Char) : Option (Int × List Char) :=
  let (negative, cs) := match cs with
    | '-' :: rest => (true, rest)
    | '+' :: rest => (false, rest)
    | _ => (false, cs)
  match readDigits cs with
  | some (ds, rest) => some (if negative then -(decimalValue ds : Int) else decimalValue ds, rest)
  | none => none

/-- The exponent of a number, if one follows. -/
def readExponent : List Char → Option (Option Int × List Char)
  | 'e' :: rest => (readExponentDigits rest).map fun r => (some r.1, r.2)
  | 'E' :: rest => (readExponentDigits rest).map fun r => (some r.1, r.2)
  | cs => some (none, cs)

/-- A number: a sign, digits without a leading zero, a fraction, an exponent. -/
def readNumber (cs : List Char) : Option (Numeral × List Char) := do
  let (negative, cs) := match cs with
    | '-' :: rest => (true, rest)
    | _ => (false, cs)
  let (whole, cs) ← readDigits cs
  if whole.head? = some '0' && 1 < whole.length then none
  let (fraction, cs) ← readFraction cs
  let (exponent, cs) ← readExponent cs
  pure (⟨negative, whole, fraction, exponent⟩, cs)

mutual

/-- A value at the start of a text; `fuel` bounds the number of tokens. -/
def readValue : Nat → List Char → Option (Json × List Char)
  | 0, _ => none
  | fuel + 1, cs =>
    match skipSpace cs with
    | 'n' :: 'u' :: 'l' :: 'l' :: rest => some (.null, rest)
    | 't' :: 'r' :: 'u' :: 'e' :: rest => some (.bool true, rest)
    | 'f' :: 'a' :: 'l' :: 's' :: 'e' :: rest => some (.bool false, rest)
    | '"' :: rest => (readString rest).map fun r => (.string r.1, r.2)
    | '[' :: rest =>
      match skipSpace rest with
      | ']' :: rest => some (.array [], rest)
      | rest => (readItems fuel rest).map fun r => (.array r.1, r.2)
    | '{' :: rest =>
      match skipSpace rest with
      | '}' :: rest => some (.object [], rest)
      | rest => (readMembers fuel rest).map fun r => (.object r.1, r.2)
    | rest => (readNumber rest).map fun r => (.number r.1, r.2)

/-- The items of an array up to its closing bracket, at least one. -/
def readItems : Nat → List Char → Option (List Json × List Char)
  | 0, _ => none
  | fuel + 1, cs =>
    match readValue fuel cs with
    | none => none
    | some (v, rest) =>
      match skipSpace rest with
      | ',' :: rest => (readItems fuel rest).map fun r => (v :: r.1, r.2)
      | ']' :: rest => some ([v], rest)
      | _ => none

/-- The members of an object up to its closing brace, at least one. -/
def readMembers : Nat → List Char → Option (List (Option String × Json) × List Char)
  | 0, _ => none
  | fuel + 1, cs =>
    match skipSpace cs with
    | '"' :: rest =>
      match readString rest with
      | none => none
      | some (name, rest) =>
        match skipSpace rest with
        | ':' :: rest =>
          match readValue fuel rest with
          | none => none
          | some (v, rest) =>
            match skipSpace rest with
            | ',' :: rest => (readMembers fuel rest).map fun r => ((name, v) :: r.1, r.2)
            | '}' :: rest => some ([(name, v)], rest)
            | _ => none
        | _ => none
    | _ => none

end

/-- Read a text that holds one value. -/
def parse? (text : String) : Option Json :=
  let cs := text.toList
  match readValue (2 * cs.length + 2) cs with
  | some (v, rest) => if (skipSpace rest).isEmpty then some v else none
  | none => none

/-! ### Printing -/

/-- A character inside quotes. -/
def escapeChar (c : Char) : List Char :=
  if c = '"' then ['\\', '"']
  else if c = '\\' then ['\\', '\\']
  else if c = '\n' then ['\\', 'n']
  else if c = '\r' then ['\\', 'r']
  else if c = '\t' then ['\\', 't']
  else if c = '\x08' then ['\\', 'b']
  else if c = '\x0c' then ['\\', 'f']
  else if c.toNat < 0x20 then '\\' :: 'u' :: padZeros 4 (hexDigits c.toNat)
  else [c]

/-- A string between quotes. -/
def renderString (s : String) : String :=
  String.ofList ('"' :: (s.toList.flatMap escapeChar ++ ['"']))

mutual

/-- The text of a value, without blanks. -/
def render : Json → String
  | .null => "null"
  | .bool b => if b then "true" else "false"
  | .number n => n.render
  | .string s => renderString (s.getD "")
  | .array items => "[" ++ ",".intercalate (renderItems items) ++ "]"
  | .object members => "\x7b" ++ ",".intercalate (renderMembers members) ++ "\x7d"

/-- The texts of the items of an array. -/
def renderItems : List Json → List String
  | [] => []
  | j :: js => render j :: renderItems js

/-- The texts of the members of an object. -/
def renderMembers : List (Option String × Json) → List String
  | [] => []
  | (name, j) :: ms => (renderString (name.getD "") ++ ":" ++ render j) :: renderMembers ms

end

/-! ### Changing texts -/

mutual

/-- A value with a function applied to every string in it, names of members included. -/
def mapTexts (f : String → String) : Json → Json
  | .string s => .string (s.map f)
  | .array items => .array (mapItemTexts f items)
  | .object members => .object (mapMemberTexts f members)
  | j => j

/-- The items of an array with a function applied to every string in them. -/
def mapItemTexts (f : String → String) : List Json → List Json
  | [] => []
  | j :: js => mapTexts f j :: mapItemTexts f js

/-- The members of an object with a function applied to every string in them. -/
def mapMemberTexts (f : String → String) :
    List (Option String × Json) → List (Option String × Json)
  | [] => []
  | (name, j) :: ms => (name.map f, mapTexts f j) :: mapMemberTexts f ms

end

end Json

end CodeReview
