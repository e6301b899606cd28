import CodeReview.Format.Toml.Scalar

/-!
# TOML

The reader of TOML documents.  A document is a sequence of lines: blank ones, comments, entries and
headers.  What makes it a document beyond its syntax are the rules about tables, and they hang on how
a table came to be:

* a table under a header is complete when the next header comes; a second header for it is an error;
* a table that was only passed through on the way to another one may get a header later;
* a table made by a dotted key grows by dotted keys only;
* an inline table is complete as it stands;
* a header in double brackets adds one more table to an array of tables, and later headers that pass
  through the array mean its last table.

Nothing is nested deeper than `maxDepth`.
-/

namespace CodeReview.Toml

/-- A value.  Of numbers with a fraction and of times only the kind is kept. -/
inductive Value where
  | string (s : String)
  | integer (i : Int)
  | float
  | boolean (b : Bool)
  | time
  | array (items : List Value)
  | table (members : List (String × Value))
deriving Inhabited

/-- How a table came to be. -/
inductive Shape where
  /-- By a header, or it is the document itself. -/
  | header
  /-- On the way to another table. -/
  | implied
  /-- By a dotted key. -/
  | dotted
deriving DecidableEq, Repr

/-- What a key stands for while a document is read: a value, a table that may grow, or tables of an
array. -/
inductive Node where
  | value (v : Value)
  | table (shape : Shape) (members : List (String × Node))
  | tables (items : List (List (String × Node)))
deriving Inhabited

/-- The members of a table while a document is read. -/
abbrev Members := List (String × Node)

def putMember (name : String) (n : Node) : Members → Members
  | [] => [(name, n)]
  | m :: ms => if m.1 = name then (name, n) :: ms else m :: putMember name n ms

/-- Change the table that a path leads to.  Tables that are missing on the way are made, dotted ones
for a dotted key and implied ones for a header.  The change may answer with a value, and may fail. -/
def alter {α : Type} (dotted : Bool) (change : Shape → Members → Option (Members × α)) :
    List String → Shape → Members → Option (Members × α)
  | [], shape, ms => change shape ms
  | name :: path, _, ms =>
    match ms.lookup name with
    | none =>
      let shape := if dotted then .dotted else .implied
      (alter dotted change path shape []).map fun r =>
        (putMember name (.table shape r.1) ms, r.2)
    | some (.value _) => none
    | some (.table shape inner) =>
      if dotted && shape = .header then none
      else (alter dotted change path shape inner).map fun r =>
        (putMember name (.table shape r.1) ms, r.2)
    | some (.tables items) =>
      (alter dotted change path .header (items.getLast?.getD [])).map fun r =>
        (putMember name (.tables (items.dropLast ++ [r.1])) ms, r.2)

/-- Add an entry: its key is new, and a table made by dotted keys grows by them only. -/
def addEntry (path : List String) (name : String) (v : Value) (ms : Members) : Option Members :=
  let add (shape : Shape) (ms : Members) : Option (Members × Unit) :=
    if (shape = .dotted) = (path = []) then none
    else if (ms.lookup name).isSome then none
    else some (ms ++ [(name, .value v)], ())
  (alter true add path .header ms).map Prod.fst

/-- A document while it is read: everything outside the table that lines go into at the moment, that
table, its path, and whether it is to be added to an array of tables. -/
structure Draft where
  root : Members
  current : Members
  path : List String
  inArray : Bool

namespace Draft

/-- The draft of a document of which nothing was read. -/
def empty : Draft :=
  ⟨[], [], [], false⟩

/-- Put the current table where it belongs. -/
def close (d : Draft) : Option Members :=
  match d.path.getLast? with
  | none => some d.current
  | some name =>
    let add (_ : Shape) (ms : Members) : Option (Members × Unit) :=
      match ms.lookup name with
      | none =>
        some (ms ++ [(name, if d.inArray then .tables [d.current] else .table .header d.current)], ())
      | some (.tables items) =>
        if d.inArray then some (putMember name (.tables (items ++ [d.current])) ms, ()) else none
      | some _ => none
    (alter false add d.path.dropLast .header d.root).map Prod.fst

/-- Go on with the table of a header.  Only a table that was passed through may be there already. -/
def openTable (d : Draft) (path : List String) : Option Draft := do
  let root ← d.close
  let name ← path.getLast?
  let take (_ : Shape) (ms : Members) : Option (Members × Members) :=
    match ms.lookup name with
    | none => some (ms, [])
    | some (.table .implied inner) => some (ms.filter (·.1 ≠ name), inner)
    | some _ => none
  let (root, current) ← alter false take path.dropLast .header root
  some ⟨root, current, path, false⟩

/-- Go on with one more table of an array of tables. -/
def openArray (d : Draft) (path : List String) : Option Draft := do
  let root ← d.close
  let name ← path.getLast?
  let check (_ : Shape) (ms : Members) : Option (Members × Unit) :=
    match ms.lookup name with
    | none => some (ms, ())
    | some (.tables _) => some (ms, ())
    | some _ => none
  let (root, _) ← alter false check path.dropLast .header root
  some ⟨root, [], path, true⟩

end Draft

mutual

def Node.toValue : Node → Value
  | .value v => v
  | .table _ ms => .table (membersToValues ms)
  | .tables items => .array (itemsToValues items)

def membersToValues : List (String × Node) → List (String × Value)
  | [] => []
  | (name, n) :: ms => (name, n.toValue) :: membersToValues ms

/-- The values of the tables of an array. -/
def itemsToValues : List (List (String × Node)) → List Value
  | [] => []
  | ms :: items => .table (membersToValues ms) :: itemsToValues items

end

/-! ### Keys and values -/

/-- How deep values may be nested, and how many parts a key may have, less one. -/
def maxDepth : Nat := 80

/-- Whether a character may stand in a key without quotes. -/
def isBare (c : Char) : Bool :=
  isDigit c || ('a' ≤ c && c ≤ 'z') || ('A' ≤ c && c ≤ 'Z') || c = '-' || c = '_'

def readKeyPart (cs : List Char) : Option (String × List Char) :=
  match cs with
  | '"' :: rest => (basicString (rest.length + 1) rest).map fun r => (String.ofList r.1, r.2)
  | '\'' :: rest => (literalString rest).map fun r => (String.ofList r.1, r.2)
  | _ =>
    let bare := cs.takeWhile isBare
    if bare = [] then none else some (String.ofList bare, cs.dropWhile isBare)

/-- The parts of a key, at most `fuel` of them, with blanks around each. -/
def readKeyParts : Nat → List Char → Option (List String × List Char)
  | 0, _ => none
  | fuel + 1, cs => do
    let (part, cs) ← readKeyPart (skipSpace cs)
    match skipSpace cs with
    | '.' :: rest => do
      let (parts, rest) ← readKeyParts fuel rest
      some (part :: parts, rest)
    | rest => some ([part], rest)

def readKey (cs : List Char) : Option (List String × List Char) :=
  readKeyParts (maxDepth - 1) cs

/-- The rest after blanks, ends of lines and comments; `fuel` bounds the number of lines. -/
def skipLines : Nat → List Char → List Char
  | 0, cs => cs
  | fuel + 1, cs =>
    let cs := skipSpace cs
    match newline? (skipComment cs) with
    | some rest => skipLines fuel rest
    | none => cs

def readScalar (cs : List Char) : Option (Value × List Char) :=
  match cs with
  | 't' :: 'r' :: 'u' :: 'e' :: rest => some (.boolean true, rest)
  | 'f' :: 'a' :: 'l' :: 's' :: 'e' :: rest => some (.boolean false, rest)
  | [] => none
  | c :: _ =>
    if c = '"' ∨ c = '\'' then (readString cs).map fun r => (.string (String.ofList r.1), r.2)
    else match readDateTime cs with
      | some (_, rest) => some (.time, rest)
      | none => match readFloat cs with
        | some (_, rest) => some (.float, rest)
        | none => match readSpecial cs with
          | some (_, rest) => some (.float, rest)
          | none => (readInteger cs).map fun r => (.integer r.1, r.2)

mutual

/-- A value that is nested `depth` deep; `fuel` bounds the number of tokens. -/
def readValue : Nat → Nat → List Char → Option (Value × List Char)
  | 0, _, _ => none
  | fuel + 1, depth, cs =>
    match cs with
    | '[' :: rest =>
      if maxDepth ≤ depth + 1 then none
      else (readItems fuel (depth + 1) rest).map fun r => (.array r.1, r.2)
    | '{' :: rest =>
      if maxDepth ≤ depth + 1 then none
      else match skipSpace rest with
        | '}' :: rest => some (.table [], rest)
        | rest =>
          (readMembers fuel (depth + 1) [] rest).map fun r =>
            (.table (membersToValues r.1), r.2)
    | cs => readScalar cs

/-- The items of an array up to its closing bracket. -/
def readItems : Nat → Nat → List Char → Option (List Value × List Char)
  | 0, _, _ => none
  | fuel + 1, depth, cs =>
    match skipLines cs.length cs with
    | ']' :: rest => some ([], rest)
    | cs =>
      match readValue fuel depth cs with
      | none => none
      | some (v, cs) =>
        match skipLines cs.length cs with
        | ',' :: rest => (readItems fuel depth rest).map fun r => (v :: r.1, r.2)
        | ']' :: rest => some ([v], rest)
        | _ => none

/-- The entries of an inline table up to its closing brace, at least one, added to those that were
read. -/
def readMembers : Nat → Nat → Members → List Char → Option (Members × List Char)
  | 0, _, _, _ => none
  | fuel + 1, depth, ms, cs =>
    match readKey cs with
    | some (path, '=' :: rest) =>
      match readValue fuel depth (skipSpace rest) with
      | none => none
      | some (v, rest) =>
        match addEntry path.dropLast (path.getLast?.getD "") v ms with
        | none => none
        | some ms =>
          match skipSpace rest with
          | ',' :: rest => readMembers fuel depth ms rest
          | '}' :: rest => some (ms, rest)
          | _ => none
    | _ => none

end

/-! ### Documents -/

/-- The rest after what may stand at the end of a line, and the end of the line. -/
def endLine? (cs : List Char) : Option (List Char) :=
  match skipComment (skipSpace cs) with
  | [] => some []
  | rest => newline? rest

/-- A header after its brackets, which are closed by as many brackets. -/
def readHeader (brackets : List Char) (cs : List Char) : Option (List String × List Char) := do
  let (path, rest) ← readKey cs
  if !brackets.isPrefixOf rest then none
  let rest ← endLine? (rest.drop brackets.length)
  some (path, rest)

/-- One line of a document that is not blank. -/
def readLine (d : Draft) (cs : List Char) : Option (Draft × List Char) :=
  match cs with
  | '[' :: '[' :: rest => do
    let (path, rest) ← readHeader [']', ']'] rest
    some (← d.openArray path, rest)
  | '[' :: rest => do
    let (path, rest) ← readHeader [']'] rest
    some (← d.openTable path, rest)
  | _ =>
    match readKey cs with
    | some (path, '=' :: rest) => do
      let (v, rest) ← readValue (2 * rest.length + 2) 0 (skipSpace rest)
      let current ← addEntry path.dropLast (path.getLast?.getD "") v d.current
      let rest ← endLine? rest
      some ({ d with current := current }, rest)
    | _ => none

/-- The lines of a document; `fuel` bounds their number. -/
def readLines : Nat → Draft → List Char → Option Draft
  | 0, _, _ => none
  | fuel + 1, d, cs =>
    match skipLines cs.length cs with
    | [] => some d
    | '#' :: rest => if (rest.dropWhile isPlain).isEmpty then some d else none
    | cs =>
      match readLine d cs with
      | some (d, rest) => readLines fuel d rest
      | none => none

/-- The text after a byte order mark, if there is one. -/
def skipMark : List Char → List Char
  | '\uFEFF' :: rest => rest
  | cs => cs

/-- Read a document: its members, or nothing if it is none. -/
def parse? (text : String) : Option (List (String × Value)) := do
  let cs := skipMark text.toList
  let d ← readLines (cs.length + 1) Draft.empty cs
  let root ← d.close
  some (membersToValues root)

end CodeReview.Toml
