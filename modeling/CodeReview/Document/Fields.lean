import CodeReview.Format.Json
import CodeReview.Format.Timestamp
import CodeReview.OrderedMap

/-!
# Documents

How values are found in JSON.  A record is an object with the fields by name, where unknown names are
passed over and no known name comes twice, or an array with the fields in order.  A field that may be
null may be missing in an object; a field with a default may be missing in either form.
-/

namespace CodeReview

/-- Whether a field may be missing. -/
inductive Presence where
  | required
  | nullable
  | defaulted
deriving DecidableEq, Repr

/-- The fields of a record: their names in order, and which of them may be missing. -/
abbrev Fields := List (String × Presence)

namespace Fields

/-- The value of a field among the members of an object; the name may not come twice. -/
def inObject (members : List (Option String × Json)) (f : String × Presence) :
    Option (Option Json) :=
  match members.filter fun m => m.1 = some f.1 with
  | [] => if f.2 = .required then none else some none
  | [m] => some (some m.2)
  | _ => none

/-- The values of the fields among the items of an array. -/
def inArray : Fields → List Json → Option (List (Option Json))
  | [], [] => some []
  | [], _ :: _ => none
  | f :: fs, [] => if f.2 = .defaulted then (inArray fs []).map (none :: ·) else none
  | _ :: fs, j :: js => (inArray fs js).map (some j :: ·)

/-- The values of the fields of a record, in order. -/
def read (fs : Fields) : Json → Option (List (Option Json))
  | .object members => if members.all (·.1.isSome) then fs.mapM (inObject members) else none
  | .array items => fs.inArray items
  | _ => none

end Fields

namespace Json

def asString : Json → Option String
  | .string s => s
  | _ => none

def asPath (j : Json) : Option Path :=
  j.asString.map Path.mk

/-- A natural number of at most 64 bits. -/
def asNat : Json → Option Nat
  | .number n => n.word?
  | _ => none

/-- True or false. -/
def asBool : Json → Option Bool
  | .bool b => some b
  | _ => none

/-- A value or null. -/
def asOption {α : Type} (read : Json → Option α) : Json → Option (Option α)
  | .null => some none
  | j => (read j).map some

def asList {α : Type} (read : Json → Option α) : Json → Option (List α)
  | .array items => items.mapM read
  | _ => none

def textMember (m : Option String × Json) : Option (String × String) := do
  some (← m.1, ← m.2.asString)

/-- A map from texts to texts; of several members of one name the last counts. -/
def asTexts : Json → Option (OrderedMap String String)
  | .object members => (members.mapM textMember).map OrderedMap.ofList
  | _ => none

/-- A name out of several: a string, or an object with that name for null. -/
def asName {α : Type} (ofName? : String → Option α) : Json → Option α
  | .string s => s.bind ofName?
  | .object [(name, .null)] => name.bind ofName?
  | _ => none

/-- A moment. -/
def asTimestamp (j : Json) : Option Timestamp :=
  j.asString.bind Timestamp.parse?

/-- A 32-bit number: the nearest one, where it is finite.  A whole number below the least signed one of
64 bits whose digits fit in 64 bits is rounded to 64 bits first. -/
def asSingle : Json → Option Single
  | .number n =>
    let m := decimalValue n.whole
    let x :=
      if n.isWhole && n.negative && UInt64.size / 2 < m && m ≤ maxWord then Single.ofDouble n.toDouble
      else n.toSingle
    if x.isInfinite then none else some x
  | _ => none

/-- A field that may be missing, read in a way that may fail. -/
def orElse {α : Type} (default : α) (read : Json → Option α) : Option Json → Option α
  | none => some default
  | some j => read j

/-- A pattern of a 32-bit number. -/
def ofSingle (x : Single) : Json :=
  str ("0x" ++ paddedHex 8 x.bits.toNat)

/-- A pattern of a 64-bit number; all patterns that denote no number are one. -/
def ofDouble (x : Double) : Json :=
  if x.isNaN then str "NaN" else str ("0x" ++ paddedHex 16 x.bits.toNat)

def ofPath (p : Path) : Json :=
  str p.text

/-- A moment. -/
def ofTimestamp (t : Timestamp) : Json :=
  str t.render

/-- The members of an object, and more of them. -/
def withMembers (j : Json) (more : List (String × Json)) : Json :=
  match j with
  | .object ms => .object (ms ++ more.map fun m => (some m.1, m.2))
  | j => j

end Json

end CodeReview
