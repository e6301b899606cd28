/-!
# Paths

A path is a Unicode text.  What it denotes are its components: the text is split at `/`, empty
components and `.` are dropped, except that a leading `/` is the root and a leading `.` stays; `..` is
kept as it stands.  Two spellings denote the same place exactly when their components agree, and paths
are ordered by their components.  Both are read off `Path.key`, where a component is a list of numbers:
its kind first, then the code points of its name.  A path keeps its own spelling for printing.

A file system may also keep names that are no Unicode text, and has to print them with some of their
characters replaced.  Such names are left out: every name here is printed as it is.
-/

namespace CodeReview

/-- A path as it is spelled. -/
structure Path where
  text : String
deriving DecidableEq, Repr, Inhabited

/-- One step of a path. -/
inductive Component where
  | root
  | current
  | parent
  | name (chars : List Char)
deriving DecidableEq, Repr

/-- The number of a component's kind and the code points of its name: the root comes first, then
`.`, then `..`, then names by their code points. -/
def Component.code : Component → List Nat
  | .root => [0]
  | .current => [1]
  | .parent => [2]
  | .name chars => 3 :: chars.map Char.toNat

/-- The segments of a text between slashes; there is always at least one. -/
def segments : List Char → List (List Char)
  | [] => [[]]
  | c :: cs =>
    if c = '/' then [] :: segments cs
    else match segments cs with
      | [] => [[c]]
      | s :: ss => (c :: s) :: ss

/-- Whether a segment inside a path stands for no component. -/
def isTrivialSegment (s : List Char) : Bool :=
  s = [] || s = ['.']

/-- The component of a segment inside a path. -/
def segmentComponent? (s : List Char) : Option Component :=
  if isTrivialSegment s then none
  else if s = ['.', '.'] then some .parent
  else some (.name s)

namespace Path

/-- The components that the first segment of a path stands for: a path that goes on after an empty
first segment starts at the root, and a leading `.` is kept. -/
def leading (first : List Char) (rest : List (List Char)) : List Component :=
  if first = [] then (if rest = [] then [] else [.root])
  else if first = ['.'] then [.current]
  else (segmentComponent? first).toList

def components (p : Path) : List Component :=
  match segments p.text.toList with
  | [] => []
  | first :: rest => leading first rest ++ rest.filterMap segmentComponent?

/-- What a path denotes, as a value that decides both identity and order of paths. -/
def key (p : Path) : List (List Nat) :=
  p.components.map Component.code

/-- Whether two spellings denote the same path. -/
def same (p q : Path) : Bool :=
  p.key = q.key

/-- The last component, if it is a name. -/
def fileName? (p : Path) : Option (List Char) :=
  match p.components.getLast? with
  | some (.name chars) => some chars
  | _ => none

/-- What follows the last dot of the file name, if the name has a dot that is not its first
character only. -/
def extension? (p : Path) : Option (List Char) := do
  let name ← p.fileName?
  let back := name.reverse
  let ext := back.takeWhile (· ≠ '.')
  match back.drop ext.length with
  | [] => none
  | [_] => none
  | _ :: _ => some ext.reverse

/-- One path below another: a slash goes between them unless the first ends in one or is empty. -/
def join (p q : Path) : Path :=
  if p.text.toList = [] then q
  else if p.text.toList.getLast? = some '/' then ⟨p.text ++ q.text⟩
  else ⟨p.text ++ "/" ++ q.text⟩

/-- Put segments together with slashes. -/
def ofSegments (ss : List (List Char)) : Path :=
  ⟨String.ofList (['/'].intercalate ss)⟩

/-- The path without its last component, spelled as the text in front of it; the root and the empty
path have none. -/
def parent? (p : Path) : Option Path :=
  match segments p.text.toList with
  | [] => none
  | first :: rest =>
    match rest.reverse.dropWhile isTrivialSegment with
    | [] => if first = [] then none else some ⟨""⟩
    | _ :: before =>
      let kept := (before.dropWhile isTrivialSegment).reverse
      if first = [] ∧ kept = [] then some ⟨"/"⟩ else some (ofSegments (first :: kept))

end Path

end CodeReview
