import CodeReview.Text.Characters
import CodeReview.Text.Hidden
import CodeReview.Text.Line

/-!
# Replacing a block of lines

An edit names a line, the lines it expects there and the lines that take their place.  It is made
only where the expected lines stand exactly, and it keeps the way the text ends its lines:

* every new line but the last is ended as the first replaced line was, or, where that one ends the
  text unterminated, as the text ends its lines elsewhere;
* the last new line is ended as the last replaced line was;
* where the end of a text without final terminator is deleted, the terminator of the last line that
  is left is taken off.

So a text without final terminator stays without one, unless the line that then comes last is blank: a
blank line without terminator is written as nothing, and the text ends with the terminator of the line
before it.

Expected and new lines are compared and taken without their own terminators.
-/

namespace CodeReview

/-- Why a block cannot be replaced. -/
inductive EditError where
  /-- The block does not lie inside the text: its first line, its length and the number of lines of
  the text. -/
  | outOfRange (line needed total : Nat)
  /-- A line of the text is not the one that was expected there. -/
  | mismatch (line : Nat) (expected found : String)
deriving DecidableEq, Repr

def EditError.message : EditError → String
  | .outOfRange line needed total =>
    "line " ++ decimal line ++ " is out of range (file has " ++ decimal total ++
      " lines, block needs " ++ decimal needed ++ ")"
  | .mismatch line expected found =>
    "line " ++ decimal line ++ " does not match: expected " ++ quoted expected ++ ", found " ++
      quoted found

namespace Edit

/-- The first of several lines, numbered from `n`, that is not the expected one. -/
def firstMismatch (n : Nat) : List (List Char) → List Line → Option EditError
  | want :: wants, l :: ls =>
    if l.text = want then firstMismatch (n + 1) wants ls
    else some (.mismatch n (String.ofList want) (String.ofList l.text))
  | _, _ => none

/-- Check that the expected lines stand at line `n`, counted from one. -/
def locate (ls : List Line) (n : Nat) (expected : List (List Char)) : Except EditError Unit :=
  if n = 0 ∨ expected = [] ∨ ls.length < n - 1 + expected.length then
    .error (.outOfRange n expected.length ls.length)
  else match firstMismatch n expected (ls.drop (n - 1)) with
    | some e => .error e
    | none => .ok ()

/-- The terminator for new lines in front of an unterminated one: that of a carriage return and a
line feed if the text has any, a line feed otherwise. -/
def prevailingEol (ls : List Line) : Eol :=
  if ls.any (fun l => l.eol = .crlf) then .crlf else .lf

/-- The new lines: all but the last get the terminator `eol`, the last one gets `last`. -/
def terminate (eol last : Eol) : List (List Char) → List Line
  | [] => []
  | [t] => [⟨t, last⟩]
  | t :: ts => ⟨t, eol⟩ :: terminate eol last ts

/-- Take the terminator off the last line. -/
def unterminateLast : List Line → List Line
  | [] => []
  | [l] => [⟨l.text, .none⟩]
  | l :: ls => l :: unterminateLast ls

/-- The terminator of a line, none where there is no line. -/
def eolOf (l : Option Line) : Eol :=
  (l.map Line.eol).getD .none

/-- Put new lines in the place of the `len` lines that follow the first `start`. -/
def splice (ls : List Line) (start len : Nat) (new : List (List Char)) : List Line :=
  let before := ls.take start
  let after := ls.drop (start + len)
  let block := (ls.drop start).take len
  let first := eolOf block.head?
  let last := eolOf block.getLast?
  let eol := if first = .none then prevailingEol ls else first
  let out := before ++ terminate eol last new ++ after
  if new = [] ∧ after = [] ∧ eolOf ls.getLast? = .none then unterminateLast out else out

/-- The lines of a snippet, without terminators. -/
def snippetLines (text : String) : List (List Char) :=
  Line.texts text.toList

/-- Replace the lines of `expected` that stand at line `n` of `content`, counted from one, by the
lines of `suggested`. -/
def replaceBlock (content : String) (n : Nat) (expected suggested : String) :
    Except EditError String :=
  let ls := Line.split content.toList
  let block := snippetLines expected
  match locate ls n block with
  | .error e => .error e
  | .ok () =>
    .ok (String.ofList (Line.join (splice ls (n - 1) block.length (snippetLines suggested))))

end Edit

end CodeReview
