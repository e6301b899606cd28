/-!
# Lines and their terminators

A text is cut behind every line feed; what follows the last one is a piece of its own, unless it is
empty.  A piece is a line with its terminator, which is a line feed, together with one carriage return
directly before it.  No other character ends a line: a carriage return anywhere else is text.

Where terminators count, each piece is taken apart into the line and its terminator (`Line.split`), so
that putting the lines back together gives the text again.  Where they do not, they are dropped
(`Line.texts`).
-/

namespace CodeReview

/-- How a line was ended: not at all (end of text), by a line feed, or by a carriage return and a
line feed. -/
inductive Eol where
  | none
  | lf
  | crlf
deriving DecidableEq, Repr

/-- The characters a terminator is written with. -/
def Eol.chars : Eol → List Char
  | .none => []
  | .lf => ['\n']
  | .crlf => ['\r', '\n']

/-- A line of a text: its characters without terminator, and the terminator. -/
structure Line where
  text : List Char
  eol : Eol
deriving DecidableEq, Repr

namespace Line

/-- The characters of a line, terminator included. -/
def chars (l : Line) : List Char :=
  l.text ++ l.eol.chars

def join (ls : List Line) : List Char :=
  ls.flatMap chars

/-- A text cut behind every line feed. -/
def cut : List Char → List (List Char)
  | [] => []
  | c :: cs =>
    if c = '\n' then [c] :: cut cs
    else match cut cs with
      | [] => [[c]]
      | piece :: pieces => (c :: piece) :: pieces

/-- What comes before an ending, if that is how the characters end. -/
def strip? (ending cs : List Char) : Option (List Char) :=
  if ending.isSuffixOf cs then some (cs.take (cs.length - ending.length)) else none

/-- The line of a piece. -/
def ofPiece (piece : List Char) : Line :=
  match strip? Eol.crlf.chars piece with
  | some text => ⟨text, .crlf⟩
  | none =>
    match strip? Eol.lf.chars piece with
    | some text => ⟨text, .lf⟩
    | none => ⟨piece, .none⟩

/-- The lines of a text. -/
def split (cs : List Char) : List Line :=
  (cut cs).map ofPiece

/-- A piece without its line feed, and without a carriage return before that. -/
def bare (piece : List Char) : List Char :=
  match strip? ['\n'] piece with
  | none => piece
  | some text => (strip? ['\r'] text).getD text

/-- The lines of a text without their terminators. -/
def texts (cs : List Char) : List (List Char) :=
  (cut cs).map bare

end Line

/-- The lines of a text without their terminators. -/
def linesOf (text : String) : List String :=
  (Line.texts text.toList).map String.ofList

def lineCount (text : String) : Nat :=
  (Line.texts text.toList).length

end CodeReview
