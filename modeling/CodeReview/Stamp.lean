import CodeReview.OrderedMap
import CodeReview.Text.Characters

/-!
# Stamps

A stamp is a moment as it stands in the name of a backup: the digits of the day, `T`, those of the
time of day, `.`, those of the microsecond, and `Z`.  Masking replaces every stamp in a text by a mark,
so that texts can be compared whenever they were made, and a file can be asked for by a path in which
the mark stands for a stamp that is not known.
-/

namespace CodeReview

namespace Stamp

/-- The form of a stamp: a `0` stands for any digit, every other character for itself. -/
def form : List Char := "00000000T000000.000000Z".toList

/-- The mark in place of a stamp. -/
def mark : List Char := "<TS>".toList

/-- Whether a character fits a character of the form. -/
def fits (f c : Char) : Bool :=
  if f = '0' then isDigit c else c = f

/-- Whether a text begins as a form says. -/
def startsWith : List Char → List Char → Bool
  | [], _ => true
  | f :: fs, c :: cs => fits f c && startsWith fs cs
  | _ :: _, [] => false

/-- The characters of a text behind the first `skip` ones, with the first stamp replaced by the mark,
then the next one behind it, and so on. -/
def maskFrom (skip : Nat) : List Char → List Char
  | [] => []
  | c :: cs =>
    match skip with
    | skip + 1 => maskFrom skip cs
    | 0 =>
      if startsWith form (c :: cs) then mark ++ maskFrom (form.length - 1) cs
      else c :: maskFrom 0 cs

/-- A text with the mark in place of each stamp. -/
def mask (text : String) : String :=
  String.ofList (maskFrom 0 text.toList)

end Stamp

namespace Path

/-- A path with the mark in place of each stamp. -/
def masked (p : Path) : Path :=
  ⟨Stamp.mask p.text⟩

/-- The first of some paths that, masked, reads as the given one; the given one itself if none
does. -/
def amongMasked (p : Path) (paths : List Path) : Path :=
  (paths.find? fun q => q.masked = p).getD p

/-- What belongs to paths, by the masked paths; of those that are then the same, the first one gives
its spelling and the last one what belongs to it. -/
def byMasked {α : Type} (entries : List (Path × α)) : OrderedMap Path α :=
  OrderedMap.ofList (entries.map fun e => (e.1.masked, e.2))

end Path

end CodeReview
