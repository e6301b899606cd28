import CodeReview.Number.Binary
import CodeReview.Text.Characters

/-!
# Issues

An issue is one finding of a review: what it says, how serious it is, what it concerns, and how sure
the step that raised it was.  Severities are ordered by seriousness and categories in the order they
are listed.  Both are read from text without regard to case and surrounding blanks.
-/

namespace CodeReview

/-- How serious a finding is. -/
inductive Severity where
  | low
  | medium
  | high
  | critical
deriving DecidableEq, Repr, Inhabited

namespace Severity

/-- All severities, most serious first. -/
def all : List Severity :=
  [.critical, .high, .medium, .low]

/-- The place of a severity when the least serious comes first. -/
def rank : Severity → Nat
  | .low => 0
  | .medium => 1
  | .high => 2
  | .critical => 3

def name : Severity → String
  | .low => "low"
  | .medium => "medium"
  | .high => "high"
  | .critical => "critical"

def ofName? (name : String) : Option Severity :=
  all.find? fun s => s.name = name

def parse (text : String) : Except String Severity :=
  let name := lowerAsciiText (trim text)
  match ofName? name with
  | some s => .ok s
  | none => .error ("unknown severity: " ++ name)

end Severity

/-- What a finding concerns. -/
inductive Category where
  | security
  | performance
  | style
  | quality
  | compatibility
  | documentation
  | other
deriving DecidableEq, Repr, Inhabited

namespace Category

/-- All categories in order. -/
def all : List Category :=
  [.security, .performance, .style, .quality, .compatibility, .documentation, .other]

/-- The place of a category in their order. -/
def rank : Category → Nat
  | .security => 0
  | .performance => 1
  | .style => 2
  | .quality => 3
  | .compatibility => 4
  | .documentation => 5
  | .other => 6

def name : Category → String
  | .security => "security"
  | .performance => "performance"
  | .style => "style"
  | .quality => "quality"
  | .compatibility => "compatibility"
  | .documentation => "documentation"
  | .other => "other"

def ofName? (name : String) : Option Category :=
  all.find? fun c => c.name = name

def parse (text : String) : Except String Category :=
  let name := lowerAsciiText (trim text)
  match ofName? name with
  | some c => .ok c
  | none => .error ("unknown category: " ++ name)

end Category

/-- A finding of a review.  Lines are counted from one; the confidence lies between zero and one
unless it was set to something else directly. -/
structure Issue where
  description : String
  severity : Severity
  category : Category
  line : Option Nat := none
  suggestedFix : Option String := none
  confidence : Single := Single.one
  sourceStep : String := ""
deriving DecidableEq, Repr, Inhabited

namespace Issue

def atLine (i : Issue) (line : Nat) : Issue :=
  { i with line := some line }

def withFix (i : Issue) (fix : String) : Issue :=
  { i with suggestedFix := some fix }

/-- Set the confidence, clamped into the range from zero to one. -/
def withConfidence (i : Issue) (confidence : Single) : Issue :=
  { i with confidence := confidence.clampUnit }

/-- Name the step that raised an issue. -/
def fromStep (i : Issue) (step : String) : Issue :=
  { i with sourceStep := step }

end Issue

end CodeReview
