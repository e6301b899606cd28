import CodeReview.Issue
import CodeReview.OrderedMap

/-!
# Review steps

A step is one check of a review: its name and description, what it concerns, its tags, and what
carries it out.  A manifest describes a step in words, as it comes from outside; it becomes a step
when its words are understood.
-/

namespace CodeReview

/-- What a step is told about the content it checks. -/
structure StepContext where
  filePath : Option Path := none
  language : Option String := none
  metadata : OrderedMap String String := ∅
deriving Inhabited

/-- A check, carried out by an executor. -/
structure Step (ε : Type) where
  id : String
  name : String
  description : String
  category : Category
  severity : Severity
  tags : OrderedSet String
  executor : ε

/-- What is wrong with a step. -/
inductive StepFault where
  | blankId
  | paddedId
  | blankName
  | blankTag
  | noCategory
  | noSeverity
  | unknownWord (text : String)
deriving DecidableEq, Repr

def StepFault.message : StepFault → String
  | .blankId => "id must not be empty"
  | .paddedId => "id must not have surrounding whitespace"
  | .blankName => "name must not be empty"
  | .blankTag => "tags must not be empty strings"
  | .noCategory => "category is required"
  | .noSeverity => "severity is required"
  | .unknownWord text => text

namespace Step

variable {ε : Type}

/-- Whether a step carries at least one of several tags. -/
def hasAnyTag (s : Step ε) (wanted : List String) : Bool :=
  wanted.any s.tags.contains

def fault? (s : Step ε) : Option StepFault :=
  if isBlankText s.id then some .blankId
  else if trim s.id ≠ s.id then some .paddedId
  else if isBlankText s.name then some .blankName
  else if s.tags.keys.any isBlankText then some .blankTag
  else none

end Step

/-- A step described in words. -/
structure StepManifest where
  id : String := ""
  name : String := ""
  description : String := ""
  category : String := ""
  severity : String := ""
  tags : List String := []
deriving DecidableEq, Repr, Inhabited

/-- Read a word of a manifest; the error of reading becomes a fault. -/
def StepFault.reading {α : Type} : Except String α → Except StepFault α
  | .ok a => .ok a
  | .error text => .error (.unknownWord text)

namespace StepManifest

def toStep {ε : Type} (m : StepManifest) (executor : ε) : Except StepFault (Step ε) := do
  if isBlankText m.category then throw .noCategory
  if isBlankText m.severity then throw .noSeverity
  let category ← StepFault.reading (Category.parse m.category)
  let severity ← StepFault.reading (Severity.parse m.severity)
  let step : Step ε :=
    ⟨m.id, m.name, m.description, category, severity, OrderedSet.ofKeys m.tags, executor⟩
  match step.fault? with
  | some fault => throw fault
  | none => return step

end StepManifest

end CodeReview
