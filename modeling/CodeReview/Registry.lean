import CodeReview.Step
import CodeReview.Telemetry

/-!
# Registry of steps

The steps that a review can choose from, in the order they were accepted, each name once.  A filter
chooses by name, in the order the names are given, or else by category, severity and tags, in the
order of the registry.  An empty choice is no choice.
-/

namespace CodeReview

/-- Why a step is not registered or not found. -/
inductive RegistryError where
  | duplicate (step : String)
  | invalid (step : String) (fault : StepFault)
  | unknown (step : String)
deriving DecidableEq, Repr

namespace RegistryError

def step : RegistryError → String
  | .duplicate step => step
  | .invalid step _ => step
  | .unknown step => step

def message : RegistryError → String
  | .duplicate step => "duplicate step id: " ++ step
  | .invalid step fault => "invalid step config for '" ++ step ++ "': " ++ fault.message
  | .unknown step => "unknown step id: " ++ step

end RegistryError

/-- A choice of steps. -/
structure StepFilter where
  ids : Option (List String) := none
  categories : Option (List Category) := none
  severities : Option (List Severity) := none
  tags : Option (List String) := none
deriving DecidableEq, Repr, Inhabited

/-- The members of a choice that is given and not empty. -/
def chosen? {α : Type} : Option (List α) → Option (List α)
  | some (a :: as) => some (a :: as)
  | _ => none

/-- Whether a choice, if there is one, has a member that fits. -/
def allows {α : Type} (choice : Option (List α)) (fits : List α → Bool) : Bool :=
  match chosen? choice with
  | some as => fits as
  | none => true

/-- Whether a step has the category, the severity and one of the tags that are asked for. -/
def StepFilter.accepts {ε : Type} (f : StepFilter) (s : Step ε) : Bool :=
  allows f.categories (fun cs => cs.contains s.category) &&
    allows f.severities (fun ss => ss.contains s.severity) &&
    allows f.tags s.hasAnyTag

/-- Registered steps in order of acceptance, and the place of each name among them. -/
structure Registry (ε : Type) where
  steps : List (Step ε)
  places : OrderedMap String Nat
  placed : Placed Step.id steps places

namespace Registry

variable {ε : Type}

/-- The registry without steps. -/
def empty : Registry ε :=
  ⟨[], ∅, .empty Step.id⟩

instance : EmptyCollection (Registry ε) := ⟨empty⟩

/-- The step of a name. -/
def find? (r : Registry ε) (id : String) : Option (Step ε) :=
  (r.places.find? id).bind fun i => r.steps[i]?

/-- Whether a name is taken. -/
def contains (r : Registry ε) (id : String) : Bool :=
  r.places.contains id

/-- The names in order of acceptance. -/
def ids (r : Registry ε) : List String :=
  r.steps.map Step.id

/-- The number of steps. -/
def size (r : Registry ε) : Nat :=
  r.steps.length

/-- Accept a step: it must have no fault, and its name must be free. -/
def register (r : Registry ε) (s : Step ε) : Except RegistryError (Registry ε) :=
  match s.fault? with
  | some fault => .error (.invalid s.id fault)
  | none =>
    if h : r.contains s.id = true then .error (.duplicate s.id)
    else .ok ⟨r.steps ++ [s], r.places.insert s.id r.steps.length, r.placed.concat h⟩

/-- Accept the step that a manifest describes. -/
def registerManifest (r : Registry ε) (m : StepManifest) (executor : ε) :
    Except RegistryError (Registry ε) :=
  match m.toStep executor with
  | .error fault => .error (.invalid m.id fault)
  | .ok s => r.register s

/-- The event of accepting a step: the last one of the registry. -/
def acceptance? (r : Registry ε) : Option Event :=
  r.steps.getLast?.map fun s => .stepRegistered s.id s.category

/-- What is reported about an attempt to register. -/
def reporting (t : Telemetry) : Except RegistryError (Registry ε) → Telemetry
  | .error _ => t
  | .ok r => r.acceptance?.elim t t.report

/-- Accept steps one after the other and report each; the first one that is refused ends it. -/
def registerAll (r : Registry ε) (t : Telemetry) :
    List (Step ε) → Except RegistryError (Registry ε × Telemetry)
  | [] => .ok (r, t)
  | s :: ss =>
    match r.register s with
    | .error e => .error e
    | .ok r => registerAll r (reporting t (.ok r)) ss

/-- The steps of several names in order of the names. -/
def findAll (r : Registry ε) : List String → Except RegistryError (List (Step ε))
  | [] => .ok []
  | id :: ids =>
    match r.find? id with
    | none => .error (.unknown id)
    | some s =>
      match findAll r ids with
      | .error e => .error e
      | .ok ss => .ok (s :: ss)

def select (r : Registry ε) (f : StepFilter) : Except RegistryError (List (Step ε)) :=
  match chosen? f.ids with
  | some ids => r.findAll ids
  | none => .ok (r.steps.filter f.accepts)

end Registry

end CodeReview
