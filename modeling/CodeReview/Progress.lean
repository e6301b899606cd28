import CodeReview.Number.Binary
import CodeReview.OrderedMap

/-!
# Progress

The states of the steps of a run.  A step is pending, then in progress, then completed or failed; or
it is skipped while it is still pending.  Nothing else happens to it, and what is completed, failed or
skipped stays so.  A record notes when its step began and ended, in whatever way the run tells time.
-/

namespace CodeReview

inductive StepStatus where
  | pending
  | inProgress
  | completed
  | failed
  | skipped
deriving DecidableEq, Repr, Inhabited

namespace StepStatus

def all : List StepStatus :=
  [.pending, .inProgress, .completed, .failed, .skipped]

def name : StepStatus → String
  | .pending => "pending"
  | .inProgress => "in_progress"
  | .completed => "completed"
  | .failed => "failed"
  | .skipped => "skipped"

def ofName? (name : String) : Option StepStatus :=
  all.find? fun s => s.name = name

/-- Whether a state is final. -/
def isTerminal : StepStatus → Bool
  | .completed | .failed | .skipped => true
  | .pending | .inProgress => false

/-- Whether a step may go from one state to another. -/
def canMoveTo : StepStatus → StepStatus → Bool
  | .pending, .inProgress => true
  | .pending, .skipped => true
  | .inProgress, .completed => true
  | .inProgress, .failed => true
  | _, _ => false

end StepStatus

/-- The state of one step of a run. -/
structure ProgressRecord (τ : Type) where
  step : String
  status : StepStatus
  startedAt : Option τ
  endedAt : Option τ
  error : Option String
deriving DecidableEq, Repr

/-- The record of a step that nothing has happened to. -/
def ProgressRecord.pending {τ : Type} (step : String) : ProgressRecord τ :=
  ⟨step, .pending, none, none, none⟩

/-- How many steps are in each state. -/
structure ProgressCounts where
  pending : Nat
  inProgress : Nat
  completed : Nat
  failed : Nat
  skipped : Nat
deriving DecidableEq, Repr

namespace ProgressCounts

/-- The number of steps. -/
def total (c : ProgressCounts) : Nat :=
  c.pending + c.inProgress + c.completed + c.failed + c.skipped

/-- The number of steps in a final state. -/
def finished (c : ProgressCounts) : Nat :=
  c.completed + c.failed + c.skipped

end ProgressCounts

/-- Why the state of a step cannot change. -/
inductive ProgressError where
  /-- The run has no such step. -/
  | untracked (step : String)
  /-- A step does not go from its state to the other one. -/
  | invalidMove (step : String) (source target : StepStatus)
deriving DecidableEq, Repr

def ProgressError.message : ProgressError → String
  | .untracked step => "step not tracked in this run: " ++ step
  | .invalidMove step source target =>
    "invalid transition for step '" ++ step ++ "': " ++ source.name ++ " -> " ++ target.name

/-- A record after its step went to another state at a moment. -/
def ProgressRecord.moved {τ : Type} (r : ProgressRecord τ) (next : StepStatus) (now : τ)
    (error : Option String) : ProgressRecord τ :=
  if next = .inProgress then { r with status := next, startedAt := some now, error := error }
  else { r with status := next, endedAt := some now, error := error }

@[simp] theorem ProgressRecord.step_moved {τ : Type} (r : ProgressRecord τ) (next : StepStatus)
    (now : τ) (error : Option String) : (r.moved next now error).step = r.step := by
  unfold moved
  split <;> rfl

/-- The records of a run, one for each step, and the place of each step among them. -/
structure ProgressTracker (τ : Type) where
  records : List (ProgressRecord τ)
  places : OrderedMap String Nat
  placed : Placed ProgressRecord.step records places

namespace ProgressTracker

variable {τ : Type}

/-- The tracker of no steps. -/
def empty : ProgressTracker τ :=
  ⟨[], ∅, .empty ProgressRecord.step⟩

/-- Track one more step, unless it is tracked already. -/
def track (t : ProgressTracker τ) (step : String) : ProgressTracker τ :=
  if h : t.places.contains step = true then t
  else ⟨t.records ++ [.pending step], t.places.insert step t.records.length,
    t.placed.concat (a := .pending step) h⟩

/-- Track steps; the first of several equal names counts. -/
def ofSteps (steps : List String) : ProgressTracker τ :=
  steps.foldl track empty

/-- The record of a step and its place. -/
def locate? (t : ProgressTracker τ) (step : String) : Option (Nat × ProgressRecord τ) := do
  let i ← t.places.find? step
  let r ← t.records[i]?
  return (i, r)

def find? (t : ProgressTracker τ) (step : String) : Option (ProgressRecord τ) :=
  (t.locate? step).map Prod.snd

def status? (t : ProgressTracker τ) (step : String) : Option StepStatus :=
  (t.find? step).map ProgressRecord.status

/-- The record at a place moves. -/
def moveAt (t : ProgressTracker τ) (i : Nat) (next : StepStatus) (now : τ)
    (error : Option String) : ProgressTracker τ where
  records := t.records.modify i fun r => r.moved next now error
  places := t.places
  placed := t.placed.modify i fun r => r.step_moved next now error

def move (t : ProgressTracker τ) (step : String) (next : StepStatus) (now : τ)
    (error : Option String) : Except ProgressError (ProgressTracker τ) :=
  match t.locate? step with
  | none => .error (.untracked step)
  | some (i, r) =>
    if r.status.canMoveTo next then .ok (t.moveAt i next now error)
    else .error (.invalidMove step r.status next)

/-- A step begins. -/
def start (t : ProgressTracker τ) (step : String) (now : τ) :
    Except ProgressError (ProgressTracker τ) :=
  t.move step .inProgress now none

/-- A step comes to its end. -/
def complete (t : ProgressTracker τ) (step : String) (now : τ) :
    Except ProgressError (ProgressTracker τ) :=
  t.move step .completed now none

def fail (t : ProgressTracker τ) (step error : String) (now : τ) :
    Except ProgressError (ProgressTracker τ) :=
  t.move step .failed now (some error)

/-- A step is left out. -/
def skip (t : ProgressTracker τ) (step : String) (now : τ) :
    Except ProgressError (ProgressTracker τ) :=
  t.move step .skipped now none

def countOf (t : ProgressTracker τ) (s : StepStatus) : Nat :=
  t.records.countP fun r => r.status = s

/-- How many steps are in each state. -/
def counts (t : ProgressTracker τ) : ProgressCounts :=
  ⟨t.countOf .pending, t.countOf .inProgress, t.countOf .completed, t.countOf .failed,
   t.countOf .skipped⟩

/-- The share of steps in a final state; everything, if there are no steps. -/
def completion (t : ProgressTracker τ) : Double :=
  if t.counts.total = 0 then Double.one
  else (Double.ofNat t.counts.finished).div (Double.ofNat t.counts.total)

/-- Whether every step is in a final state. -/
def isFinished (t : ProgressTracker τ) : Bool :=
  t.counts.finished = t.counts.total

end ProgressTracker

end CodeReview
