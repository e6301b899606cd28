import CodeReview.Files.Access
import CodeReview.Issue
import CodeReview.OrderedMap
import CodeReview.Progress

/-!
# Reports of runs

What a run of steps over a content leaves: the issues of the steps that completed, the state of every
step, and the failures.  Runs over files and over lists of files add where the content came from.
-/

namespace CodeReview

/-- Why a step failed. -/
inductive StepError where
  /-- It returned an error. -/
  | failed (step text : String)
  /-- It did not return within that many milliseconds. -/
  | timedOut (step : String) (milliseconds : Nat)
  /-- It crashed. -/
  | crashed (step text : String)
deriving DecidableEq, Repr

namespace StepError

/-- The step that failed. -/
def step : StepError → String
  | .failed step _ => step
  | .timedOut step _ => step
  | .crashed step _ => step

def isTimeout : StepError → Bool
  | .timedOut .. => true
  | _ => false

def message : StepError → String
  | .failed step text => "step '" ++ step ++ "' failed: " ++ text
  | .timedOut step milliseconds =>
    "step '" ++ step ++ "' timed out after " ++ decimal milliseconds ++ " ms"
  | .crashed step text => "step '" ++ step ++ "' panicked: " ++ text

end StepError

/-- A step that gave no issues because it failed. -/
structure StepFailure where
  step : String
  error : String
  timedOut : Bool
deriving DecidableEq, Repr

def StepFailure.ofError (e : StepError) : StepFailure :=
  ⟨e.step, e.message, e.isTimeout⟩

/-- What a run over one content leaves.  The records say whether a step has begun and ended, not
when. -/
structure RunReport where
  /-- The issues of every step that completed, in the order of the steps. -/
  issues : List Issue
  progress : List (ProgressRecord Unit)
  failures : List StepFailure
  cancelled : Bool
deriving DecidableEq, Repr

namespace RunReport

def failedSteps (r : RunReport) : List String :=
  r.failures.map StepFailure.step

def status? (r : RunReport) (step : String) : Option StepStatus :=
  (r.progress.find? fun p => p.step = step).map ProgressRecord.status

/-- Whether every step completed. -/
def succeeded (r : RunReport) : Bool :=
  r.progress.all fun p => p.status = .completed

end RunReport

/-- What a run over a file leaves. -/
structure FileReport where
  path : Path
  lineCount : Nat
  report : RunReport
deriving DecidableEq, Repr

/-- What runs over a list of files leave: the reports of those that could be read, and why the others
could not. -/
structure DirectoryReport where
  files : OrderedMap Path FileReport
  failures : OrderedMap Path String

namespace DirectoryReport

/-- The report on no files. -/
def empty : DirectoryReport :=
  ⟨∅, ∅⟩

/-- How many issues there are in all files. -/
def totalIssues (r : DirectoryReport) : Nat :=
  r.files.values.foldr (fun f n => f.report.issues.length + n) 0

/-- Every issue with its file, in path order. -/
def allIssues (r : DirectoryReport) : List (Path × Issue) :=
  r.files.entries.flatMap fun e => e.2.report.issues.map fun i => (e.1, i)

end DirectoryReport

/-- Why a file could not be reviewed. -/
inductive RunError where
  | notFound (path : Path)
  | unreadable (path : Path) (cause : FileError)
deriving DecidableEq, Repr

def RunError.message : RunError → String
  | .notFound path => "file not found: " ++ path.text
  | .unreadable path cause => "file unreadable: " ++ path.text ++ ": " ++ cause.message

/-- What failing to read a file means for its review. -/
def RunError.ofFileError (path : Path) (cause : FileError) : RunError :=
  if cause.kind = .notFound then .notFound path else .unreadable path cause

end CodeReview
