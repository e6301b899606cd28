import CodeReview.Files.Access
import CodeReview.Run.Clock
import CodeReview.Step
import CodeReview.Text.Characters
import CodeReview.Text.Line

/-!
# Reviews of files

A review of one file reads it and runs the jobs that its content calls for.  A review of a list of
files takes them one after another: a file that cannot be read is noted, and the review goes on with
the next one.  Each file has a run of its own with all worker slots free; executors that are overdue
when a run ends stay behind as stragglers.  The cancel signal is one for the whole review.

Like a run, a review of several files is a machine that goes on by actions.

Steps are told the language of a file, which is guessed from the extension of its name, without regard
to the case of ASCII letters.
-/

namespace CodeReview

/-! ## Languages -/

/-- Extensions in lower case and the languages they stand for. -/
def languageExtensions : List (String × String) :=
  [("py", "python"), ("pyi", "python"), ("js", "javascript"), ("mjs", "javascript"),
   ("cjs", "javascript"), ("jsx", "javascript"), ("ts", "typescript"), ("tsx", "typescript"),
   ("rs", "rust"), ("php", "php"), ("go", "go"), ("java", "java"), ("rb", "ruby")]

/-- The language of a file, if its extension stands for one. -/
def languageOf? (p : Path) : Option String := do
  let extension ← p.extension?
  languageExtensions.lookup (String.ofList (extension.map lowerAscii))

/-! ## Reviews -/

/-- What a review does with a content: how many workers it has, and which jobs there are. -/
structure ReviewPlan where
  workers : Nat
  jobs : StepContext → String → List Job

/-- What the steps are told about a file. -/
def fileContext (p : Path) : StepContext :=
  { filePath := some p, language := languageOf? p }

namespace ReviewPlan

/-- The run over a content, at its beginning. -/
def runOn (plan : ReviewPlan) (signal : Bool) (telemetry : Telemetry) (context : StepContext)
    (content : String) : Run :=
  Run.begin plan.workers signal telemetry (plan.jobs context content)

/-- The report on a content, and the telemetry after it. -/
def reviewContent (plan : ReviewPlan) (signal : Bool) (telemetry : Telemetry)
    (context : StepContext) (content : String) : RunReport × Telemetry :=
  let (_, run) := Clock.drive {} (plan.runOn signal telemetry context content)
  (run.report, run.closing)

end ReviewPlan

/-- Where a review of several files is. -/
inductive Stage where
  /-- No file is under review. -/
  | between (signal : Bool) (telemetry : Telemetry)
  /-- A file is under review. -/
  | within (path : Path) (lineCount : Nat) (run : Run)

/-- A review of several files under way. -/
structure Review (σ : Type) where
  plan : ReviewPlan
  files : σ
  waiting : List Path
  stage : Stage
  /-- How many executors of runs that are over have not returned. -/
  stragglers : Nat
  report : DirectoryReport

/-- What can happen in a review. -/
inductive ReviewAction where
  /-- The next file is read, and its run begins if it can be read. -/
  | openFile
  /-- Something happens in the run. -/
  | inRun (a : Action)
  /-- The run is over, and its report is taken. -/
  | closeFile
  /-- A straggler returns. -/
  | leave
  /-- Someone cancels the review between two files. -/
  | cancel
deriving DecidableEq, Repr

namespace Review

variable {σ : Type}

def begin (plan : ReviewPlan) (signal : Bool) (telemetry : Telemetry) (files : σ)
    (paths : List Path) : Review σ :=
  ⟨plan, files, paths, .between signal telemetry, 0, DirectoryReport.empty⟩

/-- How many executors are handed over and have not returned. -/
def executing (r : Review σ) : Nat :=
  match r.stage with
  | .between .. => r.stragglers
  | .within _ _ run => r.stragglers + run.executing

/-- Note a file that cannot be read. -/
def noteUnread (r : Review σ) (p : Path) (cause : FileError) (signal : Bool)
    (telemetry : Telemetry) : Review σ :=
  let text := (RunError.ofFileError p cause).message
  { r with
    stage := .between signal (telemetry.report (.fileSkipped p text))
    report := { r.report with failures := r.report.failures.insert p text } }

/-- The review after the next file was read. -/
def openFile [FileAccess σ] (r : Review σ) : Option (Review σ) :=
  match r.stage, r.waiting with
  | .between signal telemetry, p :: ps =>
    match FileAccess.read p r.files with
    | .error _ _ => none
    | .ok (.error cause) files =>
      some ({ r with files := files, waiting := ps }.noteUnread p cause signal telemetry)
    | .ok (.ok content) files =>
      some
        { r with
          files := files
          waiting := ps
          stage :=
            .within p (lineCount content)
              (r.plan.runOn signal telemetry (fileContext p) content) }
  | _, _ => none

/-- The review after the report of a run that is over was taken. -/
def closeFile (r : Review σ) : Option (Review σ) :=
  match r.stage with
  | .between .. => none
  | .within p lineCount run =>
    if run.isOver then
      some
        { r with
          stage := .between run.signal run.closing
          stragglers := r.stragglers + run.executing
          report :=
            { r.report with files := r.report.files.insert p ⟨p, lineCount, run.report⟩ } }
    else none

/-- The review after something happened in the run. -/
def inRun (r : Review σ) (a : Action) : Option (Review σ) :=
  match r.stage with
  | .between .. => none
  | .within p lineCount run =>
    (run.act a).map fun run => { r with stage := .within p lineCount run }

/-- The review after an action, if the action is possible. -/
def act [FileAccess σ] (r : Review σ) : ReviewAction → Option (Review σ)
  | .openFile => r.openFile
  | .inRun a => r.inRun a
  | .closeFile => r.closeFile
  | .leave => if r.stragglers = 0 then none else some { r with stragglers := r.stragglers - 1 }
  | .cancel =>
    match r.stage with
    | .between _ telemetry => some { r with stage := .between true telemetry }
    | .within .. => none

/-- Whether every file was dealt with. -/
def isOver (r : Review σ) : Bool :=
  match r.stage with
  | .between .. => r.waiting.isEmpty
  | .within .. => false

/-- The telemetry of a review that is over, its end included. -/
def closing (r : Review σ) : Telemetry :=
  match r.stage with
  | .between _ telemetry =>
    telemetry.report (.directoryFinished r.report.files.size r.report.failures.size)
  | .within _ _ run => run.telemetry

def reviewNext [FileAccess σ] (c : Clock) (r : Review σ) : Option (Clock × Review σ) := do
  let r ← r.openFile
  match r.stage with
  | .between .. => return (c, r)
  | .within p lineCount run =>
    let (c, run) := c.drive run
    let r ← { r with stage := .within p lineCount run }.closeFile
    return (c.carryOver, r)

/-- Deal with that many files by the clock. -/
def reviewFor [FileAccess σ] : Nat → Clock → Review σ → Review σ
  | 0, _, r => r
  | files + 1, c, r =>
    match r.reviewNext c with
    | none => r
    | some (c, r) => reviewFor files c r

/-- Deal with every file by the clock. -/
def toEnd [FileAccess σ] (r : Review σ) : Review σ :=
  reviewFor r.waiting.length {} r

end Review

/-- The report on a file and the telemetry after it, or why the file could not be reviewed. -/
def reviewFile {σ : Type} [FileAccess σ] (plan : ReviewPlan) (signal : Bool)
    (telemetry : Telemetry) (p : Path) :
    Attempt σ (Except RunError (FileReport × Telemetry)) := do
  match ← FileAccess.read p with
  | .error cause => return .error (RunError.ofFileError p cause)
  | .ok content =>
    let (report, telemetry) := plan.reviewContent signal telemetry (fileContext p) content
    return .ok (⟨p, lineCount content, report⟩, telemetry)

/-- The report on a list of files and the telemetry after it. -/
def reviewDirectory {σ : Type} [FileAccess σ] (plan : ReviewPlan) (signal : Bool)
    (telemetry : Telemetry) (files : σ) (paths : List Path) : DirectoryReport × Telemetry :=
  let r := (Review.begin plan signal telemetry files paths).toEnd
  (r.report, r.closing)

end CodeReview
