import CodeReview.Issue
import CodeReview.Path

/-!
# Telemetry

Counters of what was done, and a record of the events that were reported.  An event is reported at a
level and inside the innermost span that is open; it is written as named fields, and events that
other programs look for carry their name in the field `event`.
-/

namespace CodeReview

/-- How many steps and changes came to which end, and how many backups were dropped. -/
structure Counters where
  stepsExecuted : Nat := 0
  stepsFailed : Nat := 0
  stepsSkipped : Nat := 0
  changesApplied : Nat := 0
  changesFailed : Nat := 0
  changesUndone : Nat := 0
  backupsEvicted : Nat := 0
deriving DecidableEq, Repr, Inhabited

inductive Counter where
  | stepsExecuted
  | stepsFailed
  | stepsSkipped
  | changesApplied
  | changesFailed
  | changesUndone
  | backupsEvicted
deriving DecidableEq, Repr

namespace Counter

/-- All counters in order. -/
def all : List Counter :=
  [.stepsExecuted, .stepsFailed, .stepsSkipped, .changesApplied, .changesFailed, .changesUndone,
   .backupsEvicted]

def name : Counter → String
  | .stepsExecuted => "steps_executed"
  | .stepsFailed => "steps_failed"
  | .stepsSkipped => "steps_skipped"
  | .changesApplied => "changes_applied"
  | .changesFailed => "changes_failed"
  | .changesUndone => "changes_undone"
  | .backupsEvicted => "backups_evicted"

def ofName? (name : String) : Option Counter :=
  all.find? fun c => c.name = name

end Counter

namespace Counters

/-- The value of a counter. -/
def get (cs : Counters) : Counter → Nat
  | .stepsExecuted => cs.stepsExecuted
  | .stepsFailed => cs.stepsFailed
  | .stepsSkipped => cs.stepsSkipped
  | .changesApplied => cs.changesApplied
  | .changesFailed => cs.changesFailed
  | .changesUndone => cs.changesUndone
  | .backupsEvicted => cs.backupsEvicted

/-- Add one to a counter. -/
def increment (cs : Counters) : Counter → Counters
  | .stepsExecuted => { cs with stepsExecuted := cs.stepsExecuted + 1 }
  | .stepsFailed => { cs with stepsFailed := cs.stepsFailed + 1 }
  | .stepsSkipped => { cs with stepsSkipped := cs.stepsSkipped + 1 }
  | .changesApplied => { cs with changesApplied := cs.changesApplied + 1 }
  | .changesFailed => { cs with changesFailed := cs.changesFailed + 1 }
  | .changesUndone => { cs with changesUndone := cs.changesUndone + 1 }
  | .backupsEvicted => { cs with backupsEvicted := cs.backupsEvicted + 1 }

theorem get_increment (cs : Counters) (c d : Counter) :
    (cs.increment c).get d = cs.get d + if c = d then 1 else 0 := by
  cases c <;> cases d <;> rfl

/-- The counters by name. -/
def toList (cs : Counters) : List (String × Nat) :=
  Counter.all.map fun c => (c.name, cs.get c)

end Counters

/-- How much an event matters. -/
inductive Level where
  | debug
  | info
  | warn
  | error
deriving DecidableEq, Repr

def Level.name : Level → String
  | .debug => "DEBUG"
  | .info => "INFO"
  | .warn => "WARN"
  | .error => "ERROR"

def Level.ofName? (name : String) : Option Level :=
  [Level.debug, .info, .warn, .error].find? fun l => l.name = name

inductive FieldValue where
  | text (s : String)
  | number (n : Nat)
  | flag (b : Bool)
deriving DecidableEq, Repr

/-- What can be reported. -/
inductive Event where
  /-- A run begins with that many steps. -/
  | runStarted (steps : Nat)
  /-- A step returned that many issues in time. -/
  | stepFinished (step : String) (issues : Nat)
  /-- A step returned an error, crashed or ran out of time. -/
  | stepFailed (step error : String)
  /-- A run came to its end. -/
  | runFinished (issues failedSteps : Nat) (cancelled : Bool)
  /-- A step was begun that could not be. -/
  | startRejected (step error : String)
  /-- A file of a directory could not be reviewed. -/
  | fileSkipped (path : Path) (error : String)
  /-- The files of a directory were all dealt with. -/
  | directoryFinished (files failed : Nat)
  /-- A step entered the registry. -/
  | stepRegistered (step : String) (category : Category)
  /-- A change was written. -/
  | changeApplied (file : Path) (line : Nat) (backup : Path)
  /-- A change was refused, or written and taken back. -/
  | changeFailed (file : Path) (line : Nat) (error : String)
  /-- A change was undone. -/
  | changeUndone (file backup : Path)
  /-- A change was tried without writing. -/
  | changePreviewed (file : Path) (line : Nat)
  /-- A change was declined. -/
  | changeRejected (file : Path) (line : Nat)
  /-- A batch of changes was dealt with. -/
  | batchFinished (applied previewed failed : Nat)
  /-- The text from before a change could not be written back. -/
  | rollbackFailed (file : Path) (error : String)
  /-- A backup was written. -/
  | backupCreated (file backup : Path)
  /-- A backup was dropped because there were too many. -/
  | backupEvicted (backup : Path)
  /-- The file of a dropped backup could not be deleted. -/
  | evictionFailed (backup : Path) (error : String)
  /-- A file got the text of its newest backup. -/
  | backupRestored (file backup : Path)
  /-- The counters at a moment. -/
  | flushed (counters : Counters)
deriving DecidableEq, Repr

namespace Event

/-- How much an event matters. -/
def level : Event → Level
  | .stepFailed .. | .startRejected .. | .fileSkipped .. | .changeFailed .. | .evictionFailed .. =>
    .warn
  | .rollbackFailed .. => .error
  | .directoryFinished .. | .stepRegistered .. | .changePreviewed .. | .changeRejected ..
  | .backupCreated .. => .debug
  | _ => .info

/-- The fields of an event that carries a name. -/
def named (name : String) (fields : List (String × FieldValue)) : List (String × FieldValue) :=
  ("event", .text name) :: fields

/-- The fields of an event that carries a message. -/
def saying (text : String) (fields : List (String × FieldValue)) : List (String × FieldValue) :=
  ("message", .text text) :: fields

/-- How an event is written. -/
def fields : Event → List (String × FieldValue)
  | .runStarted steps => named "run.started" [("step_count", .number steps)]
  | .stepFinished step issues =>
    named "step.finished" [("step_id", .text step), ("issues", .number issues)]
  | .stepFailed step error => named "step.failed" [("step_id", .text step), ("error", .text error)]
  | .runFinished issues failedSteps cancelled =>
    named "run.finished"
      [("issues", .number issues), ("failed_steps", .number failedSteps),
       ("cancelled", .flag cancelled)]
  | .startRejected step error =>
    saying "progress start rejected" [("step_id", .text step), ("error", .text error)]
  | .fileSkipped path error =>
    saying "file review failed" [("path", .text path.text), ("error", .text error)]
  | .directoryFinished files failed =>
    saying "directory review finished" [("files", .number files), ("failed", .number failed)]
  | .stepRegistered step category =>
    saying "registered review step" [("step_id", .text step), ("category", .text category.name)]
  | .changeApplied file line backup =>
    named "change.applied"
      [("file_path", .text file.text), ("line", .number line), ("backup_path", .text backup.text)]
  | .changeFailed file line error =>
    named "change.failed"
      [("file_path", .text file.text), ("line", .number line), ("error", .text error)]
  | .changeUndone file backup =>
    named "change.undone" [("file_path", .text file.text), ("backup_path", .text backup.text)]
  | .changePreviewed file line =>
    saying "change previewed" [("file", .text file.text), ("line", .number line)]
  | .changeRejected file line =>
    saying "change rejected" [("file", .text file.text), ("line", .number line)]
  | .batchFinished applied previewed failed =>
    named "batch.finished"
      [("applied", .number applied), ("previewed", .number previewed), ("failed", .number failed)]
  | .rollbackFailed file error =>
    saying "rollback failed" [("file", .text file.text), ("error", .text error)]
  | .backupCreated file backup =>
    saying "backup created" [("file", .text file.text), ("backup", .text backup.text)]
  | .backupEvicted backup => named "backup.evicted" [("backup_path", .text backup.text)]
  | .evictionFailed backup error =>
    saying "failed to delete evicted backup"
      [("backup", .text backup.text), ("error", .text error)]
  | .backupRestored file backup =>
    saying "restored from backup" [("file", .text file.text), ("backup", .text backup.text)]
  | .flushed counters =>
    ("metric", .text "flush") :: counters.toList.map fun c => (c.1, .number c.2)

end Event

/-- An event as it was reported: inside that many open spans. -/
structure LogEntry where
  event : Event
  depth : Nat
deriving DecidableEq, Repr

def spanName : String := "vaahai.run"

/-- The name of the span that an event was reported in, if one was open. -/
def LogEntry.span? (r : LogEntry) : Option String :=
  if r.depth = 0 then none else some spanName

/-- The counters, the number of open spans and the events so far, oldest first. -/
structure Telemetry where
  counters : Counters := {}
  depth : Nat := 0
  log : List LogEntry := []
deriving DecidableEq, Repr, Inhabited

namespace Telemetry

def report (t : Telemetry) (e : Event) : Telemetry :=
  { t with log := t.log ++ [⟨e, t.depth⟩] }

/-- Add one to a counter. -/
def count (t : Telemetry) (c : Counter) : Telemetry :=
  { t with counters := t.counters.increment c }

/-- Open a span. -/
def enter (t : Telemetry) : Telemetry :=
  { t with depth := t.depth + 1 }

/-- Close the innermost span. -/
def leave (t : Telemetry) : Telemetry :=
  { t with depth := t.depth - 1 }

/-- Report the counters. -/
def flush (t : Telemetry) : Telemetry :=
  t.report (.flushed t.counters)

/-- Set every counter to zero. -/
def resetCounters (t : Telemetry) : Telemetry :=
  { t with counters := {} }

end Telemetry

end CodeReview
