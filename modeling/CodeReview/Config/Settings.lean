import CodeReview.Files.Access
import CodeReview.Text.Characters
import CodeReview.Version

/-!
# Settings

The settings of reviews and of change managers: their defaults, what is valid, and how variables of
the environment override them.
-/

namespace CodeReview

/-- Why settings cannot be used. -/
inductive ConfigError where
  /-- The text of the settings cannot be read as such. -/
  | malformed
  /-- The file of the settings cannot be read. -/
  | unreadable (cause : FileError)
  /-- A setting has a value that makes no sense. -/
  | invalid (reason : String)
deriving DecidableEq, Repr

def ConfigError.message : ConfigError → String
  | .malformed => "config parse error"
  | .unreadable cause => "config io error: " ++ cause.message
  | .invalid reason => "invalid config: " ++ reason

/-- A number that a variable sets instead of a given one: a whole number of at most 64 bits with
blanks around it. -/
def Environment.overrideNumber (e : Environment) (name : String) (value : Nat) :
    Except ConfigError Nat :=
  match e.get? name with
  | none => .ok value
  | some raw =>
    match readWord? (trimChars raw.toList) with
    | some n => .ok n
    | none => .error (.invalid (name ++ "=" ++ raw))

/-- The settings of a review. -/
structure ReviewConfig where
  /-- How many steps are carried out at once, at most. -/
  maxWorkers : Nat := 4
  /-- How many seconds a step may take; zero is no limit. -/
  stepTimeoutSecs : Nat := 30
  /-- How many key findings a summary has, at most. -/
  keyFindingsLimit : Nat := 10
deriving DecidableEq, Repr, Inhabited

namespace ReviewConfig

/-- Check that there is a worker. -/
def validate (c : ReviewConfig) : Except ConfigError Unit :=
  if c.maxWorkers = 0 then .error (.invalid "max_workers must be at least 1") else .ok ()

def withOverrides (c : ReviewConfig) (e : Environment) : Except ConfigError ReviewConfig := do
  let workers ← e.overrideNumber "VAAHAI_MAX_WORKERS" c.maxWorkers
  let secs ← e.overrideNumber "VAAHAI_STEP_TIMEOUT_SECS" c.stepTimeoutSecs
  let c := { c with maxWorkers := workers, stepTimeoutSecs := secs }
  c.validate
  return c

/-- How many microseconds a step may take, if there is a limit. -/
def stepTimeout? (c : ReviewConfig) : Option Nat :=
  if c.stepTimeoutSecs = 0 then none else some (c.stepTimeoutSecs * 1000000)

end ReviewConfig

/-- The settings of a change manager. -/
structure ChangeConfig where
  /-- Where backups are written. -/
  backupDir : Path
  /-- How many backups are kept; zero keeps all. -/
  maxBackups : Nat := 50
  /-- Whether changes are only tried. -/
  dryRun : Bool := false
  /-- Whether to ask before a change; this is for the caller. -/
  confirmChanges : Bool := true
deriving DecidableEq, Repr, Inhabited

namespace ChangeConfig

/-- Where backups are written if nothing else is said. -/
def defaultBackupDir (e : Environment) : Path :=
  ((e.home?.getD ⟨"."⟩).join ⟨".vaahai"⟩).join ⟨"backups"⟩

/-- The settings if nothing is said. -/
def default (e : Environment) : ChangeConfig :=
  { backupDir := defaultBackupDir e }

/-- Check that there is a place for backups. -/
def validate (c : ChangeConfig) : Except ConfigError Unit :=
  if c.backupDir.text = "" then .error (.invalid "backup_dir must not be empty") else .ok ()

def withOverrides (c : ChangeConfig) (e : Environment) : Except ConfigError ChangeConfig := do
  let dir := ((e.get? "VAAHAI_BACKUP_DIR").map Path.mk).getD c.backupDir
  let limit ← e.overrideNumber "VAAHAI_MAX_BACKUPS" c.maxBackups
  let c := { c with backupDir := dir, maxBackups := limit }
  c.validate
  return c

end ChangeConfig

end CodeReview
