import CodeReview.Config.Settings
import CodeReview.Format.Toml
import CodeReview.Step

/-!
# Settings from TOML

Settings and step manifests are read from TOML documents.  What a document does not say keeps its
default, and what is unknown is ignored.  A value must be of the right kind; none is converted.
-/

namespace CodeReview

namespace Toml

def Value.string? : Value → Option String
  | .string s => some s
  | _ => none

/-- A value that is an integer and not negative. -/
def Value.nat? : Value → Option Nat
  | .integer i => if 0 ≤ i then some i.toNat else none
  | _ => none

/-- A value that is true or false. -/
def Value.bool? : Value → Option Bool
  | .boolean b => some b
  | _ => none

def Value.strings? : Value → Option (List String)
  | .array items => items.mapM Value.string?
  | _ => none

/-- The member of a name read in a way that may fail, and a default if there is no such member. -/
def field {α : Type} (members : List (String × Value)) (name : String) (read : Value → Option α)
    (default : α) : Option α :=
  match members.lookup name with
  | some v => read v
  | none => some default

end Toml

open Toml (field)

/-- Read settings or something like them from TOML. -/
def readToml {α : Type} (read : List (String × Toml.Value) → Option α) (text : String) :
    Except ConfigError α :=
  match (Toml.parse? text).bind read with
  | some a => .ok a
  | none => .error .malformed

namespace ReviewConfig

/-- The settings that the members of a document give. -/
def ofMembers (ms : List (String × Toml.Value)) : Option ReviewConfig := do
  let c : ReviewConfig := {}
  let workers ← field ms "max_workers" Toml.Value.nat? c.maxWorkers
  let secs ← field ms "step_timeout_secs" Toml.Value.nat? c.stepTimeoutSecs
  let limit ← field ms "key_findings_limit" Toml.Value.nat? c.keyFindingsLimit
  some ⟨workers, secs, limit⟩

/-- The valid settings of a document. -/
def ofToml (text : String) : Except ConfigError ReviewConfig := do
  let c ← readToml ofMembers text
  c.validate
  return c

/-- The settings of a file as the environment overrides them. -/
def load {σ : Type} [FileAccess σ] (e : Environment) (p : Path) :
    Attempt σ (Except ConfigError ReviewConfig) := do
  match ← FileAccess.read p with
  | .error cause => return .error (.unreadable cause)
  | .ok text => return (ofToml text).bind fun c => c.withOverrides e

end ReviewConfig

namespace ChangeConfig

/-- The settings that the members of a document give, and defaults for the rest. -/
def ofMembers (c : ChangeConfig) (ms : List (String × Toml.Value)) : Option ChangeConfig := do
  let dir ← field ms "backup_dir" (fun v => v.string?.map Path.mk) c.backupDir
  let limit ← field ms "max_backups" Toml.Value.nat? c.maxBackups
  let dryRun ← field ms "dry_run" Toml.Value.bool? c.dryRun
  let confirm ← field ms "confirm_changes" Toml.Value.bool? c.confirmChanges
  some ⟨dir, limit, dryRun, confirm⟩

/-- The valid settings of a document. -/
def ofToml (e : Environment) (text : String) : Except ConfigError ChangeConfig := do
  let c ← readToml (default e).ofMembers text
  c.validate
  return c

/-- The settings of a file as the environment overrides them. -/
def load {σ : Type} [FileAccess σ] (e : Environment) (p : Path) :
    Attempt σ (Except ConfigError ChangeConfig) := do
  match ← FileAccess.read p with
  | .error cause => return .error (.unreadable cause)
  | .ok text => return (ofToml e text).bind fun c => c.withOverrides e

end ChangeConfig

namespace StepManifest

/-- The manifest that the members of a document give. -/
def ofMembers (ms : List (String × Toml.Value)) : Option StepManifest := do
  let id ← field ms "id" Toml.Value.string? ""
  let name ← field ms "name" Toml.Value.string? ""
  let description ← field ms "description" Toml.Value.string? ""
  let category ← field ms "category" Toml.Value.string? ""
  let severity ← field ms "severity" Toml.Value.string? ""
  let tags ← field ms "tags" Toml.Value.strings? []
  some ⟨id, name, description, category, severity, tags⟩

/-- The manifest of a document. -/
def ofToml (text : String) : Except ConfigError StepManifest :=
  readToml ofMembers text

end StepManifest

end CodeReview
