import CodeReview.Backup
import CodeReview.Change.Record
import CodeReview.Config.Settings
import CodeReview.Document.Fields

/-!
# Documents of changes

The JSON forms of requests, records and backups, of what became of batches, and of the settings of a
change manager.
-/

namespace CodeReview

namespace ChangeConfig

/-- Read settings; what is missing is as in the given ones. -/
def ofJson? (c : ChangeConfig) (j : Json) : Option ChangeConfig := do
  let fields : Fields :=
    [("backup_dir", .defaulted), ("max_backups", .defaulted), ("dry_run", .defaulted),
     ("confirm_changes", .defaulted)]
  let [dir, limit, dryRun, confirm] ← fields.read j | none
  some
    ⟨← Json.orElse c.backupDir Json.asPath dir, ← Json.orElse c.maxBackups Json.asNat limit,
     ← Json.orElse c.dryRun Json.asBool dryRun, ← Json.orElse c.confirmChanges Json.asBool confirm⟩

/-- Write settings. -/
def toJson (c : ChangeConfig) : Json :=
  Json.obj
    [("backup_dir", Json.ofPath c.backupDir), ("max_backups", Json.nat c.maxBackups),
     ("dry_run", .bool c.dryRun), ("confirm_changes", .bool c.confirmChanges)]

end ChangeConfig

namespace ChangeRequest

def ofJson? (j : Json) : Option ChangeRequest := do
  let fields : Fields :=
    [("file_path", .required), ("line_number", .required), ("original_code", .required),
     ("suggested_code", .required)]
  let [some file, some line, some expected, some suggested] ← fields.read j | none
  some ⟨← file.asPath, ← line.asNat, ← expected.asString, ← suggested.asString⟩

def toJson (q : ChangeRequest) : Json :=
  Json.obj
    [("file_path", Json.ofPath q.file), ("line_number", Json.nat q.line),
     ("original_code", Json.str q.expected), ("suggested_code", Json.str q.suggested)]

end ChangeRequest

namespace BatchFailure

def ofJson? (j : Json) : Option BatchFailure := do
  let fields : Fields :=
    [("file_path", .required), ("line_number", .required), ("error", .required)]
  let [some file, some line, some error] ← fields.read j | none
  some ⟨← file.asPath, ← line.asNat, ← error.asString⟩

def toJson (f : BatchFailure) : Json :=
  Json.obj
    [("file_path", Json.ofPath f.file), ("line_number", Json.nat f.line),
     ("error", Json.str f.error)]

end BatchFailure

namespace BatchReport

def ofJson? (j : Json) : Option BatchReport := do
  let fields : Fields :=
    [("applied", .required), ("previewed", .required), ("failed", .required),
     ("errors", .required)]
  let [some applied, some previewed, some failed, some errors] ← fields.read j | none
  some
    ⟨← applied.asNat, ← previewed.asNat, ← failed.asNat, ← errors.asList BatchFailure.ofJson?⟩

def toJson (r : BatchReport) : Json :=
  Json.obj
    [("applied", Json.nat r.applied), ("previewed", Json.nat r.previewed),
     ("failed", Json.nat r.failed), ("errors", Json.list BatchFailure.toJson r.errors)]

end BatchReport

namespace ChangeSummary

def ofJson? (j : Json) : Option ChangeSummary := do
  let fields : Fields :=
    [("applied", .required), ("rejected", .required), ("undone", .required), ("failed", .required),
     ("pending", .required), ("affected_files", .required)]
  let [some applied, some rejected, some undone, some failed, some pending, some affected] ←
    fields.read j | none
  some
    ⟨← applied.asNat, ← rejected.asNat, ← undone.asNat, ← failed.asNat, ← pending.asNat,
     OrderedSet.ofKeys (← affected.asList Json.asPath)⟩

def toJson (s : ChangeSummary) : Json :=
  Json.obj
    [("applied", Json.nat s.applied), ("rejected", Json.nat s.rejected),
     ("undone", Json.nat s.undone), ("failed", Json.nat s.failed), ("pending", Json.nat s.pending),
     ("affected_files", Json.list Json.ofPath s.affected.keys)]

end ChangeSummary

/-- A backup with the moment it was taken. -/
structure DatedBackup extends BackupEntry where
  createdAt : Timestamp

/-- Write a backup without its moment. -/
def BackupEntry.toJson (e : BackupEntry) : Json :=
  Json.obj
    [("file_path", Json.ofPath e.file), ("backup_path", Json.ofPath e.backup),
     ("digest", Json.str e.digest)]

namespace DatedBackup

def ofJson? (j : Json) : Option DatedBackup := do
  let fields : Fields :=
    [("file_path", .required), ("backup_path", .required), ("digest", .required),
     ("created_at", .required)]
  let [some file, some backup, some digest, some created] ← fields.read j | none
  some ⟨⟨← file.asPath, ← backup.asPath, ← digest.asString⟩, ← created.asTimestamp⟩

def toJson (e : DatedBackup) : Json :=
  e.toBackupEntry.toJson.withMembers [("created_at", Json.ofTimestamp e.createdAt)]

end DatedBackup

/-- A record of a change with the moment it was made. -/
structure DatedRecord extends ChangeRecord where
  timestamp : Timestamp

/-- Write a record without its name and its moment. -/
def ChangeRecord.toJson (r : ChangeRecord) : Json :=
  Json.obj
    [("file_path", Json.ofPath r.file), ("line_number", Json.nat r.line),
     ("original_code", Json.str r.expected), ("suggested_code", Json.str r.suggested),
     ("backup_path", Json.opt Json.ofPath r.backup), ("backup_digest", Json.opt Json.str r.digest),
     ("status", Json.str r.status.name), ("error", Json.opt Json.str r.error)]

namespace DatedRecord

def ofJson? (j : Json) : Option DatedRecord := do
  let fields : Fields :=
    [("id", .required), ("file_path", .required), ("line_number", .required),
     ("original_code", .required), ("suggested_code", .required), ("backup_path", .nullable),
     ("backup_digest", .nullable), ("timestamp", .required), ("status", .required),
     ("error", .nullable)]
  let [some id, some file, some line, some expected, some suggested, backup, digest,
    some timestamp, some status, error] ← fields.read j | none
  let text := Json.orElse none (Json.asOption Json.asString)
  some
    ⟨⟨← id.asString, ← file.asPath, ← line.asNat, ← expected.asString, ← suggested.asString,
      ← Json.orElse none (Json.asOption Json.asPath) backup, ← text digest,
      ← status.asName ChangeStatus.ofName?, ← text error⟩,
     ← timestamp.asTimestamp⟩

def toJson (r : DatedRecord) : Json :=
  r.toChangeRecord.toJson.withMembers
    [("id", Json.str r.id), ("timestamp", Json.ofTimestamp r.timestamp)]

end DatedRecord

end CodeReview
