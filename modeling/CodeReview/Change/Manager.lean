import CodeReview.Backup
import CodeReview.Change.Record
import CodeReview.Config.Settings

/-!
# Change manager

A change manager applies requests to files.  Before it writes a file it takes a backup, and when a
write fails it puts the old text back, so a request either takes effect as a whole or leaves the file
as it was.  Every attempt is recorded in the history; the changes that are applied stand on a stack
from which the latest is undone, by way of its backup.  Requests may wait in a batch, which is applied
file by file and from the bottom of each file upwards, so that no change moves the lines of another.

An undo has three parts: it selects the latest change, writes the backup back, and notes the change as
undone.
-/

namespace CodeReview

/-- A change manager over files. -/
structure Manager (σ : Type) where
  config : ChangeConfig
  vault : Vault σ
  history : List ChangeRecord
  /-- The places in the history of the applied changes, the latest last. -/
  undoStack : List Nat
  pending : List ChangeRequest
  /-- How many records were made. -/
  issued : Nat
  /-- The id of the record with a number.  Ids are drawn from a source outside. -/
  recordId : Nat → String

namespace Manager

variable {σ : Type}

/-- A manager that has done nothing yet. -/
def new (config : ChangeConfig) (stamp : Nat → String) (telemetry : Telemetry) (files : σ)
    (recordId : Nat → String := decimal) : Manager σ where
  config := config
  vault := ⟨files, telemetry, BackupStore.new config.backupDir config.maxBackups stamp⟩
  history := []
  undoStack := []
  pending := []
  issued := 0
  recordId := recordId

def inVault {α : Type} (act : Attempt (Vault σ) α) : Attempt (Manager σ) α := fun m =>
  match act m.vault with
  | .ok a vault => .ok a { m with vault := vault }
  | .error e vault => .error e { m with vault := vault }

def report (e : Event) : Attempt (Manager σ) Unit :=
  inVault (Vault.report e)

/-- Add one to a counter. -/
def count (c : Counter) : Attempt (Manager σ) Unit :=
  inVault (Vault.count c)

/-- The id of the next record; it is used up. -/
def issue : Attempt (Manager σ) String :=
  modifyGet fun m => (m.recordId m.issued, { m with issued := m.issued + 1 })

/-- Add a record to the history. -/
def push (r : ChangeRecord) : Attempt (Manager σ) Unit :=
  modify fun m => { m with history := m.history ++ [r] }

/-- The backup of the latest applied change of each file. -/
def protectedBackups (history : List ChangeRecord) : List Path :=
  let latest : OrderedMap Path Path := history.foldl (fun latest r =>
    match r.status, r.backup with
    | .applied, some backup => latest.insert r.file backup
    | _, _ => latest) ∅
  latest.values

/-- Count and report a failed attempt and, unless changes are only tried, record it with the backup
that was taken for it. -/
def recordFailure (q : ChangeRequest) (e : ChangeError) (backup : Option BackupEntry) :
    Attempt (Manager σ) Unit := do
  count .changesFailed
  report (.changeFailed q.file q.line e.message)
  if (← get).config.dryRun then return ()
  let r := ChangeRecord.ofRequest (← issue) q .failed
  if let some b := backup then inVault (Vault.record b)
  push
    { r with
      error := some e.message
      backup := backup.map BackupEntry.backup
      digest := backup.map BackupEntry.digest }

/-- Record a failed attempt and answer with its error. -/
def refuse {α : Type} (q : ChangeRequest) (e : ChangeError) (backup : Option BackupEntry) :
    Attempt (Manager σ) (Except ChangeError α) := do
  recordFailure q e backup
  return .error e

/-- Record an applied change with its backup, and drop backups that are too many. -/
def commit (q : ChangeRequest) (b : BackupEntry) :
    Attempt (Manager σ) (ChangeRecord × List Path) := do
  let r :=
    { ChangeRecord.ofRequest (← issue) q .applied with
      backup := some b.backup
      digest := some b.digest }
  inVault (Vault.record b)
  push r
  modify fun m => { m with undoStack := m.undoStack ++ [m.history.length - 1] }
  let dropped ← inVault (Vault.enforceLimit (protectedBackups (← get).history))
  return (r, dropped)

variable [FileAccess σ]

/-- Delete the files of dropped backups, count and report them. -/
def discard (dropped : List Path) : Attempt (Manager σ) Unit := do
  inVault (Vault.removeFiles dropped)
  dropped.forM fun p => do
    count .backupsEvicted
    report (.backupEvicted p)

/-- Put the old text of a file back: whether that succeeded. -/
def rollBack (file : Path) (old : String) : Attempt (Manager σ) Bool := do
  match ← inVault (Vault.write file old) with
  | .ok () => return true
  | .error cause =>
    report (.rollbackFailed file cause.message)
    return false

/-- Write a file, and put its old text back if that fails or crashes.  A failure comes with whether
putting it back succeeded. -/
def replaceText (file : Path) (old new : String) :
    Attempt (Manager σ) (Except (FileError × Bool) Unit) := do
  let written ← try inVault (Vault.write file new)
    catch crash => do
      let _ ← rollBack file old
      throw crash
  match written with
  | .ok () => return .ok ()
  | .error cause => return .error (cause, ← rollBack file old)

/-- Back a file up, write its new text and record the change. -/
def carryOut (q : ChangeRequest) (old new : String) :
    Attempt (Manager σ) (Except ChangeError ChangeOutcome) := do
  match ← inVault (Vault.takeBackup q.file old) with
  | .error e => refuse q e none
  | .ok b =>
    match ← replaceText q.file old new with
    | .error (cause, rolledBack) =>
      refuse q (.applyFailed q.file b.backup rolledBack cause) (some b)
    | .ok () =>
      let (r, dropped) ← commit q b
      discard dropped
      count .changesApplied
      report (.changeApplied q.file q.line b.backup)
      return .ok (.applied r)

def applyValid (q : ChangeRequest) : Attempt (Manager σ) (Except ChangeError ChangeOutcome) := do
  match ← inVault (Vault.read q.file) with
  | .error cause => refuse q (.fileAccess q.file cause) none
  | .ok old =>
    match Edit.replaceBlock old q.line q.expected q.suggested with
    | .error cause => refuse q (.conflict q.file q.line cause) none
    | .ok new =>
      if (← get).config.dryRun then
        report (.changePreviewed q.file q.line)
        return .ok (.previewed q.file new)
      else carryOut q old new

/-- Apply a request, or only try it if the settings say so. -/
def apply (q : ChangeRequest) : Attempt (Manager σ) (Except ChangeError ChangeOutcome) := do
  match q.validate with
  | .error e => return .error e
  | .ok () => applyValid q

omit [FileAccess σ] in
/-- Put a request into the batch: how many requests it then has. -/
def addPending (q : ChangeRequest) : Attempt (Manager σ) (Except ChangeError Nat) := do
  match q.validate with
  | .error e => return .error e
  | .ok () =>
    modify fun m => { m with pending := m.pending ++ [q] }
    return .ok (← get).pending.length

/-- The order in which a batch is applied: by file, from the bottom of a file upwards, and requests
for one line as they were put in. -/
def batchOrder (qs : List ChangeRequest) : List ChangeRequest :=
  let byFile : OrderedMap Path (List ChangeRequest) :=
    qs.foldl (fun byFile q => byFile.update q.file fun qs => qs.getD [] ++ [q]) ∅
  byFile.values.flatMap fun qs => qs.mergeSort fun a b => b.line ≤ a.line

/-- Apply requests one after another, whatever becomes of them. -/
def applyEach (report : BatchReport) : List ChangeRequest → Attempt (Manager σ) BatchReport
  | [] => return report
  | q :: qs => do applyEach (report.add q (← applyValid q)) qs

omit [FileAccess σ] in
/-- A computation inside a span, which is left in any case. -/
def inSpan {α : Type} (act : Attempt (Manager σ) α) : Attempt (Manager σ) α := fun m =>
  let leave (m : Manager σ) : Manager σ :=
    { m with vault := { m.vault with telemetry := m.vault.telemetry.leave } }
  match act { m with vault := { m.vault with telemetry := m.vault.telemetry.enter } } with
  | .ok a m => .ok a (leave m)
  | .error e m => .error e (leave m)

omit [FileAccess σ] in
def takePending : Attempt (Manager σ) (List ChangeRequest) :=
  modifyGet fun m => (m.pending, { m with pending := [] })

def applyPending : Attempt (Manager σ) BatchReport := do
  let qs ← takePending
  inSpan do
    let r ← applyEach {} (batchOrder qs)
    report (.batchFinished r.applied r.previewed r.failed)
    return r

omit [FileAccess σ] in
def reject (q : ChangeRequest) : Attempt (Manager σ) ChangeRecord := do
  let r := ChangeRecord.ofRequest (← issue) q .rejected
  push r
  report (.changeRejected q.file q.line)
  return r

/-- The latest applied change, with its place in the history. -/
def selectUndo? (m : Manager σ) : Option (Nat × ChangeRecord) := do
  let i ← m.undoStack.getLast?
  let r ← m.history[i]?
  return (i, r)

/-- Write the backup of a change back: the path of the backup.  The backup must be there and have the
digest that was recorded. -/
def restoreFrom (r : ChangeRecord) : Attempt (Manager σ) (Except ChangeError Path) := do
  match r.backup with
  | none => return .error (.nothingToUndo (.withoutBackup r.id))
  | some backup =>
    if !(← inVault (Vault.present backup)) then
      return .error (.nothingToUndo (.backupMissing backup))
    match ← inVault (Vault.read backup) with
    | .error cause => return .error (.fileAccess backup cause)
    | .ok contents =>
      if !r.digest.all (· = digestOf contents) then
        return .error (.nothingToUndo (.backupAltered backup))
      match ← inVault (Vault.write r.file contents) with
      | .error cause => return .error (.fileAccess r.file cause)
      | .ok () => return .ok backup

/-- A list without the last item that equals a given one. -/
def eraseLast (i : Nat) (is : List Nat) : List Nat :=
  (is.reverse.erase i).reverse

/-- The manager after the change at a place was noted as undone, and the record of the change.  If the
place holds another record by now, the history stays. -/
def noteUndone (m : Manager σ) (i : Nat) (r : ChangeRecord) : ChangeRecord × Manager σ :=
  let m := { m with undoStack := eraseLast i m.undoStack }
  let undone := { r with status := .undone }
  match m.history[i]? with
  | some old =>
    if old.id = r.id then
      let undone := { old with status := .undone }
      (undone, { m with history := m.history.set i undone })
    else (undone, m)
  | none => (undone, m)

omit [FileAccess σ] in
/-- Note a change as undone, count and report it. -/
def commitUndo (i : Nat) (r : ChangeRecord) (backup : Path) :
    Attempt (Manager σ) ChangeRecord := do
  let undone ← modifyGet fun m => m.noteUndone i r
  count .changesUndone
  report (.changeUndone undone.file backup)
  return undone

/-- Undo the latest applied change. -/
def undo : Attempt (Manager σ) (Except ChangeError ChangeRecord) := do
  match (← get).selectUndo? with
  | none => return .error (.nothingToUndo .nothingApplied)
  | some (i, r) =>
    match ← restoreFrom r with
    | .error e => return .error e
    | .ok backup => return .ok (← commitUndo i r backup)

/-- Take a backup of a file on its own. -/
def backUp (file : Path) : Attempt (Manager σ) (Except ChangeError BackupEntry) := do
  match ← inVault (Vault.read file) with
  | .error cause => return .error (.fileAccess file cause)
  | .ok contents =>
    match ← inVault (Vault.takeBackup file contents) with
    | .error e => return .error e
    | .ok b =>
      inVault (Vault.record b)
      let guarded := protectedBackups (← get).history ++ [b.backup]
      discard (← inVault (Vault.enforceLimit guarded))
      return .ok b

/-- Write the newest backup of a file back.  The history stays as it is. -/
def restoreLatest (file : Path) : Attempt (Manager σ) (Except ChangeError BackupEntry) := do
  match (← get).vault.store.latestFor? file with
  | none => return .error (.noBackup file)
  | some b =>
    match ← inVault (Vault.readVerified b.backup (some b.digest)) with
    | .error e => return .error e
    | .ok contents =>
      match ← inVault (Vault.write file contents) with
      | .error cause => return .error (.fileAccess file cause)
      | .ok () =>
        report (.backupRestored file b.backup)
        return .ok b

/-- The summary of the history. -/
def summary (m : Manager σ) : ChangeSummary :=
  ChangeSummary.ofHistory m.history m.pending.length

/-- The backups of a file, oldest first. -/
def backupsFor (m : Manager σ) (file : Path) : List BackupEntry :=
  m.vault.store.forFile file

omit [FileAccess σ] in
/-- Empty the batch: how many requests it had. -/
def clearPending : Attempt (Manager σ) Nat :=
  return (← takePending).length

/-- Forget history, batch and backups.  Files stay as they are. -/
def reset (m : Manager σ) : Manager σ :=
  { m with
    vault := { m.vault with store := m.vault.store.clear }
    history := []
    undoStack := []
    pending := [] }

end Manager

end CodeReview
