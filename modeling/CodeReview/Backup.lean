import CodeReview.Change.Request
import CodeReview.Digest
import CodeReview.Telemetry

/-!
# Backups

A backup is a full copy of a file, taken before the file is written.  Its name is made of the name of
the file, the beginning of the digest of its path, a stamp and a number; the number is never given
twice, so names never collide, whatever the stamps are.

A store keeps track of backups, oldest first.  When there are too many, the oldest are dropped, except
those that are protected.
-/

namespace CodeReview

/-- A backup of a file. -/
structure BackupEntry where
  file : Path
  backup : Path
  digest : String
deriving DecidableEq, Repr

/-- The backups that are kept track of, oldest first.  A limit of zero means that none is dropped. -/
structure BackupStore where
  dir : Path
  limit : Nat
  /-- The stamp of the backup with a number. -/
  stamp : Nat → String
  entries : List BackupEntry
  /-- The number that the next backup gets. -/
  next : Nat

/-- The number of digits that a backup number has at least. -/
def backupDigits : Nat := 6

def backupName (file : Path) (stamp : String) (n : Nat) : String :=
  let name := (file.fileName?.map String.ofList).getD "file"
  let code := String.ofList ((digestOf file.text).toList.take 8)
  name ++ "." ++ code ++ "." ++ stamp ++ "." ++ paddedDecimal backupDigits n ++ ".bak"

namespace BackupStore

def new (dir : Path) (limit : Nat) (stamp : Nat → String) : BackupStore :=
  ⟨dir, limit, stamp, [], 0⟩

/-- The path of the next backup of a file; its number is used up. -/
def reserve (s : BackupStore) (file : Path) : Path × BackupStore :=
  (s.dir.join ⟨backupName file (s.stamp s.next) s.next⟩, { s with next := s.next + 1 })

/-- Keep track of a backup. -/
def record (s : BackupStore) (e : BackupEntry) : BackupStore :=
  { s with entries := s.entries ++ [e] }

/-- The backups of a file, oldest first. -/
def forFile (s : BackupStore) (file : Path) : List BackupEntry :=
  s.entries.filter fun e => e.file.same file

def latestFor? (s : BackupStore) (file : Path) : Option BackupEntry :=
  s.entries.reverse.find? fun e => e.file.same file

/-- Forget all backups; their numbers stay used up. -/
def clear (s : BackupStore) : BackupStore :=
  { s with entries := [] }

/-- Drop the oldest entries that may be dropped, at most `excess` of them: the dropped ones and the
others. -/
def dropOldest (droppable : BackupEntry → Bool) :
    Nat → List BackupEntry → List BackupEntry × List BackupEntry
  | 0, es => ([], es)
  | excess + 1, es =>
    match es.find? droppable with
    | none => ([], es)
    | some e =>
      let (dropped, kept) := dropOldest droppable excess (es.eraseP droppable)
      (e :: dropped, kept)

/-- Whether a backup is none of the protected ones. -/
def mayDrop (guarded : List Path) (e : BackupEntry) : Bool :=
  !guarded.any fun p => p.same e.backup

/-- Drop the oldest backups that are not protected until the limit is kept, if that is possible: the
paths of the dropped ones, oldest first. -/
def enforceLimit (s : BackupStore) (guarded : List Path) : List Path × BackupStore :=
  if s.limit = 0 then ([], s)
  else
    let (dropped, kept) := dropOldest (mayDrop guarded) (s.entries.length - s.limit) s.entries
    (dropped.map BackupEntry.backup, { s with entries := kept })

end BackupStore

/-- A backup store over files. -/
structure Vault (σ : Type) where
  files : σ
  telemetry : Telemetry
  store : BackupStore

namespace Vault

variable {σ : Type}

def onFiles {α : Type} (act : Attempt σ α) : Attempt (Vault σ) α := fun v =>
  match act v.files with
  | .ok a files => .ok a { v with files := files }
  | .error e files => .error e { v with files := files }

def report (e : Event) : Attempt (Vault σ) Unit :=
  modify fun v => { v with telemetry := v.telemetry.report e }

/-- Add one to a counter. -/
def count (c : Counter) : Attempt (Vault σ) Unit :=
  modify fun v => { v with telemetry := v.telemetry.count c }

def reserve (file : Path) : Attempt (Vault σ) Path :=
  modifyGet fun v =>
    let (backup, store) := v.store.reserve file
    (backup, { v with store := store })

/-- Keep track of a backup. -/
def record (e : BackupEntry) : Attempt (Vault σ) Unit :=
  modify fun v => { v with store := v.store.record e }

/-- Drop backups that are too many. -/
def enforceLimit (guarded : List Path) : Attempt (Vault σ) (List Path) :=
  modifyGet fun v =>
    let (dropped, store) := v.store.enforceLimit guarded
    (dropped, { v with store := store })

variable [FileAccess σ]

/-- The text of a file. -/
def read (p : Path) : Attempt (Vault σ) (Except FileError String) :=
  onFiles (FileAccess.read p)

def write (p : Path) (text : String) : Attempt (Vault σ) (Except FileError Unit) :=
  onFiles (FileAccess.write p text)

def present (p : Path) : Attempt (Vault σ) Bool :=
  onFiles (FileAccess.present p)

/-- Reserve paths for a backup until there is nothing at one, at most `tries` paths. -/
def freshPathWithin (file : Path) : Nat → Attempt (Vault σ) Path
  | 0 => throw ⟨"no free backup name"⟩
  | tries + 1 => do
    let backup ← reserve file
    if ← present backup then freshPathWithin file tries else return backup

/-- Reserve a path for a backup that there is nothing at.  Reserved paths differ from each other, so
one more than can be occupied are enough. -/
def freshPath (file : Path) : Attempt (Vault σ) Path := do
  freshPathWithin file (FileAccess.occupied (← get).files + 1)

/-- Write a backup of a file to a path; it is not kept track of yet. -/
def writeBackup (file backup : Path) (contents : String) :
    Attempt (Vault σ) (Except ChangeError BackupEntry) := do
  if let some dir := backup.parent? then
    if let .error cause ← onFiles (FileAccess.makeDirs dir) then
      return .error (.fileAccess dir cause)
  match ← write backup contents with
  | .error cause => return .error (.fileAccess backup cause)
  | .ok () =>
    report (.backupCreated file backup)
    return .ok ⟨file, backup, digestOf contents⟩

/-- Write a backup of a file to a fresh path; it is not kept track of yet. -/
def takeBackup (file : Path) (contents : String) :
    Attempt (Vault σ) (Except ChangeError BackupEntry) := do
  writeBackup file (← freshPath file) contents

/-- Write a backup of a file and keep track of it. -/
def create (file : Path) (contents : String) :
    Attempt (Vault σ) (Except ChangeError BackupEntry) := do
  let result ← takeBackup file contents
  if let .ok e := result then record e
  return result

/-- Read a backup and check its digest, if one is known. -/
def readVerified (backup : Path) (digest : Option String) :
    Attempt (Vault σ) (Except ChangeError String) := do
  match ← read backup with
  | .error cause => return .error (.fileAccess backup cause)
  | .ok contents =>
    if digest.all (· = digestOf contents) then return .ok contents
    else return .error (.fileAccess backup .digestMismatch)

/-- Delete the file of a dropped backup.  It may be gone already; any other failure is reported. -/
def removeFile (backup : Path) : Attempt (Vault σ) Unit := do
  match ← onFiles (FileAccess.remove backup) with
  | .ok () => return ()
  | .error cause =>
    if cause.kind = .notFound then return () else report (.evictionFailed backup cause.message)

/-- Delete the files of dropped backups. -/
def removeFiles (backups : List Path) : Attempt (Vault σ) Unit :=
  backups.forM removeFile

end Vault

end CodeReview
