import CodeReview.Edit
import CodeReview.Files.Access

/-!
# Requests for changes

A request asks for a block of lines of a file to be replaced.  This module also says what may come in
the way of a change.
-/

namespace CodeReview

/-- A request to replace the lines `expected` at line `line` of a file by `suggested`. -/
structure ChangeRequest where
  file : Path
  line : Nat
  expected : String
  suggested : String
deriving DecidableEq, Repr, Inhabited

/-- What makes a request meaningless. -/
inductive RequestFault where
  | noFile
  | noLine
  | noExpected
deriving DecidableEq, Repr

def RequestFault.message : RequestFault → String
  | .noFile => "file path is empty"
  | .noLine => "line numbers start at 1"
  | .noExpected => "original code is empty"

inductive UndoObstacle where
  | nothingApplied
  | withoutBackup (change : String)
  | backupMissing (backup : Path)
  | backupAltered (backup : Path)
deriving DecidableEq, Repr

def UndoObstacle.message : UndoObstacle → String
  | .nothingApplied => "no applied changes"
  | .withoutBackup change => "change " ++ change ++ " has no backup"
  | .backupMissing backup => "backup " ++ backup.text ++ " is missing"
  | .backupAltered backup => "backup " ++ backup.text ++ " does not match its recorded digest"

/-- Why something that was asked of a change manager was not done. -/
inductive ChangeError where
  /-- The lines of the file are not the ones that are to be replaced. -/
  | conflict (file : Path) (line : Nat) (cause : EditError)
  /-- The file was backed up but could not be written. -/
  | applyFailed (file backup : Path) (rolledBack : Bool) (cause : FileError)
  /-- The file has no backup. -/
  | noBackup (file : Path)
  /-- No change can be undone. -/
  | nothingToUndo (obstacle : UndoObstacle)
  /-- A call on files failed. -/
  | fileAccess (path : Path) (cause : FileError)
  /-- The request makes no sense. -/
  | invalidRequest (fault : RequestFault)
deriving DecidableEq, Repr

namespace ChangeError

def message : ChangeError → String
  | .conflict file line cause =>
    "change conflict in " ++ file.text ++ " at line " ++ decimal line ++ ": " ++ cause.message
  | .applyFailed file backup rolledBack cause =>
    "applying change to " ++ file.text ++ " failed (rolled back: " ++
      (if rolledBack then "true" else "false") ++ ", backup: " ++ backup.text ++ "): " ++
      cause.message
  | .noBackup file => "no backup available for " ++ file.text
  | .nothingToUndo obstacle => "no change to undo: " ++ obstacle.message
  | .fileAccess path cause => "file access error on " ++ path.text ++ ": " ++ cause.message
  | .invalidRequest fault => "invalid change request: " ++ fault.message

/-- Whether files were written before the failure. -/
def hadSideEffects : ChangeError → Bool
  | .applyFailed .. => true
  | _ => false

/-- Whether a failed write was taken back. -/
def isRolledBack : ChangeError → Bool
  | .applyFailed _ _ rolledBack _ => rolledBack
  | _ => false

end ChangeError

namespace ChangeRequest

def fault? (r : ChangeRequest) : Option RequestFault :=
  if r.file.text = "" then some .noFile
  else if r.line = 0 then some .noLine
  else if r.expected = "" then some .noExpected
  else none

/-- Check that a request makes sense. -/
def validate (r : ChangeRequest) : Except ChangeError Unit :=
  match r.fault? with
  | some fault => .error (.invalidRequest fault)
  | none => .ok ()

end ChangeRequest

end CodeReview
