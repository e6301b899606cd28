import CodeReview.Change.Request
import CodeReview.OrderedMap

/-!
# Records of changes

Every attempt at a change leaves a record that says what became of it.  A summary counts the records
by what became of them.
-/

namespace CodeReview

/-- What became of a change. -/
inductive ChangeStatus where
  | applied
  | rejected
  | undone
  | failed
deriving DecidableEq, Repr, Inhabited

namespace ChangeStatus

/-- All of them. -/
def all : List ChangeStatus :=
  [.applied, .rejected, .undone, .failed]

def name : ChangeStatus → String
  | .applied => "applied"
  | .rejected => "rejected"
  | .undone => "undone"
  | .failed => "failed"

def ofName? (name : String) : Option ChangeStatus :=
  all.find? fun s => s.name = name

end ChangeStatus

structure ChangeRecord where
  id : String
  file : Path
  line : Nat
  expected : String
  suggested : String
  backup : Option Path
  /-- The digest of the backup, which an undo checks. -/
  digest : Option String
  status : ChangeStatus
  error : Option String
deriving DecidableEq, Repr

namespace ChangeRecord

/-- The record of a request without backup and error. -/
def ofRequest (id : String) (r : ChangeRequest) (status : ChangeStatus) : ChangeRecord :=
  ⟨id, r.file, r.line, r.expected, r.suggested, none, none, status, none⟩

/-- Whether a record is about a file. -/
def isFor (r : ChangeRecord) (p : Path) : Bool :=
  r.file.same p

end ChangeRecord

/-- What a request that was accepted leads to. -/
inductive ChangeOutcome where
  | applied (record : ChangeRecord)
  /-- Nothing was written; this is what the file would hold. -/
  | previewed (file : Path) (content : String)
deriving DecidableEq, Repr

def ChangeOutcome.record? : ChangeOutcome → Option ChangeRecord
  | .applied record => some record
  | .previewed .. => none

structure BatchFailure where
  file : Path
  line : Nat
  error : String
deriving DecidableEq, Repr

/-- What became of a batch of changes. -/
structure BatchReport where
  applied : Nat := 0
  previewed : Nat := 0
  failed : Nat := 0
  errors : List BatchFailure := []
deriving DecidableEq, Repr, Inhabited

namespace BatchReport

/-- Whether nothing failed. -/
def isClean (r : BatchReport) : Bool :=
  r.failed = 0

def add (r : BatchReport) (q : ChangeRequest) : Except ChangeError ChangeOutcome → BatchReport
  | .ok (.applied _) => { r with applied := r.applied + 1 }
  | .ok (.previewed ..) => { r with previewed := r.previewed + 1 }
  | .error e =>
    { r with failed := r.failed + 1, errors := r.errors ++ [⟨q.file, q.line, e.message⟩] }

end BatchReport

/-- How many changes there are of each status, and which files were affected. -/
structure ChangeSummary where
  applied : Nat
  rejected : Nat
  undone : Nat
  failed : Nat
  pending : Nat
  /-- The files with a change that is applied or undone. -/
  affected : OrderedSet Path

namespace ChangeSummary

def countOf (history : List ChangeRecord) (s : ChangeStatus) : Nat :=
  history.countP fun r => r.status = s

def touched (r : ChangeRecord) : Bool :=
  r.status = .applied || r.status = .undone

/-- The summary of a history with so many requests pending. -/
def ofHistory (history : List ChangeRecord) (pending : Nat) : ChangeSummary where
  applied := countOf history .applied
  rejected := countOf history .rejected
  undone := countOf history .undone
  failed := countOf history .failed
  pending := pending
  affected := OrderedSet.ofKeys ((history.filter touched).map ChangeRecord.file)

end ChangeSummary

end CodeReview
