import CodeReview.Proofs.BatchOrder
import CodeReview.Proofs.History
import CodeReview.Proofs.Outcomes
import Mathlib.Data.List.Chain

/-!
# Runs of a change manager

A run is a list of actions: operations of the manager, and changes that others make to the files.  Its
`trace` lists the states it goes through, those inside a batch included.  From one state of a trace to
the next there is one `Step`, and a step has one of a few shapes, whatever operation it is part of
(`trace_isChain`); a step of the operations that change files by requests and undos only is `Working`
(`working_trace_isChain`).  An invariant of runs is shown for one step.
-/

namespace CodeReview

namespace Manager

/-! ## Actions and traces -/

/-- The manager after its files were changed from outside. -/
def touching (m : Manager MemoryFiles) (f : MemoryFiles → MemoryFiles) : Manager MemoryFiles :=
  { m with vault := { m.vault with files := f m.vault.files } }

/-- The manager at the beginning of its batch. -/
def entered (m : Manager MemoryFiles) : Manager MemoryFiles :=
  { m with
    pending := []
    vault := { m.vault with telemetry := m.vault.telemetry.enter } }

/-- The states after each of the requests of a batch. -/
def passes : List ChangeRequest → Manager MemoryFiles → List (Manager MemoryFiles)
  | [], _ => []
  | q :: qs, m => (applyValid q).endState m :: passes qs ((applyValid q).endState m)

/-- What can be done with a change manager over files in memory, and to its files from outside. -/
inductive Action where
  | apply (q : ChangeRequest)
  | applyPending
  | undo
  | reject (q : ChangeRequest)
  | backUp (file : Path)
  | restoreLatest (file : Path)
  | addPending (q : ChangeRequest)
  | clearPending
  | reset
  | overwrite (p : Path) (text : String)
  | delete (p : Path)
  | refuseWrites (p : Path)
  | acceptWrites (p : Path)
  | refuseReads (p : Path)

namespace Action

/-- The paths that an action names.  Refusals are settings of the files; they may concern any path. -/
def paths : Action → List Path
  | apply q | reject q | addPending q => [q.file]
  | backUp p | restoreLatest p | overwrite p _ | delete p => [p]
  | _ => []

/-- Whether some action of a run names a path. -/
def NamedBy (as : List Action) (p : Path) : Prop :=
  ∃ a ∈ as, p ∈ a.paths

/-- Whether an action leaves it to requests and undos to change files. -/
def isWorking : Action → Bool
  | restoreLatest _ | reset | overwrite .. | delete _ => false
  | _ => true

/-- The state after an action. -/
def after : Action → Manager MemoryFiles → Manager MemoryFiles
  | apply q => (Manager.apply q).endState
  | applyPending => Manager.applyPending.endState
  | undo => Manager.undo.endState
  | reject q => (Manager.reject q).endState
  | backUp file => (Manager.backUp file).endState
  | restoreLatest file => (Manager.restoreLatest file).endState
  | addPending q => (Manager.addPending q).endState
  | clearPending => Manager.clearPending.endState
  | reset => Manager.reset
  | overwrite p text => fun m => m.writing p text
  | delete p => fun m => m.touching (·.without p)
  | refuseWrites p => fun m => m.touching (·.refuseWrites p)
  | acceptWrites p => fun m => m.touching (·.acceptWrites p)
  | refuseReads p => fun m => m.touching (·.refuseReads p)

/-- The states inside an action: a batch applies its requests one after another. -/
def between : Action → Manager MemoryFiles → List (Manager MemoryFiles)
  | applyPending, m => m.entered :: Manager.passes (Manager.batchOrder m.pending) m.entered
  | _, _ => []

end Action

/-- The states that a run goes through. -/
def trace : List Action → Manager MemoryFiles → List (Manager MemoryFiles)
  | [], m => [m]
  | a :: as, m => m :: (a.between m ++ trace as (a.after m))

/-- The state after a run. -/
def run (as : List Action) (m : Manager MemoryFiles) : Manager MemoryFiles :=
  as.foldl (fun m a => a.after m) m

theorem trace_eq_cons (as : List Action) (m : Manager MemoryFiles) :
    ∃ rest, trace as m = m :: rest := by
  cases as with
  | nil => exact ⟨[], rfl⟩
  | cons a as => exact ⟨_, rfl⟩

theorem run_mem_trace (as : List Action) (m : Manager MemoryFiles) : run as m ∈ trace as m := by
  induction as generalizing m with
  | nil => exact List.mem_singleton_self m
  | cons a as ih => exact List.mem_cons_of_mem _ (List.mem_append_right _ (ih (a.after m)))

/-! ## Steps -/

/-- Two managers that differ in telemetry, refusals, batch and used up numbers only. -/
structure Alike (m m' : Manager MemoryFiles) : Prop where
  text : ∀ p, m'.text? p = m.text? p
  entries : m'.vault.store.entries = m.vault.store.entries
  limit : m'.vault.store.limit = m.vault.store.limit
  history : m'.history = m.history
  undoStack : m'.undoStack = m.undoStack

theorem Alike.refl (m : Manager MemoryFiles) : Alike m m :=
  ⟨fun _ => rfl, rfl, rfl, rfl, rfl⟩

theorem Alike.tracks {m m' : Manager MemoryFiles} (h : Alike m m') (p : Path) :
    m'.tracks p = m.tracks p := by
  unfold Manager.tracks
  rw [h.entries]

/-- The shapes of a step of the operations that change files by requests and undos.  A request may
name the paths that `named` admits. -/
inductive Working (named : Path → Prop) (m m' : Manager MemoryFiles) : Prop
  /-- Nothing that counts has changed. -/
  | quiet (halike : Alike m m')
  /-- An attempt that failed or was declined left a record. -/
  | noted {r : ChangeRecord} (hstatus : r.status = .failed ∨ r.status = .rejected)
      (halike : Alike (m.pushing r) m')
  /-- A failed write left a record and a backup. -/
  | spoiled {r : ChangeRecord} {b : BackupEntry} {text : String} (hstatus : r.status = .failed)
      (hfree : m.text? b.backup = none) (hdigest : b.digest = digestOf text)
      (halike : Alike (((m.writing b.backup text).recording b).pushing r) m')
  /-- A file was backed up on its own. -/
  | saved {b : BackupEntry} {text : String} (hfree : m.text? b.backup = none)
      (hdigest : b.digest = digestOf text)
      (halike : Alike ((m.writing b.backup text).keeping
        (protectedBackups m.history ++ [b.backup]) b) m')
  /-- A request took effect. -/
  | applied {q : ChangeRequest} {b : BackupEntry} {old new : String} (hnamed : named q.file)
      (hold : m.text? q.file = some old)
      (hedit : Edit.replaceBlock old q.line q.expected q.suggested = .ok new)
      (hfree : m.text? b.backup = none) (hdigest : b.digest = digestOf old)
      (halike : Alike (((m.writing b.backup old).writing q.file new).noteApplied q b) m')
  /-- The latest applied change was undone. -/
  | undone {i : Nat} {r : ChangeRecord} {b : Path} {text : String}
      (hselect : m.selectUndo? = some (i, r)) (hbackup : r.backup = some b)
      (htext : m.text? b = some text) (halike : Alike ((m.writing r.file text).marking i r) m')

inductive Step (named : Path → Prop) (m m' : Manager MemoryFiles) : Prop
  | working (h : Working named m m')
  /-- A file was written from outside, or its newest backup was written back. -/
  | written {p : Path} {text : String} (hnamed : named p) (halike : Alike (m.writing p text) m')
  | deleted {p : Path} (hnamed : named p) (halike : Alike (m.touching (·.without p)) m')
  | reset (halike : Alike m.reset m')

variable {named : Path → Prop} {m m' : Manager MemoryFiles}

/-- Noting a failure without a backup is a record, or nothing at all where changes are only tried. -/
theorem working_noteFailed {k : Manager MemoryFiles} (h : Alike m k) (q : ChangeRequest)
    (e : ChangeError) : Working named m (k.noteFailed q e none) := by
  unfold noteFailed
  cases k.config.dryRun with
  | true => exact .quiet ⟨h.text, h.entries, h.limit, h.history, h.undoStack⟩
  | false =>
    refine .noted (r := failedRecord (k.recordId k.issued) q e none) (Or.inl rfl)
      ⟨h.text, h.entries, h.limit, ?_, h.undoStack⟩
    simp [pushing, h.history]

theorem working_applying {q : ChangeRequest} {a : Except ChangeError ChangeOutcome}
    (hq : named q.file) (h : Applying m q a m') : Working named m m' := by
  cases h with
  | unreadable hread => exact working_noteFailed (.refl m) q _
  | conflict hread hedit => exact working_noteFailed (.refl m) q _
  | previewed hread hedit hdry => exact .quiet ⟨fun _ => rfl, rfl, rfl, rfl, rfl⟩
  | @backupRefused old new n hread hedit hlive hfree hbackup =>
    exact working_noteFailed (k := m.skipTo (n + 1)) (m := m) ⟨fun _ => rfl, rfl, rfl, rfl, rfl⟩ q _
  | @writeRefused old new n hread hedit hlive hfree hbackup htarget =>
    refine .spoiled (b := m.entryOf q.file n old) rfl hfree.free rfl
      ⟨?_, ?_, ?_, history_noteFailed _ _ _ hlive, undoStack_noteFailed _ _ _ _⟩
    · intro p
      exact text?_noteFailed _ _ _ _ p
    · exact entries_noteFailed _ _ _ hlive
    · unfold noteFailed
      split <;> rfl
  | @applied old new n hread hedit hlive hfree hbackup htarget =>
    exact .applied (b := m.entryOf q.file n old) hq (MemoryFiles.contents?_of_textAt hread) hedit
      hfree.free rfl ⟨fun _ => rfl, rfl, rfl, rfl, rfl⟩

theorem working_undoing {a : Except ChangeError ChangeRecord} (h : Undoing m a m') :
    Working named m m' := by
  cases h with
  | nothing hselect => exact .quiet (.refl m)
  | obstructed hselect hobstacle => exact .quiet (.refl m)
  | undone hselect hbackup hread hdigest htarget =>
    exact .undone hselect hbackup (MemoryFiles.contents?_of_textAt hread)
      ⟨fun _ => rfl, rfl, rfl, rfl, rfl⟩

theorem working_backingUp {file : Path} {a : Except ChangeError BackupEntry}
    (h : BackingUp m file a m') : Working named m m' := by
  cases h with
  | unreadable hread => exact .quiet (.refl m)
  | refused hread hfree hbackup => exact .quiet ⟨fun _ => rfl, rfl, rfl, rfl, rfl⟩
  | @taken contents n hread hfree hbackup =>
    exact .saved (b := m.entryOf file n contents) hfree.free rfl ⟨fun _ => rfl, rfl, rfl, rfl, rfl⟩

theorem step_restoring {file : Path} {a : Except ChangeError BackupEntry} (hfile : named file)
    (h : Restoring m file a m') : Step named m m' := by
  cases h with
  | restored hlatest hread hdigest htarget =>
    exact .written hfile ⟨fun _ => rfl, rfl, rfl, rfl, rfl⟩
  | _ => exact .working (.quiet (.refl m))

theorem Working.limit_eq (hstep : Working named m m') :
    m'.vault.store.limit = m.vault.store.limit := by
  cases hstep with
  | quiet halike => exact halike.limit
  | noted hstatus halike => exact halike.limit
  | spoiled hstatus hfree hdigest halike => exact halike.limit
  | saved hfree hdigest halike => exact halike.limit
  | applied hnamed hold hedit hfree hdigest halike => exact halike.limit
  | undone hselect hbackup htext halike => exact halike.limit

/-! ## Batches -/

/-- The state after all requests of a batch. -/
def settled (qs : List ChangeRequest) (m : Manager MemoryFiles) : Manager MemoryFiles :=
  qs.foldl (fun m q => (applyValid q).endState m) m

theorem applyValid_endState (q : ChangeRequest) (m : Manager MemoryFiles) :
    ∃ a, applyValid q m = .ok a ((applyValid q).endState m) ∧
      Applying m q a ((applyValid q).endState m) := by
  obtain ⟨a, m', hrun, hcase⟩ := applyValid_run q m
  rw [Attempt.endState_of_ok hrun]
  exact ⟨a, hrun, hcase⟩

theorem applyEach_run (report : BatchReport) (qs : List ChangeRequest) (m : Manager MemoryFiles) :
    ∃ report', applyEach report qs m = .ok report' (settled qs m) := by
  induction qs generalizing report m with
  | nil => exact ⟨report, rfl⟩
  | cons q qs ih =>
    obtain ⟨a, hrun, -⟩ := applyValid_endState q m
    unfold applyEach
    rw [Attempt.bind_of_ok hrun]
    exact ih _ _

/-- A batch ends where its last request left the manager, but for telemetry. -/
theorem applyPending_run (m : Manager MemoryFiles) :
    ∃ report' m', applyPending m = .ok report' m' ∧
      applyEach {} (batchOrder m.pending) m.entered =
        .ok report' (settled (batchOrder m.pending) m.entered) ∧
      Alike (settled (batchOrder m.pending) m.entered) m' ∧
      m'.pending = (settled (batchOrder m.pending) m.entered).pending ∧
      m'.vault.store = (settled (batchOrder m.pending) m.entered).vault.store := by
  obtain ⟨r, hrun⟩ := applyEach_run {} (batchOrder m.pending) m.entered
  have htake : takePending m = .ok m.pending { m with pending := [] } := rfl
  let finished : Manager MemoryFiles := (settled (batchOrder m.pending) m.entered).reporting
    (.batchFinished r.applied r.previewed r.failed)
  unfold applyPending
  rw [Attempt.bind_of_ok htake]
  exact ⟨r, _, inSpan_of_ok (k := finished) (Attempt.bind_of_ok hrun), hrun,
    ⟨fun _ => rfl, rfl, rfl, rfl, rfl⟩, rfl, rfl⟩

theorem passes_isChain {R : Manager MemoryFiles → Manager MemoryFiles → Prop}
    {qs : List ChangeRequest} (hpass : ∀ q ∈ qs, ∀ m, R m ((applyValid q).endState m))
    (m : Manager MemoryFiles) {last : Manager MemoryFiles} (hlast : R (settled qs m) last) :
    List.IsChain R (m :: (passes qs m ++ [last])) := by
  induction qs generalizing m with
  | nil => exact List.isChain_pair.2 hlast
  | cons q qs ih =>
    obtain ⟨hq, hrest⟩ := List.forall_mem_cons.1 hpass
    exact List.isChain_cons_cons.2 ⟨hq m, ih hrest _ hlast⟩

/-! ## The batch in a run -/

theorem addPending_run (q : ChangeRequest) (m : Manager MemoryFiles) :
    (∃ e, addPending q m = .ok (.error e) m) ∨
      ∃ n, addPending q m = .ok (.ok n) { m with pending := m.pending ++ [q] } := by
  unfold addPending
  cases q.validate with
  | error e => exact Or.inl ⟨e, rfl⟩
  | ok _ => exact Or.inr ⟨_, rfl⟩

/-- The requests of the batch of a manager are for paths that are admitted. -/
def PendingNamed (named : Path → Prop) (m : Manager MemoryFiles) : Prop :=
  ∀ q ∈ m.pending, named q.file

theorem pending_applying {q : ChangeRequest} {a : Except ChangeError ChangeOutcome}
    (h : Applying m q a m') : m'.pending = m.pending := by
  cases h with
  | previewed => rfl
  | applied => rfl
  | _ => exact pending_noteFailed ..

theorem pending_settled (qs : List ChangeRequest) (m : Manager MemoryFiles) :
    (settled qs m).pending = m.pending := by
  induction qs generalizing m with
  | nil => rfl
  | cons q qs ih =>
    obtain ⟨a, -, hcase⟩ := applyValid_endState q m
    exact (ih _).trans (pending_applying hcase)

/-- An action puts no request into the batch but for a path that it names. -/
theorem Action.pendingNamed_after {a : Action} (ha : ∀ p ∈ a.paths, named p)
    {m : Manager MemoryFiles} (hm : m.PendingNamed named) : (a.after m).PendingNamed named := by
  have hkeep : ∀ {m' : Manager MemoryFiles}, m'.pending = m.pending → m'.PendingNamed named := by
    intro m' hm'
    unfold PendingNamed
    rw [hm']
    exact hm
  have hempty : ∀ {m' : Manager MemoryFiles}, m'.pending = [] → m'.PendingNamed named := by
    intro m' hm' q hq
    rw [hm'] at hq
    cases hq
  cases a with
  | apply q =>
    refine hkeep ?_
    simp only [after]
    rcases apply_run q m with ⟨fault, -, hrun⟩ | ⟨-, a, m', hrun, hcase⟩
    · rw [Attempt.endState_of_ok hrun]
    · rw [Attempt.endState_of_ok hrun, pending_applying hcase]
  | applyPending =>
    refine hempty ?_
    obtain ⟨report, m', hrun, -, -, hpending, -⟩ := applyPending_run m
    simp only [after]
    rw [Attempt.endState_of_ok hrun, hpending, pending_settled]
    rfl
  | undo =>
    refine hkeep ?_
    obtain ⟨a, m', hrun, hcase⟩ := undo_run m
    simp only [after]
    rw [Attempt.endState_of_ok hrun]
    cases hcase <;> rfl
  | backUp file =>
    refine hkeep ?_
    obtain ⟨a, m', hrun, hcase⟩ := backUp_run file m
    simp only [after]
    rw [Attempt.endState_of_ok hrun]
    cases hcase <;> rfl
  | restoreLatest file =>
    refine hkeep ?_
    obtain ⟨a, m', hrun, hcase⟩ := restoreLatest_run file m
    simp only [after]
    rw [Attempt.endState_of_ok hrun]
    cases hcase <;> rfl
  | addPending q =>
    simp only [after]
    rcases addPending_run q m with ⟨e, hrun⟩ | ⟨n, hrun⟩
    · rw [Attempt.endState_of_ok hrun]
      exact hm
    · rw [Attempt.endState_of_ok hrun]
      intro x hx
      rcases List.mem_append.1 hx with hold | hnew
      · exact hm x hold
      · rw [List.mem_singleton.1 hnew]
        exact ha q.file (List.mem_singleton_self _)
  | clearPending => exact hempty rfl
  | reset => exact hempty rfl
  | _ => exact hkeep rfl

/-! ## Traces are chains of steps -/

/-- What an operation does from one state of a run to the next.  The flag tells that requests and
undos alone may change files. -/
inductive Move (named : Path → Prop) : Bool → Manager MemoryFiles → Manager MemoryFiles → Prop
  | idle {w : Bool} {m m' : Manager MemoryFiles} (hstore : m'.vault.store = m.vault.store)
      (halike : Alike m m') : Move named w m m'
  | rejected {w : Bool} {m m' : Manager MemoryFiles} {r : ChangeRecord}
      (hstatus : r.status = .rejected) (hstore : m'.vault.store = m.vault.store)
      (halike : Alike (m.pushing r) m') : Move named w m m'
  | applying {w : Bool} {m m' : Manager MemoryFiles} {q : ChangeRequest}
      {a : Except ChangeError ChangeOutcome} (hnamed : named q.file)
      (hrun : applyValid q m = .ok a m') (h : Applying m q a m') : Move named w m m'
  | undoing {w : Bool} {m m' : Manager MemoryFiles} {a : Except ChangeError ChangeRecord}
      (h : Undoing m a m') : Move named w m m'
  | backingUp {w : Bool} {m m' : Manager MemoryFiles} {file : Path}
      {a : Except ChangeError BackupEntry} (hrun : backUp file m = .ok a m')
      (h : BackingUp m file a m') : Move named w m m'
  | restoring {m m' : Manager MemoryFiles} {file : Path} {a : Except ChangeError BackupEntry}
      (hnamed : named file) (h : Restoring m file a m') : Move named false m m'
  | overwritten {m : Manager MemoryFiles} {p : Path} (hnamed : named p) (text : String) :
      Move named false m (m.writing p text)
  | deleted {m : Manager MemoryFiles} {p : Path} (hnamed : named p) :
      Move named false m (m.touching (·.without p))
  | reset {m : Manager MemoryFiles} : Move named false m m.reset

theorem Move.working (h : Move named true m m') : Working named m m' := by
  cases h with
  | idle hstore halike => exact .quiet halike
  | rejected hstatus hstore halike => exact .noted (Or.inr hstatus) halike
  | applying hnamed hrun h => exact working_applying hnamed h
  | undoing h => exact working_undoing h
  | backingUp hrun h => exact working_backingUp h

theorem Move.step (h : Move named false m m') : Step named m m' := by
  cases h with
  | idle hstore halike => exact .working (.quiet halike)
  | rejected hstatus hstore halike => exact .working (.noted (Or.inr hstatus) halike)
  | applying hnamed hrun h => exact .working (working_applying hnamed h)
  | undoing h => exact .working (working_undoing h)
  | backingUp hrun h => exact .working (working_backingUp h)
  | restoring hnamed h => exact step_restoring hnamed h
  | overwritten hnamed text => exact .written hnamed (.refl _)
  | deleted hnamed => exact .deleted hnamed (.refl _)
  | reset => exact .reset (.refl m.reset)

variable {w : Bool} {q : ChangeRequest}

theorem Move.of_same (hstore : m'.vault.store = m.vault.store)
    (htext : ∀ p, m'.text? p = m.text? p) (hhistory : m'.history = m.history)
    (hstack : m'.undoStack = m.undoStack) : Move named w m m' := by
  refine .idle hstore ⟨htext, ?_, ?_, hhistory, hstack⟩
  · rw [hstore]
  · rw [hstore]

theorem move_apply (hq : named q.file) (m : Manager MemoryFiles) :
    Move named w m ((apply q).endState m) := by
  rcases apply_run q m with ⟨fault, -, hrun⟩ | ⟨hvalid, a, m', hrun, hcase⟩
  · rw [Attempt.endState_of_ok hrun]
    exact .idle rfl (.refl m)
  · rw [Attempt.endState_of_ok hrun]
    rw [apply_of_valid hvalid] at hrun
    exact .applying hq hrun hcase

theorem move_undo (m : Manager MemoryFiles) : Move named w m (undo.endState m) := by
  obtain ⟨a, m', hrun, hcase⟩ := undo_run m
  rw [Attempt.endState_of_ok hrun]
  exact .undoing hcase

theorem move_reject (q : ChangeRequest) (m : Manager MemoryFiles) :
    Move named w m ((reject q).endState m) :=
  .rejected (r := ChangeRecord.ofRequest (m.recordId m.issued) q .rejected) rfl rfl
    ⟨fun _ => rfl, rfl, rfl, rfl, rfl⟩

theorem move_backUp (file : Path) (m : Manager MemoryFiles) :
    Move named w m ((backUp file).endState m) := by
  obtain ⟨a, m', hrun, hcase⟩ := backUp_run file m
  rw [Attempt.endState_of_ok hrun]
  exact .backingUp hrun hcase

theorem move_restoreLatest {file : Path} (hfile : named file) (m : Manager MemoryFiles) :
    Move named false m ((restoreLatest file).endState m) := by
  obtain ⟨a, m', hrun, hcase⟩ := restoreLatest_run file m
  rw [Attempt.endState_of_ok hrun]
  exact .restoring hfile hcase

theorem move_addPending (q : ChangeRequest) (m : Manager MemoryFiles) :
    Move named w m ((addPending q).endState m) := by
  rcases addPending_run q m with ⟨e, hrun⟩ | ⟨n, hrun⟩
  · rw [Attempt.endState_of_ok hrun]
    exact .idle rfl (.refl m)
  · rw [Attempt.endState_of_ok hrun]
    exact .of_same rfl (fun _ => rfl) rfl rfl

/-- A batch is a chain of moves: it begins, applies its requests in turn, and ends. -/
theorem isChain_move_applyPending {m : Manager MemoryFiles} (hm : m.PendingNamed named) :
    List.IsChain (Move named w)
      (m :: m.entered :: (passes (batchOrder m.pending) m.entered ++ [applyPending.endState m])) := by
  obtain ⟨report, m', hrun, -, hlast, -, hstore⟩ := applyPending_run m
  have hpass : ∀ q ∈ batchOrder m.pending, ∀ m, Move named w m ((applyValid q).endState m) := by
    intro q hq m
    obtain ⟨a, hrun, hcase⟩ := applyValid_endState q m
    exact .applying (hm q ((batchOrder_perm _).mem_iff.1 hq)) hrun hcase
  rw [Attempt.endState_of_ok hrun]
  exact List.isChain_cons_cons.2 ⟨.of_same rfl (fun _ => rfl) rfl rfl,
    passes_isChain hpass m.entered (.idle hstore hlast)⟩

/-- An action that is no batch is one move. -/
theorem Action.move {a : Action} (hsingle : a ≠ .applyPending)
    (hworking : w = true → a.isWorking = true) (ha : ∀ p ∈ a.paths, named p)
    (m : Manager MemoryFiles) : Move named w m (a.after m) := by
  -- where an action changes files by itself the flag is not set
  have hidle : a.isWorking = false → w = false := by
    intro hfalse
    rw [← Bool.not_eq_true]
    intro hw
    rw [hworking hw] at hfalse
    cases hfalse
  cases a with
  | applyPending => exact absurd rfl hsingle
  | apply q => exact move_apply (ha q.file (List.mem_singleton_self _)) m
  | undo => exact move_undo m
  | reject q => exact move_reject q m
  | backUp file => exact move_backUp file m
  | addPending q => exact move_addPending q m
  | restoreLatest file =>
    obtain rfl := hidle rfl
    exact move_restoreLatest (ha file (List.mem_singleton_self _)) m
  | overwrite p text =>
    obtain rfl := hidle rfl
    exact .overwritten (ha p (List.mem_singleton_self _)) text
  | delete p =>
    obtain rfl := hidle rfl
    exact .deleted (ha p (List.mem_singleton_self _))
  | reset =>
    obtain rfl := hidle rfl
    exact .reset
  | _ => exact .of_same rfl (fun _ => rfl) rfl rfl

/-- The states of an action are a chain of moves. -/
theorem Action.isChain_move {a : Action} (hworking : w = true → a.isWorking = true)
    (ha : ∀ p ∈ a.paths, named p) {m : Manager MemoryFiles} (hm : m.PendingNamed named) :
    List.IsChain (Move named w) (m :: (a.between m ++ [a.after m])) := by
  cases a with
  | applyPending => exact isChain_move_applyPending hm
  | _ =>
    refine List.isChain_pair.2 (Action.move ?_ hworking ha m)
    nofun

/-- The states of a run are a chain of moves. -/
theorem trace_isChain_move {as : List Action}
    (hworking : w = true → ∀ a ∈ as, a.isWorking = true)
    (has : ∀ a ∈ as, ∀ p ∈ a.paths, named p) {m : Manager MemoryFiles}
    (hm : m.PendingNamed named) : List.IsChain (Move named w) (trace as m) := by
  induction as generalizing m with
  | nil => exact List.isChain_singleton m
  | cons a as ih =>
    obtain ⟨hnamed, hnames⟩ := List.forall_mem_cons.1 has
    have htail := ih (fun hw => (List.forall_mem_cons.1 (hworking hw)).2) hnames
      (Action.pendingNamed_after hnamed hm)
    have hhead := Action.isChain_move (fun hw => (List.forall_mem_cons.1 (hworking hw)).1) hnamed hm
    obtain ⟨rest, heq⟩ := trace_eq_cons as (a.after m)
    simp only [trace]
    rw [heq] at htail ⊢
    have hfirst : List.IsChain (Move named w) ((m :: a.between m) ++ [a.after m]) := by
      simpa using hhead
    have hsecond : List.IsChain (Move named w) ([a.after m] ++ rest) := by simpa using htail
    simpa using hfirst.append_overlap hsecond (by simp)

/-- The states of a run are a chain of steps. -/
theorem trace_isChain {as : List Action} (has : ∀ a ∈ as, ∀ p ∈ a.paths, named p)
    {m : Manager MemoryFiles} (hm : m.PendingNamed named) :
    List.IsChain (Step named) (trace as m) :=
  (trace_isChain_move (w := false) (by simp) has hm).imp fun _ _ h => h.step

/-- The states of a run of requests and undos are a chain of working steps. -/
theorem working_trace_isChain {as : List Action} (hworking : ∀ a ∈ as, a.isWorking = true)
    (has : ∀ a ∈ as, ∀ p ∈ a.paths, named p) {m : Manager MemoryFiles}
    (hm : m.PendingNamed named) : List.IsChain (Working named) (trace as m) :=
  (trace_isChain_move (fun _ => hworking) has hm).imp fun _ _ h => h.working

/-- What holds at the beginning of a run, and after each of its steps if before, holds throughout. -/
theorem trace_invariant {R : Manager MemoryFiles → Manager MemoryFiles → Prop}
    {P : Manager MemoryFiles → Prop} {as : List Action} {m : Manager MemoryFiles}
    (hchain : List.IsChain R (trace as m)) (hstart : P m)
    (hstep : ∀ s t, [s, t] <:+: trace as m → R s t → P s → P t) : ∀ s ∈ trace as m, P s := by
  have hpairs : List.IsChain (fun s t => [s, t] <:+: trace as m ∧ R s t) (trace as m) := by
    rw [List.isChain_iff_getElem] at hchain ⊢
    have hpair := List.isChain_iff_getElem.1 (List.isChain_isInfix (trace as m))
    exact fun i hi => ⟨hpair i hi, hchain i hi⟩
  refine hpairs.induction P _ (fun s t h hs => hstep s t h.1 h.2 hs) ?_
  intro hne
  obtain ⟨rest, heq⟩ := trace_eq_cons as m
  simp only [heq, List.head_cons]
  exact hstart

/-- What holds of the first state of a run with no past, and passes from each state to the next, holds
of every state with its past; the past lists the states before, the newest first. -/
theorem trace_past {R : Manager MemoryFiles → Manager MemoryFiles → Prop}
    {P : List (Manager MemoryFiles) → Manager MemoryFiles → Prop} {as : List Action}
    {m : Manager MemoryFiles} (hchain : List.IsChain R (trace as m)) (hstart : P [] m)
    (hstep : ∀ past s t back, trace as m = past.reverse ++ s :: t :: back → R s t → P past s →
      P (s :: past) t) :
    ∀ past s back, trace as m = past.reverse ++ s :: back → P past s := by
  intro past
  induction past with
  | nil =>
    intro s back hsplit
    obtain ⟨rest, heq⟩ := trace_eq_cons as m
    obtain ⟨rfl, -⟩ := List.cons.inj (heq.symm.trans hsplit)
    exact hstart
  | cons r past ih =>
    intro s back hsplit
    have hbefore : trace as m = past.reverse ++ r :: s :: back := by simpa using hsplit
    have hpair : R r s := by
      rw [hbefore] at hchain
      exact (List.isChain_cons_cons.1 hchain.right_of_append).1
    exact hstep past r s back hbefore hpair (ih r (s :: back) hbefore)

end Manager

end CodeReview
