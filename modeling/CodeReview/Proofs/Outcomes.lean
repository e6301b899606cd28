import CodeReview.Proofs.Effects

/-!
# What the operations of a change manager do

Over files in memory every operation ends, and it ends in one of a few ways.  For each operation
there is a relation with one case for each of its outcomes, which says in full what the manager is
afterwards (`Applying`, `Undoing`, `BackingUp`, `Restoring`), and a theorem that running the operation
is one of the cases.  Everything that is proved about operations goes through these cases.
-/

namespace CodeReview

namespace Manager

variable {σ : Type}

/-! ## Runs of the parts -/

@[simp] theorem report_run (e : Event) (m : Manager σ) :
    (report e : Attempt (Manager σ) Unit) m = .ok () (m.reporting e) :=
  rfl

@[simp] theorem count_run (c : Counter) (m : Manager σ) :
    (count c : Attempt (Manager σ) Unit) m = .ok () (m.counting c) :=
  rfl

@[simp] theorem issue_run (m : Manager σ) :
    (issue : Attempt (Manager σ) String) m =
      .ok (m.recordId m.issued) { m with issued := m.issued + 1 } :=
  rfl

@[simp] theorem record_run (b : BackupEntry) (m : Manager σ) :
    inVault (Vault.record b) m =
      .ok () { m with vault := { m.vault with store := m.vault.store.record b } } :=
  rfl

theorem enforceLimit_run (guarded : List Path) (m : Manager σ) :
    inVault (Vault.enforceLimit guarded) m =
      .ok ((m.vault.store.sortOut guarded).1.map BackupEntry.backup) (m.limiting guarded) := by
  have hrun : inVault (Vault.enforceLimit guarded) m = .ok (m.vault.store.enforceLimit guarded).1
      { m with vault := { m.vault with store := (m.vault.store.enforceLimit guarded).2 } } := rfl
  rw [hrun, BackupStore.enforceLimit_eq]
  rfl

theorem recordFailure_run (q : ChangeRequest) (e : ChangeError) (b : Option BackupEntry)
    (m : Manager σ) :
    (recordFailure q e b : Attempt (Manager σ) Unit) m = .ok () (m.noteFailed q e b) := by
  unfold recordFailure noteFailed
  rw [Attempt.bind_of_ok (count_run _ m), Attempt.bind_of_ok (report_run _ _),
    Attempt.bind_of_ok (Attempt.get_run _)]
  by_cases hdry : m.config.dryRun = true
  · rw [if_pos hdry]
    exact congrFun (if_pos hdry) _
  · rw [if_neg hdry]
    refine (congrFun (if_neg hdry) _).trans ?_
    rw [Attempt.bind_of_ok (issue_run _)]
    cases b with
    | none => rfl
    | some b => rfl

theorem refuse_run {α : Type} (q : ChangeRequest) (e : ChangeError) (b : Option BackupEntry)
    (m : Manager σ) :
    (refuse q e b : Attempt (Manager σ) (Except ChangeError α)) m =
      .ok (.error e) (m.noteFailed q e b) := by
  unfold refuse
  rw [Attempt.bind_of_ok (recordFailure_run q e b m)]
  rfl

theorem removeFile_run (p : Path) (v : Vault MemoryFiles) :
    Vault.removeFile p v = .ok () { v with files := v.files.without p } := by
  unfold Vault.removeFile
  rw [Attempt.bind_of_ok (Vault.onFiles_of_ok (MemoryFiles.remove_run p v.files))]
  unfold MemoryFiles.without MemoryFiles.drop
  split <;> rfl

theorem removeFiles_run (ps : List Path) (v : Vault MemoryFiles) :
    Vault.removeFiles ps v = .ok () { v with files := v.files.withoutAll ps } := by
  unfold Vault.removeFiles
  induction ps generalizing v with
  | nil => rfl
  | cons p ps ih =>
    change (Vault.removeFile p >>= fun _ => ps.forM Vault.removeFile) v = _
    rw [Attempt.bind_of_ok (removeFile_run p v)]
    exact ih _

theorem discard_run (dropped : List Path) (m : Manager MemoryFiles) :
    discard dropped m = .ok () (m.discarding dropped) := by
  unfold discard discarding
  rw [Attempt.bind_of_ok (inVault_of_ok (removeFiles_run dropped m.vault))]
  generalize m.vault.files.withoutAll dropped = files
  obtain ⟨config, ⟨old, telemetry, store⟩, history, stack, pending, issued, recordId⟩ := m
  simp only
  induction dropped generalizing telemetry with
  | nil => rfl
  | cons p ps ih => exact ih _

theorem read_run (p : Path) (m : Manager MemoryFiles) :
    inVault (Vault.read p) m = .ok (m.vault.files.textAt p) m :=
  inVault_of_ok (Vault.onFiles_of_ok (MemoryFiles.read_run p m.vault.files))

theorem present_run (p : Path) (m : Manager MemoryFiles) :
    inVault (Vault.present p) m = .ok (m.text? p).isSome m :=
  inVault_of_ok (Vault.onFiles_of_ok (MemoryFiles.present_run p m.vault.files))

theorem write_of_accepted {m : Manager MemoryFiles} {p : Path} (text : String)
    (h : m.refusesWrite p = false) :
    inVault (Vault.write p text) m = .ok (.ok ()) (m.writing p text) := by
  have hwrite := Vault.onFiles_of_ok (MemoryFiles.write_run p text m.vault.files)
  rw [MemoryFiles.put_of_accepted text h] at hwrite
  exact inVault_of_ok hwrite

theorem write_of_refused {m : Manager MemoryFiles} {p : Path} (text : String)
    (h : m.refusesWrite p = true) :
    inVault (Vault.write p text) m = .ok (.error (.writeRefused p)) m := by
  have hwrite := Vault.onFiles_of_ok (MemoryFiles.write_run p text m.vault.files)
  rw [MemoryFiles.put_of_refused text h] at hwrite
  exact inVault_of_ok hwrite

/-- Taking a backup ends at a free number. -/
theorem takeBackup_cases (m : Manager MemoryFiles) (file : Path) (contents : String) :
    ∃ n, m.FreeNumber file n ∧
      (m.refusesWrite (m.vault.store.pathOf file n) = true ∧
        inVault (Vault.takeBackup file contents) m =
          .ok (.error (.fileAccess (m.vault.store.pathOf file n)
            (.writeRefused (m.vault.store.pathOf file n)))) (m.skipTo (n + 1)) ∨
      m.refusesWrite (m.vault.store.pathOf file n) = false ∧
        inVault (Vault.takeBackup file contents) m =
          .ok (.ok (m.entryOf file n contents)) (m.backingUp file n contents)) := by
  obtain ⟨n, hn, hfree, hrun⟩ := Vault.takeBackup_run m.vault file contents
  refine ⟨n, ⟨hn, hfree⟩, ?_⟩
  unfold refusesWrite
  cases hprot : m.vault.files.writeProtected.contains (m.vault.store.pathOf file n) with
  | true =>
    rw [hprot, if_pos rfl] at hrun
    exact Or.inl ⟨rfl, inVault_of_ok hrun⟩
  | false =>
    rw [hprot, if_neg Bool.false_ne_true] at hrun
    exact Or.inr ⟨rfl, inVault_of_ok hrun⟩

theorem replaceText_of_accepted {m : Manager MemoryFiles} {p : Path} (old new : String)
    (h : m.refusesWrite p = false) : replaceText p old new m = .ok (.ok ()) (m.writing p new) := by
  unfold replaceText
  rw [Attempt.bind_of_ok (Attempt.tryCatch_of_ok (write_of_accepted new h))]
  rfl

/-- Where a path refuses writes, the old text cannot be put back either; it was never lost. -/
theorem replaceText_of_refused {m : Manager MemoryFiles} {p : Path} (old new : String)
    (h : m.refusesWrite p = true) :
    replaceText p old new m = .ok (.error (.writeRefused p, false))
      (m.reporting (.rollbackFailed p (FileError.writeRefused p).message)) := by
  have hback : rollBack p old m = .ok false
      (m.reporting (.rollbackFailed p (FileError.writeRefused p).message)) := by
    unfold rollBack
    rw [Attempt.bind_of_ok (write_of_refused old h)]
    rfl
  unfold replaceText
  rw [Attempt.bind_of_ok (Attempt.tryCatch_of_ok (write_of_refused new h))]
  simp only
  rw [Attempt.bind_of_ok hback]
  rfl

theorem commit_run (q : ChangeRequest) (b : BackupEntry) (m : Manager σ) :
    (commit q b : Attempt (Manager σ) _) m =
      .ok (appliedRecord (m.recordId m.issued) q b,
          ((m.noting q b).vault.store.sortOut
            (protectedBackups (m.noting q b).history)).1.map BackupEntry.backup)
        ((m.noting q b).limiting (protectedBackups (m.noting q b).history)) := by
  let history := m.history ++ [appliedRecord (m.recordId m.issued) q b]
  have hnoted : { m.noting q b with undoStack := m.undoStack ++ [history.length - 1] } =
      m.noting q b := by
    simp [noting, history]
  have hlimit := enforceLimit_run (protectedBackups history)
    { m.noting q b with undoStack := m.undoStack ++ [history.length - 1] }
  rw [hnoted] at hlimit
  change (inVault (Vault.enforceLimit (protectedBackups history)) >>= fun dropped =>
    pure (appliedRecord (m.recordId m.issued) q b, dropped))
      { m.noting q b with undoStack := m.undoStack ++ [history.length - 1] } = _
  rw [hnoted, Attempt.bind_of_ok hlimit]
  rfl

theorem commit_discard_run {α : Type} (q : ChangeRequest) (b : BackupEntry)
    (m : Manager MemoryFiles) (act : ChangeRecord → Attempt (Manager MemoryFiles) α) :
    (do
      let (r, dropped) ← commit q b
      discard dropped
      act r) m = act (appliedRecord (m.recordId m.issued) q b) (m.noteApplied q b) := by
  rw [Attempt.bind_of_ok (commit_run q b m)]
  simp only
  rw [Attempt.bind_of_ok (discard_run _ _)]
  rfl

/-! ## Applying a request -/

/-- The ways in which the application of a request ends that makes sense. -/
inductive Applying (m : Manager MemoryFiles) (q : ChangeRequest) :
    Except ChangeError ChangeOutcome → Manager MemoryFiles → Prop
  | unreadable {cause : FileError} (hread : m.vault.files.textAt q.file = .error cause) :
    Applying m q (.error (.fileAccess q.file cause))
      (m.noteFailed q (.fileAccess q.file cause) none)
  | conflict {old : String} {cause : EditError} (hread : m.vault.files.textAt q.file = .ok old)
      (hedit : Edit.replaceBlock old q.line q.expected q.suggested = .error cause) :
    Applying m q (.error (.conflict q.file q.line cause))
      (m.noteFailed q (.conflict q.file q.line cause) none)
  | previewed {old new : String} (hread : m.vault.files.textAt q.file = .ok old)
      (hedit : Edit.replaceBlock old q.line q.expected q.suggested = .ok new)
      (hdry : m.config.dryRun = true) :
    Applying m q (.ok (.previewed q.file new)) (m.reporting (.changePreviewed q.file q.line))
  | backupRefused {old new : String} {n : Nat} (hread : m.vault.files.textAt q.file = .ok old)
      (hedit : Edit.replaceBlock old q.line q.expected q.suggested = .ok new)
      (hlive : m.config.dryRun = false) (hfree : m.FreeNumber q.file n)
      (hbackup : m.refusesWrite (m.vault.store.pathOf q.file n) = true) :
    Applying m q
      (.error (.fileAccess (m.vault.store.pathOf q.file n)
        (.writeRefused (m.vault.store.pathOf q.file n))))
      ((m.skipTo (n + 1)).noteFailed q (.fileAccess (m.vault.store.pathOf q.file n)
        (.writeRefused (m.vault.store.pathOf q.file n))) none)
  | writeRefused {old new : String} {n : Nat} (hread : m.vault.files.textAt q.file = .ok old)
      (hedit : Edit.replaceBlock old q.line q.expected q.suggested = .ok new)
      (hlive : m.config.dryRun = false) (hfree : m.FreeNumber q.file n)
      (hbackup : m.refusesWrite (m.vault.store.pathOf q.file n) = false)
      (htarget : m.refusesWrite q.file = true) :
    Applying m q
      (.error (.applyFailed q.file (m.vault.store.pathOf q.file n) false (.writeRefused q.file)))
      (((m.backingUp q.file n old).reporting
          (.rollbackFailed q.file (FileError.writeRefused q.file).message)).noteFailed q
        (.applyFailed q.file (m.vault.store.pathOf q.file n) false (.writeRefused q.file))
        (some (m.entryOf q.file n old)))
  | applied {old new : String} {n : Nat} (hread : m.vault.files.textAt q.file = .ok old)
      (hedit : Edit.replaceBlock old q.line q.expected q.suggested = .ok new)
      (hlive : m.config.dryRun = false) (hfree : m.FreeNumber q.file n)
      (hbackup : m.refusesWrite (m.vault.store.pathOf q.file n) = false)
      (htarget : m.refusesWrite q.file = false) :
    Applying m q
      (.ok (.applied (appliedRecord (m.recordId m.issued) q (m.entryOf q.file n old))))
      (((((m.backingUp q.file n old).writing q.file new).noteApplied q
          (m.entryOf q.file n old)).counting .changesApplied).reporting
        (.changeApplied q.file q.line (m.vault.store.pathOf q.file n)))

theorem applyValid_run (q : ChangeRequest) (m : Manager MemoryFiles) :
    ∃ a m', applyValid q m = .ok a m' ∧ Applying m q a m' := by
  unfold applyValid
  rw [Attempt.bind_of_ok (read_run q.file m)]
  cases hread : m.vault.files.textAt q.file with
  | error cause => exact ⟨_, _, refuse_run _ _ _ _, .unreadable hread⟩
  | ok old =>
    simp only
    cases hedit : Edit.replaceBlock old q.line q.expected q.suggested with
    | error cause => exact ⟨_, _, refuse_run _ _ _ _, .conflict hread hedit⟩
    | ok new =>
      simp only
      rw [Attempt.bind_of_ok (Attempt.get_run m)]
      cases hdry : m.config.dryRun with
      | true => exact ⟨_, _, rfl, .previewed hread hedit hdry⟩
      | false =>
        rw [if_neg Bool.false_ne_true]
        unfold carryOut
        obtain ⟨n, hfree, ⟨hbackup, hrun⟩ | ⟨hbackup, hrun⟩⟩ := m.takeBackup_cases q.file old
        · rw [Attempt.bind_of_ok hrun]
          exact ⟨_, _, refuse_run _ _ _ _, .backupRefused hread hedit hdry hfree hbackup⟩
        · rw [Attempt.bind_of_ok hrun]
          cases htarget : m.refusesWrite q.file with
          | true =>
            simp only
            rw [Attempt.bind_of_ok (replaceText_of_refused (m := m.backingUp q.file n old) old new
              htarget)]
            exact ⟨_, _, refuse_run _ _ _ _, .writeRefused hread hedit hdry hfree hbackup htarget⟩
          | false =>
            simp only
            rw [Attempt.bind_of_ok (replaceText_of_accepted (m := m.backingUp q.file n old) old new
              htarget)]
            refine ⟨_, _, ?_, .applied hread hedit hdry hfree hbackup htarget⟩
            exact commit_discard_run q (m.entryOf q.file n old)
              ((m.backingUp q.file n old).writing q.file new) fun r => do
                count .changesApplied
                report (.changeApplied q.file q.line (m.vault.store.pathOf q.file n))
                return Except.ok (ChangeOutcome.applied r)

/-- Applying a request is refusing it as meaningless or applying it as one that makes sense. -/
theorem apply_run (q : ChangeRequest) (m : Manager MemoryFiles) :
    (∃ fault, q.fault? = some fault ∧ apply q m = .ok (.error (.invalidRequest fault)) m) ∨
      q.fault? = none ∧ ∃ a m', apply q m = .ok a m' ∧ Applying m q a m' := by
  unfold apply ChangeRequest.validate
  cases q.fault? with
  | some fault => exact Or.inl ⟨fault, rfl, rfl⟩
  | none => exact Or.inr ⟨rfl, applyValid_run q m⟩

theorem apply_of_valid {q : ChangeRequest} (h : q.fault? = none) (m : Manager MemoryFiles) :
    apply q m = applyValid q m := by
  unfold apply ChangeRequest.validate
  rw [h]

/-! ## Undoing the latest change -/

/-- What can come in the way of restoring the file of a record. -/
inductive Obstructed (m : Manager MemoryFiles) (r : ChangeRecord) : ChangeError → Prop
  | withoutBackup (hbackup : r.backup = none) :
    Obstructed m r (.nothingToUndo (.withoutBackup r.id))
  | missing {b : Path} (hbackup : r.backup = some b) (hgone : m.text? b = none) :
    Obstructed m r (.nothingToUndo (.backupMissing b))
  | unreadable {b : Path} {cause : FileError} (hbackup : r.backup = some b)
      (hread : m.vault.files.textAt b = .error cause) : Obstructed m r (.fileAccess b cause)
  | altered {b : Path} {contents : String} (hbackup : r.backup = some b)
      (hread : m.vault.files.textAt b = .ok contents)
      (hdigest : r.digest.all (· = digestOf contents) = false) :
    Obstructed m r (.nothingToUndo (.backupAltered b))
  | writeRefused (htarget : m.refusesWrite r.file = true) :
    Obstructed m r (.fileAccess r.file (.writeRefused r.file))

/-- A backup that can be read and has the recorded digest restores a file that accepts writes. -/
theorem not_obstructed {m : Manager MemoryFiles} {r : ChangeRecord} {b : Path} {contents : String}
    (hbackup : r.backup = some b) (hread : m.vault.files.textAt b = .ok contents)
    (hdigest : r.digest.all (· = digestOf contents) = true)
    (htarget : m.refusesWrite r.file = false) (e : ChangeError) : ¬ Obstructed m r e := by
  have hsame : ∀ {b' : Path}, r.backup = some b' → b = b' := by
    intro b' hb'
    exact Option.some.inj (hbackup.symm.trans hb')
  intro hobstacle
  cases hobstacle with
  | withoutBackup hnone => simp [hbackup] at hnone
  | missing hbackup' hgone =>
    obtain rfl := hsame hbackup'
    have hthere : m.text? b = some contents := MemoryFiles.contents?_of_textAt hread
    simp [hthere] at hgone
  | unreadable hbackup' hfault =>
    obtain rfl := hsame hbackup'
    simp [hread] at hfault
  | altered hbackup' hread' hother =>
    obtain rfl := hsame hbackup'
    obtain rfl := Except.ok.inj (hread.symm.trans hread')
    simp [hdigest] at hother
  | writeRefused hrefused => simp [htarget] at hrefused

/-- The ways in which undoing the latest change ends.  A failure leaves everything as it was. -/
inductive Undoing (m : Manager MemoryFiles) :
    Except ChangeError ChangeRecord → Manager MemoryFiles → Prop
  | nothing (hselect : m.selectUndo? = none) :
    Undoing m (.error (.nothingToUndo .nothingApplied)) m
  | obstructed {i : Nat} {r : ChangeRecord} {e : ChangeError} (hselect : m.selectUndo? = some (i, r))
      (hobstacle : Obstructed m r e) : Undoing m (.error e) m
  | undone {i : Nat} {r : ChangeRecord} {b : Path} {contents : String}
      (hselect : m.selectUndo? = some (i, r)) (hbackup : r.backup = some b)
      (hread : m.vault.files.textAt b = .ok contents)
      (hdigest : r.digest.all (· = digestOf contents) = true)
      (htarget : m.refusesWrite r.file = false) :
    Undoing m (.ok (undoneRecord r)) (m.undoing i r b contents)

theorem restoreFrom_run (r : ChangeRecord) (m : Manager MemoryFiles) :
    (∃ e, restoreFrom r m = .ok (.error e) m ∧ Obstructed m r e) ∨
      ∃ b contents, r.backup = some b ∧ m.vault.files.textAt b = .ok contents ∧
        r.digest.all (· = digestOf contents) = true ∧ m.refusesWrite r.file = false ∧
        restoreFrom r m = .ok (.ok b) (m.writing r.file contents) := by
  unfold restoreFrom
  cases hbackup : r.backup with
  | none => exact Or.inl ⟨_, rfl, .withoutBackup hbackup⟩
  | some b =>
    simp only
    rw [Attempt.bind_of_ok (present_run b m)]
    cases hgone : m.text? b with
    | none => exact Or.inl ⟨_, rfl, .missing hbackup hgone⟩
    | some text =>
      simp only [Option.isSome_some, Bool.not_true, Bool.false_eq_true, if_false]
      rw [Attempt.bind_of_ok (read_run b m)]
      cases hread : m.vault.files.textAt b with
      | error cause => exact Or.inl ⟨_, rfl, .unreadable hbackup hread⟩
      | ok contents =>
        simp only
        cases hdigest : r.digest.all (· = digestOf contents) with
        | false => exact Or.inl ⟨_, rfl, .altered hbackup hread hdigest⟩
        | true =>
          simp only [Bool.not_true, Bool.false_eq_true, if_false]
          cases htarget : m.refusesWrite r.file with
          | true =>
            rw [Attempt.bind_of_ok (write_of_refused contents htarget)]
            exact Or.inl ⟨_, rfl, .writeRefused htarget⟩
          | false =>
            rw [Attempt.bind_of_ok (write_of_accepted contents htarget)]
            exact Or.inr ⟨b, contents, rfl, hread, hdigest, rfl, rfl⟩

theorem selectUndo?_eq_some {m : Manager σ} {i : Nat} {r : ChangeRecord} :
    m.selectUndo? = some (i, r) ↔ m.undoStack.getLast? = some i ∧ m.history[i]? = some r := by
  unfold selectUndo?
  cases hi : m.undoStack.getLast? with
  | none => simp
  | some j =>
    cases hr : m.history[j]? with
    | none =>
      simp only [Option.bind_eq_bind, Option.bind_some, hr, Option.bind_none, reduceCtorEq,
        Option.some.injEq, false_iff, not_and]
      rintro rfl
      simp [hr]
    | some s =>
      simp only [Option.bind_eq_bind, Option.bind_some, hr, Option.pure_def, Option.some.injEq,
        Prod.mk.injEq]
      constructor
      · rintro ⟨rfl, rfl⟩
        exact ⟨rfl, hr⟩
      · rintro ⟨rfl, hs⟩
        exact ⟨rfl, by simpa [hr] using hs⟩

/-- The record at the place becomes an undone one, if it has the name of the one that was selected; the
place goes off the stack in any case. -/
theorem noteUndone_cases (m : Manager σ) (i : Nat) (r : ChangeRecord) :
    (∃ s, m.history[i]? = some s ∧ s.id = r.id ∧
      m.noteUndone i r = (undoneRecord s, m.marking i s)) ∨
    (∀ s, m.history[i]? = some s → s.id ≠ r.id) ∧
      m.noteUndone i r = (undoneRecord r, m.unstacking i) := by
  cases hs : m.history[i]? with
  | none => exact Or.inr ⟨fun s h => (by cases h), by simp [noteUndone, hs, undoneRecord, unstacking]⟩
  | some s =>
    by_cases hid : s.id = r.id
    · exact Or.inl ⟨s, rfl, hid, by simp [noteUndone, hs, hid, undoneRecord, marking]⟩
    · refine Or.inr ⟨?_, by simp [noteUndone, hs, hid, undoneRecord, unstacking]⟩
      intro t ht
      cases ht
      exact hid

theorem noteUndone_of_recorded {m : Manager σ} {i : Nat} {r : ChangeRecord}
    (h : m.history[i]? = some r) : m.noteUndone i r = (undoneRecord r, m.marking i r) := by
  rcases m.noteUndone_cases i r with ⟨s, hs, -, hrun⟩ | ⟨hother, -⟩
  · rw [h] at hs
    cases hs
    exact hrun
  · exact absurd rfl (hother r h)

theorem commitUndo_run {m : Manager σ} {i : Nat} {r : ChangeRecord} (b : Path)
    (h : m.history[i]? = some r) :
    (commitUndo i r b : Attempt (Manager σ) ChangeRecord) m = .ok (undoneRecord r)
      (((m.marking i r).counting .changesUndone).reporting (.changeUndone r.file b)) := by
  unfold commitUndo
  rw [Attempt.bind_of_ok (Attempt.modifyGet_run _ m), noteUndone_of_recorded h]
  rfl

theorem undo_run (m : Manager MemoryFiles) : ∃ a m', undo m = .ok a m' ∧ Undoing m a m' := by
  unfold undo
  rw [Attempt.bind_of_ok (Attempt.get_run m)]
  cases hselect : m.selectUndo? with
  | none => exact ⟨_, _, rfl, .nothing hselect⟩
  | some choice =>
    obtain ⟨i, r⟩ := choice
    simp only
    rcases restoreFrom_run r m with ⟨e, hrun, hobstacle⟩ |
      ⟨b, contents, hbackup, hread, hdigest, htarget, hrun⟩
    · rw [Attempt.bind_of_ok hrun]
      exact ⟨_, _, rfl, .obstructed hselect hobstacle⟩
    · rw [Attempt.bind_of_ok hrun]
      refine ⟨_, _, ?_, .undone hselect hbackup hread hdigest htarget⟩
      have hget : (m.writing r.file contents).history[i]? = some r :=
        (selectUndo?_eq_some.1 hselect).2
      simp only
      rw [Attempt.bind_of_ok (commitUndo_run b hget)]
      rfl

/-! ## Backing a file up and restoring it -/

/-- The ways in which taking a backup on its own ends. -/
inductive BackingUp (m : Manager MemoryFiles) (file : Path) :
    Except ChangeError BackupEntry → Manager MemoryFiles → Prop
  | unreadable {cause : FileError} (hread : m.vault.files.textAt file = .error cause) :
    BackingUp m file (.error (.fileAccess file cause)) m
  | refused {contents : String} {n : Nat} (hread : m.vault.files.textAt file = .ok contents)
      (hfree : m.FreeNumber file n)
      (hbackup : m.refusesWrite (m.vault.store.pathOf file n) = true) :
    BackingUp m file
      (.error (.fileAccess (m.vault.store.pathOf file n)
        (.writeRefused (m.vault.store.pathOf file n)))) (m.skipTo (n + 1))
  | taken {contents : String} {n : Nat} (hread : m.vault.files.textAt file = .ok contents)
      (hfree : m.FreeNumber file n)
      (hbackup : m.refusesWrite (m.vault.store.pathOf file n) = false) :
    BackingUp m file (.ok (m.entryOf file n contents))
      ((m.backingUp file n contents).keeping
        (protectedBackups m.history ++ [m.vault.store.pathOf file n]) (m.entryOf file n contents))

theorem backUp_run (file : Path) (m : Manager MemoryFiles) :
    ∃ a m', backUp file m = .ok a m' ∧ BackingUp m file a m' := by
  unfold backUp
  rw [Attempt.bind_of_ok (read_run file m)]
  cases hread : m.vault.files.textAt file with
  | error cause => exact ⟨_, _, rfl, .unreadable hread⟩
  | ok contents =>
    simp only
    obtain ⟨n, hfree, ⟨hbackup, hrun⟩ | ⟨hbackup, hrun⟩⟩ := m.takeBackup_cases file contents
    · rw [Attempt.bind_of_ok hrun]
      exact ⟨_, _, rfl, .refused hread hfree hbackup⟩
    · rw [Attempt.bind_of_ok hrun]
      refine ⟨_, _, ?_, .taken hread hfree hbackup⟩
      simp only
      rw [Attempt.bind_of_ok (record_run _ _), Attempt.bind_of_ok (Attempt.get_run _),
        Attempt.bind_of_ok (enforceLimit_run _ _), Attempt.bind_of_ok (discard_run _ _)]
      rfl

/-- The ways in which restoring the newest backup of a file ends.  A failure leaves everything as it
was. -/
inductive Restoring (m : Manager MemoryFiles) (file : Path) :
    Except ChangeError BackupEntry → Manager MemoryFiles → Prop
  | noBackup (hlatest : m.vault.store.latestFor? file = none) :
    Restoring m file (.error (.noBackup file)) m
  | unreadable {b : BackupEntry} {cause : FileError}
      (hlatest : m.vault.store.latestFor? file = some b)
      (hread : m.vault.files.textAt b.backup = .error cause) :
    Restoring m file (.error (.fileAccess b.backup cause)) m
  | altered {b : BackupEntry} {contents : String}
      (hlatest : m.vault.store.latestFor? file = some b)
      (hread : m.vault.files.textAt b.backup = .ok contents)
      (hdigest : b.digest ≠ digestOf contents) :
    Restoring m file (.error (.fileAccess b.backup .digestMismatch)) m
  | writeRefused {b : BackupEntry} {contents : String}
      (hlatest : m.vault.store.latestFor? file = some b)
      (hread : m.vault.files.textAt b.backup = .ok contents)
      (hdigest : b.digest = digestOf contents) (htarget : m.refusesWrite file = true) :
    Restoring m file (.error (.fileAccess file (.writeRefused file))) m
  | restored {b : BackupEntry} {contents : String}
      (hlatest : m.vault.store.latestFor? file = some b)
      (hread : m.vault.files.textAt b.backup = .ok contents)
      (hdigest : b.digest = digestOf contents) (htarget : m.refusesWrite file = false) :
    Restoring m file (.ok b) ((m.writing file contents).reporting (.backupRestored file b.backup))

theorem readVerified_run (b : BackupEntry) (m : Manager MemoryFiles) :
    inVault (Vault.readVerified b.backup (some b.digest)) m =
      .ok (match m.vault.files.textAt b.backup with
        | .error cause => .error (.fileAccess b.backup cause)
        | .ok contents =>
          if b.digest = digestOf contents then .ok contents
          else .error (.fileAccess b.backup .digestMismatch)) m := by
  have hread : Vault.read b.backup m.vault = .ok (m.vault.files.textAt b.backup) m.vault :=
    Vault.onFiles_of_ok (MemoryFiles.read_run b.backup m.vault.files)
  refine inVault_of_ok ?_
  unfold Vault.readVerified
  rw [Attempt.bind_of_ok hread]
  cases m.vault.files.textAt b.backup with
  | error cause => rfl
  | ok contents =>
    by_cases hdigest : b.digest = digestOf contents
    · simp [hdigest]
    · simp [hdigest]

theorem restoreLatest_run (file : Path) (m : Manager MemoryFiles) :
    ∃ a m', restoreLatest file m = .ok a m' ∧ Restoring m file a m' := by
  unfold restoreLatest
  rw [Attempt.bind_of_ok (Attempt.get_run m)]
  cases hlatest : m.vault.store.latestFor? file with
  | none => exact ⟨_, _, rfl, .noBackup hlatest⟩
  | some b =>
    simp only
    have hrun := readVerified_run b m
    cases hread : m.vault.files.textAt b.backup with
    | error cause =>
      rw [hread] at hrun
      rw [Attempt.bind_of_ok hrun]
      exact ⟨_, _, rfl, .unreadable hlatest hread⟩
    | ok contents =>
      rw [hread] at hrun
      by_cases hdigest : b.digest = digestOf contents
      · simp only [if_pos hdigest] at hrun
        rw [Attempt.bind_of_ok hrun]
        cases htarget : m.refusesWrite file with
        | true =>
          simp only
          rw [Attempt.bind_of_ok (write_of_refused contents htarget)]
          exact ⟨_, _, rfl, .writeRefused hlatest hread hdigest htarget⟩
        | false =>
          simp only
          rw [Attempt.bind_of_ok (write_of_accepted contents htarget)]
          exact ⟨_, _, rfl, .restored hlatest hread hdigest htarget⟩
      · simp only [if_neg hdigest] at hrun
        rw [Attempt.bind_of_ok hrun]
        exact ⟨_, _, rfl, .altered hlatest hread hdigest⟩

end Manager

end CodeReview
