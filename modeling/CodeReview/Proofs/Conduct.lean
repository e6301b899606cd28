import CodeReview.Proofs.Endings
import CodeReview.Proofs.Outcomes

/-!
# The conduct of operations

Outside its vault an operation does little to a manager: it notes failed attempts and applied changes.
A relation that is reflexive and transitive and allows calls on the vault and these two
(`Conduct`) relates a manager to what each operation makes of it, over any files, whether the
operation answers or crashes.  The undo, the reset and the batch as a list change more; they are not
covered, but their parts are.
-/

namespace CodeReview

/-- The counter that goes with an event of a change manager, if one does. -/
def Event.counter? : Event → Option Counter
  | .changeApplied .. => some .changesApplied
  | .changeFailed .. => some .changesFailed
  | .changeUndone .. => some .changesUndone
  | .backupEvicted .. => some .backupsEvicted
  | _ => none

namespace Vault

variable {σ α : Type}

/-- Two vaults with the same store. -/
def SameStore (v w : Vault σ) : Prop :=
  w.store = v.store

instance : IsPreorder (Vault σ) SameStore where
  refl _ := rfl
  trans _ _ _ h h' := Eq.trans h' h

theorem onFiles_sameStore (act : Attempt σ α) : (onFiles act).Within SameStore := by
  intro v
  apply ends_onFiles
  unfold Attempt.Ends
  cases act v.files with
  | ok a files => exact refl_of SameStore v
  | error e files => exact refl_of SameStore v

theorem report_sameStore (e : Event) : (report e : Attempt (Vault σ) Unit).Within SameStore :=
  fun v => Attempt.ends_of_ok rfl (refl_of SameStore v)

theorem count_sameStore (c : Counter) : (count c : Attempt (Vault σ) Unit).Within SameStore :=
  fun v => Attempt.ends_of_ok rfl (refl_of SameStore v)

end Vault

namespace Manager

variable {σ α : Type} {R : Manager σ → Manager σ → Prop}

/-- A relation that does not look into vaults. -/
def VaultBlind (R : Manager σ → Manager σ → Prop) : Prop :=
  ∀ m vault, R m { m with vault := vault }

/-- What a relation must allow to have operations within it. -/
structure Conduct (R : Manager σ → Manager σ → Prop) : Prop where
  vault : VaultBlind R
  failed (m : Manager σ) (q : ChangeRequest) (e : ChangeError) (b : Option BackupEntry) :
    R m (m.noteFailed q e b)
  applied (m : Manager σ) (q : ChangeRequest) (b : BackupEntry) : R m (m.noting q b)

/-- A relation that looks into vaults for their stores at most: neither at files nor at telemetry. -/
def FilesBlind (R : Manager σ → Manager σ → Prop) : Prop :=
  ∀ (m : Manager σ) (vault : Vault σ), vault.store = m.vault.store → R m { m with vault := vault }

/-- A relation that allows calls on files and reports that go with no counter. -/
structure Lenient (R : Manager σ → Manager σ → Prop) : Prop where
  files (m : Manager σ) (files : σ) : R m { m with vault := { m.vault with files := files } }
  told (m : Manager σ) {e : Event} (he : e.counter? = none) : R m (m.reporting e)

theorem VaultBlind.files (h : VaultBlind R) : FilesBlind R :=
  fun m vault _ => h m vault

theorem FilesBlind.lenient (h : FilesBlind R) : Lenient R where
  files m _ := h m _ rfl
  told m _ _ := h m _ rfl

/-! ## Parts that stay in the vault -/

theorem inVault_bind {β : Type} (act : Attempt (Vault σ) α) (f : α → Attempt (Vault σ) β) :
    inVault (act >>= f) = inVault act >>= fun a => inVault (f a) := by
  funext m
  cases hrun : act m.vault with
  | ok a vault =>
    rw [Attempt.bind_of_ok (inVault_of_ok hrun)]
    unfold inVault
    rw [Attempt.bind_of_ok hrun]
  | error e vault =>
    rw [Attempt.bind_of_error (inVault_of_error hrun)]
    exact inVault_of_error (Attempt.bind_of_error hrun)

theorem inVault_within (h : VaultBlind R) (act : Attempt (Vault σ) α) :
    (inVault act).Within R := by
  intro m
  apply ends_inVault
  unfold Attempt.Ends
  cases act m.vault with
  | ok a vault => exact h m vault
  | error e vault => exact h m vault

theorem inVault_within_of_sameStore (h : FilesBlind R) {act : Attempt (Vault σ) α}
    (hact : act.Within Vault.SameStore) : (inVault act).Within R := by
  intro m
  apply ends_inVault
  exact (hact m.vault).mono (fun _ vault hstore => h m vault hstore) fun vault hstore =>
    h m vault hstore

section

variable [IsPreorder (Manager σ) R] [FileAccess σ]

omit [IsPreorder (Manager σ) R] [FileAccess σ] in
theorem onFiles_within (h : Lenient R) (act : Attempt σ α) :
    (inVault (Vault.onFiles act)).Within R := by
  intro m
  apply ends_inVault
  apply Vault.ends_onFiles
  unfold Attempt.Ends
  cases act m.vault.files with
  | ok a files => exact h.files m files
  | error e files => exact h.files m files

omit [IsPreorder (Manager σ) R] [FileAccess σ] in
theorem report_within (h : Lenient R) {e : Event} (he : e.counter? = none) :
    (report e : Attempt (Manager σ) Unit).Within R :=
  fun m => Attempt.ends_of_ok (report_run e m) (h.told m he)

theorem readVerified_within (h : Lenient R) (backup : Path) (digest : Option String) :
    (inVault (Vault.readVerified backup digest) : Attempt (Manager σ) _).Within R := by
  rw [Vault.readVerified, inVault_bind]
  refine (onFiles_within h _).bind fun read => ?_
  cases read with
  | error cause => exact Attempt.within_pure _
  | ok contents =>
    simp only
    split
    · exact Attempt.within_pure _
    · exact Attempt.within_pure _

theorem removeFile_within (h : Lenient R) (p : Path) :
    (inVault (Vault.removeFile p) : Attempt (Manager σ) Unit).Within R := by
  rw [Vault.removeFile, inVault_bind]
  refine (onFiles_within h _).bind fun removed => ?_
  cases removed with
  | ok _ => exact Attempt.within_pure _
  | error cause =>
    simp only
    split
    · exact Attempt.within_pure _
    · exact report_within h rfl

theorem removeFiles_within (h : Lenient R) (ps : List Path) :
    (inVault (Vault.removeFiles ps) : Attempt (Manager σ) Unit).Within R := by
  induction ps with
  | nil => exact Attempt.within_pure ()
  | cons p ps ih =>
    change (inVault (Vault.removeFile p >>= fun _ => Vault.removeFiles ps)).Within R
    rw [inVault_bind]
    exact (removeFile_within h p).bind fun _ => ih

theorem writeBackup_within (h : Lenient R) (file backup : Path) (contents : String) :
    (inVault (Vault.writeBackup file backup contents) : Attempt (Manager σ) _).Within R := by
  unfold Vault.writeBackup
  rcases backup.parent? with _ | dir
  case' some =>
    simp only
    rw [inVault_bind]
    refine (onFiles_within h _).bind fun made => ?_
    rcases made with cause | _
    · exact Attempt.within_pure _
  all_goals
    simp only
    rw [inVault_bind]
    refine (onFiles_within h _).bind fun written => ?_
    cases written with
    | error cause => exact Attempt.within_pure _
    | ok _ => exact (report_within h rfl).bind fun _ => Attempt.within_pure _

/-- Taking a backup also uses numbers up. -/
theorem takeBackup_within (h : Lenient R) (hskip : ∀ m n, R m (m.skipTo n)) (file : Path)
    (contents : String) :
    (inVault (Vault.takeBackup file contents) : Attempt (Manager σ) _).Within R := by
  have hpath : ∀ tries,
      (inVault (Vault.freshPathWithin file tries) : Attempt (Manager σ) _).Within R := by
    intro tries
    induction tries with
    | zero => exact Attempt.within_throw _
    | succ tries ih =>
      rw [Vault.freshPathWithin, inVault_bind]
      refine Attempt.Within.bind (fun m => Attempt.ends_of_ok rfl (hskip m _)) fun backup => ?_
      rw [inVault_bind]
      refine (onFiles_within h _).bind fun there => ?_
      cases there with
      | true => exact ih
      | false => exact Attempt.within_pure _
  rw [Vault.takeBackup, Vault.freshPath, inVault_bind, inVault_bind]
  refine Attempt.Within.bind ?_ fun backup => writeBackup_within h file backup contents
  refine Attempt.Within.bind (fun m => Attempt.ends_of_ok rfl (refl_of R m)) fun v => ?_
  exact hpath (FileAccess.occupied v.files + 1)

theorem rollBack_within (h : Lenient R) (file : Path) (old : String) :
    (rollBack file old : Attempt (Manager σ) Bool).Within R := by
  refine (onFiles_within h _).bind fun answer => ?_
  cases answer with
  | ok _ => exact Attempt.within_pure true
  | error cause => exact (report_within h rfl).bind fun _ => Attempt.within_pure false

theorem replaceText_within (h : Lenient R) (file : Path) (old new : String) :
    (replaceText file old new : Attempt (Manager σ) _).Within R := by
  have hwrite := onFiles_within h (FileAccess.write file new : Attempt σ _)
  refine Attempt.Within.bind (hwrite.tryCatch fun crash => ?_) fun written => ?_
  · exact (rollBack_within h file old).bind fun _ => Attempt.within_throw crash
  · cases written with
    | ok _ => exact Attempt.within_pure _
    | error cause => exact (rollBack_within h file old).bind fun _ => Attempt.within_pure _

theorem discard_within (h : FilesBlind R) (dropped : List Path) :
    (discard dropped : Attempt (Manager σ) Unit).Within R := by
  refine (removeFiles_within h.lenient dropped).bind fun _ => ?_
  induction dropped with
  | nil => exact Attempt.within_pure ()
  | cons p ps ih =>
    have hcount := inVault_within_of_sameStore h (Vault.count_sameStore (σ := σ) .backupsEvicted)
    have hreport := inVault_within_of_sameStore h (Vault.report_sameStore (σ := σ) (.backupEvicted p))
    exact (hcount.bind fun _ => hreport).bind fun _ => ih

/-- Restoring a file is the part of an undo that concerns the vault only. -/
theorem restoreFrom_within (h : Lenient R) (r : ChangeRecord) :
    (restoreFrom r : Attempt (Manager σ) _).Within R := by
  unfold restoreFrom
  cases r.backup with
  | none => exact Attempt.within_pure _
  | some backup =>
    refine (onFiles_within h _).bind fun present => ?_
    cases present with
    | false => exact Attempt.within_pure _
    | true =>
      refine (onFiles_within h _).bind fun read => ?_
      cases read with
      | error cause => exact Attempt.within_pure _
      | ok contents =>
        simp only
        cases r.digest.all (· = digestOf contents) with
        | false => exact Attempt.within_pure _
        | true =>
          refine (onFiles_within h _).bind fun written => ?_
          cases written with
          | error cause => exact Attempt.within_pure _
          | ok _ => exact Attempt.within_pure _

theorem backUp_within (h : VaultBlind R) (file : Path) :
    (backUp file : Attempt (Manager σ) _).Within R := by
  refine (inVault_within h _).bind fun read => ?_
  cases read with
  | error cause => exact Attempt.within_pure _
  | ok contents =>
    refine (inVault_within h _).bind fun taken => ?_
    cases taken with
    | error e => exact Attempt.within_pure _
    | ok b =>
      refine (inVault_within h _).bind fun _ => Attempt.within_get_bind fun m => ?_
      exact (inVault_within h _).bind fun dropped => (discard_within h.files dropped).bind fun _ =>
        Attempt.within_pure (Except.ok b)

theorem restoreLatest_within (h : Lenient R) (file : Path) :
    (restoreLatest file : Attempt (Manager σ) _).Within R := by
  refine Attempt.within_get_bind fun m => ?_
  cases m.vault.store.latestFor? file with
  | none => exact Attempt.within_pure _
  | some b =>
    refine (readVerified_within h b.backup (some b.digest)).bind fun verified => ?_
    cases verified with
    | error e => exact Attempt.within_pure _
    | ok contents =>
      refine (onFiles_within h _).bind fun written => ?_
      cases written with
      | error cause => exact Attempt.within_pure _
      | ok _ => exact (report_within h rfl).bind fun _ => Attempt.within_pure _

/-- An undo restores a file and notes the change as undone. -/
theorem undo_within (h : FilesBlind R) (hnote : ∀ m i r, R m (m.noteUndone i r).2) :
    (undo : Attempt (Manager σ) _).Within R := by
  refine Attempt.within_get_bind fun m => ?_
  cases m.selectUndo? with
  | none => exact Attempt.within_pure _
  | some choice =>
    obtain ⟨i, r⟩ := choice
    refine (restoreFrom_within h.lenient r).bind fun restored => ?_
    cases restored with
    | error e => exact Attempt.within_pure _
    | ok backup =>
      have hnoted : (modifyGet fun m => m.noteUndone i r : Attempt (Manager σ) _).Within R :=
        fun k => Attempt.ends_of_ok rfl (hnote k i r)
      refine Attempt.Within.bind (hnoted.bind fun undone => ?_) fun _ => Attempt.within_pure _
      refine (inVault_within_of_sameStore h (Vault.count_sameStore _)).bind fun _ => ?_
      exact (inVault_within_of_sameStore h (Vault.report_sameStore _)).bind fun _ =>
        Attempt.within_pure _

/-! ## Batches -/

theorem applyEach_within (hrequest : ∀ q, (applyValid q : Attempt (Manager σ) _).Within R)
    (report : BatchReport) (qs : List ChangeRequest) :
    (applyEach report qs : Attempt (Manager σ) BatchReport).Within R := by
  induction qs generalizing report with
  | nil => exact Attempt.within_pure report
  | cons q qs ih => exact (hrequest q).bind fun answer => ih (report.add q answer)

section

variable (hrequest : ∀ q, (applyValid q : Attempt (Manager σ) _).Within R)
  (henter : ∀ m, R m { m with vault := { m.vault with telemetry := m.vault.telemetry.enter } })
  (hleave : ∀ m, R m { m with vault := { m.vault with telemetry := m.vault.telemetry.leave } })
  (htold : ∀ m applied previewed failed,
    R m (m.reporting (.batchFinished applied previewed failed)))

include hrequest henter hleave htold

/-- What a batch does after its requests were taken is told by its requests. -/
theorem inBatch_within (qs : List ChangeRequest) :
    (inSpan do
      let r ← applyEach {} (batchOrder qs)
      report (.batchFinished r.applied r.previewed r.failed)
      return r : Attempt (Manager σ) BatchReport).Within R := by
  refine inSpan_within henter hleave ?_
  refine (applyEach_within hrequest {} (batchOrder qs)).bind fun r => ?_
  refine Attempt.Within.bind (fun m => ?_) fun _ => Attempt.within_pure r
  exact Attempt.ends_of_ok (report_run _ m) (htold m _ _ _)

theorem applyPending_within (htake : ∀ m : Manager σ, R m { m with pending := [] }) :
    (applyPending : Attempt (Manager σ) BatchReport).Within R :=
  Attempt.Within.bind (fun m => Attempt.ends_of_ok rfl (htake m))
    (inBatch_within hrequest henter hleave htold)

end

end

/-! ## Operations -/

namespace Conduct

theorem refuse (h : Conduct R) (q : ChangeRequest) (e : ChangeError) (b : Option BackupEntry) :
    (Manager.refuse q e b : Attempt (Manager σ) (Except ChangeError α)).Within R := by
  intro m
  exact Attempt.ends_of_ok (refuse_run q e b m) (h.failed m q e b)

variable [IsPreorder (Manager σ) R]

theorem commit (h : Conduct R) (q : ChangeRequest) (b : BackupEntry) :
    (Manager.commit q b : Attempt (Manager σ) _).Within R := by
  intro m
  exact Attempt.ends_of_ok (commit_run q b m) (trans_of R (h.applied m q b) (h.vault _ _))

variable [FileAccess σ]

theorem carryOut (h : Conduct R) (q : ChangeRequest) (old new : String) :
    (Manager.carryOut q old new : Attempt (Manager σ) _).Within R := by
  refine (inVault_within h.vault _).bind fun taken => ?_
  cases taken with
  | error e => exact h.refuse q e none
  | ok b =>
    refine (replaceText_within h.vault.files.lenient q.file old new).bind fun written => ?_
    cases written with
    | error failure => exact h.refuse q _ _
    | ok _ =>
      refine (h.commit q b).bind fun noted => (discard_within h.vault.files noted.2).bind fun _ => ?_
      exact (inVault_within h.vault _).bind fun _ => (inVault_within h.vault _).bind fun _ =>
        Attempt.within_pure _

theorem applyValid (h : Conduct R) (q : ChangeRequest) :
    (Manager.applyValid q : Attempt (Manager σ) _).Within R := by
  refine (inVault_within h.vault _).bind fun read => ?_
  cases read with
  | error cause => exact h.refuse q _ none
  | ok old =>
    simp only
    cases Edit.replaceBlock old q.line q.expected q.suggested with
    | error cause => exact h.refuse q _ none
    | ok new =>
      refine Attempt.within_get_bind fun m => ?_
      cases m.config.dryRun with
      | true => exact (inVault_within h.vault _).bind fun _ => Attempt.within_pure _
      | false => exact h.carryOut q old new

theorem apply (h : Conduct R) (q : ChangeRequest) :
    (Manager.apply q : Attempt (Manager σ) _).Within R := by
  unfold Manager.apply
  cases q.validate with
  | error e => exact Attempt.within_pure _
  | ok _ => exact h.applyValid q

/-- What a batch does after its requests were taken. -/
theorem inBatch (h : Conduct R) (qs : List ChangeRequest) :
    (inSpan do
      let r ← Manager.applyEach {} (batchOrder qs)
      Manager.report (.batchFinished r.applied r.previewed r.failed)
      return r : Attempt (Manager σ) BatchReport).Within R :=
  inBatch_within h.applyValid (fun m => h.vault m _) (fun m => h.vault m _)
    (fun m _ _ _ => h.vault m _) qs

end Conduct

/-! ## Settings and batch -/

/-- Two managers with the same settings and the same batch. -/
structure SameBatch (m m' : Manager σ) : Prop where
  config : m'.config = m.config
  pending : m'.pending = m.pending

instance : IsPreorder (Manager σ) SameBatch where
  refl _ := ⟨rfl, rfl⟩
  trans _ _ _ h h' := ⟨h'.config.trans h.config, h'.pending.trans h.pending⟩

theorem conduct_sameBatch : Conduct (@SameBatch σ) where
  vault _ _ := ⟨rfl, rfl⟩
  failed m q e b := ⟨config_noteFailed m q e b, pending_noteFailed m q e b⟩
  applied _ _ _ := ⟨rfl, rfl⟩

theorem noteUndone_sameBatch (m : Manager σ) (i : Nat) (r : ChangeRecord) :
    SameBatch m (m.noteUndone i r).2 := by
  rcases m.noteUndone_cases i r with ⟨s, -, -, hrun⟩ | ⟨-, hrun⟩ <;> rw [hrun] <;> exact ⟨rfl, rfl⟩

variable [FileAccess σ]

theorem undo_sameBatch : (undo : Attempt (Manager σ) _).Within SameBatch :=
  undo_within conduct_sameBatch.vault.files noteUndone_sameBatch

/-- A batch is empty when it has been applied, and when a call crashed on the way. -/
theorem applyPending_empties (m : Manager σ) : (applyPending.endState m).pending = [] := by
  have htake : takePending m = .ok m.pending { m with pending := [] } := rfl
  unfold applyPending Attempt.endState
  rw [Attempt.bind_of_ok htake]
  exact (conduct_sameBatch.inBatch m.pending { m with pending := [] }).endState.pending

end Manager

end CodeReview
