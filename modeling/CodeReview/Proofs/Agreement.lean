import CodeReview.Proofs.Endings

/-!
# Attempts that agree

Two attempts, on states of different kinds, agree along a relation of the states if from related
states both answer the same or both crash alike, and the states are related again (`Agree`).  The
application of a request looks at its files only through calls, and at telemetry not at all; so it
agrees with itself along every relation of files and telemetry that the calls and the reports
maintain (`apply_agrees`), and so do a batch and a backup that is taken on its own.
-/

namespace CodeReview

/-! ## Agreement -/

namespace Attempt

variable {σ τ α β : Type} {R : σ → τ → Prop}

/-- Two ends with the same answer or crash and related states. -/
inductive SameEnd (R : σ → τ → Prop) :
    EStateM.Result Crash σ α → EStateM.Result Crash τ α → Prop
  | ok {a : α} {s : σ} {t : τ} (h : R s t) : SameEnd R (.ok a s) (.ok a t)
  | error {e : Crash} {s : σ} {t : τ} (h : R s t) : SameEnd R (.error e s) (.error e t)

theorem SameEnd.endState {x : Attempt σ α} {y : Attempt τ α} {s : σ} {t : τ}
    (h : SameEnd R (x s) (y t)) : R (x.endState s) (y.endState t) := by
  unfold Attempt.endState
  generalize x s = r, y t = r' at h ⊢
  cases h with
  | ok hst => exact hst
  | error hst => exact hst

/-- From related states two attempts come to the same end. -/
def Agree (R : σ → τ → Prop) (x : Attempt σ α) (y : Attempt τ α) : Prop :=
  ∀ s t, R s t → SameEnd R (x s) (y t)

theorem agree_pure (a : α) : Agree R (pure a) (pure a) := by
  intro s t h
  exact .ok h

theorem agree_throw (e : Crash) : Agree R (throw e : Attempt σ α) (throw e) := by
  intro s t h
  exact .error h

theorem agree_modifyGet {g : σ → α × σ} {k : τ → α × τ}
    (hgk : ∀ s t, R s t → (g s).1 = (k t).1 ∧ R (g s).2 (k t).2) :
    Agree R (modifyGet g) (modifyGet k) := by
  intro s t h
  obtain ⟨hanswer, hstate⟩ := hgk s t h
  rw [modifyGet_run, modifyGet_run, hanswer]
  exact .ok hstate

/-- An attempt agrees with itself along equality. -/
theorem agree_eq (x : Attempt σ α) : Agree Eq x x := by
  rintro s _ rfl
  cases x s with
  | ok a t => exact .ok rfl
  | error e t => exact .error rfl

namespace Agree

variable {x : Attempt σ α} {y : Attempt τ α}

theorem ok (h : Agree R x y) {s s' : σ} {t : τ} {a : α} (hst : R s t) (hrun : x s = .ok a s') :
    ∃ t', y t = .ok a t' ∧ R s' t' := by
  have hend := h s t hst
  rw [hrun] at hend
  generalize y t = r at hend ⊢
  cases hend with
  | ok hst' => exact ⟨_, rfl, hst'⟩

theorem error (h : Agree R x y) {s s' : σ} {t : τ} {e : Crash} (hst : R s t)
    (hrun : x s = .error e s') : ∃ t', y t = .error e t' ∧ R s' t' := by
  have hend := h s t hst
  rw [hrun] at hend
  generalize y t = r at hend ⊢
  cases hend with
  | error hst' => exact ⟨_, rfl, hst'⟩

theorem bind {g : α → Attempt σ β} {k : α → Attempt τ β} (h : Agree R x y)
    (hgk : ∀ a, Agree R (g a) (k a)) : Agree R (x >>= g) (y >>= k) := by
  intro s t hst
  change SameEnd R (EStateM.bind x g s) (EStateM.bind y k t)
  have hend := h s t hst
  unfold EStateM.bind
  generalize x s = r, y t = r' at hend ⊢
  cases hend with
  | ok hst' => exact hgk _ _ _ hst'
  | error hst' => exact .error hst'

theorem get_bind {g : σ → Attempt σ β} {k : τ → Attempt τ β}
    (hgk : ∀ s t, R s t → Agree R (g s) (k t)) : Agree R (get >>= g) (get >>= k) := by
  intro s t h
  exact hgk s t h s t h

theorem tryCatch {g : Crash → Attempt σ α} {k : Crash → Attempt τ α} (h : Agree R x y)
    (hgk : ∀ e, Agree R (g e) (k e)) : Agree R (tryCatch x g) (tryCatch y k) := by
  intro s t hst
  change SameEnd R (EStateM.tryCatch x g s) (EStateM.tryCatch y k t)
  have hend := h s t hst
  unfold EStateM.tryCatch
  generalize x s = r, y t = r' at hend ⊢
  cases hend with
  | ok hst' => exact .ok hst'
  | error hst' => exact hgk _ _ _ hst'

end Agree

end Attempt

open Attempt (Agree SameEnd agree_pure agree_throw agree_modifyGet bind_of_ok)

/-! ## Vaults and managers -/

variable {σ τ α : Type}

/-- A relation of files that all calls maintain. -/
structure FileAccess.Coupled [FileAccess σ] [FileAccess τ] (F : σ → τ → Prop) : Prop where
  read (p : Path) : Agree F (FileAccess.read p) (FileAccess.read p)
  write (p : Path) (text : String) : Agree F (FileAccess.write p text) (FileAccess.write p text)
  present (p : Path) : Agree F (FileAccess.present p) (FileAccess.present p)
  remove (p : Path) : Agree F (FileAccess.remove p) (FileAccess.remove p)
  makeDirs (p : Path) : Agree F (FileAccess.makeDirs p) (FileAccess.makeDirs p)
  occupied (s : σ) (t : τ) : F s t → FileAccess.occupied s = FileAccess.occupied t

/-- A relation of telemetry that events and counts maintain. -/
structure Telemetry.Coupled (T : Telemetry → Telemetry → Prop) : Prop where
  report {t u : Telemetry} (e : Event) : T t u → T (t.report e) (u.report e)
  count {t u : Telemetry} (c : Counter) : T t u → T (t.count c) (u.count c)

/-- Two vaults with related files and telemetry that keep track of the same backups. -/
structure Vault.Like (F : σ → τ → Prop) (T : Telemetry → Telemetry → Prop) (v : Vault σ)
    (w : Vault τ) : Prop where
  files : F v.files w.files
  telemetry : T v.telemetry w.telemetry
  store : v.store = w.store

/-- Two managers with like vaults and the same settings and books; their batches may differ. -/
structure Manager.Like (F : σ → τ → Prop) (T : Telemetry → Telemetry → Prop) (m : Manager σ)
    (n : Manager τ) : Prop where
  vault : Vault.Like F T m.vault n.vault
  config : m.config = n.config
  history : m.history = n.history
  undoStack : m.undoStack = n.undoStack
  issued : m.issued = n.issued
  recordId : m.recordId = n.recordId

variable {F : σ → τ → Prop} {T : Telemetry → Telemetry → Prop}

namespace Vault

theorem onFiles_agrees {x : Attempt σ α} {y : Attempt τ α} (h : Agree F x y) :
    Agree (Like F T) (onFiles x) (onFiles y) := by
  intro v w hvw
  have hend := h v.files w.files hvw.files
  unfold onFiles
  generalize x v.files = r, y w.files = r' at hend ⊢
  cases hend with
  | ok hfiles => exact .ok ⟨hfiles, hvw.telemetry, hvw.store⟩
  | error hfiles => exact .error ⟨hfiles, hvw.telemetry, hvw.store⟩

theorem report_agrees (hT : Telemetry.Coupled T) (e : Event) :
    Agree (Like F T) (report e) (report e) :=
  agree_modifyGet fun _ _ h => ⟨rfl, h.files, hT.report e h.telemetry, h.store⟩

theorem count_agrees (hT : Telemetry.Coupled T) (c : Counter) :
    Agree (Like F T) (count c) (count c) :=
  agree_modifyGet fun _ _ h => ⟨rfl, h.files, hT.count c h.telemetry, h.store⟩

/-- What is done with the store alone. -/
theorem onStore_agrees (f : BackupStore → α × BackupStore) :
    Agree (Like F T) (modifyGet fun v => ((f v.store).1, { v with store := (f v.store).2 }))
      (modifyGet fun v => ((f v.store).1, { v with store := (f v.store).2 })) := by
  refine agree_modifyGet fun v w h => ?_
  rw [h.store]
  exact ⟨rfl, h.files, h.telemetry, rfl⟩

section

variable [FileAccess σ] [FileAccess τ] (hF : FileAccess.Coupled F) (hT : Telemetry.Coupled T)

include hF in
theorem read_agrees (p : Path) : Agree (Like F T) (read p) (read p) :=
  onFiles_agrees (hF.read p)

include hF in
theorem write_agrees (p : Path) (text : String) :
    Agree (Like F T) (write p text) (write p text) :=
  onFiles_agrees (hF.write p text)

include hF in
theorem freshPathWithin_agrees (file : Path) (tries : Nat) :
    Agree (Like F T) (freshPathWithin file tries) (freshPathWithin file tries) := by
  induction tries with
  | zero => exact agree_throw _
  | succ tries ih =>
    refine (onStore_agrees fun s => s.reserve file).bind fun backup => ?_
    refine (onFiles_agrees (hF.present backup)).bind fun present => ?_
    cases present with
    | true => exact ih
    | false => exact agree_pure backup

include hF hT in
theorem writeBackup_agrees (file backup : Path) (contents : String) :
    Agree (Like F T) (writeBackup file backup contents) (writeBackup file backup contents) := by
  unfold writeBackup
  rcases backup.parent? with _ | dir
  case' some =>
    refine (onFiles_agrees (hF.makeDirs dir)).bind fun made => ?_
    rcases made with cause | _
    · exact agree_pure _
  all_goals
    refine (write_agrees hF backup contents).bind fun answer => ?_
    cases answer with
    | error cause => exact agree_pure _
    | ok _ => exact (report_agrees hT _).bind fun _ => agree_pure _

include hF hT in
theorem takeBackup_agrees (file : Path) (contents : String) :
    Agree (Like F T) (takeBackup file contents) (takeBackup file contents) := by
  have hfresh : Agree (Like F T) (freshPath file) (freshPath file) := by
    refine Agree.get_bind fun v w h => ?_
    rw [hF.occupied _ _ h.files]
    exact freshPathWithin_agrees hF file _
  exact hfresh.bind fun backup => writeBackup_agrees hF hT file backup contents

include hF hT in
theorem create_agrees (file : Path) (contents : String) :
    Agree (Like F T) (create file contents) (create file contents) := by
  refine (takeBackup_agrees hF hT file contents).bind fun result => ?_
  cases result with
  | error e => exact agree_pure _
  | ok b => exact (onStore_agrees fun s => ((), s.record b)).bind fun _ => agree_pure _

include hF hT in
theorem removeFiles_agrees (backups : List Path) :
    Agree (Like F T) (removeFiles backups) (removeFiles backups) := by
  have hremove : ∀ p, Agree (Like F T) (removeFile p) (removeFile p) := by
    intro p
    refine (onFiles_agrees (hF.remove p)).bind fun removed => ?_
    cases removed with
    | ok _ => exact agree_pure ()
    | error cause =>
      simp only
      split
      · exact agree_pure ()
      · exact report_agrees hT _
  induction backups with
  | nil => exact agree_pure ()
  | cons p ps ih => exact (hremove p).bind fun _ => ih

end

end Vault

namespace Manager

theorem inVault_agrees {x : Attempt (Vault σ) α} {y : Attempt (Vault τ) α}
    (h : Agree (Vault.Like F T) x y) : Agree (Like F T) (inVault x) (inVault y) := by
  intro m n hmn
  have hend := h m.vault n.vault hmn.vault
  unfold inVault
  generalize x m.vault = r, y n.vault = r' at hend ⊢
  cases hend with
  | ok hvault =>
    exact .ok ⟨hvault, hmn.config, hmn.history, hmn.undoStack, hmn.issued, hmn.recordId⟩
  | error hvault =>
    exact .error ⟨hvault, hmn.config, hmn.history, hmn.undoStack, hmn.issued, hmn.recordId⟩

theorem issue_agrees : Agree (Like F T) issue issue := by
  refine agree_modifyGet fun m n h => ?_
  rw [h.issued, h.recordId]
  exact ⟨rfl, h.vault, h.config, h.history, h.undoStack, rfl, rfl⟩

theorem push_agrees (r : ChangeRecord) : Agree (Like F T) (push r) (push r) := by
  refine agree_modifyGet fun m n h => ⟨rfl, h.vault, h.config, ?_, h.undoStack, h.issued,
    h.recordId⟩
  simp only [h.history]

theorem record_agrees (b : BackupEntry) :
    Agree (Like F T) (inVault (Vault.record b)) (inVault (Vault.record b)) :=
  inVault_agrees (Vault.onStore_agrees fun s => ((), s.record b))

section

variable (hT : Telemetry.Coupled T)

include hT

theorem report_agrees (e : Event) : Agree (Like F T) (report e) (report e) :=
  inVault_agrees (Vault.report_agrees hT e)

theorem count_agrees (c : Counter) : Agree (Like F T) (count c) (count c) :=
  inVault_agrees (Vault.count_agrees hT c)

theorem refuse_agrees (q : ChangeRequest) (e : ChangeError) (b : Option BackupEntry) :
    Agree (Like F T) (refuse q e b : Attempt _ (Except ChangeError α)) (refuse q e b) := by
  refine Agree.bind ?_ fun _ => agree_pure _
  refine (count_agrees hT _).bind fun _ => (report_agrees hT _).bind fun _ => ?_
  refine Agree.get_bind fun m n h => ?_
  rw [h.config]
  cases n.config.dryRun with
  | true => exact agree_pure ()
  | false =>
    refine issue_agrees.bind fun id => ?_
    cases b with
    | none => exact push_agrees _
    | some b => exact (record_agrees b).bind fun _ => push_agrees _

end

theorem commit_agrees (q : ChangeRequest) (b : BackupEntry) :
    Agree (Like F T) (commit q b) (commit q b) := by
  have hnote : Agree (Like F T)
      (modify fun m => { m with undoStack := m.undoStack ++ [m.history.length - 1] })
      (modify fun m => { m with undoStack := m.undoStack ++ [m.history.length - 1] }) := by
    refine agree_modifyGet fun m n h => ⟨rfl, h.vault, h.config, h.history, ?_, h.issued,
      h.recordId⟩
    simp only [h.undoStack, h.history]
  refine issue_agrees.bind fun id => (record_agrees b).bind fun _ => ?_
  refine (push_agrees _).bind fun _ => hnote.bind fun _ => Agree.get_bind fun m n h => ?_
  rw [h.history]
  exact (inVault_agrees (Vault.onStore_agrees fun s => s.enforceLimit _)).bind fun _ => agree_pure _

section

variable [FileAccess σ] [FileAccess τ] (hF : FileAccess.Coupled F) (hT : Telemetry.Coupled T)

include hF hT

theorem discard_agrees (dropped : List Path) :
    Agree (Like F T) (discard dropped) (discard dropped) := by
  refine (inVault_agrees (Vault.removeFiles_agrees hF hT dropped)).bind fun _ => ?_
  induction dropped with
  | nil => exact agree_pure ()
  | cons p ps ih =>
    exact ((count_agrees hT _).bind fun _ => report_agrees hT _).bind fun _ => ih

theorem rollBack_agrees (file : Path) (old : String) :
    Agree (Like F T) (rollBack file old) (rollBack file old) := by
  refine (inVault_agrees (Vault.write_agrees hF file old)).bind fun written => ?_
  cases written with
  | ok _ => exact agree_pure true
  | error cause => exact (report_agrees hT _).bind fun _ => agree_pure false

theorem replaceText_agrees (file : Path) (old new : String) :
    Agree (Like F T) (replaceText file old new) (replaceText file old new) := by
  refine Agree.bind ?_ fun written => ?_
  · refine (inVault_agrees (Vault.write_agrees hF file new)).tryCatch fun crash => ?_
    exact (rollBack_agrees hF hT file old).bind fun _ => agree_throw crash
  · cases written with
    | ok _ => exact agree_pure _
    | error cause => exact (rollBack_agrees hF hT file old).bind fun _ => agree_pure _

theorem carryOut_agrees (q : ChangeRequest) (old new : String) :
    Agree (Like F T) (carryOut q old new) (carryOut q old new) := by
  refine (inVault_agrees (Vault.takeBackup_agrees hF hT q.file old)).bind fun taken => ?_
  cases taken with
  | error e => exact refuse_agrees hT q e none
  | ok b =>
    refine (replaceText_agrees hF hT q.file old new).bind fun replaced => ?_
    cases replaced with
    | error failure => exact refuse_agrees hT q _ (some b)
    | ok _ =>
      refine (commit_agrees q b).bind fun committed => ?_
      refine (discard_agrees hF hT committed.2).bind fun _ => ?_
      exact (count_agrees hT _).bind fun _ => (report_agrees hT _).bind fun _ => agree_pure _

theorem applyValid_agrees (q : ChangeRequest) :
    Agree (Like F T) (applyValid q) (applyValid q) := by
  refine (inVault_agrees (Vault.read_agrees hF q.file)).bind fun read => ?_
  cases read with
  | error cause => exact refuse_agrees hT q _ none
  | ok old =>
    simp only
    cases Edit.replaceBlock old q.line q.expected q.suggested with
    | error cause => exact refuse_agrees hT q _ none
    | ok new =>
      refine Agree.get_bind fun m n h => ?_
      rw [h.config]
      cases n.config.dryRun with
      | true => exact (report_agrees hT _).bind fun _ => agree_pure _
      | false => exact carryOut_agrees hF hT q old new

theorem apply_agrees (q : ChangeRequest) : Agree (Like F T) (apply q) (apply q) := by
  unfold apply
  cases q.validate with
  | error e => exact agree_pure _
  | ok _ => exact applyValid_agrees hF hT q

theorem applyEach_agrees (report : BatchReport) (qs : List ChangeRequest) :
    Agree (Like F T) (applyEach report qs) (applyEach report qs) := by
  induction qs generalizing report with
  | nil => exact agree_pure report
  | cons q qs ih => exact (applyValid_agrees hF hT q).bind fun answer => ih (report.add q answer)

theorem backUp_agrees (file : Path) : Agree (Like F T) (backUp file) (backUp file) := by
  refine (inVault_agrees (Vault.read_agrees hF file)).bind fun read => ?_
  cases read with
  | error cause => exact agree_pure _
  | ok contents =>
    refine (inVault_agrees (Vault.takeBackup_agrees hF hT file contents)).bind fun taken => ?_
    cases taken with
    | error e => exact agree_pure _
    | ok b =>
      refine (record_agrees b).bind fun _ => Agree.get_bind fun m n h => ?_
      rw [h.history]
      refine (inVault_agrees (Vault.onStore_agrees fun s => s.enforceLimit _)).bind fun dropped => ?_
      exact (discard_agrees hF hT dropped).bind fun _ => agree_pure (Except.ok b)

end

/-! ## Batches -/

theorem Like.onTelemetry {m : Manager σ} {n : Manager τ} (h : Like F Eq m n)
    (f : Telemetry → Telemetry) : Like F Eq
      { m with vault := { m.vault with telemetry := f m.vault.telemetry } }
      { n with vault := { n.vault with telemetry := f n.vault.telemetry } } :=
  ⟨⟨h.vault.files, congrArg f h.vault.telemetry, h.vault.store⟩, h.config, h.history, h.undoStack,
    h.issued, h.recordId⟩

theorem inSpan_agrees {x : Attempt (Manager σ) α} {y : Attempt (Manager τ) α}
    (h : Agree (Like F Eq) x y) : Agree (Like F Eq) (inSpan x) (inSpan y) := by
  intro m n hmn
  have hend := h _ _ (hmn.onTelemetry Telemetry.enter)
  unfold inSpan
  simp only
  generalize x _ = r, y _ = r' at hend ⊢
  cases hend with
  | ok hkl => exact .ok (hkl.onTelemetry Telemetry.leave)
  | error hkl => exact .error (hkl.onTelemetry Telemetry.leave)

section

variable [FileAccess σ] [FileAccess τ] (hF : FileAccess.Coupled F)

include hF

/-- Two batches of the same requests agree. -/
theorem applyPending_agrees {m : Manager σ} {n : Manager τ} (h : Like F Eq m n)
    (hpending : m.pending = n.pending) : SameEnd (Like F Eq) (applyPending m) (applyPending n) := by
  have hT : Telemetry.Coupled Eq := ⟨fun _ h => h ▸ rfl, fun _ h => h ▸ rfl⟩
  have htake : takePending m = .ok m.pending { m with pending := [] } := rfl
  have htake' : takePending n = .ok n.pending { n with pending := [] } := rfl
  have htaken : Like F Eq { m with pending := [] } { n with pending := [] } :=
    ⟨h.vault, h.config, h.history, h.undoStack, h.issued, h.recordId⟩
  unfold applyPending
  rw [bind_of_ok htake, bind_of_ok htake', hpending]
  refine inSpan_agrees ?_ _ _ htaken
  refine (applyEach_agrees hF hT {} (batchOrder n.pending)).bind fun r => ?_
  exact (report_agrees hT _).bind fun _ => agree_pure r

end

end Manager

end CodeReview
