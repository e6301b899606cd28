import CodeReview.Proofs.Conduct

/-!
# The handling of vaults

What an operation does to its vault is done by a few calls: it calls on files, looks for the path of a
backup, changes the list of backups, and tells of all that.  A relation of vaults that is reflexive and
transitive and allows these (`Handling`) relates the vault to what an operation that may take backups
makes of it, whether the operation answers or crashes.  Unlike the relations of `Conduct`, it may look
at the files.
-/

namespace CodeReview

namespace Vault

variable {σ : Type} [FileAccess σ] {R : Vault σ → Vault σ → Prop}

/-- What a relation of vaults must allow to have operations within it.  The test for a file stands
here with the search for a path only. -/
structure Handling (R : Vault σ → Vault σ → Prop) : Prop where
  read (p : Path) : (read p : Attempt (Vault σ) _).Within R
  write (p : Path) (text : String) : (write p text : Attempt (Vault σ) _).Within R
  remove (p : Path) : (onFiles (FileAccess.remove p) : Attempt (Vault σ) _).Within R
  makeDirs (p : Path) : (onFiles (FileAccess.makeDirs p) : Attempt (Vault σ) _).Within R
  search (file : Path) (tries : Nat) : (freshPathWithin file tries : Attempt (Vault σ) _).Within R
  telemetry (v : Vault σ) (t : Telemetry) : R v { v with telemetry := t }
  entries (v : Vault σ) (es : List BackupEntry) :
    R v { v with store := { v.store with entries := es } }

theorem removeFiles_within [IsPreorder (Vault σ) R]
    (hremove : ∀ p, (onFiles (FileAccess.remove p) : Attempt (Vault σ) _).Within R)
    (hreport : ∀ e, (report e : Attempt (Vault σ) Unit).Within R) (ps : List Path) :
    (removeFiles ps : Attempt (Vault σ) Unit).Within R := by
  have hfile : ∀ p, (removeFile p : Attempt (Vault σ) Unit).Within R := by
    refine fun p => (hremove p).bind fun removed => ?_
    cases removed with
    | ok _ => exact Attempt.within_pure ()
    | error cause =>
      simp only
      split
      · exact Attempt.within_pure ()
      · exact hreport _
  induction ps with
  | nil => exact Attempt.within_pure ()
  | cons p ps ih => exact (hfile p).bind fun _ => ih

namespace Handling

variable [IsPreorder (Vault σ) R] (h : Handling R)

include h

omit [IsPreorder (Vault σ) R] in
theorem report (e : Event) : (Vault.report e : Attempt (Vault σ) Unit).Within R :=
  fun v => Attempt.ends_of_ok rfl (h.telemetry v _)

omit [IsPreorder (Vault σ) R] in
theorem count (c : Counter) : (Vault.count c : Attempt (Vault σ) Unit).Within R :=
  fun v => Attempt.ends_of_ok rfl (h.telemetry v _)

omit [IsPreorder (Vault σ) R] in
theorem record (e : BackupEntry) : (Vault.record e : Attempt (Vault σ) Unit).Within R :=
  fun v => Attempt.ends_of_ok rfl (h.entries v _)

omit [IsPreorder (Vault σ) R] in
theorem enforceLimit (guarded : List Path) :
    (Vault.enforceLimit guarded : Attempt (Vault σ) _).Within R := by
  intro v
  refine Attempt.ends_of_ok rfl ?_
  change R v { v with store := (v.store.enforceLimit guarded).2 }
  rw [BackupStore.enforceLimit_eq]
  exact h.entries v _

theorem writeBackup (file backup : Path) (contents : String) :
    (Vault.writeBackup file backup contents : Attempt (Vault σ) _).Within R := by
  unfold Vault.writeBackup
  rcases backup.parent? with _ | dir
  case' some =>
    refine (h.makeDirs dir).bind fun made => ?_
    rcases made with cause | _
    · exact Attempt.within_pure _
  all_goals
    refine (h.write backup contents).bind fun written => ?_
    cases written with
    | error cause => exact Attempt.within_pure _
    | ok _ => exact (h.report _).bind fun _ => Attempt.within_pure _

theorem takeBackup (file : Path) (contents : String) :
    (Vault.takeBackup file contents : Attempt (Vault σ) _).Within R := by
  refine Attempt.Within.bind ?_ fun backup => h.writeBackup file backup contents
  exact Attempt.within_get_bind fun v => h.search file _

theorem create (file : Path) (contents : String) :
    (Vault.create file contents : Attempt (Vault σ) _).Within R := by
  refine (h.takeBackup file contents).bind fun result => ?_
  cases result with
  | error e => exact Attempt.within_pure _
  | ok b => exact (h.record b).bind fun _ => Attempt.within_pure _

theorem removeFiles (ps : List Path) :
    (Vault.removeFiles ps : Attempt (Vault σ) Unit).Within R :=
  removeFiles_within h.remove h.report ps

end Handling

end Vault

namespace Manager

variable {σ α : Type} {R : Vault σ → Vault σ → Prop}

/-- A relation of managers that looks at their vaults only. -/
def OfVaults (R : Vault σ → Vault σ → Prop) (m m' : Manager σ) : Prop :=
  R m.vault m'.vault

instance [IsPreorder (Vault σ) R] : IsPreorder (Manager σ) (OfVaults R) where
  refl m := refl_of R m.vault
  trans _ _ _ := trans_of R

theorem inVault_ofVaults {act : Attempt (Vault σ) α} (h : act.Within R) :
    (inVault act).Within (OfVaults R) :=
  fun m => ends_inVault (h m.vault)

end Manager

namespace Vault.Handling

open Manager (OfVaults inVault_ofVaults)

variable {σ α : Type} [FileAccess σ] {R : Vault σ → Vault σ → Prop} [IsPreorder (Vault σ) R]
  (h : Handling R)

include h

theorem refuse (q : ChangeRequest) (e : ChangeError) (b : Option BackupEntry) :
    (Manager.refuse q e b : Attempt (Manager σ) (Except ChangeError α)).Within (OfVaults R) := by
  intro m
  refine Attempt.ends_of_ok (Manager.refuse_run q e b m) ?_
  let counted := (m.vault.telemetry.count .changesFailed).report
    (.changeFailed q.file q.line e.message)
  have htold : R m.vault { m.vault with telemetry := counted } := h.telemetry _ _
  unfold Manager.noteFailed OfVaults
  split
  · exact htold
  · cases b with
    | none => exact htold
    | some b => exact trans_of R htold (h.entries _ _)

theorem commit (q : ChangeRequest) (b : BackupEntry) :
    (Manager.commit q b : Attempt (Manager σ) _).Within (OfVaults R) := by
  intro m
  refine Attempt.ends_of_ok (Manager.commit_run q b m) ?_
  exact trans_of R (h.entries m.vault _) (h.entries _ _)

theorem discard (dropped : List Path) :
    (Manager.discard dropped : Attempt (Manager σ) Unit).Within (OfVaults R) := by
  refine (inVault_ofVaults (h.removeFiles dropped)).bind fun _ => ?_
  induction dropped with
  | nil => exact Attempt.within_pure ()
  | cons p ps ih =>
    have htold := (inVault_ofVaults (h.count .backupsEvicted)).bind fun _ =>
      inVault_ofVaults (h.report (.backupEvicted p))
    exact htold.bind fun _ => ih

theorem rollBack (file : Path) (old : String) :
    (Manager.rollBack file old : Attempt (Manager σ) Bool).Within (OfVaults R) := by
  refine (inVault_ofVaults (h.write file old)).bind fun answer => ?_
  cases answer with
  | ok _ => exact Attempt.within_pure true
  | error cause =>
    exact (inVault_ofVaults (h.report _)).bind fun _ => Attempt.within_pure false

theorem replaceText (file : Path) (old new : String) :
    (Manager.replaceText file old new : Attempt (Manager σ) _).Within (OfVaults R) := by
  have hwrite := inVault_ofVaults (h.write file new)
  refine Attempt.Within.bind (hwrite.tryCatch fun crash => ?_) fun written => ?_
  · exact (h.rollBack file old).bind fun _ => Attempt.within_throw crash
  · cases written with
    | ok _ => exact Attempt.within_pure _
    | error cause => exact (h.rollBack file old).bind fun _ => Attempt.within_pure _

theorem carryOut (q : ChangeRequest) (old new : String) :
    (Manager.carryOut q old new : Attempt (Manager σ) _).Within (OfVaults R) := by
  refine (inVault_ofVaults (h.takeBackup q.file old)).bind fun taken => ?_
  cases taken with
  | error e => exact h.refuse q e none
  | ok b =>
    refine (h.replaceText q.file old new).bind fun written => ?_
    cases written with
    | error failure => exact h.refuse q _ _
    | ok _ =>
      refine (h.commit q b).bind fun noted => (h.discard noted.2).bind fun _ => ?_
      exact (inVault_ofVaults (h.count _)).bind fun _ =>
        (inVault_ofVaults (h.report _)).bind fun _ => Attempt.within_pure _

theorem applyValid (q : ChangeRequest) :
    (Manager.applyValid q : Attempt (Manager σ) _).Within (OfVaults R) := by
  refine (inVault_ofVaults (h.read q.file)).bind fun read => ?_
  cases read with
  | error cause => exact h.refuse q _ none
  | ok old =>
    simp only
    cases Edit.replaceBlock old q.line q.expected q.suggested with
    | error cause => exact h.refuse q _ none
    | ok new =>
      refine Attempt.within_get_bind fun m => ?_
      cases m.config.dryRun with
      | true => exact (inVault_ofVaults (h.report _)).bind fun _ => Attempt.within_pure _
      | false => exact h.carryOut q old new

theorem apply (q : ChangeRequest) :
    (Manager.apply q : Attempt (Manager σ) _).Within (OfVaults R) := by
  unfold Manager.apply
  cases q.validate with
  | error e => exact Attempt.within_pure _
  | ok _ => exact h.applyValid q

theorem applyPending :
    (Manager.applyPending : Attempt (Manager σ) BatchReport).Within (OfVaults R) :=
  Manager.applyPending_within h.applyValid (fun m => h.telemetry m.vault _)
    (fun m => h.telemetry m.vault _) (fun m _ _ _ => h.telemetry m.vault _)
    (fun m => refl_of R m.vault)

theorem backUp (file : Path) :
    (Manager.backUp file : Attempt (Manager σ) _).Within (OfVaults R) := by
  refine (inVault_ofVaults (h.read file)).bind fun read => ?_
  cases read with
  | error cause => exact Attempt.within_pure _
  | ok contents =>
    refine (inVault_ofVaults (h.takeBackup file contents)).bind fun taken => ?_
    cases taken with
    | error e => exact Attempt.within_pure _
    | ok b =>
      refine (inVault_ofVaults (h.record b)).bind fun _ => Attempt.within_get_bind fun m => ?_
      refine (inVault_ofVaults (h.enforceLimit _)).bind fun dropped => ?_
      exact (h.discard dropped).bind fun _ => Attempt.within_pure (Except.ok b)

end Vault.Handling

end CodeReview
