import CodeReview.Proofs.AllOrNothing
import CodeReview.Proofs.AuditTrail

/-!
# Trying changes

A manager that only tries changes reads a file, matches the block and stops there.  What it answers
depends on the files and the request alone (`prospect`), and a manager that carries changes out goes
through the same reading and matching first: it gives the same errors, and where the other one
previews a text it writes that text, unless a write is refused (`Applying.live_answer`).

Trying leaves no trace but telemetry and the requests that were declined (`Tried`), so nothing can be
undone afterwards.
-/

namespace CodeReview

namespace Manager

variable {m m' : Manager MemoryFiles} {q : ChangeRequest} {a : Except ChangeError ChangeOutcome}

/-! ## What an attempt leads to -/

/-- What a request would make of the text of its file. -/
def prospect (files : MemoryFiles) (q : ChangeRequest) : Except ChangeError String :=
  match files.textAt q.file with
  | .error cause => .error (.fileAccess q.file cause)
  | .ok old => (Edit.replaceBlock old q.line q.expected q.suggested).mapError
      (.conflict q.file q.line)

theorem prospect_of_unreadable {files : MemoryFiles} {cause : FileError}
    (hread : files.textAt q.file = .error cause) :
    prospect files q = .error (.fileAccess q.file cause) := by
  simp [prospect, hread]

theorem prospect_of_conflict {files : MemoryFiles} {old : String} {cause : EditError}
    (hread : files.textAt q.file = .ok old)
    (hedit : Edit.replaceBlock old q.line q.expected q.suggested = .error cause) :
    prospect files q = .error (.conflict q.file q.line cause) := by
  simp [prospect, hread, hedit, Except.mapError]

theorem prospect_eq_ok {files : MemoryFiles} {new : String} :
    prospect files q = .ok new ↔ ∃ old, files.textAt q.file = .ok old ∧
      Edit.replaceBlock old q.line q.expected q.suggested = .ok new := by
  unfold prospect
  cases files.textAt q.file with
  | error cause => simp
  | ok old =>
    cases hedit : Edit.replaceBlock old q.line q.expected q.suggested with
    | error cause => simp [Except.mapError, hedit]
    | ok text => simp [Except.mapError, hedit]

/-- An attempt that is only a trial answers what the request would lead to. -/
theorem Applying.trial_answer (h : Applying m q a m') (hdry : m.config.dryRun = true) :
    a = (prospect m.vault.files q).map (.previewed q.file) := by
  cases h with
  | unreadable hread => rw [prospect_of_unreadable hread]; rfl
  | conflict hread hedit => rw [prospect_of_conflict hread hedit]; rfl
  | previewed hread hedit => rw [prospect_eq_ok.2 ⟨_, hread, hedit⟩]; rfl
  | _ hread hedit hlive => rw [hdry] at hlive; cases hlive

/-- The answer of an attempt that was stopped at a write: that of the backup, or that of the file. -/
inductive StoppedAtWrite (m : Manager MemoryFiles) (q : ChangeRequest) :
    Except ChangeError ChangeOutcome → Prop
  | backup {n : Nat} (hfree : m.FreeNumber q.file n)
      (hrefused : m.refusesWrite (m.vault.store.pathOf q.file n) = true) :
    StoppedAtWrite m q (.error (.fileAccess (m.vault.store.pathOf q.file n)
      (.writeRefused (m.vault.store.pathOf q.file n))))
  | target {n : Nat} (hfree : m.FreeNumber q.file n) (hrefused : m.refusesWrite q.file = true) :
    StoppedAtWrite m q
      (.error (.applyFailed q.file (m.vault.store.pathOf q.file n) false (.writeRefused q.file)))

/-- An attempt that is carried out gives the error that the request would lead to, or it gives the
file the text that the request would lead to, or a write stops it. -/
theorem Applying.live_answer (h : Applying m q a m') (hlive : m.config.dryRun = false)
    (htarget : m.tracks q.file = false) :
    (∃ e, prospect m.vault.files q = .error e ∧ a = .error e) ∨
      ∃ new, prospect m.vault.files q = .ok new ∧
        ((∃ r, a = .ok (.applied r) ∧ m'.text? q.file = some new) ∨ StoppedAtWrite m q a) := by
  cases h with
  | unreadable hread => exact Or.inl ⟨_, prospect_of_unreadable hread, rfl⟩
  | conflict hread hedit => exact Or.inl ⟨_, prospect_of_conflict hread hedit, rfl⟩
  | previewed hread hedit hdry =>
    rw [hlive] at hdry
    cases hdry
  | backupRefused hread hedit _ hfree hbackup =>
    exact Or.inr ⟨_, prospect_eq_ok.2 ⟨_, hread, hedit⟩, Or.inr (.backup hfree hbackup)⟩
  | writeRefused hread hedit _ hfree _ hrefused =>
    exact Or.inr ⟨_, prospect_eq_ok.2 ⟨_, hread, hedit⟩, Or.inr (.target hfree hrefused)⟩
  | applied hread hedit _ hfree =>
    have htook := tookEffect_of_applied hread hedit hfree htarget
    exact Or.inr ⟨_, prospect_eq_ok.2 ⟨_, hread, hedit⟩, Or.inl ⟨_, rfl, htook.after⟩⟩

/-! ## What trying leaves behind -/

/-- Whether a manager only tries changes and has nothing to undo. -/
structure OnTrial (m : Manager MemoryFiles) : Prop where
  dry : m.config.dryRun = true
  stack : m.undoStack = []

/-- A manager that is on trial stays so, and no more than declined requests are added to it. -/
def Tried (m m' : Manager MemoryFiles) : Prop :=
  OnTrial m → OnTrial m' ∧ m'.vault.files = m.vault.files ∧ m'.vault.store = m.vault.store ∧
    ∃ rs, m'.history = m.history ++ rs ∧ ∀ r ∈ rs, r.status = .rejected

theorem tried_of_same (hconfig : m'.config = m.config) (hfiles : m'.vault.files = m.vault.files)
    (hstore : m'.vault.store = m.vault.store) (hhistory : m'.history = m.history)
    (hstack : m'.undoStack = m.undoStack) : Tried m m' := by
  intro hm
  refine ⟨⟨hconfig ▸ hm.dry, hstack.trans hm.stack⟩, hfiles, hstore, [], by simp [hhistory], ?_⟩
  intro r hr
  cases hr

theorem Tried.trans {m'' : Manager MemoryFiles} (h : Tried m m') (h' : Tried m' m'') :
    Tried m m'' := by
  intro hm
  obtain ⟨hm', hfiles, hstore, rs, hrs, hstatus⟩ := h hm
  obtain ⟨hm'', hfiles', hstore', rs', hrs', hstatus'⟩ := h' hm'
  refine ⟨hm'', hfiles'.trans hfiles, hstore'.trans hstore, rs ++ rs', ?_, ?_⟩
  · rw [hrs', hrs, List.append_assoc]
  · intro r hr
    rcases List.mem_append.1 hr with hr | hr
    · exact hstatus r hr
    · exact hstatus' r hr

instance : IsPreorder (Manager MemoryFiles) Tried where
  refl _ := tried_of_same rfl rfl rfl rfl rfl
  trans _ _ _ := Tried.trans

theorem tried_noteFailed (m : Manager MemoryFiles) (q : ChangeRequest) (e : ChangeError) :
    Tried m (m.noteFailed q e none) := by
  intro hm
  unfold noteFailed
  rw [if_pos hm.dry]
  exact tried_of_same (m := m) rfl rfl rfl rfl rfl hm

theorem Applying.tried (h : Applying m q a m') : Tried m m' := by
  cases h with
  | unreadable hread => exact tried_noteFailed m q _
  | conflict hread hedit => exact tried_noteFailed m q _
  | previewed hread hedit hdry => exact tried_of_same rfl rfl rfl rfl rfl
  | _ hread hedit hlive =>
    intro hm
    rw [hm.dry] at hlive
    cases hlive

theorem applyValid_tried (q : ChangeRequest) :
    (applyValid q : Attempt (Manager MemoryFiles) _).Within Tried := by
  intro m
  obtain ⟨a, m', hrun, hcase⟩ := applyValid_run q m
  exact Attempt.ends_of_ok hrun hcase.tried

theorem apply_tried (q : ChangeRequest) :
    (apply q : Attempt (Manager MemoryFiles) _).Within Tried := by
  unfold apply
  cases q.validate with
  | error e => exact Attempt.within_pure _
  | ok _ => exact applyValid_tried q

theorem applyPending_tried :
    (applyPending : Attempt (Manager MemoryFiles) BatchReport).Within Tried := by
  have hquiet : ∀ m telemetry, Tried m { m with vault := { m.vault with telemetry := telemetry } } :=
    fun _ _ => tried_of_same rfl rfl rfl rfl rfl
  exact applyPending_within applyValid_tried (fun m => hquiet m _) (fun m => hquiet m _)
    (fun m _ _ _ => hquiet m _) fun _ => tried_of_same rfl rfl rfl rfl rfl

theorem undo_of_onTrial (hm : OnTrial m) :
    undo m = .ok (.error (.nothingToUndo .nothingApplied)) m := by
  have hselect : m.selectUndo? = none := by simp [selectUndo?, hm.stack]
  unfold undo
  rw [Attempt.bind_of_ok (Attempt.get_run m), hselect]
  rfl

/-! ## Runs of trials -/

/-- Whether an operation is one of those that a manager on trial only tries. -/
def Operation.isTrial {σ : Type} : Operation σ → Bool
  | apply _ | applyPending | undo | reject _ | addPending _ | clearPending => true
  | _ => false

theorem Operation.tried_after {o : Operation MemoryFiles} (ho : o.isTrial = true)
    (m : Manager MemoryFiles) : Tried m (o.after m) := by
  cases o with
  | apply q => exact (apply_tried q m).endState
  | applyPending => exact (applyPending_tried m).endState
  | undo =>
    intro hm
    have hundo : after .undo m = m := Attempt.endState_of_ok (undo_of_onTrial hm)
    rw [hundo]
    exact refl_of Tried m hm
  | reject q =>
    intro hm
    let r := ChangeRecord.ofRequest (m.recordId m.issued) q .rejected
    refine ⟨⟨hm.dry, hm.stack⟩, rfl, rfl, [r], rfl, ?_⟩
    intro s hs
    rw [List.mem_singleton.1 hs]
    rfl
  | addPending q =>
    change Tried m ((Manager.addPending q).endState m)
    unfold Manager.addPending
    cases q.validate with
    | error e => exact refl_of Tried m
    | ok _ => exact tried_of_same rfl rfl rfl rfl rfl
  | clearPending => exact tried_of_same rfl rfl rfl rfl rfl
  | _ => cases ho

theorem Operation.tried_afterAll {os : List (Operation MemoryFiles)}
    (hos : ∀ o ∈ os, o.isTrial = true) (m : Manager MemoryFiles) : Tried m (afterAll os m) := by
  induction os generalizing m with
  | nil => exact refl_of Tried m
  | cons o os ih =>
    obtain ⟨ho, hrest⟩ := List.forall_mem_cons.1 hos
    exact (tried_after ho m).trans (ih hrest _)

/-! ## The main theorem -/

/-- An answer `a` that foretells the answer `b` of a manager to a request: it is a preview just where
the file can be read and the block matches, and then the previewed text was written or a write was
refused; and an error is the same error. -/
structure Foretells (q : ChangeRequest) (a b : Except ChangeError ChangeOutcome)
    (m m' : Manager MemoryFiles) : Prop where
  previews : ∀ new, a = .ok (.previewed q.file new) ↔ q.fault? = none ∧
    ∃ old, m.vault.files.textAt q.file = .ok old ∧
      Edit.replaceBlock old q.line q.expected q.suggested = .ok new
  answers : (∃ e, a = .error e ∧ b = .error e) ∨ ∃ new, a = .ok (.previewed q.file new) ∧
    ((∃ r, b = .ok (.applied r) ∧ m'.text? q.file = some new) ∨ StoppedAtWrite m q b)

theorem apply_foretells {trial live : Manager MemoryFiles} (hdry : trial.config.dryRun = true)
    (hlive : live.config.dryRun = false) (hfiles : trial.vault.files = live.vault.files)
    (htarget : live.tracks q.file = false) :
    ∃ a trial' b live', apply q trial = .ok a trial' ∧ apply q live = .ok b live' ∧
      Foretells q a b live live' := by
  rcases apply_run q trial with ⟨fault, hfault, hrun⟩ | ⟨hvalid, a, trial', hrun, hcase⟩
  · rcases apply_run q live with ⟨fault', hfault', hrun'⟩ | ⟨hvalid', -⟩
    · obtain rfl := Option.some.inj (hfault.symm.trans hfault')
      exact ⟨_, _, _, _, hrun, hrun', by simp [hfault], Or.inl ⟨_, rfl, rfl⟩⟩
    · rw [hfault] at hvalid'
      cases hvalid'
  · rcases apply_run q live with ⟨fault', hfault', -⟩ | ⟨-, b, live', hrun', hcase'⟩
    · rw [hvalid] at hfault'
      cases hfault'
    · have ha := hcase.trial_answer hdry
      rw [hfiles] at ha
      refine ⟨a, trial', b, live', hrun, hrun', ?_, ?_⟩
      · intro new
        rw [ha, ← prospect_eq_ok]
        cases prospect live.vault.files q with
        | error e => simp [Except.map]
        | ok text => simp [Except.map, hvalid]
      · rcases hcase'.live_answer hlive htarget with ⟨e, hprospect, hb⟩ | ⟨new, hprospect, hb⟩
        · rw [hprospect] at ha
          exact Or.inl ⟨e, ha, hb⟩
        · rw [hprospect] at ha
          exact Or.inr ⟨new, ha, hb⟩

/-- Over the same files, trying a request foretells carrying it out, unless its file is one of the
backups.  Whatever is tried with a new manager, no file is changed, no backup is taken or named, only
declined requests are recorded, and there is nothing to undo. -/
theorem trial_foretells_and_leaves_no_trace :
    (∀ (trial live : Manager MemoryFiles) (q : ChangeRequest), trial.config.dryRun = true →
      live.config.dryRun = false → trial.vault.files = live.vault.files →
      live.tracks q.file = false →
        ∃ a trial' b live', apply q trial = .ok a trial' ∧ apply q live = .ok b live' ∧
          Foretells q a b live live') ∧
    ∀ (config : ChangeConfig) (stamp recordId : Nat → String) (telemetry : Telemetry)
      (files : MemoryFiles) (os : List (Operation MemoryFiles)),
      config.dryRun = true → (∀ o ∈ os, o.isTrial = true) →
        let m := Operation.afterAll os (new config stamp telemetry files recordId)
        m.vault.files = files ∧ m.vault.store.entries = [] ∧ m.vault.store.next = 0 ∧
          (∀ r ∈ m.history, r.status = .rejected) ∧
          undo m = .ok (.error (.nothingToUndo .nothingApplied)) m := by
  refine ⟨fun _ _ _ => apply_foretells, ?_⟩
  intro config stamp recordId telemetry files os hdry hos m
  obtain ⟨htrial, hfiles, hstore, rs, hhistory, hstatus⟩ :=
    Operation.tried_afterAll hos (new config stamp telemetry files recordId) ⟨hdry, rfl⟩
  refine ⟨hfiles, ?_, ?_, ?_, undo_of_onTrial htrial⟩
  · exact congrArg BackupStore.entries hstore
  · exact congrArg BackupStore.next hstore
  · intro r hr
    rw [hhistory] at hr
    exact hstatus r hr

/-- A change that is tried next to one that is carried out, and a few more trials. -/
theorem trial_foretells_and_leaves_no_trace_over_two_files :
    let config : ChangeConfig := { (overTwoFiles 0).config with dryRun := true }
    let trial := new config (fun _ => "s") {} twoFiles
    let os : List (Operation MemoryFiles) :=
      [.apply (retouch "a" 0), .addPending (retouch "b" 1), .applyPending, .reject (retouch "a" 0)]
    (∃ a trial' b live', apply (retouch "a" 0) trial = .ok a trial' ∧
      apply (retouch "a" 0) (overTwoFiles 0) = .ok b live' ∧
      Foretells (retouch "a" 0) a b (overTwoFiles 0) live') ∧
    (Operation.afterAll os trial).vault.files = twoFiles ∧
      (∀ r ∈ (Operation.afterAll os trial).history, r.status = .rejected) := by
  intro config trial os
  have hos : ∀ o ∈ os, o.isTrial = true := by simp [os, Operation.isTrial]
  obtain ⟨hfiles, -, -, hstatus, -⟩ :=
    trial_foretells_and_leaves_no_trace.2 config (fun _ => "s") decimal {} twoFiles os rfl hos
  exact ⟨trial_foretells_and_leaves_no_trace.1 trial (overTwoFiles 0) (retouch "a" 0) rfl rfl rfl rfl,
    hfiles, hstatus⟩

end Manager

end CodeReview
