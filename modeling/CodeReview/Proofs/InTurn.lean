import CodeReview.Proofs.Agreement
import CodeReview.Proofs.AllOrNothing
import CodeReview.Proofs.AuditTrail
import CodeReview.Proofs.Steps

/-!
# A batch is its requests in turn

Applying a batch does what applying its requests one by one does, in the order of the batch: the same
files, backups, records and counters come of it (`SameWork`), and the report tallies the answers.
Only the log differs, where the batch stands in a span.  Three facts make this up.  The requests of a
batch make sense, so checking them again changes nothing (`valid_pending`); a batch does not look at
the log (`applyPending_agrees`); and each request leaves one record, unless it is only tried
(`ends_applyValid_answered`).
-/

namespace CodeReview

/-! ## Reports of batches -/

/-- What a report has on a request that failed. -/
def BatchFailure.of? : ChangeRequest × Except ChangeError ChangeOutcome → Option BatchFailure
  | (q, .error e) => some ⟨q.file, q.line, e.message⟩
  | (_, .ok _) => none

/-- Whether an answer says that a change was written. -/
def ChangeOutcome.isApplied : Except ChangeError ChangeOutcome → Bool
  | .ok (.applied _) => true
  | _ => false

/-- Whether an answer says what a change would write. -/
def ChangeOutcome.isPreview : Except ChangeError ChangeOutcome → Bool
  | .ok (.previewed ..) => true
  | _ => false

namespace BatchReport

/-- A report that counts the answers to requests and lists their errors in order. -/
structure Tallies (report : BatchReport) (qs : List ChangeRequest)
    (answers : List (Except ChangeError ChangeOutcome)) : Prop where
  applied : report.applied = answers.countP ChangeOutcome.isApplied
  previewed : report.previewed = answers.countP ChangeOutcome.isPreview
  failed : report.failed = report.errors.length
  errors : report.errors = (qs.zip answers).filterMap BatchFailure.of?
  total : report.applied + report.previewed + report.failed = qs.length

/-- The report of a batch with so many answers before. -/
def addAll (report : BatchReport) (qs : List ChangeRequest)
    (answers : List (Except ChangeError ChangeOutcome)) : BatchReport :=
  (qs.zip answers).foldl (fun report x => report.add x.1 x.2) report

theorem addAll_eq (report : BatchReport) {qs : List ChangeRequest}
    {answers : List (Except ChangeError ChangeOutcome)} (hlength : answers.length = qs.length) :
    report.addAll qs answers =
      ⟨report.applied + answers.countP ChangeOutcome.isApplied,
        report.previewed + answers.countP ChangeOutcome.isPreview,
        report.failed + ((qs.zip answers).filterMap BatchFailure.of?).length,
        report.errors ++ (qs.zip answers).filterMap BatchFailure.of?⟩ := by
  induction qs generalizing answers report with
  | nil =>
    obtain rfl := List.length_eq_zero_iff.1 hlength
    simp [addAll]
  | cons q qs ih =>
    obtain ⟨a, answers, rfl⟩ := List.exists_cons_of_length_eq_add_one hlength
    have hrest := ih (report.add q a) (by simpa using hlength)
    change (report.add q a).addAll qs answers = _
    rw [hrest]
    rcases a with e | r | ⟨file, new⟩ <;>
      simp [add, List.countP_cons, List.filterMap_cons, ChangeOutcome.isApplied,
        ChangeOutcome.isPreview, BatchFailure.of?] <;> omega

/-- A request was applied, or tried, or failed. -/
theorem countP_answers {qs : List ChangeRequest}
    {answers : List (Except ChangeError ChangeOutcome)} (hlength : answers.length = qs.length) :
    answers.countP ChangeOutcome.isApplied + answers.countP ChangeOutcome.isPreview +
      ((qs.zip answers).filterMap BatchFailure.of?).length = qs.length := by
  induction qs generalizing answers with
  | nil =>
    obtain rfl := List.length_eq_zero_iff.1 hlength
    rfl
  | cons q qs ih =>
    obtain ⟨a, answers, rfl⟩ := List.exists_cons_of_length_eq_add_one hlength
    have hlength : answers.length = qs.length := by simpa using hlength
    have hrest := ih hlength
    rcases a with e | r | ⟨file, new⟩ <;>
      simp [List.countP_cons, List.filterMap_cons, ChangeOutcome.isApplied,
        ChangeOutcome.isPreview, BatchFailure.of?] <;> omega

theorem tallies_addAll {qs : List ChangeRequest}
    {answers : List (Except ChangeError ChangeOutcome)} (hlength : answers.length = qs.length) :
    (addAll {} qs answers).Tallies qs answers := by
  have htotal := countP_answers hlength
  rw [addAll_eq {} hlength]
  constructor <;> simp [htotal]

end BatchReport

namespace Manager

variable {σ : Type}

/-! ## The requests of a batch make sense -/

/-- The requests of the batch of a manager make sense. -/
def PendingValid (m : Manager σ) : Prop :=
  ∀ q ∈ m.pending, q.fault? = none

theorem SameBatch.valid {m m' : Manager σ} (h : SameBatch m m') (hm : m.PendingValid) :
    m'.PendingValid := by
  intro q hq
  rw [h.pending] at hq
  exact hm q hq

theorem pendingValid_of_nil {m : Manager σ} (h : m.pending = []) : m.PendingValid := by
  intro q hq
  rw [h] at hq
  cases hq

theorem pendingValid_addPending (q : ChangeRequest) {m : Manager σ} (hm : m.PendingValid) :
    ((addPending q).endState m).PendingValid := by
  unfold addPending ChangeRequest.validate
  cases hq : q.fault? with
  | some fault => exact hm
  | none =>
    intro x hx
    rcases List.mem_append.1 (show x ∈ m.pending ++ [q] from hx) with hold | hnew
    · exact hm x hold
    · rw [List.mem_singleton.1 hnew]
      exact hq

variable [FileAccess σ]

theorem Operation.pendingValid_after (o : Operation σ) {m : Manager σ} (hm : m.PendingValid) :
    (o.after m).PendingValid := by
  cases o with
  | apply q => exact (conduct_sameBatch.apply q m).endState.valid hm
  | applyPending => exact pendingValid_of_nil (applyPending_empties m)
  | undo => exact (undo_sameBatch m).endState.valid hm
  | reject q => exact hm
  | backUp file => exact (backUp_within conduct_sameBatch.vault file m).endState.valid hm
  | restoreLatest file =>
    exact (restoreLatest_within conduct_sameBatch.vault.files.lenient file m).endState.valid hm
  | addPending q => exact pendingValid_addPending q hm
  | clearPending => exact pendingValid_of_nil rfl
  | reset => exact pendingValid_of_nil rfl
  | meanwhile f => exact hm

theorem Operation.pendingValid_afterAll (os : List (Operation σ)) {m : Manager σ}
    (hm : m.PendingValid) : (afterAll os m).PendingValid := by
  induction os generalizing m with
  | nil => exact hm
  | cons o os ih => exact ih (o.pendingValid_after hm)

/-! ## Applying requests in turn -/

/-- Requests that make sense are applied without looking for faults. -/
theorem mapM_apply {qs : List ChangeRequest} (hvalid : ∀ q ∈ qs, q.fault? = none) :
    (qs.mapM apply : Attempt (Manager σ) _) = qs.mapM applyValid := by
  induction qs with
  | nil => rfl
  | cons q qs ih =>
    obtain ⟨hq, hrest⟩ := List.forall_mem_cons.1 hvalid
    have happly : (apply q : Attempt (Manager σ) _) = applyValid q := by
      simp [apply, ChangeRequest.validate, hq]
    rw [List.mapM_cons, List.mapM_cons, happly, ih hrest]

/-- Applying each request of a list gives the tally of the answers. -/
theorem applyEach_eq (report : BatchReport) (qs : List ChangeRequest) :
    (applyEach report qs : Attempt (Manager σ) _) = do
      return report.addAll qs (← qs.mapM applyValid) := by
  induction qs generalizing report with
  | nil => rfl
  | cons q qs ih =>
    simp only [applyEach, ih, List.mapM_cons, bind_assoc, pure_bind]
    rfl

/-! ## Answers and records -/

/-- What the answer to a request that makes sense tells, and the record it leaves. -/
structure Answered (m : Manager σ) (q : ChangeRequest) (a : Except ChangeError ChangeOutcome)
    (m' : Manager σ) : Prop where
  config : m'.config = m.config
  applied : ChangeOutcome.isApplied a = true → m.config.dryRun = false
  previewed : ChangeOutcome.isPreview a = true → m.config.dryRun = true
  record : m.config.dryRun = false → ∃ r, m'.history = m.history ++ [r] ∧ r.Repeats q

/-- Two managers with the same settings and records. -/
structure SameRecords (m m' : Manager σ) : Prop where
  config : m'.config = m.config
  history : m'.history = m.history

omit [FileAccess σ] in
instance : IsPreorder (Manager σ) SameRecords where
  refl _ := ⟨rfl, rfl⟩
  trans _ _ _ h h' := ⟨h'.config.trans h.config, h'.history.trans h.history⟩

omit [FileAccess σ] in
theorem sameRecords_blind : VaultBlind (@SameRecords σ) :=
  fun _ _ => ⟨rfl, rfl⟩

variable {m k : Manager σ} {q : ChangeRequest}

omit [FileAccess σ] in
theorem ends_refuse_answered (h : SameRecords m k) (e : ChangeError) (b : Option BackupEntry) :
    (refuse q e b : Attempt (Manager σ) _).Ends k (Answered m q) fun _ => True := by
  apply Attempt.ends_of_ok (refuse_run q e b k)
  refine ⟨(config_noteFailed k q e b).trans h.config, fun h => (by cases h), fun h => (by cases h), ?_⟩
  intro hlive
  rw [← h.history]
  exact ⟨_, history_noteFailed q e b (h.config ▸ hlive), rfl, rfl, rfl, rfl⟩

theorem ends_carryOut_answered (h : SameRecords m k) (hlive : m.config.dryRun = false)
    (old new : String) : (carryOut q old new).Ends k (Answered m q) fun _ => True := by
  have hvault : VaultBlind (@SameRecords σ) := sameRecords_blind
  apply Attempt.Ends.bind
  refine (inVault_within hvault _ k).mono ?_ fun _ _ => trivial
  intro taken k hk
  have hk := trans_of SameRecords h hk
  cases taken with
  | error e => exact ends_refuse_answered hk e none
  | ok b =>
    apply Attempt.Ends.bind
    refine (replaceText_within hvault.files.lenient q.file old new k).mono ?_ fun _ _ => trivial
    intro written k hk'
    have hk := trans_of SameRecords hk hk'
    cases written with
    | error failure => exact ends_refuse_answered hk _ _
    | ok _ =>
      apply Attempt.Ends.bind
      apply Attempt.ends_of_ok (commit_run q b k)
      apply Attempt.Ends.bind
      refine (discard_within hvault.files _ _).mono ?_ fun _ _ => trivial
      intro _ l hl
      refine Attempt.ends_of_ok rfl ⟨hl.config.trans hk.config, fun _ => hlive, ?_, fun _ => ?_⟩
      · intro hpreview
        cases hpreview
      · refine ⟨appliedRecord (k.recordId k.issued) q b, ?_, rfl, rfl, rfl, rfl⟩
        rw [← hk.history]
        exact hl.history

theorem ends_applyValid_answered (m : Manager σ) (q : ChangeRequest) :
    (applyValid q).Ends m (Answered m q) fun _ => True := by
  apply Attempt.Ends.bind
  refine (inVault_within sameRecords_blind _ m).mono ?_ fun _ _ => trivial
  intro read k hk
  cases read with
  | error cause => exact ends_refuse_answered hk _ none
  | ok old =>
    simp only
    cases Edit.replaceBlock old q.line q.expected q.suggested with
    | error cause => exact ends_refuse_answered hk _ none
    | ok new =>
      apply Attempt.Ends.bind
      apply Attempt.ends_of_ok (Attempt.get_run k)
      cases hdry : k.config.dryRun with
      | true =>
        refine Attempt.ends_of_ok rfl ⟨hk.config, fun h => (by cases h), fun _ => ?_, fun hlive => ?_⟩
        · rw [← hk.config, hdry]
        · rw [← hk.config, hdry] at hlive
          cases hlive
      | false => exact ends_carryOut_answered hk (hk.config ▸ hdry) old new

/-- What the answers to requests tell, and the records they leave. -/
structure AllAnswered (m : Manager σ) (qs : List ChangeRequest)
    (answers : List (Except ChangeError ChangeOutcome)) (m' : Manager σ) : Prop where
  length : answers.length = qs.length
  config : m'.config = m.config
  applied : ∀ a ∈ answers, ChangeOutcome.isApplied a = true → m.config.dryRun = false
  previewed : ∀ a ∈ answers, ChangeOutcome.isPreview a = true → m.config.dryRun = true
  records : m.config.dryRun = false →
    ∃ rs, m'.history = m.history ++ rs ∧ List.Forall₂ (fun q r => r.Repeats q) qs rs

theorem ends_mapM_answered (m : Manager σ) (qs : List ChangeRequest) :
    (qs.mapM applyValid).Ends m (AllAnswered m qs) fun _ => True := by
  induction qs generalizing m with
  | nil =>
    refine Attempt.ends_of_ok rfl ⟨rfl, rfl, ?_, ?_, fun _ => ⟨[], by simp, .nil⟩⟩ <;>
      · intro a ha
        cases ha
  | cons q qs ih =>
    rw [List.mapM_cons]
    apply Attempt.Ends.bind
    refine (ends_applyValid_answered m q).mono ?_ fun _ _ => trivial
    intro a k ha
    apply Attempt.Ends.bind
    refine (ih k).mono ?_ fun _ _ => trivial
    intro answers l hall
    refine Attempt.ends_pure ⟨?_, hall.config.trans ha.config, ?_, ?_, fun hlive => ?_⟩
    · rw [List.length_cons, List.length_cons, hall.length]
    · exact List.forall_mem_cons.2 ⟨ha.applied, ha.config ▸ hall.applied⟩
    · exact List.forall_mem_cons.2 ⟨ha.previewed, ha.config ▸ hall.previewed⟩
    · obtain ⟨r, hr, hrepeats⟩ := ha.record hlive
      obtain ⟨rs, hrs, hrest⟩ := hall.records (ha.config ▸ hlive)
      exact ⟨r :: rs, by rw [hrs, hr, List.append_assoc, List.singleton_append],
        .cons hrepeats hrest⟩

/-! ## Batches -/

/-- Two managers with the same files, backups, settings, records and counters; logs and batches may
differ. -/
def SameWork : Manager σ → Manager σ → Prop :=
  Like Eq fun t u => t.counters = u.counters

theorem applyValid_sameWork (q : ChangeRequest) :
    Attempt.Agree (@SameWork σ) (applyValid q) (applyValid q) := by
  have hfiles : FileAccess.Coupled (@Eq σ) :=
    ⟨fun _ => Attempt.agree_eq _, fun _ _ => Attempt.agree_eq _, fun _ => Attempt.agree_eq _,
      fun _ => Attempt.agree_eq _, fun _ => Attempt.agree_eq _, fun _ _ h => h ▸ rfl⟩
  have htelemetry : Telemetry.Coupled fun t u => t.counters = u.counters :=
    ⟨fun _ h => h, fun c h => congrArg (Counters.increment · c) h⟩
  exact applyValid_agrees hfiles htelemetry q

theorem mapM_sameWork (qs : List ChangeRequest) :
    Attempt.Agree (@SameWork σ) (qs.mapM applyValid) (qs.mapM applyValid) := by
  induction qs with
  | nil => exact Attempt.agree_pure []
  | cons q qs ih =>
    rw [List.mapM_cons]
    exact (applyValid_sameWork q).bind fun a => ih.bind fun answers => Attempt.agree_pure _

omit [FileAccess σ] in
/-- What is done to the log alone is not work. -/
theorem SameWork.logging {s k : Manager σ} (h : SameWork s k) {t : Telemetry}
    (ht : t.counters = k.vault.telemetry.counters) :
    SameWork s { k with vault := { k.vault with telemetry := t } } :=
  ⟨⟨h.vault.files, h.vault.telemetry.trans ht.symm, h.vault.store⟩, h.config, h.history,
    h.undoStack, h.issued, h.recordId⟩

/-- A batch ends as applying its requests in turn does. -/
theorem applyPending_ends (m : Manager σ) :
    (∀ answers s, (batchOrder m.pending).mapM applyValid m = .ok answers s →
      ∃ m', applyPending m = .ok (.addAll {} (batchOrder m.pending) answers) m' ∧ SameWork s m') ∧
    ∀ e s, (batchOrder m.pending).mapM applyValid m = .error e s →
      ∃ m', applyPending m = .error e m' ∧ SameWork s m' := by
  let taken : Manager σ := { m with pending := [] }
  let inside : Manager σ :=
    { taken with vault := { m.vault with telemetry := m.vault.telemetry.enter } }
  have hinside : SameWork m inside := ⟨⟨rfl, rfl, rfl⟩, rfl, rfl, rfl, rfl, rfl⟩
  have hagree : Attempt.Agree (@SameWork σ) _ _ := mapM_sameWork (batchOrder m.pending)
  have htake : takePending m = .ok m.pending taken := rfl
  unfold applyPending
  rw [Attempt.bind_of_ok htake]
  constructor
  · intro answers s hrun
    obtain ⟨k, hrun', hk⟩ := hagree.ok hinside hrun
    let total := BatchReport.addAll {} (batchOrder m.pending) answers
    let finished := k.reporting (.batchFinished total.applied total.previewed total.failed)
    have hfinished : SameWork s finished := hk.logging rfl
    have htotal : applyEach {} (batchOrder m.pending) inside = .ok total k := by
      rw [applyEach_eq]
      exact Attempt.bind_of_ok hrun'
    exact ⟨_, inSpan_of_ok (k := finished) (Attempt.bind_of_ok htotal), hfinished.logging rfl⟩
  · intro e s hrun
    obtain ⟨k, hrun', hk⟩ := hagree.error hinside hrun
    have htotal : applyEach {} (batchOrder m.pending) inside = .error e k := by
      rw [applyEach_eq]
      exact Attempt.bind_of_error hrun'
    exact ⟨_, inSpan_of_error (Attempt.bind_of_error htotal), hk.logging rfl⟩

/-! ## The main theorem -/

/-- A batch that did what its requests do in turn: from `m` those in `order` gave the `answers` and
left `s`, and the batch gave the report and left `m'`. -/
structure InTurn (m : Manager σ) (order : List ChangeRequest)
    (answers : List (Except ChangeError ChangeOutcome)) (s : Manager σ) (report : BatchReport)
    (m' : Manager σ) : Prop where
  work : SameWork s m'
  emptied : m'.pending = []
  tally : report.Tallies order answers
  total : report.applied + report.previewed + report.failed = m.pending.length
  tried : m.config.dryRun = true → report.applied = 0
  carriedOut : m.config.dryRun = false → report.previewed = 0 ∧
    ∃ rs, m'.history = m.history ++ rs ∧ List.Forall₂ (fun q r => r.Repeats q) order rs

omit [FileAccess σ] in
theorem AllAnswered.inTurn {m s m' : Manager σ} {qs : List ChangeRequest}
    {answers : List (Except ChangeError ChangeOutcome)} (h : AllAnswered m qs answers s)
    (hqs : qs.Perm m.pending) (hwork : SameWork s m') (hempty : m'.pending = []) :
    InTurn m qs answers s (.addAll {} qs answers) m' := by
  have htally := BatchReport.tallies_addAll h.length
  refine ⟨hwork, hempty, htally, htally.total.trans hqs.length_eq, ?_, ?_⟩
  · intro hdry
    rw [htally.applied, List.countP_eq_zero]
    intro a ha happlied
    rw [h.applied a ha happlied] at hdry
    cases hdry
  · intro hlive
    refine ⟨?_, hwork.history ▸ h.records hlive⟩
    rw [htally.previewed, List.countP_eq_zero]
    intro a ha hpreview
    rw [h.previewed a ha hpreview] at hlive
    cases hlive

/-- Whatever the files are and whatever was done before, a batch comes to the same as applying its
requests one by one, sorted by file and from the bottom of each file upwards, those for one line as
they were put in.  It crashes just where they do; over files in memory it never does. -/
theorem batch_is_requests_in_turn (config : ChangeConfig) (stamp recordId : Nat → String)
    (telemetry : Telemetry) (files : σ) (os : List (Operation σ)) :
    let m := Operation.afterAll os (new config stamp telemetry files recordId)
    let order := m.pending.mergeSort precedes
    (∀ answers s, order.mapM apply m = .ok answers s →
      ∃ report m', applyPending m = .ok report m' ∧ InTurn m order answers s report m') ∧
    (∀ e s, order.mapM apply m = .error e s →
      ∃ m', applyPending m = .error e m' ∧ SameWork s m' ∧ m'.pending = []) ∧
    ∀ n : Manager MemoryFiles, ∃ report n', applyPending n = .ok report n' := by
  intro m order
  have horder : batchOrder m.pending = order := batchOrder_eq_mergeSort m.pending
  have hperm : order.Perm m.pending := List.mergeSort_perm m.pending precedes
  have hvalid : m.PendingValid := Operation.pendingValid_afterAll os (pendingValid_of_nil rfl)
  have hchecked : (order.mapM apply : Attempt (Manager σ) _) = order.mapM applyValid :=
    mapM_apply fun q hq => hvalid q (hperm.mem_iff.1 hq)
  have hempties := applyPending_empties m
  obtain ⟨hanswers, hcrash⟩ := applyPending_ends m
  rw [horder] at hanswers hcrash
  rw [hchecked]
  refine ⟨?_, ?_, ?_⟩
  · intro answers s hrun
    obtain ⟨m', hbatch, hwork⟩ := hanswers answers s hrun
    rw [Attempt.endState_of_ok hbatch] at hempties
    exact ⟨_, m', hbatch, ((ends_mapM_answered m order).of_ok hrun).inTurn hperm hwork hempties⟩
  · intro e s hrun
    obtain ⟨m', hbatch, hwork⟩ := hcrash e s hrun
    rw [Attempt.endState_of_error hbatch] at hempties
    exact ⟨m', hbatch, hwork, hempties⟩
  · intro n
    obtain ⟨report, n', hrun, -⟩ := applyPending_run n
    exact ⟨report, n', hrun⟩

/-- Two changes of one line, the second of which no longer matches, and one of another file. -/
theorem batch_is_requests_in_turn_over_two_files :
    let m := Operation.afterAll [.addPending (retouch "a" 0), .addPending (retouch "a" 5),
      .addPending (retouch "b" 0)] (overTwoFiles 0)
    ∃ answers s report m', answers.map ChangeOutcome.isApplied = [true, false, true] ∧
      applyPending m = .ok report m' ∧
      InTurn m (m.pending.mergeSort precedes) answers s report m' := by
  intro m
  have horder : m.pending.mergeSort precedes = m.pending :=
    List.mergeSort_of_pairwise (by decide +kernel)
  have hanswers : ((m.pending.mapM apply).answer? m).map (List.map ChangeOutcome.isApplied) =
      some [true, false, true] := by
    decide +kernel
  obtain ⟨answers, hanswer, happlied⟩ := Option.map_eq_some_iff.1 hanswers
  cases hrun : m.pending.mapM apply m with
  | error e s => simp [Attempt.answer?, hrun] at hanswer
  | ok others s =>
    obtain rfl := Option.some.inj ((Attempt.answer?_of_ok hrun).symm.trans hanswer)
    rw [← horder] at hrun
    obtain ⟨report, m', hbatch, hturn⟩ := (batch_is_requests_in_turn _ _ _ _ _ _).1 others s hrun
    exact ⟨others, s, report, m', happlied, hbatch, hturn⟩

end Manager

end CodeReview
