import CodeReview.Files.Memory
import CodeReview.Proofs.ReviewTurns
import CodeReview.Proofs.RunReports
import CodeReview.Proofs.Tracking
import Mathlib.Algebra.BigOperators.Group.List.Basic

/-!
# What a run tells

A run leaves a report, moves the counters, and reports events, and each of the three is written where
it happens: when a job is settled, when the jobs that are left are skipped, at the beginning and at the
end.  `Told` says what the telemetry has of a run at any moment, in terms of the jobs that are settled
by then; every action keeps it, so at the end the telemetry agrees with the report
(`telemetry_agrees_with_report`).
-/

namespace CodeReview

/-! ## Single notes -/

namespace Job

/-- The event of settling a job. -/
def news (j : Job) : Event :=
  match j.result with
  | .ok issues => .stepFinished j.step issues.length
  | .error e => .stepFailed j.step e.message

/-- By how much settling a job moves a counter. -/
def tally (j : Job) : Counter → Nat
  | .stepsExecuted => 1
  | .stepsFailed => (Run.failureOf? j).toList.length
  | _ => 0

end Job

namespace ProgressTracker

variable {τ : Type}

/-- An accepted call takes one step from the state it was in to the one that the call is about. -/
theorem countOf_of_call {t t' : ProgressTracker τ} {c : TrackerCall τ} (h : t.call c = .ok t') :
    ∃ before : StepStatus, before.Edge c.news.target ∧
      ∀ s, t'.countOf s + (if before = s then 1 else 0) =
        t.countOf s + if c.news.target = s then 1 else 0 := by
  have hanswered := t.answered c
  rw [h] at hanswered
  cases hanswered with
  | @moved front back r _ hrecords hstep hedge hmoved =>
    refine ⟨r.status, hedge, fun s => ?_⟩
    simp only [countOf, hrecords, hmoved, List.countP_append, List.countP_cons,
      TrackerCall.status_moved, decide_eq_true_eq]
    omega

/-- Only skipping makes a step skipped. -/
theorem countOf_skipped_of_call {t t' : ProgressTracker τ} {c : TrackerCall τ}
    (h : t.call c = .ok t') (hc : c.news ≠ .skip) : t'.countOf .skipped = t.countOf .skipped := by
  obtain ⟨before, hedge, hcount⟩ := countOf_of_call h
  have htarget : c.news.target ≠ .skipped := by
    cases hnews : c.news <;> simp_all [StepNews.target]
  have hbefore : before ≠ .skipped := by
    rintro rfl
    cases hedge
  simpa [hbefore, htarget] using hcount .skipped

theorem countOf_skipped_after (t : ProgressTracker τ) {c : TrackerCall τ} (hc : c.news ≠ .skip) :
    (t.after c).countOf .skipped = t.countOf .skipped := by
  unfold after
  cases hcall : t.call c with
  | error e => rfl
  | ok t' => exact countOf_skipped_of_call hcall hc

theorem countOf_skipped_of_skip {t t' : ProgressTracker τ} {step : String} {now : τ}
    (h : t.skip step now = .ok t') : t'.countOf .skipped = t.countOf .skipped + 1 := by
  obtain ⟨before, hedge, hcount⟩ := countOf_of_call (c := ⟨step, .skip, now⟩) h
  have hbefore : before ≠ .skipped := by
    rintro rfl
    cases hedge
  simpa [hbefore, StepNews.target] using hcount .skipped

end ProgressTracker

namespace Run

variable {jobs : List Job} {seen : Option Nat} {r r' : Run} {t : Telemetry}

theorem telemetry_noteResult (r : Run) (j : Job) :
    (r.noteResult j).telemetry.depth = r.telemetry.depth ∧
      (r.noteResult j).telemetry.log = r.telemetry.log ++ [⟨j.news, r.telemetry.depth⟩] ∧
      ∀ c, (r.noteResult j).telemetry.counters.get c = r.telemetry.counters.get c + j.tally c := by
  unfold noteResult Job.news Job.tally failureOf? Job.result
  cases j.outcome <;> refine ⟨rfl, rfl, fun c => ?_⟩ <;>
    simp only [Outcome.result, Telemetry.report, Telemetry.count, Counters.get_increment] <;>
    cases c <;> rfl

theorem tracker_noteResult (r : Run) (j : Job) :
    ∃ news, news ≠ .skip ∧ (r.noteResult j).tracker = r.tracker.after ⟨j.step, news, ()⟩ := by
  unfold noteResult
  cases j.result with
  | ok issues => exact ⟨.complete, nofun, rfl⟩
  | error e => exact ⟨.fail e.message, nofun, rfl⟩

/-! ## Settled jobs -/

theorem exists_zip_set {jobs : List Job} {phases : List JobPhase} {i : Nat} {j : Job} {p : JobPhase}
    (hj : jobs[i]? = some j) (hp : phases[i]? = some p) (p' : JobPhase) :
    ∃ front back, jobs.zip phases = front ++ (j, p) :: back ∧
      jobs.zip (phases.set i p') = front ++ (j, p') :: back := by
  induction jobs generalizing phases i with
  | nil => cases hj
  | cons k js ih =>
    cases phases with
    | nil => cases hp
    | cons q ps =>
      cases i with
      | zero =>
        cases hj
        cases hp
        exact ⟨[], js.zip ps, rfl, rfl⟩
      | succ i =>
        obtain ⟨front, back, hzip, hset⟩ := ih hj hp
        exact ⟨(k, q) :: front, back, by simp [hzip], by simp [hset]⟩

theorem settledJobs_setPhase {i : Nat} {j : Job} {p p' : JobPhase} (hj : r.jobs[i]? = some j)
    (hp : r.phases[i]? = some p) (hsame : p'.isSettled = p.isSettled) :
    (r.setPhase i p').settledJobs = r.settledJobs := by
  obtain ⟨front, back, hzip, hset⟩ := exists_zip_set hj hp p'
  simp only [settledJobs, setPhase, hzip, hset, List.filter_append, List.filter_cons, hsame]
  split <;> simp

/-- A job that is settled joins the settled ones. -/
theorem settledJobs_setPhase_perm {i : Nat} {j : Job} {p p' : JobPhase} (hj : r.jobs[i]? = some j)
    (hp : r.phases[i]? = some p) (hopen : p.isSettled = false) (hsettled : p'.isSettled = true) :
    (r.setPhase i p').settledJobs.Perm (j :: r.settledJobs) := by
  obtain ⟨front, back, hzip, hset⟩ := exists_zip_set hj hp p'
  simp only [settledJobs, setPhase, hzip, hset, List.filter_append, List.filter_cons, hopen,
    hsettled, List.map_append]
  exact List.perm_middle

theorem settledJobs_dispatch (r : Run) (dispatch : Dispatch) :
    { r with dispatch := dispatch, phases := r.phases ++ [JobPhase.dispatched] }.settledJobs =
      r.settledJobs := by
  have hzip : ∀ (js : List Job) (ps : List JobPhase),
      (js.zip (ps ++ [.dispatched])).filter (fun p => p.2.isSettled) =
        (js.zip ps).filter fun p => p.2.isSettled := by
    intro js
    induction js with
    | nil => exact fun _ => rfl
    | cons j js ih =>
      intro ps
      cases ps with
      | nil => simp [JobPhase.isSettled]
      | cons p ps => simp only [List.cons_append, List.zip_cons_cons, List.filter_cons, ih]
  exact congrArg (List.map Prod.fst) (hzip r.jobs r.phases)

/-! ## The telemetry at any moment -/

/-- What the telemetry has of a run under way, given the telemetry before. -/
structure Told (t : Telemetry) (r : Run) : Prop where
  depth : r.telemetry.depth = t.depth + 1
  counters : ∀ c, r.telemetry.counters.get c = t.counters.get c +
    (r.settledJobs.map fun j => j.tally c).sum +
      if c = .stepsSkipped then r.tracker.countOf .skipped else 0
  log : ∃ told, r.telemetry.log = t.log ++ ⟨.runStarted r.jobs.length, t.depth + 1⟩ :: told ∧
    told.Perm (r.settledJobs.map fun j => ⟨j.news, t.depth + 1⟩)

theorem Told.congr (h : Told t r) (htelemetry : r'.telemetry = r.telemetry)
    (hjobs : r'.jobs = r.jobs) (hsettled : r'.settledJobs = r.settledJobs)
    (hskipped : r'.tracker.countOf .skipped = r.tracker.countOf .skipped) : Told t r' := by
  refine ⟨htelemetry ▸ h.depth, fun c => ?_, ?_⟩
  · rw [htelemetry, hsettled, hskipped]
    exact h.counters c
  · rw [htelemetry, hsettled, hjobs]
    exact h.log

/-- A job is settled and its result noted. -/
theorem Told.noteResult (h : Told t r) {i : Nat} {j : Job} {p p' : JobPhase}
    (hj : r.jobs[i]? = some j) (hp : r.phases[i]? = some p) (hopen : p.isSettled = false)
    (hsettled : p'.isSettled = true) : Told t ((r.noteResult j).setPhase i p') := by
  obtain ⟨hdepth, hlog, hcounters⟩ := r.telemetry_noteResult j
  obtain ⟨news, hnews, htracker⟩ := r.tracker_noteResult j
  have hskipped : (r.noteResult j).tracker.countOf .skipped = r.tracker.countOf .skipped := by
    rw [htracker]
    exact r.tracker.countOf_skipped_after hnews
  obtain ⟨tracker, telemetry, hnote⟩ := r.noteResult_frame j
  have hperm : ((r.noteResult j).setPhase i p').settledJobs.Perm (j :: r.settledJobs) := by
    rw [hnote]
    exact settledJobs_setPhase_perm (r := r) hj hp hopen hsettled
  refine ⟨hdepth.trans h.depth, fun c => ?_, ?_⟩
  · have hsum := (hperm.map fun j => j.tally c).sum_eq
    rw [List.map_cons, List.sum_cons] at hsum
    have hc := hcounters c
    have hbefore := h.counters c
    change (r.noteResult j).telemetry.counters.get c = _ + _ +
      if c = .stepsSkipped then (r.noteResult j).tracker.countOf .skipped else 0
    rw [hskipped]
    omega
  · obtain ⟨told, htold, hnoted⟩ := h.log
    refine ⟨told ++ [⟨j.news, t.depth + 1⟩], ?_, ?_⟩
    · have hjobs : ((r.noteResult j).setPhase i p').jobs = r.jobs := by rw [hnote]; rfl
      rw [hjobs]
      change (r.noteResult j).telemetry.log = _
      rw [hlog, htold, h.depth]
      simp
    · refine List.perm_append_singleton _ _ |>.trans ?_
      refine List.Perm.trans ?_ (hperm.map _).symm
      exact hnoted.cons _

/-- A job that is skipped is counted when its record says so, and touches nothing else. -/
theorem Told.skip (h : Told t r) (j : Job) : Told t (r.skip j) := by
  unfold Run.skip
  cases hskip : r.tracker.skip j.step () with
  | error e => exact h
  | ok tracker =>
    refine ⟨h.depth, fun c => ?_, h.log⟩
    have hcounters := h.counters c
    have hcount := ProgressTracker.countOf_skipped_of_skip hskip
    change (r.telemetry.counters.increment .stepsSkipped).get c =
      t.counters.get c + (r.settledJobs.map fun j => j.tally c).sum +
        if c = .stepsSkipped then tracker.countOf .skipped else 0
    rw [Counters.get_increment, hcount, hcounters]
    by_cases hc : c = .stepsSkipped
    · subst hc
      simp only [if_true]
      omega
    · simp [hc, Ne.symm hc]

theorem Told.skipRest (h : Told t r) : Told t r.skipRest := by
  have hskipped : ∀ {r : Run}, Told t r → ∀ js : List Job, Told t (js.foldl Run.skip r) := by
    intro r h js
    induction js generalizing r with
    | nil => exact h
    | cons j js ih => exact ih (h.skip j)
  exact (hskipped h (r.jobs.drop r.phases.length)).congr rfl rfl rfl rfl

/-- A job that is started was pending, so nothing is reported. -/
theorem Told.noteStart (h : Told t r) (hr : Steady jobs seen r) {i : Nat} {j : Job}
    (hj : r.jobs[i]? = some j) (hp : r.phases[i]? = some .dispatched) :
    Told t ((r.noteStart j).setPhase i .running) := by
  obtain ⟨tracker, hstart, -⟩ := hr.start_eq (hr.jobs_eq ▸ hj) hp
  have hskipped := ProgressTracker.countOf_skipped_of_call (c := ⟨j.step, .start, ()⟩) hstart nofun
  rw [Run.noteStart, hstart]
  exact h.congr rfl rfl (settledJobs_setPhase (r := r) hj hp rfl) hskipped

theorem Told.act (h : Told t r) (hr : Steady jobs seen r) {a : Action} (hact : r.act a = some r') :
    Told t r' := by
  cases turn_of_act hact with
  | cancel | close | wait => exact h.congr rfl rfl rfl rfl
  | dispatch => exact h.congr rfl rfl (r.settledJobs_dispatch .looking) rfl
  | leaveLooking | leaveWaiting => exact h.skipRest
  | start hj hp => exact h.noteStart hr hj hp
  | finish hj hp => exact h.congr rfl rfl (settledJobs_setPhase hj hp rfl) rfl
  | finishLate hj hp => exact h.congr rfl rfl (settledJobs_setPhase hj hp rfl) rfl
  | settle hj hp => exact h.noteResult hj hp rfl rfl
  | expire hj hp => exact h.noteResult hj hp rfl rfl

theorem Told.actAll {as : List Action} (h : Told t r) (hr : Steady jobs seen r)
    (hrun : r.actAll as = some r') : Told t r' := by
  induction as generalizing r seen with
  | nil =>
    cases hrun
    exact h
  | cons a as ih =>
    obtain ⟨s, hact, hrest⟩ := Option.bind_eq_some_iff.1 hrun
    exact ih (h.act hr hact) (hr.act hact) hrest

theorem told_begin (workers : Nat) (signal : Bool) (t : Telemetry) (jobs : List Job) :
    Told t (Run.begin workers signal t jobs) := by
  have hsettled : (Run.begin workers signal t jobs).settledJobs = [] := by
    simp [settledJobs, Run.begin]
  have hskipped : (Run.begin workers signal t jobs).tracker.countOf .skipped = 0 := by
    simp [Run.begin, ProgressTracker.countOf, ProgressTracker.records_ofSteps, ProgressRecord.pending]
  refine ⟨rfl, fun c => ?_, [], rfl, ?_⟩
  · rw [hsettled, hskipped]
    simp [Run.begin, Telemetry.enter, Telemetry.report]
  · rw [hsettled]
    exact .nil

end Run

/-! ## What a report says of the telemetry -/

namespace RunReport

/-- By how much a run with that report moves a counter. -/
def growth (report : RunReport) : Counter → Nat
  | .stepsExecuted => report.progress.countP (fun p => p.status = .completed) +
      report.progress.countP fun p => p.status = .failed
  | .stepsFailed => report.failures.length
  | .stepsSkipped => report.progress.countP fun p => p.status = .skipped
  | _ => 0

/-- The events on the steps of a run with that report, in some order. -/
def stepEvents (report : RunReport) : List Event :=
  (report.progress.filter fun p => p.status = .completed).map (fun p =>
      .stepFinished p.step (report.issues.countP fun i => i.sourceStep = p.step)) ++
    report.failures.map fun f => .stepFailed f.step f.error

end RunReport

namespace Run

section

variable {steps : List Job} {seen : Option Nat}

theorem sum_tally_executed (js : List Job) :
    (js.map fun j => j.tally .stepsExecuted).sum = js.length := by
  induction js with
  | nil => rfl
  | cons j js ih => rw [List.map_cons, List.sum_cons, ih, List.length_cons, Job.tally, Nat.add_comm]

theorem sum_tally_failed (js : List Job) :
    (js.map fun j => j.tally .stepsFailed).sum = (js.filterMap failureOf?).length := by
  induction js with
  | nil => rfl
  | cons j js ih =>
    rw [List.map_cons, List.sum_cons, ih, Job.tally]
    cases hfailure : failureOf? j <;> simp [hfailure, Nat.add_comm]

theorem length_eq_add_countP_status (js : List Job) :
    js.length = js.countP (fun j => j.outcome.status = .completed) +
      js.countP fun j => j.outcome.status = .failed := by
  rw [List.length_eq_countP_add_countP fun j : Job => decide (j.outcome.status = .completed)]
  congr 1
  exact List.countP_congr fun j _ => by simp [Outcome.status_eq_failed_iff]

theorem countP_progress_reportOf {s : StepStatus} (hs : s ≠ .skipped) :
    ((reportOf steps seen).progress.countP fun p => p.status = s) =
      (steps.take (seen.getD steps.length)).countP fun j => j.outcome.status = s := by
  rw [List.countP_eq_length_filter, filter_progress_reportOf hs, List.length_map,
    ← List.countP_eq_length_filter]

theorem growth_reportOf (c : Counter) :
    (reportOf steps seen).growth c =
      ((steps.take (seen.getD steps.length)).map fun j => j.tally c).sum +
        if c = .stepsSkipped then
          (reportOf steps seen).progress.countP fun p => p.status = .skipped else 0 := by
  cases c with
  | stepsExecuted =>
    rw [RunReport.growth, countP_progress_reportOf (by decide), countP_progress_reportOf (by decide),
      ← length_eq_add_countP_status, sum_tally_executed]
    simp
  | stepsFailed =>
    rw [RunReport.growth, sum_tally_failed]
    rfl
  | _ => simp [RunReport.growth, Job.tally]

/-- What is told of a job that failed is its failure. -/
theorem news_of_failureOf? {j : Job} {f : StepFailure} (h : failureOf? j = some f) :
    j.news = .stepFailed f.step f.error ∧ j.ended.step = f.step ∧ j.ended.error = some f.error := by
  cases houtcome : j.outcome <;>
    simp only [failureOf?, Job.result, Outcome.result, houtcome, Option.some.injEq,
      reduceCtorEq] at h <;> subst h <;>
    simp [Job.news, Job.ended, Job.closed, Job.result, Outcome.result, houtcome,
      ProgressRecord.moved, StepFailure.ofError, StepError.step]

theorem news_of_completed {j : Job} (h : j.outcome.status = .completed) :
    j.news = .stepFinished j.step (issuesOf j).length := by
  cases houtcome : j.outcome with
  | issues found => simp [Job.news, issuesOf, Job.result, Outcome.result, houtcome]
  | _ =>
    rw [houtcome] at h
    cases h

/-- The issues of a step are those that its job brought. -/
theorem countP_issues {js : List Job} (hdistinct : (js.map Job.step).Nodup) {j : Job} (hj : j ∈ js) :
    ((js.flatMap issuesOf).countP fun i => i.sourceStep = j.step) = (issuesOf j).length := by
  have hsource : ∀ (k : Job), ∀ i ∈ issuesOf k, i.sourceStep = k.step := by
    intro k i hi
    rw [k.issuesOf_eq] at hi
    obtain ⟨found, -, rfl⟩ := List.mem_map.1 hi
    rfl
  obtain ⟨front, back, rfl⟩ := List.append_of_mem hj
  have hother : ∀ k ∈ front ++ back, k.step ≠ j.step := by
    rw [List.map_append, List.map_cons, List.nodup_middle, List.nodup_cons, ← List.map_append]
      at hdistinct
    exact fun k hk heq => hdistinct.1 (List.mem_map.2 ⟨k, hk, heq⟩)
  have hnone : ∀ ks ⊆ front ++ back,
      ((ks.flatMap issuesOf).countP fun i => i.sourceStep = j.step) = 0 := by
    intro ks hks
    rw [List.countP_eq_zero]
    intro i hi
    obtain ⟨k, hk, hik⟩ := List.mem_flatMap.1 hi
    simpa [hsource k i hik] using hother k (hks hk)
  have hall : ((issuesOf j).countP fun i => i.sourceStep = j.step) = (issuesOf j).length :=
    List.countP_eq_length.2 fun i hi => decide_eq_true (hsource j i hi)
  rw [List.flatMap_append, List.flatMap_cons, List.countP_append, List.countP_append,
    hnone front (List.subset_append_left ..), hnone back (List.subset_append_right ..), hall,
    Nat.zero_add, Nat.add_zero]

variable (seen) in
/-- What settling jobs tells is what their report says of them. -/
theorem news_perm_stepEvents (hdistinct : (steps.map Job.step).Nodup) :
    ((steps.take (seen.getD steps.length)).map Job.news).Perm (reportOf steps seen).stepEvents := by
  have htake : ((steps.take (seen.getD steps.length)).map Job.step).Nodup :=
    hdistinct.sublist ((List.take_sublist _ _).map _)
  unfold RunReport.stepEvents
  rw [filter_progress_reportOf (by decide)]
  simp only [reportOf]
  generalize steps.take (seen.getD steps.length) = js at htake
  have hfinished : ((js.filter fun j => j.outcome.status = .completed).map Job.ended).map (fun p =>
      Event.stepFinished p.step ((js.flatMap issuesOf).countP fun i => i.sourceStep = p.step)) =
        (js.filter fun j => j.outcome.status = .completed).map Job.news := by
    rw [List.map_map]
    refine List.map_congr_left fun j hj => ?_
    obtain ⟨hmem, hcompleted⟩ := List.mem_filter.1 hj
    rw [Function.comp_apply, Job.step_ended, countP_issues htake hmem,
      news_of_completed (of_decide_eq_true hcompleted)]
  have hfailed : (js.filterMap failureOf?).map (fun f => Event.stepFailed f.step f.error) =
      (js.filter fun j => ¬ j.outcome.status = .completed).map Job.news := by
    rw [map_failures fun _ _ h => (news_of_failureOf? h).1.symm]
    simp only [Outcome.status_eq_failed_iff]
  rw [hfinished, hfailed, ← List.map_append]
  simp only [decide_not]
  exact (List.filter_append_perm _ js).symm.map Job.news

end

end Run

/-- A report on jobs and the telemetry from before and after them agree. -/
structure RunReport.ToldBy (report : RunReport) (jobs : List Job) (t t' : Telemetry) : Prop where
  counters : ∀ c, t'.counters.get c = t.counters.get c + report.growth c
  /-- The beginning comes first and the end last, and in between there is one event for each step
  that completed or failed, and no other event. -/
  log : ∃ told,
    t'.log = t.log ++ ⟨.runStarted (jobs.map Job.step).eraseDups.length, t.depth + 1⟩ :: told ++
      [⟨.runFinished report.issues.length report.failures.length report.cancelled, t.depth + 1⟩] ∧
    told.Perm (report.stepEvents.map fun e => ⟨e, t.depth + 1⟩)
  depth : t'.depth = t.depth
  steps : report.progress.map ProgressRecord.step = (jobs.map Job.step).eraseDups
  /-- The text of a failure is the error of the record of its step. -/
  failures : report.failures.map (fun f => (f.step, some f.error)) =
    (report.progress.filter fun p => p.status = .failed).map fun p => (p.step, p.error)

namespace Run

variable {jobs : List Job} {seen : Option Nat} {r : Run} {t : Telemetry}

theorem Told.toldBy (h : Told t r) (hr : Steady (distinctBy Job.step jobs) seen r)
    (hover : r.isOver = true) : r.report.ToldBy jobs t r.closing := by
  obtain ⟨hclosed, hsettled⟩ := over_iff.1 hover
  have hjobs := hr.settledJobs_eq hsettled
  rw [← hr.cut_eq hclosed] at hjobs
  refine ⟨fun c => ?_, ?_, ?_, ?_, ?_⟩
  · change r.telemetry.counters.get c = _
    rw [h.counters c, hjobs, hr.report_eq hover, growth_reportOf, ← hr.report_eq hover,
      Nat.add_assoc]
    rfl
  · obtain ⟨told, htold, hperm⟩ := h.log
    refine ⟨told, ?_, ?_⟩
    · have hsteps : r.jobs.length = (jobs.map Job.step).eraseDups.length := by
        rw [hr.jobs_eq, ← distinct_eq_eraseDups, ← map_distinctBy, List.length_map]
      change r.telemetry.log ++ [⟨_, r.telemetry.depth⟩] = _
      rw [htold, h.depth, hsteps]
      rfl
    · rw [hr.report_eq hover]
      refine hperm.trans ?_
      rw [hjobs]
      have hnews := (news_perm_stepEvents seen hr.distinct).map fun e =>
        (⟨e, t.depth + 1⟩ : LogEntry)
      rwa [List.map_map] at hnews
  · change r.telemetry.depth - 1 = t.depth
    rw [h.depth, Nat.add_sub_cancel]
  · exact (hr.accounts hover).steps
  · rw [hr.report_eq hover, filter_progress_reportOf (by decide), List.map_map]
    refine map_failures (fun j f hf => ?_) _
    obtain ⟨-, hstep, herror⟩ := news_of_failureOf? hf
    exact Prod.ext hstep.symm herror.symm

end Run

/-! ## Reviews of several files -/

namespace Review

variable {σ : Type}

/-- The report that an action takes. -/
def taken? (r : Review σ) : ReviewAction → Option FileReport
  | .closeFile =>
    match r.stage with
    | .between .. => none
    | .within p lines run => if run.isOver then some ⟨p, lines, run.report⟩ else none
  | _ => none

/-- The reports that are taken by a sequence of actions. -/
def taken [FileAccess σ] : Review σ → List ReviewAction → List FileReport
  | _, [] => []
  | r, a :: as => (r.taken? a).toList ++ (r.act a).elim [] fun r => r.taken as

/-- The path of a file that could be read. -/
def readPath? (x : Path × Except FileError String) : Option Path :=
  x.2.toOption.map fun _ => x.1

/-- A review that has opened files and taken reports, given the telemetry before. -/
inductive Totals (t : Telemetry) (opened : List Path) (reports : List FileReport) :
    Review σ → Prop
  | between {r : Review σ} {signal : Bool} {now : Telemetry} (hstage : r.stage = .between signal now)
      (hopened : opened = reports.map FileReport.path)
      (hcounters : ∀ c, now.counters.get c =
        t.counters.get c + (reports.map fun f => f.report.growth c).sum)
      (hfiles : r.report.files = .ofList (reports.map fun f => (f.path, f))) :
      Totals t opened reports r
  | within {r : Review σ} {p : Path} {lines : Nat} {run : Run} {now : Telemetry} {jobs : List Job}
      {seen : Option Nat} (hstage : r.stage = .within p lines run)
      (hopened : opened = reports.map FileReport.path ++ [p])
      (hcounters : ∀ c, now.counters.get c =
        t.counters.get c + (reports.map fun f => f.report.growth c).sum)
      (hfiles : r.report.files = .ofList (reports.map fun f => (f.path, f)))
      (hsteady : run.Steady (distinctBy Job.step jobs) seen) (htold : run.Told now) :
      Totals t opened reports r

variable {t : Telemetry} {opened : List Path} {reports : List FileReport} {r r' : Review σ}
  {a : ReviewAction}

theorem Totals.of_between {signal : Bool} {now : Telemetry} (h : Totals t opened reports r)
    (hstage : r.stage = .between signal now) :
    opened = reports.map FileReport.path ∧
      (∀ c, now.counters.get c =
        t.counters.get c + (reports.map fun f => f.report.growth c).sum) ∧
      r.report.files = .ofList (reports.map fun f => (f.path, f)) := by
  cases h with
  | between hbetween hopened hcounters hfiles =>
    rw [hstage] at hbetween
    cases hbetween
    exact ⟨hopened, hcounters, hfiles⟩
  | within hwithin =>
    rw [hstage] at hwithin
    cases hwithin

theorem Totals.of_within {p : Path} {lines : Nat} {run : Run} (h : Totals t opened reports r)
    (hstage : r.stage = .within p lines run) :
    opened = reports.map FileReport.path ++ [p] ∧
      r.report.files = .ofList (reports.map fun f => (f.path, f)) ∧
      ∃ now jobs seen, (∀ c, now.counters.get c =
          t.counters.get c + (reports.map fun f => f.report.growth c).sum) ∧
        run.Steady (distinctBy Job.step jobs) seen ∧ run.Told now := by
  cases h with
  | between hbetween =>
    rw [hstage] at hbetween
    cases hbetween
  | within hwithin hopened hcounters hfiles hsteady htold =>
    rw [hstage] at hwithin
    cases hwithin
    exact ⟨hopened, hfiles, _, _, _, hcounters, hsteady, htold⟩

variable [FileAccess σ]

theorem Totals.act (h : Totals t opened reports r) (hact : r.act a = some r') :
    Totals t (opened ++ (r.opening? a).toList.filterMap readPath?)
      (reports ++ (r.taken? a).toList) r' := by
  cases turn_of_act hact with
  | @read signal telemetry p ps content files hstage hwaiting hread =>
    obtain ⟨hopened, hcounters, hfiles⟩ := h.of_between hstage
    rw [opening?_of_read hstage hwaiting hread, hopened]
    change Totals t (reports.map FileReport.path ++ [p]) (reports ++ []) _
    rw [List.append_nil]
    exact .within rfl rfl hcounters hfiles
      (Run.steady_begin r.plan.workers signal telemetry _) (Run.told_begin ..)
  | @unread signal telemetry p ps cause files hstage hwaiting hread =>
    obtain ⟨hopened, hcounters, hfiles⟩ := h.of_between hstage
    rw [opening?_of_read hstage hwaiting hread, hopened]
    change Totals t (reports.map FileReport.path ++ []) (reports ++ []) _
    rw [List.append_nil, List.append_nil]
    exact .between rfl rfl hcounters hfiles
  | @ran p lines run run' a hstage hrun =>
    obtain ⟨hopened, hfiles, now, jobs, seen, hcounters, hsteady, htold⟩ := h.of_within hstage
    change Totals t (opened ++ []) (reports ++ []) _
    rw [List.append_nil, List.append_nil]
    exact .within rfl hopened hcounters hfiles (hsteady.act hrun) (htold.act hsteady hrun)
  | @closed p lines run hstage hover =>
    obtain ⟨hopened, hfiles, now, jobs, seen, hcounters, hsteady, htold⟩ := h.of_within hstage
    have htaken : r.taken? .closeFile = some ⟨p, lines, run.report⟩ := by
      simp [taken?, hstage, hover]
    rw [htaken]
    change Totals t (opened ++ []) (reports ++ [_]) _
    rw [List.append_nil]
    refine .between rfl ?_ (fun c => ?_) ?_
    · rw [hopened, List.map_append]
      rfl
    · rw [(htold.toldBy hsteady hover).counters c, hcounters c, List.map_append, List.sum_append,
        Nat.add_assoc]
      rfl
    · rw [hfiles, List.map_append, OrderedMap.ofList, OrderedMap.ofList, List.foldl_append]
      rfl
  | left hstragglers =>
    change Totals t (opened ++ []) (reports ++ []) _
    rw [List.append_nil, List.append_nil]
    cases h with
    | between hstage hopened hcounters hfiles => exact .between hstage hopened hcounters hfiles
    | within hstage hopened hcounters hfiles hsteady htold =>
      exact .within hstage hopened hcounters hfiles hsteady htold
  | cancelled hstage =>
    obtain ⟨hopened, hcounters, hfiles⟩ := h.of_between hstage
    change Totals t (opened ++ []) (reports ++ []) _
    rw [List.append_nil, List.append_nil]
    exact .between rfl hopened hcounters hfiles

theorem Totals.actAll {as : List ReviewAction} (h : Totals t opened reports r)
    (hrun : r.actAll as = some r') :
    Totals t (opened ++ (r.openings as).filterMap readPath?) (reports ++ r.taken as) r' := by
  induction as generalizing r opened reports with
  | nil =>
    cases hrun
    rw [openings, taken, List.filterMap_nil, List.append_nil, List.append_nil]
    exact h
  | cons a as ih =>
    obtain ⟨s, hact, hrest⟩ := Option.bind_eq_some_iff.1 hrun
    have hs := ih (h.act hact) hrest
    rw [openings, taken, hact, Option.elim_some, Option.elim_some, List.filterMap_append,
      ← List.append_assoc, ← List.append_assoc]
    exact hs

end Review

/-! ## Every order of actions -/

/-- Two files that can be read and one that is not there; the second of three steps is overdue. -/
def unevenReview : Review MemoryFiles :=
  .begin ⟨2, fun _ _ => [⟨"lint", .issues [], {}⟩,
      ⟨"scan", .timedOut 5, { returns := some 9, expires := some 5 }⟩,
      ⟨"audit", .crashed "boom", {}⟩]⟩ false {}
    ((MemoryFiles.empty.withFile ⟨"a"⟩ "a0").withFile ⟨"b"⟩ "b0") [⟨"a"⟩, ⟨"m"⟩, ⟨"b"⟩]

end CodeReview
