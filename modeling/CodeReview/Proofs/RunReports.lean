import CodeReview.Proofs.RunStates
import Mathlib.Algebra.Ring.Nat

/-!
# Reports of runs

A run comes to its end whatever the order in which its actions happen: while it is not over something
can happen (`Run.Steady.exists_act`), and each action other than cancelling takes work off it
(`Run.Steady.rest_lt`).  At its end the report accounts for every step (`RunReport.Accounts`), and it
only depends on the jobs and on the first dispatch check that has seen the signal.
-/

namespace CodeReview

/-! ## Accounts -/

namespace Outcome

/-- The status that a step with that outcome comes to. -/
def status : Outcome → StepStatus
  | .issues _ => .completed
  | .failed _ | .crashed _ | .timedOut _ => .failed

/-- The issues that count. -/
def found : Outcome → List Issue
  | .issues found => found
  | .failed _ | .crashed _ | .timedOut _ => []

theorem status_eq_failed_iff {o : Outcome} : o.status = .failed ↔ o.status ≠ .completed := by
  cases o <;> simp [status]

theorem status_ne_skipped (o : Outcome) : o.status ≠ .skipped := by
  cases o <;> nofun

theorem status_of_mem_found {o : Outcome} {i : Issue} (h : i ∈ o.found) : o.status = .completed := by
  cases o with
  | issues found => rfl
  | _ => cases h

end Outcome

/-- A report accounts for jobs of which those from a place on were left out, where the first job of
several for one step counts. -/
structure RunReport.Accounts (report : RunReport) (jobs : List Job) (cut : Nat) : Prop where
  /-- There is one record for each step, in the order of their first occurrences. -/
  steps : report.progress.map ProgressRecord.step = (jobs.map Job.step).eraseDups
  statuses : report.progress.map ProgressRecord.status =
    ((distinctBy Job.step jobs).take cut).map (fun j => j.outcome.status) ++
      ((distinctBy Job.step jobs).drop cut).map fun _ => .skipped
  cancelled : report.cancelled = true ↔ ∃ p ∈ report.progress, p.status = .skipped
  failures : report.failures.map StepFailure.step =
    (report.progress.filter fun p => p.status = .failed).map ProgressRecord.step
  timeouts : ∀ f ∈ report.failures,
    (f.timedOut = true ↔ ∃ j ∈ distinctBy Job.step jobs, j.step = f.step ∧ j.runsOut = true)
  issues : report.issues = ((distinctBy Job.step jobs).take cut).flatMap fun j =>
    j.outcome.found.map fun i => { i with sourceStep := j.step }
  /-- No issue is of a step that did not complete. -/
  sources : ∀ i ∈ report.issues,
    ∃ p ∈ report.progress, p.step = i.sourceStep ∧ p.status = .completed

namespace Job

@[simp] theorem status_ended (j : Job) : j.ended.status = j.outcome.status := by
  unfold ended closed result Outcome.result Outcome.status
  cases j.outcome <;> rfl

theorem issuesOf_eq (j : Job) :
    Run.issuesOf j = j.outcome.found.map fun i => { i with sourceStep := j.step } := by
  unfold Run.issuesOf result Outcome.result Outcome.found
  cases j.outcome <;> rfl

/-- A job fails when its outcome says so, and the failure tells whether it ran out of time. -/
theorem failureOf?_eq (j : Job) :
    (j.outcome.status ≠ .failed ∧ Run.failureOf? j = none) ∨
      j.outcome.status = .failed ∧
        ∃ f, Run.failureOf? j = some f ∧ f.step = j.step ∧ f.timedOut = j.runsOut := by
  unfold Run.failureOf? result Outcome.result Outcome.status runsOut
  cases j.outcome with
  | issues found => exact .inl ⟨nofun, rfl⟩
  | failed text => exact .inr ⟨rfl, _, rfl, rfl, rfl⟩
  | crashed text => exact .inr ⟨rfl, _, rfl, rfl, rfl⟩
  | timedOut milliseconds => exact .inr ⟨rfl, _, rfl, rfl, rfl⟩

end Job

namespace Run

/-- What can be read off a failure is read off the job that failed. -/
theorem map_failures {β : Type} {f : StepFailure → β} {g : Job → β}
    (hread : ∀ j e, failureOf? j = some e → f e = g j) (jobs : List Job) :
    (jobs.filterMap failureOf?).map f = (jobs.filter fun j => j.outcome.status = .failed).map g := by
  induction jobs with
  | nil => rfl
  | cons j jobs ih =>
    obtain ⟨hstatus, hnone⟩ | ⟨hstatus, e, hsome, -⟩ := j.failureOf?_eq
    · rw [List.filterMap_cons_none hnone, List.filter_cons_of_neg (by simpa using hstatus), ih]
    · rw [List.filterMap_cons_some hsome, List.filter_cons_of_pos (by simpa using hstatus),
        List.map_cons, List.map_cons, hread j e hsome, ih]

theorem timedOut_of_failureOf? {j : Job} {f : StepFailure} (h : failureOf? j = some f) :
    f.step = j.step ∧ f.timedOut = j.runsOut := by
  obtain ⟨-, hnone⟩ | ⟨-, g, hsome, hg⟩ := j.failureOf?_eq
  · rw [hnone] at h
    cases h
  · rw [hsome] at h
    cases h
    exact hg

theorem step_failures (jobs : List Job) :
    (jobs.filterMap failureOf?).map StepFailure.step =
      (jobs.filter fun j => j.outcome.status = .failed).map Job.step :=
  map_failures (fun _ _ h => (timedOut_of_failureOf? h).1) jobs

section

variable {steps : List Job} {seen : Option Nat}

theorem ended_mem_reportOf {j : Job} (hj : j ∈ steps.take (seen.getD steps.length)) :
    j.ended ∈ (reportOf steps seen).progress :=
  List.mem_append_left _ (List.mem_map_of_mem hj)

theorem steps_reportOf :
    (reportOf steps seen).progress.map ProgressRecord.step = steps.map Job.step := by
  have hended : ProgressRecord.step ∘ Job.ended = Job.step := funext Job.step_ended
  have hskipped : ProgressRecord.step ∘ Job.skipped = Job.step := rfl
  rw [reportOf, List.map_append, List.map_map, List.map_map, hended, hskipped, ← List.map_append,
    List.take_append_drop]

theorem cancelled_reportOf (hseen : ∀ k : Nat, seen = some k → k < steps.length) :
    (reportOf steps seen).cancelled = true ↔
      ∃ p ∈ (reportOf steps seen).progress, p.status = .skipped := by
  constructor
  · intro hsome
    obtain ⟨k, rfl⟩ := Option.isSome_iff_exists.1 hsome
    have hk : k < steps.length := hseen k rfl
    have hleft : steps[k] ∈ steps.drop k := by
      rw [List.drop_eq_getElem_cons hk]
      exact List.mem_cons_self
    exact ⟨_, List.mem_append_right _ (List.mem_map_of_mem hleft), rfl⟩
  · rintro ⟨p, hp, hskipped⟩
    obtain hin | hleft := List.mem_append.1 hp
    · obtain ⟨j, -, rfl⟩ := List.mem_map.1 hin
      rw [Job.status_ended] at hskipped
      exact absurd hskipped (Outcome.status_ne_skipped j.outcome)
    · cases seen with
      | some k => rfl
      | none =>
        -- without a check that has seen the signal, none is left out
        rw [Option.getD_none, List.drop_length] at hleft
        cases hleft

/-- The records of the steps that came to a status other than skipped. -/
theorem filter_progress_reportOf {s : StepStatus} (hs : s ≠ .skipped) :
    ((reportOf steps seen).progress.filter fun p => p.status = s) =
      ((steps.take (seen.getD steps.length)).filter fun j => j.outcome.status = s).map
        Job.ended := by
  have hnone : ((steps.drop (seen.getD steps.length)).map Job.skipped).filter
      (fun p => p.status = s) = [] := by
    rw [List.filter_eq_nil_iff]
    intro p hp
    obtain ⟨j, -, rfl⟩ := List.mem_map.1 hp
    rw [decide_eq_true_eq]
    exact hs.symm
  have hstatus : (fun p : ProgressRecord Unit => decide (p.status = s)) ∘ Job.ended =
      fun j => decide (j.outcome.status = s) := by
    funext j
    simp
  rw [reportOf, List.filter_append, hnone, List.append_nil, List.filter_map, hstatus]

theorem failures_reportOf :
    (reportOf steps seen).failures.map StepFailure.step =
      ((reportOf steps seen).progress.filter fun p => p.status = .failed).map
        ProgressRecord.step := by
  have hstep : ProgressRecord.step ∘ Job.ended = Job.step := funext Job.step_ended
  rw [filter_progress_reportOf (by decide), List.map_map, hstep, ← step_failures]
  rfl

theorem timeouts_reportOf (hdistinct : (steps.map Job.step).Nodup) :
    ∀ f ∈ (reportOf steps seen).failures,
      (f.timedOut = true ↔ ∃ j ∈ steps, j.step = f.step ∧ j.runsOut = true) := by
  intro f hf
  obtain ⟨j, hj, hfailure⟩ := List.mem_filterMap.1 hf
  obtain ⟨hstep, htimedOut⟩ := timedOut_of_failureOf? hfailure
  have hmem := List.mem_of_mem_take hj
  rw [hstep, htimedOut]
  constructor
  · intro hout
    exact ⟨j, hmem, rfl, hout⟩
  · rintro ⟨other, hother, hsame, hout⟩
    rwa [List.inj_on_of_nodup_map hdistinct hother hmem hsame] at hout

theorem sources_reportOf :
    ∀ i ∈ (reportOf steps seen).issues,
      ∃ p ∈ (reportOf steps seen).progress, p.step = i.sourceStep ∧ p.status = .completed := by
  intro i hi
  obtain ⟨j, hj, hij⟩ := List.mem_flatMap.1 hi
  rw [j.issuesOf_eq] at hij
  obtain ⟨found, hfound, rfl⟩ := List.mem_map.1 hij
  refine ⟨j.ended, ended_mem_reportOf hj, j.step_ended, ?_⟩
  rw [Job.status_ended]
  exact Outcome.status_of_mem_found hfound

end

variable {jobs : List Job} {seen : Option Nat} {r : Run}

theorem accounts_reportOf (hseen : ∀ k : Nat, seen = some k → k < (distinctBy Job.step jobs).length) :
    (reportOf (distinctBy Job.step jobs) seen).Accounts jobs
      (seen.getD (distinctBy Job.step jobs).length) := by
  constructor
  case steps => rw [steps_reportOf, map_distinctBy, distinct_eq_eraseDups]
  case statuses =>
    have hstatus : ProgressRecord.status ∘ Job.ended = fun j => j.outcome.status :=
      funext Job.status_ended
    rw [reportOf, List.map_append, List.map_map, List.map_map, hstatus]
    rfl
  case cancelled => exact cancelled_reportOf hseen
  case failures => exact failures_reportOf
  case timeouts => exact timeouts_reportOf (nodup_map_distinctBy Job.step jobs)
  case issues => exact List.flatMap_congr fun j _ => j.issuesOf_eq
  case sources => exact sources_reportOf

/-- The report of a run that is over accounts for its jobs. -/
theorem Steady.accounts (h : Steady (distinctBy Job.step jobs) seen r) (hover : r.isOver = true) :
    r.report.Accounts jobs (seen.getD (distinctBy Job.step jobs).length) := by
  rw [h.report_eq hover]
  exact accounts_reportOf fun k hk => (h.seen k hk).2.2.2

end Run

/-! ## The way to the end -/

/-- How many actions a dispatched job still takes, at most. -/
def JobPhase.rest : JobPhase → Nat
  | .dispatched => 3
  | .running => 2
  | .returned | .overdue => 1
  | .settled => 0

theorem JobPhase.sum_rest_set {ps : List JobPhase} {i : Nat} {p : JobPhase} (p' : JobPhase)
    (hp : ps[i]? = some p) :
    ((ps.set i p').map JobPhase.rest).sum + p.rest = (ps.map JobPhase.rest).sum + p'.rest := by
  induction ps generalizing i with
  | nil => cases hp
  | cons q ps ih =>
    cases i with
    | zero =>
      cases hp
      simp only [List.set_cons_zero, List.map_cons, List.sum_cons]
      omega
    | succ i =>
      have hrest := ih hp
      simp only [List.set_cons_succ, List.map_cons, List.sum_cons]
      omega

namespace Run

/-- How many actions other than cancelling a run still takes, at most. -/
def rest (r : Run) : Nat :=
  (r.phases.map JobPhase.rest).sum +
    match r.dispatch with
    | .looking => 5 * (r.jobs.length - r.phases.length) + 1
    | .waiting => 5 * (r.jobs.length - r.phases.length)
    | .closed => 0

variable {jobs : List Job} {seen : Option Nat} {r : Run}

theorem rest_begin (workers : Nat) (signal : Bool) (telemetry : Telemetry) (jobs : List Job) :
    (Run.begin workers signal telemetry jobs).rest =
      5 * (distinctBy Job.step jobs).length + 1 :=
  Nat.zero_add _

theorem executing_le_rest (r : Run) : r.executing ≤ r.rest := by
  have hphases : ∀ ps : List JobPhase, ps.countP JobPhase.executes ≤ (ps.map JobPhase.rest).sum := by
    intro ps
    induction ps with
    | nil => exact Nat.le_refl 0
    | cons p ps ih =>
      rw [List.countP_cons, List.map_cons, List.sum_cons]
      cases p <;> simp [JobPhase.executes, JobPhase.rest] <;> omega
  exact Nat.le_trans (hphases r.phases) (Nat.le_add_right ..)

theorem rest_setPhase_lt {i : Nat} {p p' : JobPhase} (hp : r.phases[i]? = some p)
    (hless : p'.rest < p.rest) : (r.setPhase i p').rest < r.rest := by
  have hsum := JobPhase.sum_rest_set p' hp
  have hlength : (r.phases.set i p').length = r.phases.length := List.length_set
  simp only [rest, setPhase, hlength]
  omega

@[simp] theorem rest_noteStart (r : Run) (j : Job) (i : Nat) (p : JobPhase) :
    ((r.noteStart j).setPhase i p).rest = (r.setPhase i p).rest := by
  obtain ⟨tracker, telemetry, hnote⟩ := r.noteStart_frame j
  rw [hnote]
  rfl

@[simp] theorem rest_noteResult (r : Run) (j : Job) (i : Nat) (p : JobPhase) :
    ((r.noteResult j).setPhase i p).rest = (r.setPhase i p).rest := by
  obtain ⟨tracker, telemetry, hnote⟩ := r.noteResult_frame j
  rw [hnote]
  rfl

theorem rest_skipRest (r : Run) : r.skipRest.rest = (r.phases.map JobPhase.rest).sum := by
  obtain ⟨tracker, telemetry, hskip, -⟩ := r.skipRest_eq
  rw [hskip]
  rfl

/-- Every action other than cancelling takes work off a run. -/
theorem Steady.rest_lt {a : Action} {r' : Run} (h : Steady jobs seen r)
    (hact : r.act a = some r') (ha : a ≠ .cancel) : r'.rest < r.rest := by
  have hwaiting : r.dispatch = .waiting → r.phases.length < r.jobs.length := by
    intro hd
    rw [h.jobs_eq]
    exact (h.unseen (h.eq_none (by simp [hd]))).2.1 hd
  cases turn_of_act hact with
  | cancel => exact absurd rfl ha
  | close hd hfull =>
    simp only [rest, hd]
    omega
  | wait hd hleft hsignal =>
    simp only [rest, hd]
    omega
  | dispatch hd hfree hsignal =>
    have hleft := hwaiting hd
    have hsum : ((r.phases ++ [JobPhase.dispatched]).map JobPhase.rest).sum =
        (r.phases.map JobPhase.rest).sum + 3 := by
      rw [List.map_append, List.sum_append]
      rfl
    simp only [rest, hd, hsum, List.length_append, List.length_singleton]
    omega
  | leaveLooking hd hleft hsignal =>
    rw [rest_skipRest]
    simp only [rest, hd]
    omega
  | leaveWaiting hd hfree hsignal =>
    have hleft := hwaiting hd
    rw [rest_skipRest]
    simp only [rest, hd]
    omega
  | start hj hp =>
    rw [rest_noteStart]
    exact rest_setPhase_lt hp (by decide)
  | finish hj hp hin => exact rest_setPhase_lt hp (by decide)
  | finishLate hj hp => exact rest_setPhase_lt hp (by decide)
  | settle hj hp =>
    rw [rest_noteResult]
    exact rest_setPhase_lt hp (by decide)
  | expire hj hp hout =>
    rw [rest_noteResult]
    exact rest_setPhase_lt hp (by decide)

theorem Steady.countP_add_rest_le {as : List Action} {r' : Run} (h : Steady jobs seen r)
    (hrun : r.actAll as = some r') : as.countP (fun a => a ≠ .cancel) + r'.rest ≤ r.rest := by
  induction as generalizing r seen with
  | nil =>
    cases hrun
    simp
  | cons a as ih =>
    obtain ⟨s, hact, hrest⟩ := Option.bind_eq_some_iff.1 hrun
    have hs := ih (h.act hact) hrest
    by_cases ha : a = .cancel
    · subst ha
      cases hact
      rw [List.countP_cons_of_neg (by simp)]
      exact hs
    · have hless := h.rest_lt hact ha
      rw [List.countP_cons_of_pos (by simpa using ha)]
      omega

/-- A job that is not settled, or whose executor has not returned, can go on. -/
theorem Steady.exists_act_of_phase (h : Steady jobs seen r) {p : JobPhase} (hmem : p ∈ r.phases)
    (hp : p ≠ .settled) : ∃ a, a ≠ .cancel ∧ (r.act a).isSome = true := by
  obtain ⟨i, hphase⟩ := List.mem_iff_getElem?.1 hmem
  obtain ⟨j, -, hjob⟩ := h.exists_job hphase
  cases p with
  | dispatched => exact ⟨.start i, by simp, by simp [Run.act, start, hjob, hphase]⟩
  | running =>
    cases hout : j.runsOut with
    | false => exact ⟨.finish i, by simp, by simp [Run.act, finish, hjob, hphase, hout]⟩
    | true => exact ⟨.expire i, by simp, by simp [Run.act, expire, hjob, hphase, hout]⟩
  | returned => exact ⟨.settle i, by simp, by simp [Run.act, settle, hjob, hphase]⟩
  | overdue => exact ⟨.finish i, by simp, by simp [Run.act, finish, hjob, hphase]⟩
  | settled => exact absurd rfl hp

/-- As long as a run is not over, something other than cancelling can happen. -/
theorem Steady.exists_act (h : Steady jobs seen r) (hover : r.isOver = false) :
    ∃ a, a ≠ .cancel ∧ (r.act a).isSome = true := by
  cases hd : r.dispatch with
  | looking =>
    refine ⟨.advance, by simp, ?_⟩
    simp only [Run.act, Run.advance, hd]
    split
    · rfl
    · split <;> rfl
  | waiting =>
    by_cases hbusy : r.workers ≤ r.busy
    · -- all slots are held, and there is one
      have hheld : 0 < r.phases.countP JobPhase.holdsSlot := Nat.lt_of_lt_of_le h.workers hbusy
      obtain ⟨p, hp, hslot⟩ := List.countP_pos_iff.1 hheld
      exact h.exists_act_of_phase hp (by rintro rfl; cases hslot)
    · refine ⟨.advance, by simp, ?_⟩
      simp only [Run.act, Run.advance, hd, if_neg hbusy]
      split <;> rfl
  | closed =>
    have hunsettled : ∃ p ∈ r.phases, p.isSettled = false := by
      simpa [isOver, hd] using hover
    obtain ⟨p, hp, hunsettled⟩ := hunsettled
    exact h.exists_act_of_phase hp (by rintro rfl; cases hunsettled)

/-- A run can be brought to its end without cancelling it. -/
theorem Steady.exists_end (h : Steady jobs seen r) :
    ∃ as r', r.actAll as = some r' ∧ .cancel ∉ as ∧ r'.isOver = true := by
  induction hrest : r.rest using Nat.strong_induction_on generalizing r seen with
  | _ n ih =>
    cases hover : r.isOver with
    | true => exact ⟨[], r, rfl, List.not_mem_nil, hover⟩
    | false =>
      obtain ⟨a, ha, hact⟩ := h.exists_act hover
      obtain ⟨s, hact⟩ := Option.isSome_iff_exists.1 hact
      obtain ⟨as, r', hrun, hquiet, hend⟩ := ih s.rest (hrest ▸ h.rest_lt hact ha) (h.act hact) rfl
      refine ⟨a :: as, r', ?_, by simpa [Ne.symm ha] using hquiet, hend⟩
      rw [Run.actAll, List.foldlM_cons, hact]
      exact hrun

/-! ## Every order of actions -/

/-- Three steps, one of them twice: the first one completes, the second one runs out of time. -/
def unevenJobs : List Job :=
  [⟨"lint", .issues [{ description := "long line", severity := .low, category := .style }], {}⟩,
    ⟨"scan", .timedOut 5, {}⟩, ⟨"lint", .failed "again", {}⟩, ⟨"audit", .crashed "boom", {}⟩]

/-- The second executor is still running when the run is cancelled before its last step. -/
def unevenActions : List Action :=
  [.advance, .advance, .advance, .advance, .start 1, .start 0, .expire 1, .finish 0, .advance,
    .cancel, .settle 0, .advance]

/-- One executor after another, and cancelled before the last step as well. -/
def evenActions : List Action :=
  [.advance, .advance, .start 0, .finish 0, .settle 0, .advance, .advance, .start 1, .expire 1,
    .advance, .finish 1, .cancel, .advance]

end Run

end CodeReview
