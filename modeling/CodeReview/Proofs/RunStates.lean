import CodeReview.Proofs.Lookup
import CodeReview.Run.Clock

/-!
# States of a run

What every action of a run keeps.  The tracker finds a step by its place, and that is where the one
record of the step stands (`ProgressTracker.records_moveAt`).  The record of a step is told by the
phase of its job and by whether the run was cancelled, and dispatching has stopped at the first check
that saw the signal (`Steady`).  A run that is over therefore has a report that only depends on its
jobs and on that check (`Steady.report_eq`).
-/

namespace CodeReview

/-! ## Trackers -/

namespace ProgressTracker

variable {τ : Type} {t : ProgressTracker τ}

theorem nodup (t : ProgressTracker τ) : (t.records.map ProgressRecord.step).Nodup :=
  t.placed.nodup

theorem locate?_eq_some_iff {step : String} {i : Nat} {r : ProgressRecord τ} :
    t.locate? step = some (i, r) ↔ t.records[i]? = some r ∧ r.step = step := by
  simp only [locate?, Option.bind_eq_bind, Option.bind_eq_some_iff, Option.pure_def,
    Option.some.injEq, Prod.mk.injEq]
  constructor
  · rintro ⟨_, hplace, _, hr, rfl, rfl⟩
    obtain ⟨r', hr', hstep⟩ := t.placed.place_iff.1 hplace
    cases hr.symm.trans hr'
    exact ⟨hr, hstep⟩
  · rintro ⟨hr, hstep⟩
    exact ⟨i, t.placed.place_iff.2 ⟨r, hr, hstep⟩, r, hr, rfl, rfl⟩

theorem locate?_eq_none_iff {step : String} :
    t.locate? step = none ↔ ∀ r ∈ t.records, r.step ≠ step := by
  constructor
  · intro hnone r hr hstep
    obtain ⟨i, hi⟩ := List.getElem?_of_mem hr
    rw [locate?_eq_some_iff.2 ⟨hi, hstep⟩] at hnone
    cases hnone
  · intro hall
    refine Option.eq_none_iff_forall_not_mem.2 ?_
    rintro ⟨i, r⟩ hlocate
    obtain ⟨hr, hstep⟩ := locate?_eq_some_iff.1 hlocate
    exact hall r (List.mem_of_getElem? hr) hstep

/-- The record of a step is the first one that is of it, as no other is. -/
theorem find?_eq (t : ProgressTracker τ) (step : String) :
    t.find? step = t.records.find? fun r => r.step = step := by
  rw [← t.placed.find?_eq step, find?, locate?]
  cases t.places.find? step with
  | none => rfl
  | some i => cases hr : t.records[i]? <;> simp [hr]

theorem find?_of_mem {r : ProgressRecord τ} (h : r ∈ t.records) : t.find? r.step = some r := by
  obtain ⟨i, hi⟩ := List.getElem?_of_mem h
  rw [find?, locate?_eq_some_iff.2 ⟨hi, rfl⟩, Option.map_some]

/-- What moves the record at a place moves the one record of its step. -/
theorem records_moveAt {i : Nat} {r : ProgressRecord τ} (hi : t.records[i]? = some r)
    (next : StepStatus) (now : τ) (error : Option String) :
    (t.moveAt i next now error).records =
      t.records.map fun s => if s.step = r.step then s.moved next now error else s :=
  t.placed.modify_eq_map hi _

theorem move_of_mem {r : ProgressRecord τ} (h : r ∈ t.records) (next : StepStatus)
    (hmove : r.status.canMoveTo next = true) (now : τ) (error : Option String) :
    ∃ t', t.move r.step next now error = .ok t' ∧
      t'.records = t.records.map fun s => if s.step = r.step then s.moved next now error else s := by
  obtain ⟨i, hi⟩ := List.getElem?_of_mem h
  refine ⟨t.moveAt i next now error, ?_, records_moveAt hi next now error⟩
  rw [move, locate?_eq_some_iff.2 ⟨hi, rfl⟩]
  exact if_pos hmove

theorem records_track (t : ProgressTracker τ) (step : String) : (t.track step).records =
    if step ∈ t.records.map ProgressRecord.step then t.records else t.records ++ [.pending step] := by
  have hknown : t.places.contains step = true ↔ step ∈ t.records.map ProgressRecord.step :=
    t.placed.contains_iff
  unfold track
  split
  · next h => rw [if_pos (hknown.1 h)]
  · next h => rw [if_neg fun hmem => h (hknown.2 hmem)]

/-- Each step is tracked once, in the order of the first mention. -/
theorem records_ofSteps (steps : List String) :
    (ofSteps steps : ProgressTracker τ).records = (distinct steps).map ProgressRecord.pending := by
  have hsteps : ProgressRecord.step ∘ (ProgressRecord.pending : String → ProgressRecord τ) = id := rfl
  induction steps using List.reverseRecOn with
  | nil => rfl
  | append_singleton steps step ih =>
    rw [ofSteps, List.foldl_append]
    refine (records_track (ofSteps steps) step).trans ?_
    simp only [ih, List.map_map, hsteps, List.map_id, mem_distinct]
    rw [distinct_concat, apply_ite (List.map ProgressRecord.pending), List.map_append,
      List.map_singleton]

theorem canMoveTo_skipped {s : StepStatus} : s.canMoveTo .skipped = true ↔ s = .pending := by
  cases s <;> decide

end ProgressTracker

/-! ## Skipping -/

namespace Run

/-- A record after the given steps were skipped: it only changes if it is pending. -/
def leftOut (steps : List String) (p : ProgressRecord Unit) : ProgressRecord Unit :=
  if p.step ∈ steps ∧ p.status = .pending then ProgressRecord.moved p .skipped () none else p

theorem leftOut_of_none {steps : List String} {ps : List (ProgressRecord Unit)}
    (h : ∀ p ∈ ps, p.step ∈ steps → p.status ≠ .pending) : ps.map (leftOut steps) = ps := by
  have hsame : ∀ p ∈ ps, leftOut steps p = id p := by
    intro p hp
    exact if_neg fun hleft => h p hp hleft.1 hleft.2
  rw [List.map_congr_left hsame, List.map_id]

/-- Skipping a step touches the tracker and the telemetry only. -/
theorem skip_eq (r : Run) (j : Job) :
    ∃ tracker telemetry, r.skip j = { r with tracker := tracker, telemetry := telemetry } ∧
      tracker.records = r.tracker.records.map (leftOut [j.step]) := by
  by_cases hpending : ∃ p ∈ r.tracker.records, p.step = j.step ∧ p.status = .pending
  · obtain ⟨p, hp, hstep, hstatus⟩ := hpending
    obtain ⟨tracker, hmove, hrecords⟩ := ProgressTracker.move_of_mem hp .skipped
      (ProgressTracker.canMoveTo_skipped.2 hstatus) () none
    rw [hstep] at hmove hrecords
    refine ⟨tracker, r.telemetry.count .stepsSkipped, ?_, hrecords.trans ?_⟩
    · unfold skip ProgressTracker.skip
      rw [hmove]
    · refine List.map_congr_left ?_
      intro s hs
      by_cases hother : s.step = j.step
      · -- the record of the step is the pending one
        have hsame := List.inj_on_of_nodup_map r.tracker.nodup hs hp (hother.trans hstep.symm)
        rw [leftOut, if_pos hother, if_pos ⟨List.mem_singleton.2 hother, hsame ▸ hstatus⟩]
      · rw [leftOut, if_neg hother, if_neg fun hleft => hother (List.mem_singleton.1 hleft.1)]
  · refine ⟨r.tracker, r.telemetry, ?_, (leftOut_of_none ?_).symm⟩
    · unfold skip ProgressTracker.skip ProgressTracker.move
      cases hlocate : r.tracker.locate? j.step with
      | none => rfl
      | some found =>
        obtain ⟨i, p⟩ := found
        obtain ⟨hi, hstep⟩ := ProgressTracker.locate?_eq_some_iff.1 hlocate
        have hp := List.mem_of_getElem? hi
        have hstatus : p.status.canMoveTo .skipped ≠ true :=
          fun hmove => hpending ⟨p, hp, hstep, ProgressTracker.canMoveTo_skipped.1 hmove⟩
        simp only [hstatus, Bool.false_eq_true, if_false]
    · intro p hp hstep hstatus
      exact hpending ⟨p, hp, List.mem_singleton.1 hstep, hstatus⟩

theorem leftOut_leftOut (steps : List String) (step : String) (p : ProgressRecord Unit) :
    leftOut steps (leftOut [step] p) = leftOut (step :: steps) p := by
  by_cases hstep : p.step = step
  · by_cases hstatus : p.status = .pending
    · simp [leftOut, hstep, hstatus, ProgressRecord.moved]
    · simp [leftOut, hstatus]
  · simp [leftOut, hstep]

theorem foldl_skip_eq (js : List Job) (r : Run) :
    ∃ tracker telemetry, js.foldl skip r = { r with tracker := tracker, telemetry := telemetry } ∧
      tracker.records = r.tracker.records.map (leftOut (js.map Job.step)) := by
  induction js generalizing r with
  | nil => exact ⟨r.tracker, r.telemetry, rfl, (leftOut_of_none fun _ _ h => by cases h).symm⟩
  | cons j js ih =>
    obtain ⟨first, telemetry, hskip, hfirst⟩ := r.skip_eq j
    obtain ⟨tracker, telemetry', hrest, hrecords⟩ := ih (r.skip j)
    rw [hskip] at hrest hrecords
    refine ⟨tracker, telemetry', ?_, ?_⟩
    · rw [List.foldl_cons, hskip, hrest]
    · rw [hrecords, hfirst, List.map_map]
      exact List.map_congr_left fun p _ => leftOut_leftOut (js.map Job.step) j.step p

/-- Skipping what is left closes the run. -/
theorem skipRest_eq (r : Run) :
    ∃ tracker telemetry, r.skipRest = { r with
        tracker := tracker, telemetry := telemetry, dispatch := .closed, cancelled := true } ∧
      tracker.records =
        r.tracker.records.map (leftOut ((r.jobs.drop r.phases.length).map Job.step)) := by
  obtain ⟨tracker, telemetry, hskip, hrecords⟩ := foldl_skip_eq (r.jobs.drop r.phases.length) r
  refine ⟨tracker, telemetry, ?_, hrecords⟩
  unfold skipRest
  rw [hskip]

end Run

/-! ## Records and phases -/

/-- A record of a step in progress after the result of its job. -/
def Job.closed (j : Job) (s : ProgressRecord Unit) : ProgressRecord Unit :=
  match j.result with
  | .ok _ => ProgressRecord.moved s .completed () none
  | .error e => ProgressRecord.moved s .failed () (some e.message)

/-- The record of a job that was settled. -/
def Job.ended (j : Job) : ProgressRecord Unit :=
  j.closed ⟨j.step, .inProgress, some (), none, none⟩

/-- The record of a job that was left out. -/
def Job.skipped (j : Job) : ProgressRecord Unit :=
  ⟨j.step, .skipped, none, some (), none⟩

/-- The record of a job in a phase, or of one that is not dispatched. -/
def Job.recordAt (j : Job) (cancelled : Bool) : Option JobPhase → ProgressRecord Unit
  | none => if cancelled then j.skipped else .pending j.step
  | some .dispatched => .pending j.step
  | some .running | some .returned => ⟨j.step, .inProgress, some (), none, none⟩
  | some .overdue | some .settled => j.ended

@[simp] theorem Job.step_ended (j : Job) : j.ended.step = j.step := by
  unfold Job.ended Job.closed
  split <;> rfl

@[simp] theorem Job.step_recordAt (j : Job) (cancelled : Bool) (phase : Option JobPhase) :
    (j.recordAt cancelled phase).step = j.step := by
  cases phase with
  | none => cases cancelled <;> rfl
  | some phase => cases phase <;> simp [recordAt, ProgressRecord.pending]

namespace Run

/-- The dispatch check that an action makes: the place of the job that it is made for. -/
def checks? (r : Run) : Action → Option Nat
  | .advance =>
    match r.dispatch with
    | .looking => if r.phases.length < r.jobs.length then some r.phases.length else none
    | .waiting => if r.busy < r.workers then some r.phases.length else none
    | .closed => none
  | _ => none

/-- The place of the job of the first dispatch check that sees the signal. -/
def firstSeen : Run → List Action → Option Nat
  | _, [] => none
  | r, a :: as =>
    ((r.checks? a).filter fun _ => r.signal).or ((r.act a).bind fun r => r.firstSeen as)

/-- What holds in every state of a run over distinct jobs, given the check that has seen the signal. -/
structure Steady (jobs : List Job) (seen : Option Nat) (r : Run) : Prop where
  jobs_eq : r.jobs = jobs
  distinct : (jobs.map Job.step).Nodup
  workers : 0 < r.workers
  room : r.phases.length ≤ jobs.length
  records : ∀ i : Nat, r.tracker.records[i]? =
    jobs[i]?.map fun j : Job => j.recordAt r.cancelled r.phases[i]?
  /-- No check has seen the signal yet. -/
  unseen : seen = none → r.cancelled = false ∧
    (r.dispatch = .waiting → r.phases.length < jobs.length) ∧
    (r.dispatch = .closed → r.phases.length = jobs.length)
  seen : ∀ k : Nat, seen = some k → r.cancelled = true ∧ r.dispatch = .closed ∧ r.phases.length = k ∧
    k < jobs.length

variable {jobs : List Job} {seen : Option Nat} {r : Run}

theorem Steady.record (h : Steady jobs seen r) {i : Nat} {j : Job} (hj : jobs[i]? = some j) :
    j.recordAt r.cancelled r.phases[i]? ∈ r.tracker.records := by
  have hrecord := h.records i
  rw [hj] at hrecord
  exact List.mem_of_getElem? hrecord

/-- What is in a phase is a job of the run. -/
theorem Steady.exists_job (h : Steady jobs seen r) {i : Nat} {p : JobPhase}
    (hp : r.phases[i]? = some p) : ∃ j ∈ jobs, r.jobs[i]? = some j := by
  have hi : i < r.phases.length := (List.getElem?_eq_some_iff.1 hp).1
  have hlt : i < jobs.length := Nat.lt_of_lt_of_le hi h.room
  rw [h.jobs_eq]
  exact ⟨jobs[i], List.getElem_mem hlt, List.getElem?_eq_getElem hlt⟩

/-- A job goes to another phase, and its record with it. -/
theorem Steady.setPhase (h : Steady jobs seen r) {i : Nat} {j : Job} {p p' : JobPhase}
    (hj : jobs[i]? = some j) (hp : r.phases[i]? = some p)
    {f : ProgressRecord Unit → ProgressRecord Unit} {tracker : ProgressTracker Unit}
    (htracker : tracker.records =
      r.tracker.records.map fun s => if s.step = j.step then f s else s)
    (hf : f (j.recordAt r.cancelled (some p)) = j.recordAt r.cancelled (some p'))
    (telemetry : Telemetry) :
    Steady jobs seen ({ r with tracker := tracker, telemetry := telemetry }.setPhase i p') := by
  have hlength : (r.phases.set i p').length = r.phases.length := List.length_set
  have hi : i < r.phases.length := (List.getElem?_eq_some_iff.1 hp).1
  refine ⟨h.jobs_eq, h.distinct, h.workers, ?_, ?_, ?_, ?_⟩
  · exact hlength.symm ▸ h.room
  · intro k
    change tracker.records[k]? = jobs[k]?.map fun j => j.recordAt r.cancelled (r.phases.set i p')[k]?
    rw [htracker, List.getElem?_map, h.records k]
    by_cases hk : k = i
    · subst hk
      rw [hj, List.getElem?_set_self hi, hp]
      simp [hf]
    · rw [List.getElem?_set_ne (Ne.symm hk)]
      cases hjk : jobs[k]? with
      | none => rfl
      | some jk =>
        -- another job has another step
        have hother : jk.step ≠ j.step := by
          intro hsame
          have hk' : k < (jobs.map Job.step).length := by
            rw [List.length_map]
            exact (List.getElem?_eq_some_iff.1 hjk).1
          have heq : (jobs.map Job.step)[k]? = (jobs.map Job.step)[i]? := by
            rw [List.getElem?_map, List.getElem?_map, hjk, hj, Option.map_some, Option.map_some,
              hsame]
          exact hk ((List.getElem?_inj hk' h.distinct).1 heq)
        simp [hother]
  · intro hnone
    obtain ⟨hcancelled, hwaiting, hclosed⟩ := h.unseen hnone
    exact ⟨hcancelled, fun hd => hlength.symm ▸ hwaiting hd, fun hd => hlength.trans (hclosed hd)⟩
  · intro k hk
    obtain ⟨hcancelled, hclosed, hphases, hlt⟩ := h.seen k hk
    exact ⟨hcancelled, hclosed, hlength.trans hphases, hlt⟩

theorem Steady.setPhase_only (h : Steady jobs seen r) {i : Nat} {j : Job} {p p' : JobPhase}
    (hj : jobs[i]? = some j) (hp : r.phases[i]? = some p)
    (hsame : j.recordAt r.cancelled (some p) = j.recordAt r.cancelled (some p')) :
    Steady jobs seen (r.setPhase i p') := by
  refine h.setPhase (f := id) hj hp ?_ hsame r.telemetry
  simp

/-- The start of a dispatched job is never refused. -/
theorem Steady.start_eq (h : Steady jobs seen r) {i : Nat} {j : Job} (hj : jobs[i]? = some j)
    (hp : r.phases[i]? = some .dispatched) :
    ∃ tracker, r.tracker.start j.step () = .ok tracker ∧ tracker.records =
      r.tracker.records.map fun s => if s.step = j.step then s.moved .inProgress () none else s := by
  have hmem := h.record hj
  rw [hp] at hmem
  exact ProgressTracker.move_of_mem hmem .inProgress rfl () none

theorem Steady.noteStart (h : Steady jobs seen r) {i : Nat} {j : Job} (hj : jobs[i]? = some j)
    (hp : r.phases[i]? = some .dispatched) :
    Steady jobs seen ((r.noteStart j).setPhase i .running) := by
  obtain ⟨tracker, hstart, hrecords⟩ := h.start_eq hj hp
  rw [Run.noteStart, hstart]
  exact h.setPhase hj hp hrecords rfl r.telemetry

/-- Noting touches the tracker and the telemetry only. -/
theorem noteStart_frame (r : Run) (j : Job) :
    ∃ tracker telemetry, r.noteStart j = { r with tracker := tracker, telemetry := telemetry } := by
  unfold noteStart
  split <;> exact ⟨_, _, rfl⟩

theorem noteResult_frame (r : Run) (j : Job) :
    ∃ tracker telemetry,
      r.noteResult j = { r with tracker := tracker, telemetry := telemetry } := by
  unfold noteResult
  split <;> exact ⟨_, _, rfl⟩

/-- The result of a step in progress ends its record. -/
theorem noteResult_eq (r : Run) (j : Job)
    (h : (⟨j.step, .inProgress, some (), none, none⟩ : ProgressRecord Unit) ∈ r.tracker.records) :
    ∃ tracker telemetry, r.noteResult j = { r with tracker := tracker, telemetry := telemetry } ∧
      tracker.records = r.tracker.records.map fun s => if s.step = j.step then j.closed s else s := by
  unfold noteResult Job.closed
  cases j.result with
  | ok issues =>
    obtain ⟨tracker, hmove, hrecords⟩ := ProgressTracker.move_of_mem h .completed rfl () none
    refine ⟨_, _, rfl, ?_⟩
    unfold ProgressTracker.complete
    exact (congrArg (fun t => (Except.toOption t |>.getD r.tracker).records) hmove).trans hrecords
  | error e =>
    obtain ⟨tracker, hmove, hrecords⟩ :=
      ProgressTracker.move_of_mem h .failed rfl () (some e.message)
    refine ⟨_, _, rfl, ?_⟩
    unfold ProgressTracker.fail
    exact (congrArg (fun t => (Except.toOption t |>.getD r.tracker).records) hmove).trans hrecords

/-- Settling a job whose executor has started ends its record. -/
theorem Steady.noteResult (h : Steady jobs seen r) {i : Nat} {j : Job} {p p' : JobPhase}
    (hj : jobs[i]? = some j) (hp : r.phases[i]? = some p)
    (hbefore : j.recordAt r.cancelled (some p) = ⟨j.step, .inProgress, some (), none, none⟩)
    (hafter : j.recordAt r.cancelled (some p') = j.ended) :
    Steady jobs seen ((r.noteResult j).setPhase i p') := by
  have hmem := h.record hj
  rw [hp, hbefore] at hmem
  obtain ⟨tracker, telemetry, hnote, hrecords⟩ := r.noteResult_eq j hmem
  rw [hnote]
  refine h.setPhase hj hp hrecords ?_ telemetry
  rw [hbefore, hafter, Job.ended]

/-! ## Turns -/

/-- What an action does to a run, with the conditions on which it is possible. -/
inductive Turn (r : Run) : Action → Run → Prop
  | cancel : Turn r .cancel { r with signal := true }
  | close (hd : r.dispatch = .looking) (hfull : r.jobs.length ≤ r.phases.length) :
      Turn r .advance { r with dispatch := .closed }
  | wait (hd : r.dispatch = .looking) (hleft : r.phases.length < r.jobs.length)
      (hsignal : r.signal = false) : Turn r .advance { r with dispatch := .waiting }
  | dispatch (hd : r.dispatch = .waiting) (hfree : r.busy < r.workers)
      (hsignal : r.signal = false) :
      Turn r .advance { r with dispatch := .looking, phases := r.phases ++ [.dispatched] }
  | leaveLooking (hd : r.dispatch = .looking) (hleft : r.phases.length < r.jobs.length)
      (hsignal : r.signal = true) : Turn r .advance r.skipRest
  | leaveWaiting (hd : r.dispatch = .waiting) (hfree : r.busy < r.workers)
      (hsignal : r.signal = true) : Turn r .advance r.skipRest
  | start {i : Nat} {j : Job} (hj : r.jobs[i]? = some j) (hp : r.phases[i]? = some .dispatched) :
      Turn r (.start i) ((r.noteStart j).setPhase i .running)
  | finish {i : Nat} {j : Job} (hj : r.jobs[i]? = some j) (hp : r.phases[i]? = some .running)
      (hin : j.runsOut = false) : Turn r (.finish i) (r.setPhase i .returned)
  | finishLate {i : Nat} {j : Job} (hj : r.jobs[i]? = some j)
      (hp : r.phases[i]? = some .overdue) : Turn r (.finish i) (r.setPhase i .settled)
  | settle {i : Nat} {j : Job} (hj : r.jobs[i]? = some j) (hp : r.phases[i]? = some .returned) :
      Turn r (.settle i) ((r.noteResult j).setPhase i .settled)
  | expire {i : Nat} {j : Job} (hj : r.jobs[i]? = some j) (hp : r.phases[i]? = some .running)
      (hout : j.runsOut = true) : Turn r (.expire i) ((r.noteResult j).setPhase i .overdue)

theorem turn_advance {r' : Run} (h : r.advance = some r') : Turn r .advance r' := by
  unfold advance at h
  cases hd : r.dispatch with
  | closed =>
    rw [hd] at h
    cases h
  | looking =>
    simp only [hd] at h
    by_cases hfull : r.jobs.length ≤ r.phases.length
    · rw [if_pos hfull] at h
      cases h
      exact .close hd hfull
    · rw [if_neg hfull] at h
      by_cases hsignal : r.signal = true
      · rw [if_pos hsignal] at h
        cases h
        exact .leaveLooking hd (Nat.lt_of_not_le hfull) hsignal
      · rw [if_neg hsignal] at h
        cases h
        exact .wait hd (Nat.lt_of_not_le hfull) (Bool.eq_false_iff.2 hsignal)
  | waiting =>
    simp only [hd] at h
    by_cases hbusy : r.workers ≤ r.busy
    · rw [if_pos hbusy] at h
      cases h
    · rw [if_neg hbusy] at h
      by_cases hsignal : r.signal = true
      · rw [if_pos hsignal] at h
        cases h
        exact .leaveWaiting hd (Nat.lt_of_not_le hbusy) hsignal
      · rw [if_neg hsignal] at h
        cases h
        exact .dispatch hd (Nat.lt_of_not_le hbusy) (Bool.eq_false_iff.2 hsignal)

theorem turn_of_act {a : Action} {r' : Run} (h : r.act a = some r') : Turn r a r' := by
  cases a with
  | advance => exact turn_advance h
  | start i =>
    change r.start i = some r' at h
    unfold start at h
    split at h
    · next hj hp => cases h; exact .start hj hp
    · cases h
  | finish i =>
    change r.finish i = some r' at h
    unfold finish at h
    split at h
    · next j hj hp =>
      cases hout : j.runsOut with
      | true => simp [hout] at h
      | false =>
        simp only [hout, Bool.false_eq_true, if_false, Option.some.injEq] at h
        subst h
        exact .finish hj hp hout
    · next hj hp => cases h; exact .finishLate hj hp
    · cases h
  | settle i =>
    change r.settle i = some r' at h
    unfold settle at h
    split at h
    · next hj hp => cases h; exact .settle hj hp
    · cases h
  | expire i =>
    change r.expire i = some r' at h
    unfold expire at h
    split at h
    · next j hj hp =>
      cases hout : j.runsOut with
      | true =>
        simp only [hout, if_true, Option.some.injEq] at h
        subst h
        exact .expire hj hp hout
      | false => simp [hout] at h
    · cases h
  | cancel =>
    cases h
    exact .cancel

/-! ## What every turn keeps -/

/-- The record of a dispatched job does not tell whether the run was cancelled. -/
theorem recordAt_some (j : Job) (c c' : Bool) (p : JobPhase) :
    j.recordAt c (some p) = j.recordAt c' (some p) := by
  cases p <;> rfl

theorem Steady.dispatch (h : Steady jobs none r) (hlt : r.phases.length < jobs.length) :
    Steady jobs none { r with dispatch := .looking, phases := r.phases ++ [.dispatched] } := by
  refine ⟨h.jobs_eq, h.distinct, h.workers, ?_, ?_, ?_, nofun⟩
  · have hone : (r.phases ++ [JobPhase.dispatched]).length = r.phases.length + 1 := by simp
    exact hone ▸ hlt
  · intro i
    change r.tracker.records[i]? = jobs[i]?.map fun j =>
      j.recordAt r.cancelled (r.phases ++ [JobPhase.dispatched])[i]?
    rw [h.records i, (h.unseen rfl).1]
    by_cases hi : i = r.phases.length
    · -- a job that is dispatched stays pending
      subst hi
      simp [Job.recordAt]
    · by_cases hbefore : i < r.phases.length
      · rw [List.getElem?_append_left hbefore]
      · have hafter : (r.phases ++ [JobPhase.dispatched]).length ≤ i := by
          rw [List.length_append, List.length_singleton]
          omega
        rw [List.getElem?_eq_none (Nat.le_of_not_lt hbefore), List.getElem?_eq_none hafter]
  · intro _
    exact ⟨(h.unseen rfl).1, nofun, nofun⟩

theorem Steady.skipRest (h : Steady jobs none r) (hlt : r.phases.length < jobs.length) :
    Steady jobs (some r.phases.length) r.skipRest := by
  obtain ⟨tracker, telemetry, hskip, hrecords⟩ := r.skipRest_eq
  rw [hskip]
  refine ⟨h.jobs_eq, h.distinct, h.workers, h.room, ?_, nofun, ?_⟩
  · intro i
    change tracker.records[i]? = jobs[i]?.map fun j => j.recordAt true r.phases[i]?
    rw [hrecords, List.getElem?_map, h.records i, Option.map_map, h.jobs_eq, (h.unseen rfl).1]
    cases hj : jobs[i]? with
    | none => rfl
    | some j =>
      simp only [Option.map_some, Function.comp]
      congr 1
      by_cases hi : i < r.phases.length
      · -- a dispatched job is not among the dropped ones
        have hkept : j.step ∉ (jobs.drop r.phases.length).map Job.step := by
          rw [List.map_drop]
          refine List.disjoint_take_drop h.distinct (Nat.le_refl _) ?_
          have htake : ((jobs.map Job.step).take r.phases.length)[i]? = some j.step := by
            rw [List.getElem?_take_of_lt hi, List.getElem?_map, hj]
            rfl
          exact List.mem_of_getElem? htake
        rw [leftOut, if_neg fun hleft => hkept (by simpa using hleft.1),
          List.getElem?_eq_getElem hi, recordAt_some j false true]
      · have hdropped : j.step ∈ (jobs.drop r.phases.length).map Job.step := by
          have hdrop : (jobs.drop r.phases.length)[i - r.phases.length]? = some j := by
            rw [List.getElem?_drop, Nat.add_sub_cancel' (Nat.le_of_not_lt hi), hj]
          exact List.mem_map_of_mem (List.mem_of_getElem? hdrop)
        rw [List.getElem?_eq_none (Nat.le_of_not_lt hi), leftOut, if_pos ⟨by simpa using hdropped, rfl⟩]
        rfl
  · intro k hk
    cases hk
    exact ⟨rfl, rfl, rfl, hlt⟩

/-- While dispatching is not closed, no check has seen the signal. -/
theorem Steady.eq_none (h : Steady jobs seen r) (hd : r.dispatch ≠ .closed) : seen = none := by
  cases seen with
  | none => rfl
  | some k => exact absurd (h.seen k rfl).2.1 hd

/-- While dispatching goes on no check has seen the signal before, and this one is made if there is a
job left. -/
theorem Steady.advance (h : Steady jobs none r) {r' : Run} (hact : r.advance = some r') :
    Steady jobs ((r.checks? .advance).filter fun _ => r.signal) r' := by
  obtain ⟨hcancelled, hwaiting, -⟩ := h.unseen rfl
  cases turn_advance hact with
  | close hd hfull =>
    rw [h.jobs_eq] at hfull
    have hnone : r.checks? .advance = none := by
      simp [checks?, hd, h.jobs_eq, hfull]
    rw [hnone]
    refine ⟨h.jobs_eq, h.distinct, h.workers, h.room, h.records, ?_, nofun⟩
    intro _
    exact ⟨hcancelled, nofun, fun _ => Nat.le_antisymm h.room hfull⟩
  | wait hd hleft hsignal =>
    have hnone : (r.checks? .advance).filter (fun _ => r.signal) = none := by
      simp [hsignal]
    rw [hnone]
    refine ⟨h.jobs_eq, h.distinct, h.workers, h.room, h.records, ?_, nofun⟩
    intro _
    exact ⟨hcancelled, fun _ => h.jobs_eq ▸ hleft, nofun⟩
  | dispatch hd hfree hsignal =>
    have hnone : (r.checks? .advance).filter (fun _ => r.signal) = none := by
      simp [hsignal]
    rw [hnone]
    exact h.dispatch (hwaiting hd)
  | leaveLooking hd hleft hsignal =>
    have hseen : (r.checks? .advance).filter (fun _ => r.signal) = some r.phases.length := by
      simp [checks?, hd, hleft, hsignal]
    rw [hseen]
    exact h.skipRest (h.jobs_eq ▸ hleft)
  | leaveWaiting hd hfree hsignal =>
    have hseen : (r.checks? .advance).filter (fun _ => r.signal) = some r.phases.length := by
      simp [checks?, hd, hfree, hsignal]
    rw [hseen]
    exact h.skipRest (hwaiting hd)

theorem Steady.unchecked {a : Action} {r' : Run} (h : Steady jobs seen r')
    (hnone : r.checks? a = none) :
    Steady jobs (seen.or ((r.checks? a).filter fun _ => r.signal)) r' := by
  rw [hnone, Option.filter_none, Option.or_none]
  exact h

/-- Every action keeps a run steady, with what its check has seen. -/
theorem Steady.act {a : Action} {r' : Run} (h : Steady jobs seen r) (hact : r.act a = some r') :
    Steady jobs (seen.or ((r.checks? a).filter fun _ => r.signal)) r' := by
  have hj : ∀ {i : Nat} {j : Job}, r.jobs[i]? = some j → jobs[i]? = some j :=
    fun hjob => h.jobs_eq ▸ hjob
  cases a with
  | advance =>
    have hd : r.dispatch ≠ .closed := by
      intro hclosed
      simp [Run.act, Run.advance, hclosed] at hact
    have hnone := h.eq_none hd
    subst hnone
    rw [Option.none_or]
    exact h.advance hact
  | cancel =>
    cases hact
    refine Steady.unchecked ?_ rfl
    exact ⟨h.jobs_eq, h.distinct, h.workers, h.room, h.records, h.unseen, h.seen⟩
  | start i =>
    refine Steady.unchecked ?_ rfl
    cases turn_of_act hact with
    | start hjob hp => exact h.noteStart (hj hjob) hp
  | finish i =>
    refine Steady.unchecked ?_ rfl
    cases turn_of_act hact with
    | finish hjob hp hin => exact h.setPhase_only (hj hjob) hp rfl
    | finishLate hjob hp => exact h.setPhase_only (hj hjob) hp rfl
  | settle i =>
    refine Steady.unchecked ?_ rfl
    cases turn_of_act hact with
    | settle hjob hp => exact h.noteResult (hj hjob) hp rfl rfl
  | expire i =>
    refine Steady.unchecked ?_ rfl
    cases turn_of_act hact with
    | expire hjob hp hout => exact h.noteResult (hj hjob) hp rfl rfl

/-- A whole run keeps steady, with the first check that has seen the signal. -/
theorem Steady.actAll {as : List Action} {r' : Run} (h : Steady jobs seen r)
    (hrun : r.actAll as = some r') : Steady jobs (seen.or (r.firstSeen as)) r' := by
  induction as generalizing r seen with
  | nil =>
    cases hrun
    rw [firstSeen, Option.or_none]
    exact h
  | cons a as ih =>
    obtain ⟨s, hact, hrest⟩ := Option.bind_eq_some_iff.1 hrun
    have hs := ih (h.act hact) hrest
    rw [firstSeen, hact, Option.bind_some, ← Option.or_assoc]
    exact hs

/-! ## The beginning and the end -/

theorem steady_begin (workers : Nat) (signal : Bool) (telemetry : Telemetry) (jobs : List Job) :
    Steady (distinctBy Job.step jobs) none (Run.begin workers signal telemetry jobs) := by
  have hdistinct := nodup_map_distinctBy Job.step jobs
  refine ⟨rfl, hdistinct, Nat.le_max_right workers 1, Nat.zero_le _, ?_, ?_, nofun⟩
  · intro i
    change (ProgressTracker.ofSteps ((distinctBy Job.step jobs).map Job.step)).records[i]? =
      (distinctBy Job.step jobs)[i]?.map fun j => j.recordAt false none
    rw [ProgressTracker.records_ofSteps, distinct_eq_self hdistinct, List.map_map, List.getElem?_map]
    rfl
  · intro _
    exact ⟨rfl, nofun, nofun⟩

/-- The report of a run over distinct jobs that is over, given the check that has seen the signal. -/
def reportOf (jobs : List Job) (seen : Option Nat) : RunReport where
  issues := (jobs.take (seen.getD jobs.length)).flatMap issuesOf
  progress := (jobs.take (seen.getD jobs.length)).map Job.ended ++
    (jobs.drop (seen.getD jobs.length)).map Job.skipped
  failures := (jobs.take (seen.getD jobs.length)).filterMap failureOf?
  cancelled := seen.isSome

theorem over_iff : r.isOver = true ↔
    r.dispatch = .closed ∧ ∀ p ∈ r.phases, p.isSettled = true := by
  simp [isOver]

theorem Steady.cancelled_eq (h : Steady jobs seen r) : r.cancelled = seen.isSome := by
  cases hseen : seen with
  | none => exact (h.unseen hseen).1
  | some k => exact (h.seen k hseen).1

/-- When dispatching is closed, the jobs before the check that has seen the signal are dispatched. -/
theorem Steady.cut_eq (h : Steady jobs seen r) (hclosed : r.dispatch = .closed) :
    seen.getD jobs.length = r.phases.length := by
  cases hseen : seen with
  | none => exact ((h.unseen hseen).2.2 hclosed).symm
  | some k => exact (h.seen k hseen).2.2.1.symm

theorem Steady.settledJobs_eq (h : Steady jobs seen r)
    (hsettled : ∀ p ∈ r.phases, p.isSettled = true) :
    r.settledJobs = jobs.take r.phases.length := by
  have hall : ∀ p ∈ r.jobs.zip r.phases, p.2.isSettled = true :=
    fun p hp => hsettled p.2 (List.of_mem_zip hp).2
  rw [settledJobs, List.filter_eq_self.2 hall, h.jobs_eq, List.zip_eq_zip_take_min,
    Nat.min_eq_right h.room, List.take_length]
  exact List.map_fst_zip (List.length_take_le _ _)

theorem recordAt_of_settled (j : Job) (cancelled : Bool) {p : JobPhase}
    (hp : p.isSettled = true) : j.recordAt cancelled (some p) = j.ended := by
  cases p with
  | overdue => rfl
  | settled => rfl
  | _ => cases hp

theorem Steady.records_eq (h : Steady jobs seen r) (hclosed : r.dispatch = .closed)
    (hsettled : ∀ p ∈ r.phases, p.isSettled = true) :
    r.tracker.records =
      (jobs.take r.phases.length).map Job.ended ++ (jobs.drop r.phases.length).map Job.skipped := by
  have hlen : ((jobs.take r.phases.length).map Job.ended).length = r.phases.length := by
    rw [List.length_map, List.length_take, Nat.min_eq_left h.room]
  refine List.ext_getElem? ?_
  intro i
  rw [h.records i]
  by_cases hi : i < r.phases.length
  · have hended : ∀ j : Job, j.recordAt r.cancelled (some r.phases[i]) = j.ended :=
      fun j => recordAt_of_settled j r.cancelled (hsettled _ (List.getElem_mem hi))
    rw [List.getElem?_append_left (hlen.symm ▸ hi), List.getElem?_map, List.getElem?_take_of_lt hi,
      List.getElem?_eq_getElem hi]
    simp only [hended]
  · have hge : r.phases.length ≤ i := Nat.le_of_not_lt hi
    rw [List.getElem?_append_right (hlen.symm ▸ hge), hlen, List.getElem?_map,
      List.getElem?_drop, Nat.add_sub_cancel' hge, List.getElem?_eq_none hge, h.cancelled_eq]
    cases hseen : seen with
    | some k => rfl
    | none =>
      -- all jobs are dispatched
      have hall := (h.unseen hseen).2.2 hclosed
      rw [List.getElem?_eq_none (hall ▸ hge)]
      rfl

theorem Steady.report_eq (h : Steady jobs seen r) (hover : r.isOver = true) :
    r.report = reportOf jobs seen := by
  obtain ⟨hclosed, hsettled⟩ := over_iff.1 hover
  unfold report reportOf
  rw [h.cut_eq hclosed, h.settledJobs_eq hsettled, h.records_eq hclosed hsettled, h.cancelled_eq]

end Run

end CodeReview
