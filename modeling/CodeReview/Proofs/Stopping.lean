import CodeReview.Proofs.RunReports

/-!
# Stopping a run

With one worker slot the executors of a run take turns: only the job that was dispatched last may hold
the slot (`OneSlot`).  So when the executor of a job cancels the run, no job waits to be started, and
from then on none is dispatched (`Halted`).  The run comes to its end with the jobs up to that one
(`StopsAt`), whatever becomes of its executor.
-/

namespace CodeReview

/-- The report of a run over jobs, of which those from a place on were left out if one is given. -/
def RunReport.cutAt (jobs : List Job) (cut : Option Nat) : RunReport :=
  Run.reportOf (distinctBy Job.step jobs)
    (cut.filter fun k => k < (distinctBy Job.step jobs).length)

/-- A quantity that every action makes rise by one, fall by one or stay has risen along a list of
actions as often as it has not fallen again. -/
theorem level_foldlM {ρ α : Type} {act : ρ → α → Option ρ} {as : List α} {s s' : ρ}
    (hrun : as.foldlM act s = some s') (level : ρ → Nat) (rises falls : α → Bool)
    (hact : ∀ {s s' : ρ} {a : α}, act s a = some s' →
      level s' + (if falls a then 1 else 0) = level s + if rises a then 1 else 0) :
    level s' + as.countP falls = level s + as.countP rises := by
  induction as generalizing s with
  | nil =>
    cases hrun
    rfl
  | cons a as ih =>
    obtain ⟨t, hfirst, hrest⟩ := Option.bind_eq_some_iff.1 hrun
    have hstep := hact hfirst
    have hothers := ih hrest
    rw [List.countP_cons, List.countP_cons]
    omega

namespace Run

variable {jobs : List Job} {seen : Option Nat} {r r' : Run} {a : Action}

/-! ## Phases -/

/-- What an action does to the phases: nothing, or a job more is dispatched, or a job goes to another
phase, which is a start or not. -/
inductive Shift (r : Run) (a : Action) (r' : Run) : Prop
  | none (ha : ∀ i, a ≠ .start i) (hphases : r'.phases = r.phases)
  | more (ha : ∀ i, a ≠ .start i) (hfree : r.busy < r.workers) (hsignal : r.signal = false)
      (hphases : r'.phases = r.phases ++ [.dispatched])
  | started {i : Nat} (ha : a = .start i) (hp : r.phases[i]? = some .dispatched)
      (hphases : r'.phases = r.phases.set i .running)
  | moved {i : Nat} {p : JobPhase} (p' : JobPhase) (ha : ∀ i, a ≠ .start i)
      (hp : r.phases[i]? = some p) (hold : p ≠ .dispatched) (hnew : p' ≠ .dispatched)
      (hslot : p'.holdsSlot = true → p.holdsSlot = true) (hphases : r'.phases = r.phases.set i p')

theorem phases_skipRest (r : Run) : r.skipRest.phases = r.phases := by
  obtain ⟨tracker, telemetry, hskip, -⟩ := r.skipRest_eq
  rw [hskip]

theorem phases_noteStart (r : Run) (j : Job) : (r.noteStart j).phases = r.phases := by
  obtain ⟨tracker, telemetry, hnote⟩ := r.noteStart_frame j
  rw [hnote]

theorem phases_noteResult (r : Run) (j : Job) : (r.noteResult j).phases = r.phases := by
  obtain ⟨tracker, telemetry, hnote⟩ := r.noteResult_frame j
  rw [hnote]

theorem Turn.shift (h : Turn r a r') : Shift r a r' := by
  cases h with
  | cancel => exact .none nofun rfl
  | close hd hfull => exact .none nofun rfl
  | wait hd hleft hsignal => exact .none nofun rfl
  | dispatch hd hfree hsignal => exact .more nofun hfree hsignal rfl
  | leaveLooking hd hleft hsignal => exact .none nofun r.phases_skipRest
  | leaveWaiting hd hfree hsignal => exact .none nofun r.phases_skipRest
  | start hj hp => exact .started rfl hp (congrArg (List.set · _ _) (r.phases_noteStart _))
  | finish hj hp hin =>
    exact .moved .returned nofun hp (by decide) (by decide) (by decide) rfl
  | finishLate hj hp =>
    exact .moved .settled nofun hp (by decide) (by decide) (by decide) rfl
  | settle hj hp =>
    refine .moved .settled nofun hp (by decide) (by decide) (by decide) ?_
    exact congrArg (List.set · _ _) (r.phases_noteResult _)
  | expire hj hp hout =>
    refine .moved .overdue nofun hp (by decide) (by decide) (by decide) ?_
    exact congrArg (List.set · _ _) (r.phases_noteResult _)

/-- Nothing but cancelling touches the signal, and nothing touches the number of workers. -/
theorem Turn.frame (h : Turn r a r') :
    r'.workers = r.workers ∧ r'.signal = (r.signal || decide (a = .cancel)) := by
  have hskip : r.skipRest.workers = r.workers ∧ r.skipRest.signal = r.signal := by
    obtain ⟨tracker, telemetry, hskip, -⟩ := r.skipRest_eq
    rw [hskip]
    exact ⟨rfl, rfl⟩
  have hstart : ∀ j, (r.noteStart j).workers = r.workers ∧ (r.noteStart j).signal = r.signal := by
    intro j
    obtain ⟨tracker, telemetry, hnote⟩ := r.noteStart_frame j
    rw [hnote]
    exact ⟨rfl, rfl⟩
  have hresult : ∀ j, (r.noteResult j).workers = r.workers ∧
      (r.noteResult j).signal = r.signal := by
    intro j
    obtain ⟨tracker, telemetry, hnote⟩ := r.noteResult_frame j
    rw [hnote]
    exact ⟨rfl, rfl⟩
  cases h with
  | leaveLooking => simpa using hskip
  | leaveWaiting => simpa using hskip
  | start => simpa [setPhase] using hstart _
  | settle => simpa [setPhase] using hresult _
  | expire => simpa [setPhase] using hresult _
  | _ => simp [setPhase]

/-- What every turn keeps holds after a whole run. -/
theorem invariant_actAll {P : Run → Prop}
    (hturn : ∀ {s s' : Run} {a : Action}, Turn s a s' → P s → P s') {as : List Action} (h : P r)
    (hrun : r.actAll as = some r') : P r' := by
  induction as generalizing r with
  | nil =>
    cases hrun
    exact h
  | cons a as ih =>
    obtain ⟨s, hact, hrest⟩ := Option.bind_eq_some_iff.1 hrun
    exact ih (hturn (turn_of_act hact) h) hrest

/-! ## Starts -/

/-- How often the executor of a job was started. -/
def started (r : Run) (i : Nat) : Nat :=
  if r.phases[i]?.any (· ≠ .dispatched) then 1 else 0

theorem Turn.started (h : Turn r a r') (i : Nat) :
    r'.started i = r.started i + if a = .start i then 1 else 0 := by
  have hlt : ∀ {k : Nat} {p : JobPhase}, r.phases[k]? = some p → k < r.phases.length :=
    fun hp => (List.getElem?_eq_some_iff.1 hp).1
  cases h.shift with
  | none ha hphases => rw [if_neg (ha i), Run.started, hphases]; rfl
  | more ha hfree hsignal hphases =>
    rw [if_neg (ha i), Run.started, Run.started, hphases, Nat.add_zero]
    by_cases hi : i < r.phases.length
    · rw [List.getElem?_append_left hi]
    · -- the new job is only dispatched
      have hge : r.phases.length ≤ i := Nat.le_of_not_lt hi
      rw [List.getElem?_append_right hge, List.getElem?_eq_none hge]
      cases i - r.phases.length with
      | zero => rfl
      | succ k => rfl
  | @started k ha hp hphases =>
    rw [Run.started, Run.started, hphases, ha]
    by_cases hk : k = i
    · subst hk
      simp [List.getElem?_set_self (hlt hp), hp]
    · simp [List.getElem?_set_ne hk, hk]
  | @moved k p p' ha hp hold hnew hslot hphases =>
    rw [if_neg (ha i), Run.started, Run.started, hphases, Nat.add_zero]
    by_cases hk : k = i
    · subst hk
      simp [List.getElem?_set_self (hlt hp), hp, hold, hnew]
    · rw [List.getElem?_set_ne hk]

theorem started_of_quiet (hquiet : JobPhase.dispatched ∉ r.phases) (i : Nat) :
    r.started i = if i < r.phases.length then 1 else 0 := by
  unfold started
  by_cases hi : i < r.phases.length
  · have hstarted : r.phases[i] ≠ .dispatched := by
      intro hp
      exact hquiet (hp ▸ List.getElem_mem hi)
    simp [hi, hstarted]
  · simp [hi]

theorem not_dispatched_of_isOver (hover : r.isOver = true) : JobPhase.dispatched ∉ r.phases := by
  intro hmem
  cases (over_iff.1 hover).2 _ hmem

theorem started_actAll {as : List Action} (hrun : r.actAll as = some r') (i : Nat) :
    r'.started i = r.started i + as.count (.start i) := by
  have hcount := level_foldlM hrun (·.started i) (· == .start i) (fun _ => false)
    fun hact => by simpa using (turn_of_act hact).started i
  rwa [List.countP_false] at hcount

/-! ## One slot -/

/-- With one worker, only the job that was dispatched last may hold the slot. -/
structure OneSlot (r : Run) : Prop where
  workers : r.workers = 1
  last : ∀ (i : Nat) (p : JobPhase), r.phases[i]? = some p → p.holdsSlot = true →
    i + 1 = r.phases.length

theorem Turn.oneSlot (h : Turn r a r') (hr : OneSlot r) : OneSlot r' := by
  refine ⟨h.frame.1.trans hr.workers, ?_⟩
  -- a job that goes to another phase does not come to hold the slot
  have hset : ∀ {k : Nat} {p p' : JobPhase}, r.phases[k]? = some p →
      (p'.holdsSlot = true → p.holdsSlot = true) → r'.phases = r.phases.set k p' →
      ∀ (i : Nat) (q : JobPhase), r'.phases[i]? = some q → q.holdsSlot = true →
        i + 1 = r'.phases.length := by
    intro k p p' hp hslot hphases i q hq hheld
    rw [hphases, List.length_set]
    rw [hphases, List.getElem?_set] at hq
    split at hq
    · next hk =>
      split at hq
      · cases hq
        exact hk ▸ hr.last k p hp (hslot hheld)
      · cases hq
    · exact hr.last i q hq hheld
  cases h.shift with
  | none ha hphases => rw [hphases]; exact hr.last
  | more ha hfree hsignal hphases =>
    have hidle : r.phases.countP JobPhase.holdsSlot = 0 := by
      rw [hr.workers] at hfree
      exact Nat.lt_one_iff.1 hfree
    intro i p hp hheld
    rw [hphases, List.length_append, List.length_singleton]
    rw [hphases] at hp
    by_cases hi : i < r.phases.length
    · rw [List.getElem?_append_left hi] at hp
      exact absurd hheld (List.countP_eq_zero.1 hidle p (List.mem_of_getElem? hp))
    · have hlen := (List.getElem?_eq_some_iff.1 hp).1
      rw [List.length_append, List.length_singleton] at hlen
      omega
  | started ha hp hphases => exact hset hp (fun _ => rfl) hphases
  | moved p' ha hp hold hnew hslot hphases => exact hset hp hslot hphases

theorem oneSlot_begin {workers : Nat} (hone : workers ≤ 1) (signal : Bool) (telemetry : Telemetry)
    (jobs : List Job) : OneSlot (Run.begin workers signal telemetry jobs) :=
  ⟨Nat.max_eq_right hone, nofun⟩

/-! ## Halted runs -/

/-- A run that is cancelled and in which no job waits to be started. -/
structure Halted (r : Run) : Prop where
  signal : r.signal = true
  quiet : JobPhase.dispatched ∉ r.phases

/-- No executor is started in a halted run, and no job is dispatched. -/
theorem Turn.halted (h : Turn r a r') (hr : Halted r) :
    Halted r' ∧ r'.phases.length = r.phases.length ∧ ∀ i, a ≠ .start i := by
  have hsignal : r'.signal = true := by rw [h.frame.2, hr.signal]; rfl
  cases h.shift with
  | none ha hphases => exact ⟨⟨hsignal, hphases ▸ hr.quiet⟩, by rw [hphases], ha⟩
  | more ha hfree hunseen hphases =>
    rw [hr.signal] at hunseen
    cases hunseen
  | started ha hp hphases => exact absurd (List.mem_of_getElem? hp) hr.quiet
  | moved p' ha hp hold hnew hslot hphases =>
    refine ⟨⟨hsignal, ?_⟩, by rw [hphases, List.length_set], ha⟩
    rw [hphases]
    intro hmem
    rcases List.mem_or_eq_of_mem_set hmem with hmem | heq
    · exact hr.quiet hmem
    · exact hnew heq.symm

/-- Cancelling while the executor of a job has the only slot halts a run at that job. -/
theorem OneSlot.halted (h : OneSlot r) {k : Nat} {p : JobPhase} (hp : r.phases[k]? = some p)
    (hexecutes : p.executes = true) :
    Halted { r with signal := true } ∧ r.phases.length = k + 1 := by
  have hheld : p.holdsSlot = true := by cases p <;> first | rfl | cases hexecutes
  have hlength := h.last k p hp hheld
  refine ⟨⟨rfl, ?_⟩, hlength.symm⟩
  intro hmem
  obtain ⟨i, hi⟩ := List.mem_iff_getElem?.1 hmem
  have hsame : i = k := Nat.succ.inj ((h.last i .dispatched hi rfl).trans hlength.symm)
  rw [hsame, hp] at hi
  cases hi
  cases hexecutes

/-! ## Reports of runs that were stopped -/

/-- A run that is over has the report of its jobs, cut where dispatching stopped. -/
theorem Steady.report_cutAt (h : Steady (distinctBy Job.step jobs) seen r)
    (hover : r.isOver = true) : r.report = .cutAt jobs (some r.phases.length) := by
  have hcut := h.cut_eq (over_iff.1 hover).1
  rw [h.report_eq hover, RunReport.cutAt]
  cases seen with
  | none =>
    rw [← hcut, Option.filter_some]
    simp
  | some k =>
    obtain ⟨-, -, hlength, hlt⟩ := h.seen k rfl
    rw [hlength, Option.filter_some]
    simp [hlt]

theorem accounts_cutAt {cut : Nat} (hcut : cut ≤ (distinctBy Job.step jobs).length) :
    (RunReport.cutAt jobs (some cut)).Accounts jobs cut := by
  have hseen : ∀ k : Nat, (some cut).filter (fun k => k < (distinctBy Job.step jobs).length) =
      some k → k < (distinctBy Job.step jobs).length := by
    intro k hk
    simpa using (Option.filter_eq_some_iff.1 hk).2
  have haccounts := accounts_reportOf hseen
  have hget : ((some cut).filter fun k => k < (distinctBy Job.step jobs).length).getD
      (distinctBy Job.step jobs).length = cut := by
    rw [Option.filter_some]
    by_cases hlt : cut < (distinctBy Job.step jobs).length
    · simp [hlt]
    · simp only [hlt, decide_false, Bool.false_eq_true, if_false, Option.getD_none]
      omega
  rwa [hget] at haccounts

theorem cancelled_cutAt (jobs : List Job) (cut : Nat) :
    (RunReport.cutAt jobs (some cut)).cancelled = true ↔
      cut < (distinctBy Job.step jobs).length := by
  change ((some cut).filter fun k => k < (distinctBy Job.step jobs).length).isSome = true ↔ _
  rw [Option.filter_some]
  by_cases hlt : cut < (distinctBy Job.step jobs).length
  · simp [hlt]
  · simp [hlt]

theorem cancelled_cutAt_zero (jobs : List Job) :
    (RunReport.cutAt jobs (some 0)).cancelled = true ↔ jobs ≠ [] := by
  rw [cancelled_cutAt]
  cases jobs <;> simp [distinctBy]

/-- What becomes of a run over jobs that is stopped at the job at a place, after all its actions: it
comes to its end, where exactly the executors up to that place have run, each with its own outcome,
and the later jobs are skipped; it counts as cancelled if there are any. -/
structure StopsAt (jobs : List Job) (k : Nat) (as : List Action) (r : Run) : Prop where
  bounded : as.countP (fun a => a ≠ .cancel) ≤ 5 * (distinctBy Job.step jobs).length + 1
  goesOn : r.isOver = false → ∃ a, a ≠ .cancel ∧ (r.act a).isSome = true
  starts : r.isOver = true → ∀ i, as.count (.start i) = if i ≤ k then 1 else 0
  report : r.isOver = true → r.report = .cutAt jobs (some (k + 1))
  accounts : r.isOver = true → r.report.Accounts jobs (k + 1)
  cancelled : r.isOver = true →
    (r.report.cancelled = true ↔ k + 1 < (distinctBy Job.step jobs).length)

theorem stopsAt_of_cancel {workers : Nat} (hone : workers ≤ 1) {signal : Bool}
    {telemetry : Telemetry} {before after : List Action} {k : Nat} {s : Run}
    (hbefore : (Run.begin workers signal telemetry jobs).actAll before = some s)
    (hexecutes : s.phases[k]?.any JobPhase.executes = true)
    (hafter : s.actAll (.cancel :: after) = some r) :
    StopsAt jobs k (before ++ .cancel :: after) r := by
  have hrun : (Run.begin workers signal telemetry jobs).actAll (before ++ .cancel :: after) =
      some r := by
    unfold actAll at hbefore hafter ⊢
    rw [List.foldlM_append, hbefore]
    exact hafter
  obtain ⟨p, hp, hexecutes⟩ := (Option.any_eq_true _ _).1 hexecutes
  have hslot : OneSlot s :=
    invariant_actAll Turn.oneSlot (oneSlot_begin hone signal telemetry jobs) hbefore
  obtain ⟨hhalted, hlast⟩ := hslot.halted hp hexecutes
  have hrest : Run.actAll { s with signal := true } after = some r := hafter
  have hkept : ∀ {t t' : Run} {a : Action}, Turn t a t' →
      Halted t ∧ t.phases.length = k + 1 → Halted t' ∧ t'.phases.length = k + 1 := by
    intro t t' a hturn ht
    obtain ⟨ht', hsame, -⟩ := hturn.halted ht.1
    exact ⟨ht', hsame.trans ht.2⟩
  have hlength : r.phases.length = k + 1 :=
    (invariant_actAll hkept ⟨hhalted, hlast⟩ hrest).2
  have hbegin := steady_begin workers signal telemetry jobs
  have hsteady := hbegin.actAll hrun
  have hroom := hsteady.room
  rw [hlength] at hroom
  have hreport : r.isOver = true → r.report = .cutAt jobs (some (k + 1)) := by
    intro hover
    rw [hsteady.report_cutAt hover, hlength]
  refine ⟨?_, hsteady.exists_act, ?_, hreport, ?_, ?_⟩
  · have hcount := hbegin.countP_add_rest_le hrun
    rw [rest_begin] at hcount
    omega
  · intro hover i
    have hstarted := started_actAll hrun i
    rw [started_of_quiet (not_dispatched_of_isOver hover), hlength] at hstarted
    simp only [Nat.lt_succ_iff] at hstarted
    rw [hstarted]
    exact (Nat.zero_add _).symm
  · intro hover
    rw [hreport hover]
    exact accounts_cutAt hroom
  · intro hover
    rw [hreport hover]
    exact cancelled_cutAt jobs (k + 1)

end Run

end CodeReview
