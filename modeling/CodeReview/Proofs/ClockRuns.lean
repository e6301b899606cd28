import CodeReview.Proofs.Agendas
import CodeReview.Proofs.RunReports
import CodeReview.Run.Review

/-!
# Runs by the clock come to their end

When every executor returns at some time, a clock takes a run to its end (`Clock.drive_isOver`), so a
review of a content has a report that accounts for every step.  The agenda holds exactly the
appointments of the executors that run (`Clock.Tuned`); therefore what it puts next is possible, and
something is on it as long as the run waits for an executor.
-/

namespace CodeReview

/-! ## What is owed -/

/-- How many appointments for an action a job in a phase has, as the job at a place. -/
def JobPhase.owes (p : JobPhase) (i : Nat) (j : Job) (a : Action) : Nat :=
  (if .finish i = a ∧ p.executes = true then 1 else 0) +
    if .expire i = a ∧ p = .running ∧ j.runsOut = true then 1 else 0

namespace Run

/-- How many appointments for an action other than cancelling a run has. -/
def owed (r : Run) : Action → Nat
  | .finish i => if r.phases[i]?.any JobPhase.executes = true then 1 else 0
  | .expire i =>
    if r.phases[i]? = some .running ∧ r.jobs[i]?.any Job.runsOut = true then 1 else 0
  | _ => 0

variable {r r' : Run} {i : Nat} {j : Job} {a : Action}

theorem executes_of_owed (h : 0 < r.owed (.finish i)) :
    ∃ p, r.phases[i]? = some p ∧ p.executes = true := by
  simp only [owed] at h
  split at h
  · next hany => exact (Option.any_eq_true _ _).1 hany
  · exact absurd h (Nat.lt_irrefl 0)

theorem running_of_owed (h : 0 < r.owed (.expire i)) :
    r.phases[i]? = some .running ∧ ∃ j, r.jobs[i]? = some j ∧ j.runsOut = true := by
  simp only [owed] at h
  split at h
  · next hany => exact ⟨hany.1, (Option.any_eq_true _ _).1 hany.2⟩
  · exact absurd h (Nat.lt_irrefl 0)

theorem owed_setPhase {p : JobPhase} (p' : JobPhase) (hj : r.jobs[i]? = some j)
    (hp : r.phases[i]? = some p) (a : Action) :
    (r.setPhase i p').owed a + p.owes i j a = r.owed a + p'.owes i j a := by
  have hi : i < r.phases.length := (List.getElem?_eq_some_iff.1 hp).1
  have hphases : ∀ k, (r.setPhase i p').phases[k]? = if i = k then some p' else r.phases[k]? := by
    intro k
    simp [setPhase, List.getElem?_set, hi]
  have hjobs : (r.setPhase i p').jobs = r.jobs := rfl
  cases a with
  | finish k =>
    by_cases hk : i = k
    · subst hk
      simp [owed, JobPhase.owes, hphases, hp]
      omega
    · simp [owed, JobPhase.owes, hphases, hk]
  | expire k =>
    by_cases hk : i = k
    · subst hk
      simp [owed, JobPhase.owes, hphases, hp, hjobs, hj]
      omega
    · simp [owed, JobPhase.owes, hphases, hk, hjobs]
  | _ => simp [owed, JobPhase.owes]

theorem owed_dispatch (hjobs : r'.jobs = r.jobs)
    (hdispatched : r'.phases = r.phases ++ [.dispatched]) (a : Action) : r'.owed a = r.owed a := by
  have hphases : ∀ k : Nat, (r.phases ++ [JobPhase.dispatched])[k]? = r.phases[k]? ∨
      r.phases[k]? = none ∧ (r.phases ++ [JobPhase.dispatched])[k]? = some .dispatched := by
    intro k
    rw [List.getElem?_append]
    by_cases hk : k < r.phases.length
    · simp [hk]
    · by_cases hk' : k = r.phases.length
      · simp [hk']
      · have hafter : 1 ≤ k - r.phases.length := by omega
        simp [hk, List.getElem?_eq_none, hafter]
  cases a with
  | finish k =>
    obtain hsame | ⟨hnone, hsome⟩ := hphases k
    · simp only [owed, hdispatched, hsame]
    · simp [owed, hdispatched, hnone, hsome, JobPhase.executes]
  | expire k =>
    obtain hsame | ⟨hnone, hsome⟩ := hphases k
    · simp only [owed, hdispatched, hjobs, hsame]
    · simp [owed, hdispatched, hnone, hsome]
  | _ => rfl

theorem owed_advance (h : r.act .advance = some r') (a : Action) : r'.owed a = r.owed a := by
  cases turn_of_act h with
  | close hd hfull => rfl
  | wait hd hleft hsignal => rfl
  | dispatch hd hfree hsignal => refine owed_dispatch ?_ ?_ a <;> rfl
  | leaveLooking hd hleft hsignal =>
    obtain ⟨tracker, telemetry, hskip, -⟩ := r.skipRest_eq
    rw [hskip]
    rfl
  | leaveWaiting hd hfree hsignal =>
    obtain ⟨tracker, telemetry, hskip, -⟩ := r.skipRest_eq
    rw [hskip]
    rfl

theorem owed_noteStart (r : Run) (j : Job) (i : Nat) (p : JobPhase) (a : Action) :
    ((r.noteStart j).setPhase i p).owed a = (r.setPhase i p).owed a := by
  obtain ⟨tracker, telemetry, hnote⟩ := r.noteStart_frame j
  rw [hnote]
  rfl

theorem owed_noteResult (r : Run) (j : Job) (i : Nat) (p : JobPhase) (a : Action) :
    ((r.noteResult j).setPhase i p).owed a = (r.setPhase i p).owed a := by
  obtain ⟨tracker, telemetry, hnote⟩ := r.noteResult_frame j
  rw [hnote]
  rfl

theorem owed_settle (h : r.act (.settle i) = some r') (a : Action) : r'.owed a = r.owed a := by
  cases turn_of_act h with
  | settle hj hp =>
    have howed := owed_setPhase .settled hj hp a
    rw [owed_noteResult]
    simpa [JobPhase.owes, JobPhase.executes] using howed

theorem owed_start (hj : r.jobs[i]? = some j) (h : r.act (.start i) = some r') (a : Action) :
    r'.owed a = r.owed a +
      ((if .finish i = a then 1 else 0) + if .expire i = a ∧ j.runsOut = true then 1 else 0) := by
  cases turn_of_act h with
  | start hj' hp =>
    obtain rfl := Option.some.inj (hj.symm.trans hj')
    have howed := owed_setPhase .running hj hp a
    rw [owed_noteStart]
    simpa [JobPhase.owes, JobPhase.executes] using howed

/-- What is done is no longer owed. -/
theorem owed_finish (h : r.act (.finish i) = some r') (a : Action) :
    r'.owed a + (if .finish i = a then 1 else 0) = r.owed a := by
  cases turn_of_act h with
  | finish hj hp hin =>
    have howed := owed_setPhase .returned hj hp a
    simpa [JobPhase.owes, JobPhase.executes, hin] using howed
  | finishLate hj hp =>
    have howed := owed_setPhase .settled hj hp a
    simpa [JobPhase.owes, JobPhase.executes] using howed

theorem owed_expire (h : r.act (.expire i) = some r') (a : Action) :
    r'.owed a + (if .expire i = a then 1 else 0) = r.owed a := by
  cases turn_of_act h with
  | expire hj hp hout =>
    have howed := owed_setPhase .overdue hj hp a
    simp only [JobPhase.owes, JobPhase.executes, hout, and_true, reduceCtorEq,
      and_false, if_false, Nat.add_zero] at howed
    rw [owed_noteResult]
    omega

/-! ## Cancelling to come -/

/-- How often the executors of jobs that have not started will cancel. -/
def cancelsLeft : List Job → List JobPhase → Nat
  | [], _ => 0
  | j :: js, [] => j.pace.cancels.length + cancelsLeft js []
  | j :: js, p :: ps =>
    (if p = .dispatched then j.pace.cancels.length else 0) + cancelsLeft js ps

theorem cancelsLeft_set {js : List Job} {ps : List JobPhase} {p : JobPhase} (p' : JobPhase)
    (hj : js[i]? = some j) (hp : ps[i]? = some p) :
    cancelsLeft js (ps.set i p') + (if p = .dispatched then j.pace.cancels.length else 0) =
      cancelsLeft js ps + if p' = .dispatched then j.pace.cancels.length else 0 := by
  induction js generalizing ps i with
  | nil => cases hj
  | cons j' js ih =>
    cases ps with
    | nil => cases hp
    | cons q ps =>
      cases i with
      | zero =>
        cases hj
        cases hp
        simp only [List.set_cons_zero, cancelsLeft]
        omega
      | succ i =>
        have hrest := ih hj hp
        simp only [List.set_cons_succ, cancelsLeft]
        omega

theorem cancelsLeft_dispatch (js : List Job) (ps : List JobPhase) :
    cancelsLeft js (ps ++ [.dispatched]) = cancelsLeft js ps := by
  induction js generalizing ps with
  | nil => rfl
  | cons j js ih =>
    cases ps with
    | nil =>
      cases js <;> simp [cancelsLeft]
    | cons p ps =>
      rw [List.cons_append, cancelsLeft, cancelsLeft, ih]

/-- Only starting makes appointments for cancelling. -/
theorem cancelsLeft_act (h : r.act a = some r') (ha : ∀ i, a ≠ .start i) :
    cancelsLeft r'.jobs r'.phases = cancelsLeft r.jobs r.phases := by
  cases turn_of_act h with
  | cancel => rfl
  | close hd hfull => rfl
  | wait hd hleft hsignal => rfl
  | dispatch hd hfree hsignal => exact cancelsLeft_dispatch r.jobs r.phases
  | leaveLooking hd hleft hsignal =>
    obtain ⟨tracker, telemetry, hskip, -⟩ := r.skipRest_eq
    rw [hskip]
  | leaveWaiting hd hfree hsignal =>
    obtain ⟨tracker, telemetry, hskip, -⟩ := r.skipRest_eq
    rw [hskip]
  | start hj hp => exact absurd rfl (ha _)
  | finish hj hp hin => exact cancelsLeft_set .returned hj hp
  | finishLate hj hp => exact cancelsLeft_set .settled hj hp
  | @settle i j hj hp =>
    obtain ⟨tracker, telemetry, hnote⟩ := r.noteResult_frame j
    rw [hnote]
    exact cancelsLeft_set .settled hj hp
  | @expire i j hj hp hout =>
    obtain ⟨tracker, telemetry, hnote⟩ := r.noteResult_frame j
    rw [hnote]
    exact cancelsLeft_set .overdue hj hp

theorem cancelsLeft_start (hj : r.jobs[i]? = some j) (h : r.act (.start i) = some r') :
    cancelsLeft r'.jobs r'.phases + j.pace.cancels.length = cancelsLeft r.jobs r.phases := by
  cases turn_of_act h with
  | start hj' hp =>
    obtain rfl := Option.some.inj (hj.symm.trans hj')
    obtain ⟨tracker, telemetry, hnote⟩ := r.noteStart_frame j
    rw [hnote]
    exact cancelsLeft_set .running hj hp

end Run

/-! ## The clock -/

namespace Clock

/-- The agenda holds the appointments of the executors that run, and running out of time comes before
returning. -/
structure Tuned (c : Clock) (r : Run) : Prop where
  owed : ∀ a, a ≠ .cancel → c.agenda.countP (fun x => x.action = a) = r.owed a
  due : ∀ x ∈ c.agenda, ∀ y ∈ c.agenda, ∀ i,
    x.action = .expire i → y.action = .finish i → x.before y = true

/-- How many actions a run still takes by a clock, at most. -/
def cost (c : Clock) (r : Run) : Nat :=
  r.rest + c.agenda.countP (fun x => x.action = .cancel) + Run.cancelsLeft r.jobs r.phases

variable {c c' : Clock} {r r' : Run} {jobs : List Job} {seen : Option Nat}

theorem Tuned.owed_pos (h : Tuned c r) {x : Appointment} (hx : x ∈ c.agenda) {a : Action}
    (hxa : x.action = a) (ha : a ≠ .cancel) : 0 < r.owed a := by
  rw [← h.owed a ha]
  exact List.countP_pos_iff.2 ⟨x, hx, by simpa using hxa⟩

theorem Tuned.exists_mem (h : Tuned c r) {a : Action} (ha : a ≠ .cancel) (howed : 0 < r.owed a) :
    ∃ x ∈ c.agenda, x.action = a := by
  rw [← h.owed a ha] at howed
  obtain ⟨x, hx, hxa⟩ := List.countP_pos_iff.1 howed
  exact ⟨x, hx, by simpa using hxa⟩

/-- Doing what was taken from the agenda keeps the clock tuned. -/
theorem Tuned.take (h : Tuned c r) {x : Appointment} {rest : List Appointment}
    (hperm : c.agenda.Perm (x :: rest)) (hrest : c'.agenda = rest)
    (howed : ∀ a, a ≠ .cancel → r'.owed a + (if x.action = a then 1 else 0) = r.owed a) :
    Tuned c' r' := by
  constructor
  · intro a ha
    have hcount := h.owed a ha
    have hdone := howed a ha
    rw [hperm.countP_eq, List.countP_cons] at hcount
    simp only [decide_eq_true_eq] at hcount
    rw [hrest]
    omega
  · intro y hy z hz
    have hin : ∀ w ∈ c'.agenda, w ∈ c.agenda := by
      intro w hw
      rw [hrest] at hw
      exact hperm.mem_iff.2 (List.mem_cons_of_mem x hw)
    exact h.due y (hin y hy) z (hin z hz)

/-- Who starts makes appointments. -/
theorem Tuned.start (h : Tuned c r) {i : Nat} {j : Job} (hj : r.jobs[i]? = some j)
    (hprompt : j.Prompt) (hp : r.phases[i]? = some .dispatched)
    (hact : r.act (.start i) = some r') : Tuned (c.starting r i) r' := by
  have hagenda : (c.starting r i).agenda = c.agenda ++ appointments c.now i j.pace := by
    rw [starting, hj]
  have hnone : ∀ x ∈ c.agenda, x.action ≠ .finish i ∧ x.action ≠ .expire i := by
    intro x hx
    constructor
    · intro hx'
      have hpos := h.owed_pos hx hx' (by simp)
      simp [Run.owed, hp, JobPhase.executes] at hpos
    · intro hx'
      have hpos := h.owed_pos hx hx' (by simp)
      simp [Run.owed, hp] at hpos
  constructor
  · intro a ha
    rw [hagenda, List.countP_append, h.owed a ha, countP_appointments hprompt ha,
      Run.owed_start hj hact]
  · intro x hx y hy k hexpire hfinish
    rw [hagenda] at hx hy
    obtain hx | hx := List.mem_append.1 hx
    · obtain hy | hy := List.mem_append.1 hy
      · exact h.due x hx y hy k hexpire hfinish
      · -- no one else has an appointment with that name
        have hname := action_of_mem_appointments hy
        simp only [hfinish, reduceCtorEq, false_or, or_false, Action.finish.injEq] at hname
        exact absurd (hname ▸ hexpire) (hnone x hx).2
    · obtain hy | hy := List.mem_append.1 hy
      · have hname := action_of_mem_appointments hx
        simp only [hexpire, reduceCtorEq, false_or, Action.expire.injEq] at hname
        exact absurd (hname ▸ hfinish) (hnone y hy).1
      · exact before_of_appointments hprompt hx hy hexpire hfinish

/-- Who is to return next can: running out of time would have come first. -/
theorem Tuned.exists_finish (h : Tuned c r) (hsteady : Run.Steady jobs seen r) {x : Appointment}
    {rest : List Appointment} (hperm : c.agenda.Perm (x :: rest))
    (hfirst : ∀ y ∈ rest, ¬ y.before x = true) {i : Nat} (hx : x.action = .finish i) :
    ∃ r', r.act (.finish i) = some r' := by
  have hmem : x ∈ c.agenda := hperm.mem_iff.2 List.mem_cons_self
  obtain ⟨p, hp, hexecutes⟩ := Run.executes_of_owed (h.owed_pos hmem hx (by simp))
  obtain ⟨j, -, hj⟩ := hsteady.exists_job hp
  cases p with
  | running =>
    cases hout : j.runsOut with
    | false => exact ⟨r.setPhase i .returned, by simp [Run.act, Run.finish, hj, hp, hout]⟩
    | true =>
      have howed : 0 < r.owed (.expire i) := by simp [Run.owed, hp, hj, hout]
      obtain ⟨y, hy, hya⟩ := h.exists_mem (by simp) howed
      have hbefore := h.due y hy x hmem i hya hx
      obtain rfl | hrest := List.mem_cons.1 (hperm.mem_iff.1 hy)
      · rw [hx] at hya
        cases hya
      · exact absurd hbefore (hfirst y hrest)
  | overdue => exact ⟨r.setPhase i .settled, by simp [Run.act, Run.finish, hj, hp]⟩
  | _ => cases hexecutes

/-- What a tuned clock takes from its agenda is possible. -/
theorem Tuned.act_take (h : Tuned c r) (hsteady : Run.Steady jobs seen r) {x : Appointment}
    {rest : List Appointment} (htake : takeEarliest c.agenda = some (x, rest))
    (hrest : c'.agenda = rest) : ∃ r', r.act x.action = some r' ∧ Tuned c' r' := by
  obtain ⟨hperm, hfirst⟩ := takeEarliest_spec htake
  have hmem : x ∈ c.agenda := hperm.mem_iff.2 List.mem_cons_self
  cases hx : x.action with
  | cancel =>
    refine ⟨_, rfl, h.take hperm hrest ?_⟩
    intro a hne
    rw [hx, if_neg (Ne.symm hne)]
    rfl
  | finish i =>
    obtain ⟨r', hact⟩ := h.exists_finish hsteady hperm hfirst hx
    refine ⟨r', hact, h.take hperm hrest ?_⟩
    intro a _
    rw [hx]
    exact Run.owed_finish hact a
  | expire i =>
    obtain ⟨hp, j, hj, hout⟩ := Run.running_of_owed (h.owed_pos hmem hx (by simp))
    have hact : r.act (.expire i) = some ((r.noteResult j).setPhase i .overdue) := by
      simp [Run.act, Run.expire, hj, hp, hout]
    refine ⟨_, hact, h.take hperm hrest ?_⟩
    intro a _
    rw [hx]
    exact Run.owed_expire hact a
  | advance => exact absurd (h.owed_pos hmem hx (by simp)) (by simp [Run.owed])
  | start i => exact absurd (h.owed_pos hmem hx (by simp)) (by simp [Run.owed])
  | settle i => exact absurd (h.owed_pos hmem hx (by simp)) (by simp [Run.owed])

theorem Tuned.cost_take (h : Tuned c r) (hsteady : Run.Steady jobs seen r) {x : Appointment}
    {rest : List Appointment} (hperm : c.agenda.Perm (x :: rest)) (hrest : c'.agenda = rest)
    (hact : r.act x.action = some r') : cost c' r' < cost c r := by
  have hstart : ∀ i, x.action ≠ .start i := by
    intro i hx
    have hpos := h.owed_pos (hperm.mem_iff.2 List.mem_cons_self) hx (by simp)
    simp [Run.owed] at hpos
  have hcancels := Run.cancelsLeft_act hact hstart
  have hcount := hperm.countP_eq fun y => y.action = .cancel
  rw [List.countP_cons] at hcount
  simp only [cost, hcancels, hrest, hcount]
  by_cases hx : x.action = .cancel
  · rw [hx] at hact
    cases hact
    simp [hx, Run.rest]
  · have hless := hsteady.rest_lt hact hx
    omega

/-- The next action of a tuned clock is possible, and takes work off the run. -/
theorem Tuned.next (h : Tuned c r) (hsteady : Run.Steady jobs seen r)
    (hprompt : ∀ j ∈ jobs, j.Prompt) {a : Action} (hnext : c.next r = some (a, c')) :
    ∃ r', r.act a = some r' ∧ Tuned c' r' ∧ cost c' r' < cost c r := by
  obtain ⟨rfl, rfl, hadvance⟩ | ⟨i, rfl, rfl, hp⟩ | ⟨i, rfl, rfl, hp⟩ | ⟨x, rest, htake, rfl, hrest⟩ :=
    next_cases hnext
  · obtain ⟨r', hact⟩ := Option.isSome_iff_exists.1 hadvance
    have hless := hsteady.rest_lt (a := .advance) hact (by simp)
    have hcancels := Run.cancelsLeft_act (a := .advance) hact (by simp)
    refine ⟨r', hact, ⟨?_, h.due⟩, ?_⟩
    · intro a ha
      rw [h.owed a ha, Run.owed_advance hact]
    · simp only [cost, hcancels]
      omega
  · obtain ⟨j, hmem, hjob⟩ := hsteady.exists_job hp
    have hact : r.act (.start i) = some ((r.noteStart j).setPhase i .running) := by
      simp [Run.act, Run.start, hjob, hp]
    have hless := hsteady.rest_lt hact (by simp)
    have hcancels := Run.cancelsLeft_start hjob hact
    refine ⟨_, hact, h.start hjob (hprompt _ hmem) hp hact, ?_⟩
    simp only [cost, starting, hjob, List.countP_append, countP_cancel_appointments]
    omega
  · obtain ⟨j, -, hjob⟩ := hsteady.exists_job hp
    have hact : r.act (.settle i) = some ((r.noteResult j).setPhase i .settled) := by
      simp [Run.act, Run.settle, hjob, hp]
    have hless := hsteady.rest_lt hact (by simp)
    have hcancels := Run.cancelsLeft_act hact (by simp)
    refine ⟨_, hact, ⟨?_, h.due⟩, ?_⟩
    · intro a ha
      rw [h.owed a ha, Run.owed_settle hact]
    · simp only [cost, hcancels]
      omega
  · obtain ⟨r', hact, htuned⟩ := h.act_take hsteady htake hrest
    exact ⟨r', hact, htuned, h.cost_take hsteady (takeEarliest_spec htake).1 hrest hact⟩

/-- Something comes next as long as the run is not over. -/
theorem Tuned.next_isSome (h : Tuned c r) (hsteady : Run.Steady jobs seen r)
    (hover : r.isOver = false) : (c.next r).isSome = true := by
  cases hnext : c.next r with
  | some step => rfl
  | none =>
    obtain ⟨hadvance, hdispatched, hreturned, hagenda⟩ := next_eq_none hnext
    obtain ⟨a, ha, hact⟩ := hsteady.exists_act hover
    obtain ⟨r', hact⟩ := Option.isSome_iff_exists.1 hact
    -- whoever could go on would be on the agenda
    have hempty : ∀ b, b ≠ .cancel → ¬ 0 < r.owed b := by
      intro b hb howed
      obtain ⟨x, hx, -⟩ := h.exists_mem hb howed
      rw [hagenda] at hx
      cases hx
    cases a with
    | cancel => exact absurd rfl ha
    | advance =>
      rw [Run.act, hadvance] at hact
      cases hact
    | start i =>
      cases Run.turn_of_act hact with
      | start hj hp => exact absurd (List.mem_of_getElem? hp) hdispatched
    | settle i =>
      cases Run.turn_of_act hact with
      | settle hj hp => exact absurd (List.mem_of_getElem? hp) hreturned
    | finish i =>
      have howed := Run.owed_finish hact (.finish i)
      rw [if_pos rfl] at howed
      exact absurd (by omega) (hempty (.finish i) (by simp))
    | expire i =>
      have howed := Run.owed_expire hact (.expire i)
      rw [if_pos rfl] at howed
      exact absurd (by omega) (hempty (.expire i) (by simp))

/-- Nothing on the agenda cancels. -/
def Quiet (c : Clock) : Prop :=
  ∀ x ∈ c.agenda, x.action ≠ .cancel

/-- Only executors make appointments for cancelling. -/
theorem Quiet.next (h : c.Quiet) (hsteady : Run.Steady jobs seen r)
    (hcalm : ∀ j ∈ jobs, j.pace.cancels = []) {a : Action} (hnext : c.next r = some (a, c')) :
    a ≠ .cancel ∧ c'.Quiet := by
  obtain ⟨rfl, rfl, -⟩ | ⟨i, rfl, rfl, hp⟩ | ⟨i, rfl, rfl, -⟩ | ⟨x, rest, htake, rfl, hrest⟩ :=
    next_cases hnext
  · exact ⟨nofun, h⟩
  · obtain ⟨j, hmem, hjob⟩ := hsteady.exists_job hp
    refine ⟨nofun, ?_⟩
    intro x hx
    simp only [starting, hjob, List.mem_append] at hx
    rcases hx with hx | hx
    · exact h x hx
    · have hcount := countP_cancel_appointments c.now i j.pace
      rw [hcalm j hmem, List.length_nil, List.countP_eq_zero] at hcount
      simpa using hcount x hx
  · exact ⟨nofun, h⟩
  · have hperm := (takeEarliest_spec htake).1
    refine ⟨h x (hperm.mem_iff.2 List.mem_cons_self), ?_⟩
    intro y hy
    rw [hrest] at hy
    exact h y (hperm.mem_iff.2 (List.mem_cons_of_mem x hy))

/-- The clock takes the actions of a run in one of their orders, and cancels only when an executor
does. -/
theorem exists_actAll_driveFor {steps : Nat} (hdrive : driveFor steps c r = (c', r')) :
    ∃ as, r.actAll as = some r' ∧
      ∀ {jobs : List Job} {seen : Option Nat}, Run.Steady jobs seen r →
        (∀ j ∈ jobs, j.pace.cancels = []) → c.Quiet → .cancel ∉ as ∧ c'.Quiet := by
  induction steps generalizing c r with
  | zero =>
    cases hdrive
    exact ⟨[], rfl, fun _ _ hquiet => ⟨List.not_mem_nil, hquiet⟩⟩
  | succ steps ih =>
    unfold driveFor at hdrive
    split at hdrive
    · cases hdrive
      exact ⟨[], rfl, fun _ _ hquiet => ⟨List.not_mem_nil, hquiet⟩⟩
    · split at hdrive
      · cases hdrive
        exact ⟨[], rfl, fun _ _ hquiet => ⟨List.not_mem_nil, hquiet⟩⟩
      · next a d hnext =>
        split at hdrive
        · cases hdrive
          exact ⟨[], rfl, fun hsteady hcalm hquiet =>
            ⟨List.not_mem_nil, (hquiet.next hsteady hcalm hnext).2⟩⟩
        · next s hact =>
          obtain ⟨as, hrun, has⟩ := ih hdrive
          refine ⟨a :: as, ?_, ?_⟩
          · rw [Run.actAll, List.foldlM_cons, hact]
            exact hrun
          · intro jobs seen hsteady hcalm hquiet
            obtain ⟨hfirst, hd⟩ := hquiet.next hsteady hcalm hnext
            obtain ⟨hothers, hend⟩ := has (hsteady.act hact) hcalm hd
            exact ⟨by simpa [Ne.symm hfirst] using hothers, hend⟩

theorem exists_actAll_drive (c : Clock) (r : Run) : ∃ as, r.actAll as = some (c.drive r).2 := by
  obtain ⟨as, hrun, -⟩ := exists_actAll_driveFor (show driveFor (c.workLeft r) c r = c.drive r from rfl)
  exact ⟨as, hrun⟩

/-- A tuned clock takes a run to its end. -/
theorem Tuned.driveFor_isOver {steps : Nat} (h : Tuned c r) (hsteady : Run.Steady jobs seen r)
    (hprompt : ∀ j ∈ jobs, j.Prompt) (hsteps : cost c r ≤ steps) :
    (driveFor steps c r).2.isOver = true := by
  induction steps generalizing c r seen with
  | zero =>
    cases hover : r.isOver with
    | true => exact hover
    | false =>
      obtain ⟨⟨a, c'⟩, hnext⟩ := Option.isSome_iff_exists.1 (h.next_isSome hsteady hover)
      obtain ⟨r', -, -, hless⟩ := h.next hsteady hprompt hnext
      omega
  | succ steps ih =>
    cases hover : r.isOver with
    | true =>
      have hdone : driveFor (steps + 1) c r = (c, r) := by
        rw [driveFor, if_pos hover]
      rw [hdone]
      exact hover
    | false =>
      obtain ⟨⟨a, c'⟩, hnext⟩ := Option.isSome_iff_exists.1 (h.next_isSome hsteady hover)
      obtain ⟨r', hact, htuned, hless⟩ := h.next hsteady hprompt hnext
      have hdrive : driveFor (steps + 1) c r = driveFor steps c' r' := by
        simp only [driveFor, hover, Bool.false_eq_true, if_false, hnext, hact]
      rw [hdrive]
      exact ih htuned (hsteady.act hact) (by omega)

/-- Of cancelling alone, as it is left over from other runs, an agenda is tuned to a run that
begins. -/
theorem tuned_begin (hagenda : ∀ x ∈ c.agenda, x.action = .cancel) (workers : Nat) (signal : Bool)
    (telemetry : Telemetry) (jobs : List Job) :
    Tuned c (Run.begin workers signal telemetry jobs) := by
  constructor
  · intro a ha
    have howed : (Run.begin workers signal telemetry jobs).owed a = 0 := by
      cases a <;> rfl
    rw [howed, List.countP_eq_zero]
    intro x hx
    simpa [hagenda x hx] using Ne.symm ha
  · intro x hx y _ i hexpire
    rw [hagenda x hx] at hexpire
    cases hexpire

theorem cancelsLeft_le (js : List Job) :
    5 * js.length + Run.cancelsLeft js [] ≤
      js.foldr (fun j n => 6 + j.pace.cancels.length + n) 0 := by
  induction js with
  | nil => exact Nat.le_refl 0
  | cons j js ih =>
    simp only [List.length_cons, Run.cancelsLeft, List.foldr_cons]
    omega

/-- The clock allows for as many actions as a run can take. -/
theorem cost_begin_le (c : Clock) (workers : Nat) (signal : Bool) (telemetry : Telemetry)
    (jobs : List Job) :
    cost c (Run.begin workers signal telemetry jobs) ≤
      c.workLeft (Run.begin workers signal telemetry jobs) := by
  have hcancels : c.agenda.countP (fun x => x.action = .cancel) ≤ c.agenda.length :=
    List.countP_le_length
  have hjobs := cancelsLeft_le (distinctBy Job.step jobs)
  unfold cost workLeft
  rw [Run.rest_begin]
  change _ + Run.cancelsLeft (distinctBy Job.step jobs) [] ≤
    _ + (distinctBy Job.step jobs).foldr _ 0
  omega

/-- When no executor cancels, the clock takes the actions of a run without cancelling it. -/
theorem Quiet.exists_actAll_drive (h : c.Quiet) {jobs : List Job}
    (hcalm : ∀ j ∈ jobs, j.pace.cancels = []) (workers : Nat) (signal : Bool)
    (telemetry : Telemetry) :
    ∃ as, (Run.begin workers signal telemetry jobs).actAll as =
        some (c.drive (Run.begin workers signal telemetry jobs)).2 ∧
      .cancel ∉ as ∧ (c.drive (Run.begin workers signal telemetry jobs)).1.carryOver.agenda = [] := by
  obtain ⟨as, hrun, hquiet⟩ := exists_actAll_driveFor
    (show driveFor (c.workLeft (Run.begin workers signal telemetry jobs)) c
      (Run.begin workers signal telemetry jobs) = c.drive _ from rfl)
  obtain ⟨has, hend⟩ := hquiet (Run.steady_begin workers signal telemetry jobs)
    (fun j hj => hcalm j (mem_of_mem_distinctBy hj)) h
  exact ⟨as, hrun, has, List.filter_eq_nil_iff.2 fun x hx => by simpa using hend x hx⟩

/-- When all executors return, a clock takes a run to its end. -/
theorem drive_isOver (hagenda : ∀ x ∈ c.agenda, x.action = .cancel) {jobs : List Job}
    (hprompt : ∀ j ∈ jobs, j.Prompt) (workers : Nat) (signal : Bool) (telemetry : Telemetry) :
    ∃ as, (Run.begin workers signal telemetry jobs).actAll as =
        some (c.drive (Run.begin workers signal telemetry jobs)).2 ∧
      (c.drive (Run.begin workers signal telemetry jobs)).2.isOver = true := by
  have htuned := tuned_begin hagenda workers signal telemetry jobs
  obtain ⟨as, has⟩ := exists_actAll_drive c (Run.begin workers signal telemetry jobs)
  refine ⟨as, has, ?_⟩
  refine htuned.driveFor_isOver (Run.steady_begin workers signal telemetry jobs) ?_
    (cost_begin_le c workers signal telemetry jobs)
  intro j hj
  exact hprompt j (mem_of_mem_distinctBy hj)

end Clock

/-! ## Reviews of contents -/

/-- A review of a content ends with the report of a run, which accounts for every step. -/
theorem ReviewPlan.reviewContent_accounts (plan : ReviewPlan) (signal : Bool)
    (telemetry : Telemetry) (context : StepContext) (content : String)
    (hprompt : ∀ j ∈ plan.jobs context content, j.Prompt) :
    ∃ as r, (plan.runOn signal telemetry context content).actAll as = some r ∧ r.isOver = true ∧
      (plan.reviewContent signal telemetry context content).1 = r.report ∧
      r.report.Accounts (plan.jobs context content)
        (((plan.runOn signal telemetry context content).firstSeen as).getD
          (distinctBy Job.step (plan.jobs context content)).length) := by
  obtain ⟨as, hrun, hover⟩ :=
    Clock.drive_isOver (c := {}) (by simp) hprompt plan.workers signal telemetry
  have hsteady := (Run.steady_begin plan.workers signal telemetry
    (plan.jobs context content)).actAll hrun
  rw [Option.none_or] at hsteady
  exact ⟨as, _, hrun, hover, rfl, hsteady.accounts hover⟩

end CodeReview
