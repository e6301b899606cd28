import CodeReview.Run.Clock
import CodeReview.Step.Script
import Mathlib.Data.List.Perm.Basic

/-!
# Agendas

What a clock puts next: the earliest appointment when nothing else is to be done (`Clock.next_cases`).
An executor that returns at some time makes one appointment for that, and it runs out of time before
it returns if it does at all (`Job.Prompt`).
-/

namespace CodeReview

/-! ## Agendas -/

theorem Appointment.before_iff {a b : Appointment} :
    a.before b = true ↔ a.time < b.time ∨ a.time = b.time ∧ a.precedence < b.precedence := by
  simp [before]

namespace Clock

theorem takeEarliest_eq_none {as : List Appointment} (h : takeEarliest as = none) : as = [] := by
  cases as with
  | nil => rfl
  | cons a as =>
    unfold takeEarliest at h
    split at h
    · cases h
    · split at h <;> cases h

/-- What is taken is on the agenda, and nothing that is left comes before it. -/
theorem takeEarliest_spec {as : List Appointment} {a : Appointment} {rest : List Appointment}
    (h : takeEarliest as = some (a, rest)) :
    as.Perm (a :: rest) ∧ ∀ b ∈ rest, ¬ b.before a = true := by
  induction as generalizing a rest with
  | nil => cases h
  | cons x xs ih =>
    unfold takeEarliest at h
    cases hxs : takeEarliest xs with
    | none =>
      simp only [hxs, Option.some.injEq, Prod.mk.injEq] at h
      obtain ⟨rfl, rfl⟩ := h
      rw [takeEarliest_eq_none hxs]
      exact ⟨.refl _, fun _ hb => by cases hb⟩
    | some best =>
      obtain ⟨y, ys⟩ := best
      obtain ⟨hperm, hfirst⟩ := ih hxs
      by_cases hbefore : y.before x = true
      · simp only [hxs, hbefore, if_true, Option.some.injEq, Prod.mk.injEq] at h
        obtain ⟨rfl, rfl⟩ := h
        refine ⟨(hperm.cons x).trans (.swap y x ys), ?_⟩
        intro b hb
        obtain rfl | hb := List.mem_cons.1 hb
        · rw [Appointment.before_iff] at hbefore ⊢
          omega
        · exact hfirst b hb
      · simp only [hxs, hbefore, Bool.false_eq_true, if_false, Option.some.injEq,
          Prod.mk.injEq] at h
        obtain ⟨rfl, rfl⟩ := h
        refine ⟨.refl _, ?_⟩
        intro b hb
        obtain rfl | hb := List.mem_cons.1 (hperm.mem_iff.1 hb)
        · exact hbefore
        · have hb' := hfirst b hb
          rw [Appointment.before_iff] at hbefore hb' ⊢
          omega

theorem phase_of_firstIn {r : Run} {phase : JobPhase} {i : Nat} (h : firstIn r phase = some i) :
    r.phases[i]? = some phase := by
  obtain ⟨hi, hphase, -⟩ := List.findIdx?_eq_some_iff_getElem.1 h
  rw [List.getElem?_eq_getElem hi, of_decide_eq_true hphase]

/-- What comes next in a run, and the clock after it. -/
theorem next_cases {c c' : Clock} {r : Run} {a : Action} (h : c.next r = some (a, c')) :
    (a = .advance ∧ c' = c ∧ r.advance.isSome = true) ∨
      (∃ i, a = .start i ∧ c' = c.starting r i ∧ r.phases[i]? = some .dispatched) ∨
      (∃ i, a = .settle i ∧ c' = c ∧ r.phases[i]? = some .returned) ∨
      ∃ x rest, takeEarliest c.agenda = some (x, rest) ∧ a = x.action ∧ c'.agenda = rest := by
  unfold next at h
  by_cases hadvance : r.advance.isSome = true
  · rw [if_pos hadvance] at h
    cases h
    exact .inl ⟨rfl, rfl, hadvance⟩
  · rw [if_neg hadvance] at h
    cases hdispatched : firstIn r .dispatched with
    | some i =>
      rw [hdispatched] at h
      cases h
      exact .inr (.inl ⟨i, rfl, rfl, phase_of_firstIn hdispatched⟩)
    | none =>
      rw [hdispatched] at h
      cases hreturned : firstIn r .returned with
      | some i =>
        rw [hreturned] at h
        cases h
        exact .inr (.inr (.inl ⟨i, rfl, rfl, phase_of_firstIn hreturned⟩))
      | none =>
        rw [hreturned] at h
        cases hearliest : takeEarliest c.agenda with
        | none =>
          simp only [hearliest] at h
          cases h
        | some best =>
          obtain ⟨x, rest⟩ := best
          simp only [hearliest] at h
          cases h
          exact .inr (.inr (.inr ⟨x, rest, rfl, rfl, rfl⟩))

theorem not_mem_of_firstIn {r : Run} {phase : JobPhase} (h : firstIn r phase = none) :
    phase ∉ r.phases := by
  intro hmem
  simpa using List.findIdx?_eq_none_iff.1 h phase hmem

theorem next_eq_none {c : Clock} {r : Run} (h : c.next r = none) :
    r.advance = none ∧ JobPhase.dispatched ∉ r.phases ∧ JobPhase.returned ∉ r.phases ∧
      c.agenda = [] := by
  unfold next at h
  by_cases hadvance : r.advance.isSome = true
  · rw [if_pos hadvance] at h
    cases h
  · rw [if_neg hadvance] at h
    cases hdispatched : firstIn r .dispatched with
    | some i =>
      rw [hdispatched] at h
      cases h
    | none =>
      rw [hdispatched] at h
      cases hreturned : firstIn r .returned with
      | some i =>
        rw [hreturned] at h
        cases h
      | none =>
        rw [hreturned] at h
        cases hearliest : takeEarliest c.agenda with
        | none =>
          exact ⟨by simpa using hadvance, not_mem_of_firstIn hdispatched,
            not_mem_of_firstIn hreturned, takeEarliest_eq_none hearliest⟩
        | some best =>
          simp only [hearliest] at h
          cases h

end Clock

/-! ## Prompt executors -/

/-- The executor returns at some time, and only if its outcome says so after its time is over. -/
def Job.Prompt (j : Job) : Prop :=
  ∃ time, j.pace.returns = some time ∧
    ((j.runsOut = false ∧ j.pace.expires = none) ∨
      (j.runsOut = true ∧ ∃ limit, j.pace.expires = some limit ∧ limit < time))

/-- An execution that ends is prompt, whatever time it may take. -/
theorem Execution.prompt_job {e : Execution} {time : Nat} (hends : e.duration = some time)
    (houtcome : ∀ milliseconds, e.outcome ≠ .timedOut milliseconds) (step : String)
    (timeout : Option Nat) : (e.job step timeout).Prompt := by
  have hruns : ∀ pace : Pace, (⟨step, e.outcome, pace⟩ : Job).runsOut = false := by
    intro pace
    unfold Job.runsOut
    cases hout : e.outcome with
    | timedOut milliseconds => exact absurd hout (houtcome milliseconds)
    | _ => rfl
  unfold job
  cases timeout with
  | none => exact ⟨time, hends, .inl ⟨hruns _, rfl⟩⟩
  | some limit =>
    by_cases hlimit : limit < time
    · have hexceeds : e.exceeds limit = true := by simp [exceeds, hends, hlimit]
      simp only [hexceeds, if_true]
      exact ⟨time, hends, .inr ⟨rfl, limit, rfl, hlimit⟩⟩
    · have hexceeds : ¬ e.exceeds limit = true := by simp [exceeds, hends, hlimit]
      simp only [hexceeds]
      exact ⟨time, hends, .inl ⟨hruns _, rfl⟩⟩

/-- A script that does not hang returns, and never says that it ran out of time. -/
theorem Script.performFrom_ends (mayCancel : Bool) (content : String) (context : StepContext)
    {s : Script} (hhang : .hang ∉ s) (found : List Issue) (cancels : List Nat) (time : Nat) :
    (∃ finish, (performFrom mayCancel content context found cancels time s).duration =
        some finish) ∧
      ∀ milliseconds, (performFrom mayCancel content context found cancels time s).outcome ≠
        .timedOut milliseconds := by
  induction s generalizing found cancels time with
  | nil => exact ⟨⟨time, rfl⟩, fun _ h => by cases h⟩
  | cons instruction s ih =>
    obtain ⟨hfirst, hrest⟩ := not_or.1 fun h => hhang (List.mem_cons.2 h)
    cases instruction with
    | fail chain => exact ⟨⟨time, rfl⟩, fun _ h => by cases h⟩
    | crash text => exact ⟨⟨time, rfl⟩, fun _ h => by cases h⟩
    | hang => exact absurd rfl hfirst
    | _ => exact ih hrest _ _ _

theorem prompt_of_mem_scriptedJobs {steps : List (Step Script)}
    (hhang : ∀ s ∈ steps, .hang ∉ s.executor) {mayCancel : Bool} {timeout : Option Nat}
    {context : StepContext} {content : String} {j : Job}
    (hj : j ∈ scriptedJobs steps mayCancel timeout context content) : j.Prompt := by
  obtain ⟨s, hs, rfl⟩ := List.mem_map.1 hj
  obtain ⟨⟨finish, hends⟩, houtcome⟩ :=
    Script.performFrom_ends mayCancel content context (hhang s hs) [] [] 0
  exact Execution.prompt_job hends houtcome s.id timeout

@[simp] theorem Execution.cancels_job (e : Execution) (step : String) (timeout : Option Nat) :
    (e.job step timeout).pace.cancels = e.cancels := by
  unfold job
  split
  · rfl
  · split <;> rfl

theorem Script.cancels_performFrom (content : String) (context : StepContext) (s : Script)
    (found : List Issue) (cancels : List Nat) (time : Nat) :
    (performFrom false content context found cancels time s).cancels = cancels := by
  induction s generalizing found cancels time with
  | nil => rfl
  | cons instruction s ih =>
    cases instruction with
    | fail chain => rfl
    | crash text => rfl
    | hang => rfl
    | _ => exact ih _ _ _

/-- Scripts whose cancelling does not reach the run make no appointments for it. -/
theorem cancels_of_mem_scriptedJobs {steps : List (Step Script)} {timeout : Option Nat}
    {context : StepContext} {content : String} {j : Job}
    (hj : j ∈ scriptedJobs steps false timeout context content) : j.pace.cancels = [] := by
  obtain ⟨s, -, rfl⟩ := List.mem_map.1 hj
  rw [Execution.cancels_job]
  exact Script.cancels_performFrom content context s.executor [] [] 0

namespace Clock

variable {now i : Nat} {j : Job}

/-- Who starts has one appointment for returning, and one for running out of time if it will. -/
theorem countP_appointments (hj : j.Prompt) {a : Action} (ha : a ≠ .cancel) :
    (appointments now i j.pace).countP (fun x => x.action = a) =
      (if .finish i = a then 1 else 0) + if .expire i = a ∧ j.runsOut = true then 1 else 0 := by
  have hcancels : (j.pace.cancels.map fun t => (⟨now + t, 0, .cancel⟩ : Appointment)).countP
      (fun x => x.action = a) = 0 := by
    rw [List.countP_eq_zero]
    intro x hx
    obtain ⟨t, -, rfl⟩ := List.mem_map.1 hx
    simpa using Ne.symm ha
  rw [appointments, List.countP_append, List.countP_append, hcancels]
  obtain ⟨time, hreturns, ⟨hout, hexpires⟩ | ⟨hout, limit, hexpires, -⟩⟩ := hj
  · simp [hreturns, hexpires, hout, List.countP_cons]
  · simp [hreturns, hexpires, hout, List.countP_cons]

theorem countP_cancel_appointments (now i : Nat) (p : Pace) :
    (appointments now i p).countP (fun x => x.action = .cancel) = p.cancels.length := by
  have hcancels : (p.cancels.map fun t => (⟨now + t, 0, .cancel⟩ : Appointment)).countP
      (fun x => x.action = .cancel) = p.cancels.length := by
    rw [List.countP_eq_length.2, List.length_map]
    intro x hx
    obtain ⟨t, -, rfl⟩ := List.mem_map.1 hx
    rfl
  rw [appointments, List.countP_append, List.countP_append, hcancels]
  cases p.returns <;> cases p.expires <;> simp

theorem action_of_mem_appointments {p : Pace} {x : Appointment} (hx : x ∈ appointments now i p) :
    x.action = .cancel ∨ x.action = .finish i ∨ x.action = .expire i := by
  simp only [appointments, List.mem_append, List.mem_map] at hx
  obtain (⟨t, -, rfl⟩ | ⟨t, -, rfl⟩) | ⟨t, -, rfl⟩ := hx
  · exact .inl rfl
  · exact .inr (.inl rfl)
  · exact .inr (.inr rfl)

/-- Running out of time comes before returning. -/
theorem before_of_appointments (hj : j.Prompt) {a b : Appointment} {k : Nat}
    (ha : a ∈ appointments now i j.pace) (hb : b ∈ appointments now i j.pace)
    (hexpire : a.action = .expire k) (hfinish : b.action = .finish k) : a.before b = true := by
  obtain ⟨time, hreturns, hexpires⟩ := hj
  have hb' : b.time = now + time := by
    simp only [appointments, hreturns, List.mem_append, List.mem_map, Option.mem_toList] at hb
    obtain (⟨t, -, rfl⟩ | ⟨t, ht, rfl⟩) | ⟨t, -, rfl⟩ := hb
    · cases hfinish
    · cases ht
      rfl
    · cases hfinish
  simp only [appointments, List.mem_append, List.mem_map, Option.mem_toList] at ha
  obtain (⟨t, -, rfl⟩ | ⟨t, -, rfl⟩) | ⟨t, ht, rfl⟩ := ha
  · cases hexpire
  · cases hexpire
  · obtain ⟨-, hnone⟩ | ⟨-, limit, hsome, hlt⟩ := hexpires
    · rw [hnone] at ht
      cases ht
    · rw [hsome] at ht
      cases ht
      rw [Appointment.before_iff, hb']
      exact .inl (Nat.add_lt_add_left hlt now)

end Clock

end CodeReview
