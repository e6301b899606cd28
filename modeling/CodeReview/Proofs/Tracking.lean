import CodeReview.Proofs.RunStates

/-!
# Calls on a tracker

A tracker is told that a step begins, completes, fails or is left out, by anyone and in any order, for
steps that it knows and for others.  `Answered` lists what a call can do: it is refused and nothing
changes, or it moves the one record of its step along an edge.  Every fact about a tracker after any
calls (`tracker_keeps_the_rules`) is read off these cases and then goes through the calls one by one.
-/

namespace CodeReview

variable {τ : Type}

/-! ## Calls -/

/-- What a tracker is told about a step. -/
inductive StepNews where
  | start
  | complete
  | fail (error : String)
  | skip
deriving DecidableEq, Repr

namespace StepNews

/-- The state that the news puts a step into. -/
def target : StepNews → StepStatus
  | .start => .inProgress
  | .complete => .completed
  | .fail _ => .failed
  | .skip => .skipped

def error? : StepNews → Option String
  | .fail error => some error
  | _ => none

end StepNews

/-- A call on a tracker, with the moment at which it is made. -/
structure TrackerCall (τ : Type) where
  step : String
  news : StepNews
  now : τ
deriving DecidableEq, Repr

/-- A record after a call moved it. -/
def TrackerCall.moved (c : TrackerCall τ) (r : ProgressRecord τ) : ProgressRecord τ :=
  ProgressRecord.moved r c.news.target c.now c.news.error?

@[simp] theorem TrackerCall.step_moved (c : TrackerCall τ) (r : ProgressRecord τ) :
    (c.moved r).step = r.step :=
  ProgressRecord.step_moved ..

@[simp] theorem TrackerCall.status_moved (c : TrackerCall τ) (r : ProgressRecord τ) :
    (c.moved r).status = c.news.target := by
  unfold moved ProgressRecord.moved
  split <;> rfl

namespace ProgressTracker

variable {t : ProgressTracker τ} {c : TrackerCall τ}

def call (t : ProgressTracker τ) (c : TrackerCall τ) : Except ProgressError (ProgressTracker τ) :=
  match c.news with
  | .start => t.start c.step c.now
  | .complete => t.complete c.step c.now
  | .fail error => t.fail c.step error c.now
  | .skip => t.skip c.step c.now

theorem call_eq (t : ProgressTracker τ) (c : TrackerCall τ) :
    t.call c = t.move c.step c.news.target c.now c.news.error? := by
  unfold call
  cases c.news <;> rfl

/-- The tracker after a call: one that is refused leaves it alone. -/
def after (t : ProgressTracker τ) (c : TrackerCall τ) : ProgressTracker τ :=
  (t.call c).toOption.getD t

def afterAll (t : ProgressTracker τ) (cs : List (TrackerCall τ)) : ProgressTracker τ :=
  cs.foldl after t

end ProgressTracker

/-! ## Edges -/

/-- The ways a step may go. -/
inductive StepStatus.Edge : StepStatus → StepStatus → Prop where
  | start : Edge .pending .inProgress
  | skip : Edge .pending .skipped
  | complete : Edge .inProgress .completed
  | fail : Edge .inProgress .failed

namespace StepStatus

theorem canMoveTo_iff {a b : StepStatus} : a.canMoveTo b = true ↔ a.Edge b := by
  constructor
  · intro h
    cases a <;> cases b <;> first | exact absurd h Bool.false_ne_true | constructor
  · rintro (_ | _ | _ | _) <;> rfl

theorem Edge.isTerminal_eq {a b : StepStatus} (h : a.Edge b) : a.isTerminal = false := by
  cases h <;> rfl

theorem isTerminal_iff {a : StepStatus} : a.isTerminal = true ↔ a ≠ .pending ∧ a ≠ .inProgress := by
  cases a <;> decide

end StepStatus

/-! ## Records -/

namespace ProgressRecord

variable {r : ProgressRecord τ} {c : TrackerCall τ}

/-- A record after a call on its tracker, whichever step the call is about. -/
def hear (r : ProgressRecord τ) (c : TrackerCall τ) : ProgressRecord τ :=
  if r.step = c.step ∧ r.status.canMoveTo c.news.target then c.moved r else r

def hearAll (r : ProgressRecord τ) (cs : List (TrackerCall τ)) : ProgressRecord τ :=
  cs.foldl hear r

theorem hear_of_edge (hstep : r.step = c.step) (hedge : r.status.Edge c.news.target) :
    r.hear c = c.moved r :=
  if_pos ⟨hstep, StepStatus.canMoveTo_iff.2 hedge⟩

theorem hear_of_ne (h : r.step ≠ c.step) : r.hear c = r :=
  if_neg fun hboth => h hboth.1

theorem hear_of_not_edge (h : ¬ r.status.Edge c.news.target) : r.hear c = r :=
  if_neg fun hboth => h (StepStatus.canMoveTo_iff.1 hboth.2)

theorem map_hear_of_ne {rs : List (ProgressRecord τ)} (h : ∀ r ∈ rs, r.step ≠ c.step) :
    rs.map (fun r => r.hear c) = rs :=
  (List.map_congr_left fun r hr => hear_of_ne (h r hr)).trans (List.map_id rs)

/-- A call leaves a record alone, or moves it along an edge. -/
theorem hear_cases (r : ProgressRecord τ) (c : TrackerCall τ) :
    r.hear c = r ∨ r.status.Edge c.news.target ∧ r.hear c = c.moved r := by
  unfold hear
  split
  · rename_i h
    exact .inr ⟨StepStatus.canMoveTo_iff.1 h.2, rfl⟩
  · exact .inl rfl

@[simp] theorem step_hear (r : ProgressRecord τ) (c : TrackerCall τ) : (r.hear c).step = r.step := by
  obtain h | ⟨-, h⟩ := r.hear_cases c <;> simp [h]

@[simp] theorem hearAll_nil (r : ProgressRecord τ) : r.hearAll [] = r :=
  rfl

@[simp] theorem hearAll_cons (r : ProgressRecord τ) (c : TrackerCall τ) (cs : List (TrackerCall τ)) :
    r.hearAll (c :: cs) = (r.hear c).hearAll cs :=
  rfl

@[simp] theorem step_hearAll (r : ProgressRecord τ) (cs : List (TrackerCall τ)) :
    (r.hearAll cs).step = r.step := by
  induction cs generalizing r with
  | nil => rfl
  | cons c cs ih => rw [hearAll_cons, ih, step_hear]

/-- The times and the error of a record are told by its status. -/
structure WellFormed (r : ProgressRecord τ) : Prop where
  started : r.startedAt.isSome ↔
    r.status = .inProgress ∨ r.status = .completed ∨ r.status = .failed
  ended : r.endedAt.isSome ↔ r.status = .completed ∨ r.status = .failed ∨ r.status = .skipped
  error : r.error.isSome ↔ r.status = .failed

theorem wellFormed_pending (step : String) : (pending step : ProgressRecord τ).WellFormed := by
  constructor <;> simp [pending]

theorem WellFormed.hear (h : r.WellFormed) (c : TrackerCall τ) : (r.hear c).WellFormed := by
  obtain heq | ⟨hedge, heq⟩ := r.hear_cases c <;> rw [heq]
  · exact h
  · obtain ⟨hstarted, hended, herror⟩ := h
    -- The edge fixes the news and the state before; the fields follow from what they were there.
    generalize hsource : r.status = source at hedge hstarted hended herror
    cases hnews : c.news <;> rw [hnews] at hedge <;> cases hedge <;> constructor <;>
      simp_all [TrackerCall.moved, ProgressRecord.moved, StepNews.target, StepNews.error?]

theorem WellFormed.hearAll (h : r.WellFormed) (cs : List (TrackerCall τ)) :
    (r.hearAll cs).WellFormed := by
  induction cs generalizing r with
  | nil => exact h
  | cons c cs ih => exact ih (h.hear c)

theorem hear_of_isTerminal (h : r.status.isTerminal = true) (c : TrackerCall τ) : r.hear c = r :=
  hear_of_not_edge fun hedge => by simp [hedge.isTerminal_eq] at h

/-- A final record stays as it is. -/
theorem hearAll_of_isTerminal (h : r.status.isTerminal = true) (cs : List (TrackerCall τ)) :
    r.hearAll cs = r := by
  induction cs with
  | nil => rfl
  | cons c cs ih => rw [hearAll_cons, hear_of_isTerminal h, ih]

end ProgressRecord

/-! ## What a call does -/

namespace ProgressTracker

variable {t : ProgressTracker τ} {c : TrackerCall τ}

theorem eq_of_step_eq {r s : ProgressRecord τ} (hr : r ∈ t.records) (hs : s ∈ t.records)
    (h : r.step = s.step) : r = s :=
  List.inj_on_of_nodup_map t.nodup hr hs h

/-- A call is about no record, or about one that does not go that way, or about one that does. -/
theorem call_cases (t : ProgressTracker τ) (c : TrackerCall τ) :
    ((∀ r ∈ t.records, r.step ≠ c.step) ∧ t.call c = .error (.untracked c.step)) ∨
    ∃ r ∈ t.records, r.step = c.step ∧
      (¬ r.status.Edge c.news.target ∧
          t.call c = .error (.invalidMove c.step r.status c.news.target) ∨
        r.status.Edge c.news.target ∧
          ∃ t', t.call c = .ok t' ∧
            t'.records = t.records.map fun s => if s.step = c.step then c.moved s else s) := by
  rw [call_eq, move]
  cases hlocate : t.locate? c.step with
  | none => exact .inl ⟨locate?_eq_none_iff.1 hlocate, rfl⟩
  | some found =>
    obtain ⟨i, r⟩ := found
    obtain ⟨hi, hstep⟩ := locate?_eq_some_iff.1 hlocate
    refine .inr ⟨r, List.mem_of_getElem? hi, hstep, ?_⟩
    by_cases hedge : r.status.Edge c.news.target
    · refine .inr ⟨hedge, _, if_pos (StepStatus.canMoveTo_iff.2 hedge), ?_⟩
      rw [records_moveAt hi, hstep]
      rfl
    · exact .inl ⟨hedge, if_neg fun hmove => hedge (StepStatus.canMoveTo_iff.1 hmove)⟩

/-- Each record hears a call for itself. -/
theorem records_after (t : ProgressTracker τ) (c : TrackerCall τ) :
    (t.after c).records = t.records.map fun r => r.hear c := by
  unfold after
  obtain ⟨hnone, hcall⟩ | ⟨r, hmem, hstep, ⟨hedge, hcall⟩ | ⟨hedge, t', hcall, hrecords⟩⟩ :=
    t.call_cases c <;> rw [hcall]
  · exact (ProgressRecord.map_hear_of_ne hnone).symm
  · have hkept : ∀ s ∈ t.records, s.hear c = id s := by
      intro s hs
      by_cases hs' : s.step = c.step
      · rw [eq_of_step_eq hs hmem (hs'.trans hstep.symm)]
        exact ProgressRecord.hear_of_not_edge hedge
      · exact ProgressRecord.hear_of_ne hs'
    exact ((List.map_congr_left hkept).trans (List.map_id _)).symm
  · refine hrecords.trans (List.map_congr_left fun s hs => ?_)
    by_cases hs' : s.step = c.step
    · rw [if_pos hs', eq_of_step_eq hs hmem (hs'.trans hstep.symm),
        ProgressRecord.hear_of_edge hstep hedge]
    · rw [if_neg hs', ProgressRecord.hear_of_ne hs']

/-- What a tracker can answer to a call, and the tracker after it. -/
inductive Answered (t : ProgressTracker τ) (c : TrackerCall τ) :
    Except ProgressError (ProgressTracker τ) → ProgressTracker τ → Prop where
  /-- No record is of the step. -/
  | untracked (hnone : ∀ r ∈ t.records, r.step ≠ c.step) :
    Answered t c (.error (.untracked c.step)) t
  /-- The step does not go from its state to the one it is told to be in. -/
  | refused {r : ProgressRecord τ} (hmem : r ∈ t.records) (hstep : r.step = c.step)
    (hedge : ¬ r.status.Edge c.news.target) :
    Answered t c (.error (.invalidMove c.step r.status c.news.target)) t
  /-- The record of the step moves, and no other. -/
  | moved {front back : List (ProgressRecord τ)} {r : ProgressRecord τ} {t' : ProgressTracker τ}
    (hrecords : t.records = front ++ r :: back) (hstep : r.step = c.step)
    (hedge : r.status.Edge c.news.target)
    (hmoved : t'.records = front ++ c.moved r :: back) :
    Answered t c (.ok t') t'

theorem answered (t : ProgressTracker τ) (c : TrackerCall τ) :
    Answered t c (t.call c) (t.after c) := by
  have hafter : t.after c = (t.call c).toOption.getD t := rfl
  obtain ⟨hnone, hcall⟩ | ⟨r, hmem, hstep, ⟨hedge, hcall⟩ | ⟨hedge, t', hcall, -⟩⟩ :=
    t.call_cases c <;> rw [hcall] at hafter ⊢
  · exact hafter ▸ .untracked hnone
  · exact hafter ▸ .refused hmem hstep hedge
  · obtain ⟨front, back, hrecords⟩ := List.append_of_mem hmem
    have hother : ∀ s ∈ front ++ back, s.step ≠ c.step := by
      have hdistinct := t.nodup
      rw [hrecords, List.map_append, List.map_cons, List.nodup_middle, List.nodup_cons,
        ← List.map_append, hstep] at hdistinct
      exact fun s hs heq => hdistinct.1 (List.mem_map.2 ⟨s, hs, heq⟩)
    have hmoved := t.records_after c
    rw [hrecords, List.map_append, List.map_cons, ProgressRecord.hear_of_edge hstep hedge,
      ProgressRecord.map_hear_of_ne fun s hs => hother s (List.mem_append_left back hs),
      ProgressRecord.map_hear_of_ne fun s hs => hother s (List.mem_append_right front hs)] at hmoved
    rw [hafter] at hmoved ⊢
    exact .moved hrecords hstep hedge hmoved

theorem records_afterAll (t : ProgressTracker τ) (cs : List (TrackerCall τ)) :
    (t.afterAll cs).records = t.records.map fun r => r.hearAll cs := by
  induction cs generalizing t with
  | nil => exact (List.map_id _).symm
  | cons c cs ih =>
    rw [show t.afterAll (c :: cs) = (t.after c).afterAll cs from rfl, ih, records_after,
      List.map_map]
    rfl

theorem steps_afterAll (t : ProgressTracker τ) (cs : List (TrackerCall τ)) :
    (t.afterAll cs).records.map ProgressRecord.step = t.records.map ProgressRecord.step := by
  rw [records_afterAll, List.map_map]
  exact List.map_congr_left fun r _ => r.step_hearAll cs

/-! ## Counts -/

theorem total_counts (t : ProgressTracker τ) : t.counts.total = t.records.length := by
  unfold counts ProgressCounts.total countOf
  induction t.records with
  | nil => rfl
  | cons r rs ih =>
    simp only [List.countP_cons, List.length_cons] at ih ⊢
    cases r.status <;> simp at ih ⊢ <;> omega

theorem finished_counts (t : ProgressTracker τ) :
    t.counts.finished = t.records.countP fun r => r.status.isTerminal := by
  unfold counts ProgressCounts.finished countOf
  induction t.records with
  | nil => rfl
  | cons r rs ih =>
    simp only [List.countP_cons] at ih ⊢
    cases r.status <;> simp [StepStatus.isTerminal] at ih ⊢ <;> omega

theorem isFinished_iff {t : ProgressTracker τ} :
    t.isFinished = true ↔ ∀ r ∈ t.records, r.status ≠ .pending ∧ r.status ≠ .inProgress := by
  rw [isFinished, decide_eq_true_iff, finished_counts, total_counts, List.countP_eq_length]
  exact forall₂_congr fun _ _ => StepStatus.isTerminal_iff

/-- No call makes a finished step unfinished. -/
theorem finished_le_afterAll (t : ProgressTracker τ) (cs : List (TrackerCall τ)) :
    t.counts.finished ≤ (t.afterAll cs).counts.finished := by
  rw [finished_counts, finished_counts, records_afterAll, List.countP_map]
  refine List.countP_mono_left fun r _ hr => ?_
  rwa [Function.comp_apply, ProgressRecord.hearAll_of_isTerminal hr]

/-- After any calls on a tracker of any steps: there is one record for each step, in the order of
their first mention; what a record says of times and errors is told by its status; each further call
is refused and changes nothing, or moves the one record of its step along an edge; a final record
stays for good; the counts add up to the steps and the finished ones never become fewer; and all is
finished when nothing is pending or in progress. -/
theorem tracker_keeps_the_rules (steps : List String) (cs : List (TrackerCall τ)) :
    let t := (ofSteps steps).afterAll cs
    t.records.map ProgressRecord.step = steps.eraseDups ∧
    (∀ r ∈ t.records, r.WellFormed) ∧
    (∀ c, Answered t c (t.call c) (t.after c)) ∧
    (∀ more (i : Nat) r, t.records[i]? = some r → r.status.isTerminal = true →
      (t.afterAll more).records[i]? = some r) ∧
    t.counts.total = steps.eraseDups.length ∧
    (∀ more, t.counts.finished ≤ (t.afterAll more).counts.finished) ∧
    (t.isFinished = true ↔ ∀ r ∈ t.records, r.status ≠ .pending ∧ r.status ≠ .inProgress) := by
  intro t
  have hsteps : t.records.map ProgressRecord.step = steps.eraseDups := by
    rw [steps_afterAll, ← distinct_eq_eraseDups, records_ofSteps, List.map_map]
    exact List.map_id _
  refine ⟨hsteps, fun r hr => ?_, t.answered, fun more i r hr hfinal => ?_, ?_,
    t.finished_le_afterAll, isFinished_iff⟩
  · rw [records_afterAll, records_ofSteps] at hr
    obtain ⟨r₀, hr₀, rfl⟩ := List.mem_map.1 hr
    obtain ⟨step, -, rfl⟩ := List.mem_map.1 hr₀
    exact (ProgressRecord.wellFormed_pending step).hearAll cs
  · rw [records_afterAll, List.getElem?_map, hr, Option.map_some,
      ProgressRecord.hearAll_of_isTerminal hfinal]
  · rw [total_counts, ← hsteps, List.length_map]

end ProgressTracker

end CodeReview
