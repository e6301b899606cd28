import CodeReview.Proofs.Tracking

/-!
# Shuffled calls on a tracker

The workers of a run call one tracker, and their calls come in any order.  What a tracker answers to
the calls on a step, and the record it ends with, is told by those calls alone (`answersTo_eq`,
`find?_afterAll`): a record only hears calls on its own step.  Two orders that agree step by step are
therefore answered alike and end alike (`shuffles_agree`), whatever the moments of the calls are.
-/

namespace CodeReview

variable {τ : Type}

/-! ## Without times -/

def TrackerCall.untimed (c : TrackerCall τ) : TrackerCall Unit :=
  ⟨c.step, c.news, ()⟩

namespace ProgressRecord

variable {r : ProgressRecord τ}

/-- A record that only tells whether its times are set. -/
def untimed (r : ProgressRecord τ) : ProgressRecord Unit :=
  ⟨r.step, r.status, r.startedAt.map fun _ => (), r.endedAt.map fun _ => (), r.error⟩

theorem untimed_moved (r : ProgressRecord τ) (c : TrackerCall τ) :
    (c.moved r).untimed = c.untimed.moved r.untimed := by
  unfold TrackerCall.moved ProgressRecord.moved
  rw [show c.untimed.news = c.news from rfl]
  split <;> rfl

theorem untimed_hear (r : ProgressRecord τ) (c : TrackerCall τ) :
    (r.hear c).untimed = r.untimed.hear c.untimed := by
  unfold hear
  rw [apply_ite untimed, untimed_moved]
  rfl

theorem untimed_hearAll (r : ProgressRecord τ) (cs : List (TrackerCall τ)) :
    (r.hearAll cs).untimed = r.untimed.hearAll (cs.map TrackerCall.untimed) := by
  induction cs generalizing r with
  | nil => rfl
  | cons c cs ih => rw [hearAll_cons, ih, untimed_hear, List.map_cons, hearAll_cons]

/-! ## One record -/

/-- A record only hears the calls on its step. -/
theorem hearAll_filter (r : ProgressRecord τ) (cs : List (TrackerCall τ)) :
    r.hearAll (cs.filter fun c => c.step = r.step) = r.hearAll cs := by
  induction cs generalizing r with
  | nil => rfl
  | cons c cs ih =>
    by_cases h : c.step = r.step
    · rw [List.filter_cons_of_pos (by simpa using h), hearAll_cons, hearAll_cons, ← ih,
        step_hear]
    · rw [List.filter_cons_of_neg (by simpa using h), hearAll_cons, hear_of_ne (Ne.symm h), ih]

/-- What is answered to a call, given the record of its step. -/
def reply (r? : Option (ProgressRecord τ)) (c : TrackerCall τ) : Except ProgressError Unit :=
  match r? with
  | none => .error (.untracked c.step)
  | some r =>
    if r.status.canMoveTo c.news.target then .ok ()
    else .error (.invalidMove c.step r.status c.news.target)

def replies : Option (ProgressRecord τ) → List (TrackerCall τ) → List (Except ProgressError Unit)
  | _, [] => []
  | r?, c :: cs => reply r? c :: replies (r?.map fun r => r.hear c) cs

theorem replies_untimed (r? : Option (ProgressRecord τ)) (cs : List (TrackerCall τ)) :
    replies (r?.map untimed) (cs.map TrackerCall.untimed) = replies r? cs := by
  induction cs generalizing r? with
  | nil => rfl
  | cons c cs ih =>
    have hreply : reply (r?.map untimed) c.untimed = reply r? c := by cases r? <;> rfl
    have hhear : (r?.map untimed).map (fun r => r.hear c.untimed) =
        (r?.map fun r => r.hear c).map untimed := by
      cases r? with
      | none => rfl
      | some r => exact congrArg some (r.untimed_hear c).symm
    rw [List.map_cons, replies, replies, hreply, hhear, ih]

end ProgressRecord

/-! ## One step of a tracker -/

/-- The calls on one step. -/
def callsOn (step : String) (cs : List (TrackerCall τ)) : List (TrackerCall τ) :=
  cs.filter fun c => c.step = step

namespace ProgressTracker

variable {t : ProgressTracker τ} {c : TrackerCall τ} {step : String}

/-- Calls in turn, each with the answer to it. -/
def answers (t : ProgressTracker τ) :
    List (TrackerCall τ) → List (TrackerCall τ × Except ProgressError Unit)
  | [] => []
  | c :: cs => (c, (t.call c).map fun _ => ()) :: (t.after c).answers cs

/-- The answers to the calls on one step. -/
def answersTo (t : ProgressTracker τ) (step : String) (cs : List (TrackerCall τ)) :
    List (Except ProgressError Unit) :=
  ((t.answers cs).filter fun a => a.1.step = step).map Prod.snd

theorem step_of_find? {r : ProgressRecord τ} (h : t.find? step = some r) : r.step = step := by
  rw [find?_eq] at h
  simpa using List.find?_some h

theorem call_reply (t : ProgressTracker τ) (c : TrackerCall τ) :
    (t.call c).map (fun _ => ()) = ProgressRecord.reply (t.find? c.step) c := by
  rw [call_eq, move, find?]
  cases t.locate? c.step with
  | none => rfl
  | some found =>
    simp only [ProgressRecord.reply, Option.map_some]
    split <;> rfl

theorem find?_after (t : ProgressTracker τ) (c : TrackerCall τ) (step : String) :
    (t.after c).find? step = (t.find? step).map fun r => r.hear c := by
  rw [find?_eq, find?_eq, records_after, List.find?_map]
  congr 2
  funext r
  simp

theorem find?_after_of_ne (t : ProgressTracker τ) (h : c.step ≠ step) :
    (t.after c).find? step = t.find? step := by
  rw [find?_after]
  cases hfind : t.find? step with
  | none => rfl
  | some r =>
    have hne : r.step ≠ c.step := fun heq => h (heq.symm.trans (step_of_find? hfind))
    rw [Option.map_some, ProgressRecord.hear_of_ne hne]

/-- The calls on a step are answered as the record of the step says. -/
theorem answersTo_eq (t : ProgressTracker τ) (step : String) (cs : List (TrackerCall τ)) :
    t.answersTo step cs = ProgressRecord.replies (t.find? step) (callsOn step cs) := by
  induction cs generalizing t with
  | nil => rfl
  | cons c cs ih =>
    unfold answersTo callsOn at ih ⊢
    by_cases h : c.step = step
    · rw [answers, List.filter_cons_of_pos (by simpa using h),
        List.filter_cons_of_pos (by simpa using h), List.map_cons, ih, find?_after, call_reply, h]
      rfl
    · rw [answers, List.filter_cons_of_neg (by simpa using h),
        List.filter_cons_of_neg (by simpa using h), ih, find?_after_of_ne t h]

theorem find?_afterAll (t : ProgressTracker τ) (step : String) (cs : List (TrackerCall τ)) :
    (t.afterAll cs).find? step = (t.find? step).map fun r => r.hearAll (callsOn step cs) := by
  have hfind : (t.afterAll cs).find? step = (t.find? step).map fun r => r.hearAll cs := by
    rw [find?_eq, find?_eq, records_afterAll, List.find?_map]
    congr 2
    funext r
    simp
  rw [hfind]
  refine Option.map_congr fun r hr => ?_
  rw [← r.hearAll_filter cs, step_of_find? hr, callsOn]

/-! ## All steps -/

/-- The records of a tracker are those found under their steps. -/
theorem records_eq (t : ProgressTracker τ) :
    t.records = (t.records.map ProgressRecord.step).filterMap t.find? := by
  rw [List.filterMap_map]
  conv_lhs => rw [← List.filterMap_some (l := t.records)]
  exact List.filterMap_congr fun r hr => (find?_of_mem hr).symm

theorem counts_untimed {t t' : ProgressTracker τ}
    (h : t.records.map ProgressRecord.untimed = t'.records.map ProgressRecord.untimed) :
    t.counts = t'.counts := by
  have hcount : ∀ s, t.countOf s = t'.countOf s := by
    intro s
    have hboth := congrArg (List.countP fun r => decide (r.status = s)) h
    rwa [List.countP_map, List.countP_map] at hboth
  simp only [counts, hcount]

/-- Two orders of calls on a tracker that tell a step the same, except for the moments, get the same
answers to the calls on it and leave it the same record; and if they tell every step the same, they
leave the same records, counts, completion and end. -/
theorem shuffles_agree (t : ProgressTracker τ) (cs cs' : List (TrackerCall τ)) :
    (∀ step, (callsOn step cs).map TrackerCall.untimed = (callsOn step cs').map TrackerCall.untimed →
      t.answersTo step cs = t.answersTo step cs' ∧
      ((t.afterAll cs).find? step).map ProgressRecord.untimed =
        ((t.afterAll cs').find? step).map ProgressRecord.untimed) ∧
    ((∀ step,
        (callsOn step cs).map TrackerCall.untimed = (callsOn step cs').map TrackerCall.untimed) →
      (t.afterAll cs).records.map ProgressRecord.untimed =
        (t.afterAll cs').records.map ProgressRecord.untimed ∧
      (t.afterAll cs).counts = (t.afterAll cs').counts ∧
      (t.afterAll cs).completion = (t.afterAll cs').completion ∧
      (t.afterAll cs).isFinished = (t.afterAll cs').isFinished) := by
  have hone : ∀ step,
      (callsOn step cs).map TrackerCall.untimed = (callsOn step cs').map TrackerCall.untimed →
      t.answersTo step cs = t.answersTo step cs' ∧
      ((t.afterAll cs).find? step).map ProgressRecord.untimed =
        ((t.afterAll cs').find? step).map ProgressRecord.untimed := by
    intro step hsame
    constructor
    · rw [answersTo_eq, answersTo_eq, ← ProgressRecord.replies_untimed, hsame,
        ProgressRecord.replies_untimed]
    · rw [find?_afterAll, find?_afterAll, Option.map_map, Option.map_map]
      refine Option.map_congr fun r _ => ?_
      simp only [Function.comp_apply, ProgressRecord.untimed_hearAll, hsame]
  refine ⟨hone, fun hsame => ?_⟩
  have hrecords : (t.afterAll cs).records.map ProgressRecord.untimed =
      (t.afterAll cs').records.map ProgressRecord.untimed := by
    rw [records_eq (t.afterAll cs), records_eq (t.afterAll cs'), steps_afterAll, steps_afterAll,
      List.map_filterMap, List.map_filterMap]
    exact List.filterMap_congr fun step _ => (hone step (hsame step)).2
  have hcounts := counts_untimed hrecords
  refine ⟨hrecords, hcounts, ?_, ?_⟩
  · rw [completion, completion, hcounts]
  · rw [isFinished, isFinished, hcounts]

/-- One worker completes a step and another one fails at a second step and at one that is not tracked:
the calls of the two take turns, or those of the second come first. -/
theorem shuffles_agree_of_two_workers :
    let t : ProgressTracker Nat := ofSteps ["a", "b"]
    let cs : List (TrackerCall Nat) := [⟨"a", .start, 0⟩, ⟨"b", .start, 1⟩, ⟨"a", .complete, 2⟩,
      ⟨"c", .start, 3⟩, ⟨"b", .fail "boom", 4⟩]
    let cs' : List (TrackerCall Nat) := [⟨"b", .start, 0⟩, ⟨"c", .start, 1⟩, ⟨"b", .fail "boom", 2⟩,
      ⟨"a", .start, 3⟩, ⟨"a", .complete, 4⟩]
    (t.afterAll cs).records ≠ (t.afterAll cs').records ∧
      (∀ step, t.answersTo step cs = t.answersTo step cs') ∧
      (t.afterAll cs).records.map ProgressRecord.untimed =
        (t.afterAll cs').records.map ProgressRecord.untimed ∧
      (t.afterAll cs).counts = (t.afterAll cs').counts := by
  intro t cs cs'
  have hsame : ∀ step,
      (callsOn step cs).map TrackerCall.untimed = (callsOn step cs').map TrackerCall.untimed := by
    intro step
    by_cases ha : "a" = step
    · subst ha
      decide
    by_cases hb : "b" = step
    · subst hb
      decide
    by_cases hc : "c" = step
    · subst hc
      decide
    simp [callsOn, cs, cs', ha, hb, hc]
  obtain ⟨hone, hall⟩ := shuffles_agree t cs cs'
  obtain ⟨hrecords, hcounts, -, -⟩ := hall hsame
  exact ⟨by decide +kernel, fun step => (hone step (hsame step)).1, hrecords, hcounts⟩

end ProgressTracker

end CodeReview
