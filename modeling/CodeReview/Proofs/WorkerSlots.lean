import CodeReview.Files.Memory
import CodeReview.Proofs.ReviewTurns
import CodeReview.Proofs.Stopping

/-!
# Worker slots

An executor holds a slot of its run from before it is handed over to the pool until it returns, also
after its job was settled as out of time, and a run gives out no more slots than it has workers
(`WithinSlots`).  So at every moment of a run at most as many executors are in the pool as there are
workers.  Those at work are among them, whichever the pool lets wait: what is bounded here is bounded
for the executors at work too.

In a review of several files each file has slots of its own.  Executors that are overdue when a file
is closed go on beside those of the next one, so the bound is one for each file that was read
(`executors_within_slots`), and the executors of two files together may exceed it
(`executors_outlive_their_file`).  It holds for the whole review if no file is opened before the
executors of the earlier ones have returned.
-/

namespace CodeReview

/-- Whether an action starts an executor. -/
def Action.starts : Action → Bool
  | .start _ => true
  | _ => false

/-- Whether in an action an executor returns. -/
def Action.returns : Action → Bool
  | .finish _ => true
  | _ => false

namespace Run

variable {n : Nat} {r r' : Run} {a : Action} {as : List Action}

/-! ## Executors in the pool -/

theorem countP_set_phase {ps : List JobPhase} {i : Nat} {p : JobPhase} (p' : JobPhase)
    (hp : ps[i]? = some p) (q : JobPhase → Bool) :
    (ps.set i p').countP q + (if q p then 1 else 0) = ps.countP q + if q p' then 1 else 0 := by
  obtain ⟨hi, rfl⟩ := List.getElem?_eq_some_iff.1 hp
  have hcounted : (if q ps[i] then 1 else 0) ≤ ps.countP q := by
    split
    · next hq => exact List.countP_pos_iff.2 ⟨_, List.getElem_mem hi, hq⟩
    · exact Nat.zero_le _
  rw [List.countP_set hi]
  omega

/-- A start adds one executor to those in the pool, and a return takes one off. -/
theorem Turn.executing (h : Turn r a r') :
    r'.executing + (if a.returns then 1 else 0) = r.executing + if a.starts then 1 else 0 := by
  cases h with
  | cancel => rfl
  | close hd hfull => rfl
  | wait hd hleft hsignal => rfl
  | dispatch hd hfree hsignal =>
    simp [Run.executing, Action.starts, Action.returns, JobPhase.executes]
  | leaveLooking hd hleft hsignal =>
    simp [Run.executing, Action.starts, Action.returns, phases_skipRest]
  | leaveWaiting hd hfree hsignal =>
    simp [Run.executing, Action.starts, Action.returns, phases_skipRest]
  | start hj hp =>
    rw [Run.executing, setPhase, phases_noteStart]
    exact countP_set_phase .running hp JobPhase.executes
  | finish hj hp hin => exact countP_set_phase .returned hp JobPhase.executes
  | finishLate hj hp => exact countP_set_phase .settled hp JobPhase.executes
  | settle hj hp =>
    rw [Run.executing, setPhase, phases_noteResult]
    exact countP_set_phase .settled hp JobPhase.executes
  | expire hj hp hout =>
    -- an executor that is overdue is still in the pool
    rw [Run.executing, setPhase, phases_noteResult]
    exact Nat.add_right_cancel (countP_set_phase .overdue hp JobPhase.executes)

/-- The executors in the pool are those that were started and have not returned. -/
theorem executing_actAll (hrun : r.actAll as = some r') :
    r'.executing + as.countP Action.returns = r.executing + as.countP Action.starts :=
  level_foldlM hrun Run.executing Action.starts Action.returns fun hact =>
    (turn_of_act hact).executing

/-! ## Slots -/

/-- An executor in the pool holds a slot. -/
theorem executing_le_busy (r : Run) : r.executing ≤ r.busy := by
  refine List.countP_mono_left ?_
  intro p _ hp
  cases p <;> first | rfl | cases hp

/-- A run with that many workers, or one where that is none, holds no more slots than it has. -/
structure WithinSlots (n : Nat) (r : Run) : Prop where
  workers : r.workers = max n 1
  busy : r.busy ≤ max n 1

theorem WithinSlots.executing_le (h : WithinSlots n r) : r.executing ≤ max n 1 :=
  Nat.le_trans r.executing_le_busy h.busy

theorem Turn.withinSlots (h : Turn r a r') (hr : WithinSlots n r) : WithinSlots n r' := by
  refine ⟨h.frame.1.trans hr.workers, ?_⟩
  have hbusy : r.phases.countP JobPhase.holdsSlot ≤ max n 1 := hr.busy
  unfold busy
  cases h.shift with
  | none ha hphases =>
    rw [hphases]
    exact hbusy
  | more ha hfree hsignal hphases =>
    -- a slot is only given out while one is free
    rw [hr.workers] at hfree
    rw [hphases, List.countP_append]
    exact hfree
  | started ha hp hphases =>
    have hcount := countP_set_phase .running hp JobPhase.holdsSlot
    rw [hphases]
    simp only [JobPhase.holdsSlot] at hcount
    omega
  | moved p' ha hp hold hnew hslot hphases =>
    have hcount := countP_set_phase p' hp JobPhase.holdsSlot
    rw [hphases]
    split at hcount <;> split at hcount
    · omega
    · omega
    · next hfree hheld => exact absurd (hslot hheld) hfree
    · omega

theorem withinSlots_begin (n : Nat) (signal : Bool) (telemetry : Telemetry) (jobs : List Job) :
    WithinSlots n (Run.begin n signal telemetry jobs) :=
  ⟨rfl, Nat.zero_le _⟩

end Run

/-- Whether in an action of a review an executor is started. -/
def ReviewAction.starts : ReviewAction → Bool
  | .inRun a => a.starts
  | _ => false

/-- Whether in an action of a review an executor returns, one of the file under review or a
straggler. -/
def ReviewAction.returns : ReviewAction → Bool
  | .inRun a => a.returns
  | .leave => true
  | _ => false

namespace Review

variable {σ : Type} {n limit : Nat} {r r' : Review σ} {a : ReviewAction} {as : List ReviewAction}

/-- How many slots the file under review has. -/
def slots (r : Review σ) : Nat :=
  match r.stage with
  | .between .. => 0
  | .within _ _ run => run.workers

/-- A review with that many workers for each file, in which the slots of the file under review and the
executors of earlier files together keep to a limit. -/
structure Staffed (n limit : Nat) (r : Review σ) : Prop where
  plan : r.plan.workers = n
  run {p : Path} {lines : Nat} {run : Run} : r.stage = .within p lines run → run.WithinSlots n
  total : r.stragglers + r.slots ≤ limit

theorem Staffed.mono {limit' : Nat} (h : Staffed n limit r) (hle : limit ≤ limit') :
    Staffed n limit' r :=
  ⟨h.plan, h.run, Nat.le_trans h.total hle⟩

theorem Staffed.executing_le (h : Staffed n limit r) : r.executing ≤ limit := by
  have htotal := h.total
  unfold slots at htotal
  unfold Review.executing
  cases hstage : r.stage with
  | between =>
    rw [hstage] at htotal
    exact htotal
  | within p lines run =>
    rw [hstage] at htotal
    have hrun := h.run hstage
    have hexecuting := hrun.executing_le
    have hworkers := hrun.workers
    simp only at htotal ⊢
    omega

theorem staffed_begin (plan : ReviewPlan) (limit : Nat) (signal : Bool) (telemetry : Telemetry)
    (files : σ) (paths : List Path) :
    Staffed plan.workers limit (Review.begin plan signal telemetry files paths) :=
  ⟨rfl, nofun, Nat.zero_le limit⟩

/-- How many of the files that were opened could be read. -/
def countRead (opened : List (Path × Except FileError String)) : Nat :=
  opened.countP fun x => x.2.toOption.isSome

variable [FileAccess σ]

/-! ## Executors of several files -/

theorem Turn.executing (h : Turn r a r') :
    r'.executing + (if a.returns then 1 else 0) = r.executing + if a.starts then 1 else 0 := by
  cases h with
  | read hstage hwaiting hread =>
    simp only [Review.executing, hstage]
    rfl
  | unread hstage hwaiting hread =>
    simp only [Review.executing, noteUnread, hstage]
    rfl
  | @ran p lines run run' b hstage hact =>
    have hrun := (Run.turn_of_act hact).executing
    simp only [Review.executing, hstage]
    change r.stragglers + run'.executing + (if b.returns then 1 else 0) =
      r.stragglers + run.executing + if b.starts then 1 else 0
    omega
  | closed hstage hover =>
    simp only [Review.executing, hstage]
    rfl
  | left hstragglers =>
    have hpos := Nat.pos_of_ne_zero hstragglers
    cases hstage : r.stage with
    | between =>
      simp only [Review.executing, hstage]
      change r.stragglers - 1 + 1 = r.stragglers
      omega
    | within p lines run =>
      simp only [Review.executing, hstage]
      change r.stragglers - 1 + run.executing + 1 = r.stragglers + run.executing
      omega
  | cancelled hstage =>
    simp only [Review.executing, hstage]
    rfl

theorem executing_actAll (hrun : r.actAll as = some r') :
    r'.executing + as.countP ReviewAction.returns =
      r.executing + as.countP ReviewAction.starts :=
  level_foldlM hrun Review.executing ReviewAction.starts ReviewAction.returns fun hact =>
    (turn_of_act hact).executing

/-! ## Slots of several files -/

/-- The limit is kept as long as there is room below it for the slots of each file that is read. -/
theorem Turn.staffed (h : Turn r a r') (hr : Staffed n limit r)
    (hroom : ∀ p content, r.opening? a = some (p, .ok content) → r.stragglers + max n 1 ≤ limit) :
    Staffed n limit r' := by
  have htotal := hr.total
  unfold slots at htotal
  cases h with
  | @read signal telemetry p ps content files hstage hwaiting hread =>
    refine ⟨hr.plan, ?_, ?_⟩
    · rintro _ _ _ ⟨⟩
      exact hr.plan ▸ Run.withinSlots_begin _ _ _ _
    · have hopening := hroom p content (opening?_of_read hstage hwaiting hread)
      rw [← hr.plan] at hopening
      exact hopening
  | unread hstage hwaiting hread =>
    rw [hstage] at htotal
    exact ⟨hr.plan, nofun, htotal⟩
  | ran hstage hact =>
    have hturn := Run.turn_of_act hact
    refine ⟨hr.plan, ?_, ?_⟩
    · rintro _ _ _ ⟨⟩
      exact hturn.withinSlots (hr.run hstage)
    · rw [hstage] at htotal
      simp only [← hturn.frame.1] at htotal
      exact htotal
  | closed hstage hover =>
    have hexecuting := hr.executing_le
    unfold Review.executing at hexecuting
    rw [hstage] at hexecuting
    exact ⟨hr.plan, nofun, hexecuting⟩
  | left hstragglers =>
    refine ⟨hr.plan, hr.run, ?_⟩
    exact Nat.le_trans (Nat.add_le_add_right (Nat.sub_le _ _) _) htotal
  | cancelled hstage =>
    rw [hstage] at htotal
    exact ⟨hr.plan, nofun, htotal⟩

/-- Every file that is read brings slots of its own. -/
theorem Staffed.actAll (h : Staffed n limit r) (hrun : r.actAll as = some r') :
    Staffed n (limit + countRead (r.openings as) * max n 1) r' := by
  induction as generalizing r limit with
  | nil =>
    cases hrun
    exact h.mono (Nat.le_add_right _ _)
  | cons a as ih =>
    obtain ⟨s, hact, hrest⟩ := Option.bind_eq_some_iff.1 hrun
    have hstep : Staffed n (limit + countRead (r.opening? a).toList * max n 1) s := by
      refine (turn_of_act hact).staffed (h.mono (Nat.le_add_right _ _)) ?_
      intro p content hopening
      have htotal := h.total
      rw [hopening]
      simp [countRead, Except.toOption]
      omega
    have hlast := ih hstep hrest
    rw [openings, hact, Option.elim_some, countRead, List.countP_append, Nat.add_mul,
      ← Nat.add_assoc]
    exact hlast

/-- Files that are opened one after the other, each when no executor of an earlier one is left, share
their slots. -/
theorem Staffed.actAll_of_none_left (h : Staffed n (max n 1) r) (hrun : r.actAll as = some r')
    (hnone : ∀ k c, as[k]? = some .openFile → r.actAll (as.take k) = some c → c.stragglers = 0) :
    Staffed n (max n 1) r' := by
  induction as generalizing r with
  | nil =>
    cases hrun
    exact h
  | cons a as ih =>
    obtain ⟨s, hact, hrest⟩ := Option.bind_eq_some_iff.1 hrun
    have hstep : Staffed n (max n 1) s := by
      refine (turn_of_act hact).staffed h ?_
      intro p content hopening
      have ha : a = .openFile := by
        by_contra hne
        rw [opening?_of_ne hne] at hopening
        cases hopening
      have hleft := hnone 0 r (congrArg some ha) rfl
      omega
    refine ih hstep hrest ?_
    intro k c hk hbefore
    exact hnone (k + 1) c hk (Option.bind_eq_some_iff.2 ⟨s, hact, hbefore⟩)

/-! ## Executors at once -/

/-- At every moment of a run over a content, which may be that of a file, at most as many executors
have been started and have not returned as there are workers, and there is at least one worker;
executors that are overdue count, and so do those that the pool lets wait.  At every moment of a
review of several files there are at most that many for each file that was read, and as long as no
file is opened while an executor of an earlier one is left, that many altogether. -/
theorem executors_within_slots (plan : ReviewPlan) :
    (∀ (signal : Bool) (telemetry : Telemetry) (context : StepContext) (content : String)
      (as : List Action) (r : Run),
      (plan.runOn signal telemetry context content).actAll as = some r →
      r.executing + as.countP Action.returns = as.countP Action.starts ∧
        r.executing ≤ max plan.workers 1) ∧
    ∀ (signal : Bool) (telemetry : Telemetry) (files : σ) (paths : List Path)
      (as : List ReviewAction) (r : Review σ),
      (Review.begin plan signal telemetry files paths).actAll as = some r →
      r.executing + as.countP ReviewAction.returns = as.countP ReviewAction.starts ∧
        r.executing ≤ countRead ((Review.begin plan signal telemetry files paths).openings as) *
          max plan.workers 1 ∧
        ((∀ k c, as[k]? = some .openFile →
            (Review.begin plan signal telemetry files paths).actAll (as.take k) = some c →
            c.stragglers = 0) →
          r.executing ≤ max plan.workers 1) := by
  refine ⟨?_, ?_⟩
  · intro signal telemetry context content as r hrun
    have hcount := Run.executing_actAll hrun
    have hslots : r.WithinSlots plan.workers :=
      Run.invariant_actAll Run.Turn.withinSlots (Run.withinSlots_begin _ _ _ _) hrun
    exact ⟨hcount.trans (Nat.zero_add _), hslots.executing_le⟩
  · intro signal telemetry files paths as r hrun
    have hcount := executing_actAll hrun
    refine ⟨hcount.trans (Nat.zero_add _), ?_, ?_⟩
    · have hstaffed := (staffed_begin plan 0 signal telemetry files paths).actAll hrun
      rw [Nat.zero_add] at hstaffed
      exact hstaffed.executing_le
    · intro hnone
      have hbegin := staffed_begin plan (max plan.workers 1) signal telemetry files paths
      exact (hbegin.actAll_of_none_left hrun hnone).executing_le

/-- One worker, and for every file one step, which runs out of time. -/
def tardyPlan : ReviewPlan where
  workers := 1
  jobs _ _ := [⟨"slow", .timedOut 30, {}⟩]

def tardyReview : Review MemoryFiles :=
  Review.begin tardyPlan false {}
    ((MemoryFiles.empty.withFile ⟨"a"⟩ "a0\n").withFile ⟨"b"⟩ "b0\n") [⟨"a"⟩, ⟨"b"⟩]

/-- The actions of a run until its executor is overdue. -/
def upToOverdue : List Action :=
  [.advance, .advance, .start 0, .expire 0]

/-- The actions of a review until the executor for the second file is overdue; those in the middle
happen between the two files. -/
def upToSecondOverdue (between : List ReviewAction) : List ReviewAction :=
  .openFile :: upToOverdue.map .inRun ++ [.inRun .advance, .closeFile] ++ between ++
    .openFile :: upToOverdue.map .inRun

theorem executors_within_slots_of_tardyPlan :
    (∃ r, (tardyPlan.runOn false {} {} "").actAll upToOverdue = some r ∧ r.executing = 1 ∧
      r.executing ≤ max tardyPlan.workers 1) ∧
    ∃ r, tardyReview.actAll (upToSecondOverdue [.leave]) = some r ∧ r.executing = 1 ∧
      r.executing ≤ max tardyPlan.workers 1 := by
  have hslots := @executors_within_slots MemoryFiles _ tardyPlan
  constructor
  · have hrun : ((tardyPlan.runOn false {} {} "").actAll upToOverdue).map Run.executing = some 1 := by
      decide +kernel
    obtain ⟨r, hr, hone⟩ := Option.map_eq_some_iff.1 hrun
    exact ⟨r, hr, hone, (hslots.1 false {} {} "" upToOverdue r hr).2⟩
  · have hreview : (tardyReview.actAll (upToSecondOverdue [.leave])).map Review.executing =
        some 1 := by
      decide +kernel
    have hnone : ∀ k < (upToSecondOverdue [.leave]).length,
        (upToSecondOverdue [.leave])[k]? = some .openFile →
        (tardyReview.actAll ((upToSecondOverdue [.leave]).take k)).all
          (fun c => c.stragglers = 0) = true := by
      decide +kernel
    obtain ⟨r, hr, hone⟩ := Option.map_eq_some_iff.1 hreview
    refine ⟨r, hr, hone, (hslots.2 false {} _ _ (upToSecondOverdue [.leave]) r hr).2.2 ?_⟩
    intro k c hk hc
    have hall := hnone k (List.getElem?_eq_some_iff.1 hk).1 hk
    rw [show tardyReview.actAll ((upToSecondOverdue [.leave]).take k) = some c from hc] at hall
    simpa using hall

/-- With one worker, two executors may be in the pool in a review of two files: the one for the first
file, which was overdue when that file was closed, and the one for the second file.  Both are at work
where the pool has two threads free. -/
theorem executors_outlive_their_file :
    ¬ ∀ (plan : ReviewPlan) (signal : Bool) (telemetry : Telemetry) (files : MemoryFiles)
      (paths : List Path) (as : List ReviewAction) (r : Review MemoryFiles),
      (Review.begin plan signal telemetry files paths).actAll as = some r →
      r.executing ≤ max plan.workers 1 := by
  intro hbound
  have hreview : (tardyReview.actAll (upToSecondOverdue [])).map Review.executing = some 2 := by
    decide +kernel
  obtain ⟨r, hr, htwo⟩ := Option.map_eq_some_iff.1 hreview
  have hone := hbound tardyPlan false {} _ _ _ r hr
  rw [htwo] at hone
  exact absurd hone (by decide)

end Review

end CodeReview
