import CodeReview.Proofs.Attempts
import CodeReview.Proofs.ClockRuns

/-!
# Turns of a review of several files

What one action does to a review, said once (`Review.Turn`), and what a whole review opens: the files
that were waiting, in their order, each with what it was found to hold (`Review.openings`).  The clock
takes the actions in one of their orders, so what holds for all orders holds for the report that it
comes to (`Review.exists_actAll_toEnd`).
-/

namespace CodeReview

namespace Review

variable {σ : Type} [FileAccess σ]

/-- The review after several actions, if each is possible in turn. -/
def actAll (r : Review σ) (as : List ReviewAction) : Option (Review σ) :=
  as.foldlM act r

/-- The file that an action opens, with what it was found to hold. -/
def opening? (r : Review σ) : ReviewAction → Option (Path × Except FileError String)
  | .openFile =>
    match r.stage, r.waiting with
    | .between .., p :: _ => ((FileAccess.read p).answer? r.files).map fun found => (p, found)
    | _, _ => none
  | _ => none

/-- The files that are opened by a sequence of actions, with what they were found to hold. -/
def openings : Review σ → List ReviewAction → List (Path × Except FileError String)
  | _, [] => []
  | r, a :: as => (r.opening? a).toList ++ (r.act a).elim [] fun r => r.openings as

/-- What an action does to a review, with the conditions on which it is possible. -/
inductive Turn (r : Review σ) : ReviewAction → Review σ → Prop
  | read {signal : Bool} {telemetry : Telemetry} {p : Path} {ps : List Path} {content : String}
      {files : σ} (hstage : r.stage = .between signal telemetry) (hwaiting : r.waiting = p :: ps)
      (hread : FileAccess.read p r.files = .ok (.ok content) files) :
      Turn r .openFile
        { r with
          files := files
          waiting := ps
          stage := .within p (lineCount content)
            (r.plan.runOn signal telemetry (fileContext p) content) }
  | unread {signal : Bool} {telemetry : Telemetry} {p : Path} {ps : List Path} {cause : FileError}
      {files : σ} (hstage : r.stage = .between signal telemetry) (hwaiting : r.waiting = p :: ps)
      (hread : FileAccess.read p r.files = .ok (.error cause) files) :
      Turn r .openFile
        ({ r with files := files, waiting := ps }.noteUnread p cause signal telemetry)
  | ran {p : Path} {lines : Nat} {run run' : Run} {a : Action}
      (hstage : r.stage = .within p lines run) (hact : run.act a = some run') :
      Turn r (.inRun a) { r with stage := .within p lines run' }
  | closed {p : Path} {lines : Nat} {run : Run} (hstage : r.stage = .within p lines run)
      (hover : run.isOver = true) :
      Turn r .closeFile
        { r with
          stage := .between run.signal run.closing
          stragglers := r.stragglers + run.executing
          report := { r.report with files := r.report.files.insert p ⟨p, lines, run.report⟩ } }
  | left (hstragglers : r.stragglers ≠ 0) :
      Turn r .leave { r with stragglers := r.stragglers - 1 }
  | cancelled {signal : Bool} {telemetry : Telemetry} (hstage : r.stage = .between signal telemetry) :
      Turn r .cancel { r with stage := .between true telemetry }

theorem turn_of_act {r r' : Review σ} {a : ReviewAction} (h : r.act a = some r') : Turn r a r' := by
  cases a with
  | openFile =>
    change r.openFile = some r' at h
    unfold openFile at h
    split at h
    · next hstage hwaiting =>
      split at h
      · cases h
      · next hread => cases h; exact .unread hstage hwaiting hread
      · next hread => cases h; exact .read hstage hwaiting hread
    · cases h
  | inRun a =>
    change r.inRun a = some r' at h
    unfold inRun at h
    split at h
    · cases h
    · next hstage =>
      obtain ⟨run', hact, rfl⟩ := Option.map_eq_some_iff.1 h
      exact .ran hstage hact
  | closeFile =>
    change r.closeFile = some r' at h
    unfold closeFile at h
    split at h
    · cases h
    · next hstage =>
      split at h
      · next hover => cases h; exact .closed hstage hover
      · cases h
  | leave =>
    simp only [act] at h
    split at h
    · cases h
    · next hstragglers => cases h; exact .left hstragglers
  | cancel =>
    simp only [act] at h
    split at h
    · next hstage => cases h; exact .cancelled hstage
    · cases h

variable {r r' : Review σ} {a : ReviewAction} {as : List ReviewAction}

theorem actAll_append {as' : List ReviewAction} (h : r.actAll as = some r') :
    r.actAll (as ++ as') = r'.actAll as' := by
  unfold actAll at h ⊢
  rw [List.foldlM_append, h]
  rfl

/-! ## Openings -/

theorem opening?_of_ne (ha : a ≠ .openFile) : r.opening? a = none := by
  cases a with
  | openFile => exact absurd rfl ha
  | _ => rfl

theorem opening?_of_read {signal : Bool} {telemetry : Telemetry} {p : Path} {ps : List Path}
    {found : Except FileError String} {files : σ} (hstage : r.stage = .between signal telemetry)
    (hwaiting : r.waiting = p :: ps) (hread : FileAccess.read p r.files = .ok found files) :
    r.opening? .openFile = some (p, found) := by
  simp [opening?, hstage, hwaiting, Attempt.answer?_of_ok hread]

/-- What an action opens is the next file that waits. -/
theorem Turn.waiting (h : Turn r a r') :
    (r.opening? a).toList.map Prod.fst ++ r'.waiting = r.waiting := by
  cases h with
  | read hstage hwaiting hread =>
    rw [opening?_of_read hstage hwaiting hread, hwaiting]
    rfl
  | unread hstage hwaiting hread =>
    rw [opening?_of_read hstage hwaiting hread, hwaiting]
    rfl
  | _ => rfl

theorem waiting_actAll (hrun : r.actAll as = some r') :
    (r.openings as).map Prod.fst ++ r'.waiting = r.waiting := by
  induction as generalizing r with
  | nil =>
    cases hrun
    rfl
  | cons a as ih =>
    obtain ⟨s, hact, hrest⟩ := Option.bind_eq_some_iff.1 hrun
    rw [openings, hact, Option.elim_some, List.map_append, List.append_assoc, ih hrest]
    exact (turn_of_act hact).waiting

/-! ## Reviews by the clock -/

omit [FileAccess σ] in
theorem inRun_of_within {p : Path} {lines : Nat} {run run' : Run} {a : Action}
    (hstage : r.stage = .within p lines run) (hact : run.act a = some run') :
    r.inRun a = some { r with stage := .within p lines run' } := by
  unfold inRun
  rw [hstage]
  simp [hact]

theorem actAll_inRun {p : Path} {lines : Nat} {run run' : Run} {as : List Action}
    (hstage : r.stage = .within p lines run) (hrun : run.actAll as = some run') :
    r.actAll (as.map .inRun) = some { r with stage := .within p lines run' } := by
  induction as generalizing r run with
  | nil =>
    cases hrun
    rw [← hstage]
    rfl
  | cons a as ih =>
    obtain ⟨s, hact, hrest⟩ := Option.bind_eq_some_iff.1 hrun
    rw [actAll, List.map_cons, List.foldlM_cons, act, inRun_of_within hstage hact]
    exact ih rfl hrest

/-- The actions that deal with a file that can be read, given those of its run. -/
theorem actAll_file {s : Review σ} {p : Path} {lines : Nat} {run run' : Run} {as : List Action}
    (hopen : r.openFile = some s) (hstage : s.stage = .within p lines run)
    (hrun : run.actAll as = some run')
    (hclose : { s with stage := .within p lines run' }.closeFile = some r') :
    r.actAll ([.openFile] ++ (as.map .inRun ++ [.closeFile])) = some r' := by
  have hfirst : r.actAll [.openFile] = some s := by
    rw [actAll, List.foldlM_cons, act, hopen]
    rfl
  rw [actAll_append hfirst, actAll_append (actAll_inRun hstage hrun)]
  exact Option.bind_eq_some_iff.2 ⟨r', hclose, rfl⟩

theorem exists_actAll_reviewNext {c c' : Clock} (h : r.reviewNext c = some (c', r')) :
    ∃ as, r.actAll as = some r' := by
  obtain ⟨s, hopen, h⟩ := Option.bind_eq_some_iff.1 h
  cases hstage : s.stage with
  | between signal telemetry =>
    rw [hstage] at h
    cases h
    refine ⟨[.openFile], ?_⟩
    rw [actAll, List.foldlM_cons, act, hopen]
    rfl
  | within p lines run =>
    rw [hstage] at h
    obtain ⟨t, hclose, h⟩ := Option.bind_eq_some_iff.1 h
    cases h
    obtain ⟨as, has⟩ := Clock.exists_actAll_drive c run
    exact ⟨_, actAll_file hopen hstage has hclose⟩

theorem exists_actAll_reviewFor (n : Nat) (c : Clock) (r : Review σ) :
    ∃ as, r.actAll as = some (reviewFor n c r) := by
  induction n generalizing c r with
  | zero => exact ⟨[], rfl⟩
  | succ n ih =>
    unfold reviewFor
    cases hnext : r.reviewNext c with
    | none => exact ⟨[], rfl⟩
    | some next =>
      obtain ⟨first, hfirst⟩ := exists_actAll_reviewNext hnext
      obtain ⟨as, has⟩ := ih next.1 next.2
      exact ⟨first ++ as, (actAll_append hfirst).trans has⟩

/-- The clock takes the actions of a review in one of their orders. -/
theorem exists_actAll_toEnd (r : Review σ) : ∃ as, r.actAll as = some r.toEnd :=
  exists_actAll_reviewFor r.waiting.length {} r

end Review

end CodeReview
