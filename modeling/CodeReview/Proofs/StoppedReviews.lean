import CodeReview.Files.Memory
import CodeReview.Proofs.Lookup
import CodeReview.Proofs.ReviewTurns
import CodeReview.Proofs.Stopping
import Mathlib.Data.List.Induction

/-!
# Stopping a review of several files

The signal is one for all files of a review.  Once it was given, the run of every later file is halted
from its beginning, so its report has all steps skipped, and files that cannot be read are noted as
before.  The report of a review is told by what its files were found to hold and by where the run of
each was cut (`notedAll`); `Follows` carries this along a review, and `Turn` says once what an action
does to one.
-/

namespace CodeReview

/-! ## Maps that are filled from a list -/

/-- Of the items that give an entry for a key, one gives the value that is found afterwards. -/
theorem OrderedMap.exists_of_foldl_insert {κ α β : Type} [Keyed κ] {entry : α → Option (κ × β)}
    {as : List α} {a : α} (ha : a ∈ as) {e : κ × β} (he : entry a = some e) (m : OrderedMap κ β) :
    ∃ b ∈ as, ∃ d, entry b = some d ∧ key d.1 = key e.1 ∧
      (as.foldl (fun m a => (entry a).elim m fun e => m.insert e.1 e.2) m).find? e.1 =
        some d.2 := by
  induction as using List.reverseRecOn with
  | nil => cases ha
  | append_singleton as c ih =>
    rw [List.foldl_append, List.foldl_cons, List.foldl_nil]
    by_cases hc : ∃ d, entry c = some d ∧ key d.1 = key e.1
    · obtain ⟨d, hd, hkey⟩ := hc
      refine ⟨c, by simp, d, hd, hkey, ?_⟩
      rw [hd, Option.elim_some, find?_insert, if_pos hkey]
    · have hmem : a ∈ as := by
        rcases List.mem_append.1 ha with hold | hnew
        · exact hold
        · rw [List.mem_singleton.1 hnew] at he
          exact absurd ⟨e, he, rfl⟩ hc
      obtain ⟨b, hb, d, hd, hkey, hfound⟩ := ih hmem
      refine ⟨b, List.mem_append_left _ hb, d, hd, hkey, ?_⟩
      cases hentry : entry c with
      | none => exact hfound
      | some x =>
        rw [Option.elim_some, find?_insert, if_neg fun hx => hc ⟨x, hentry, hx⟩]
        exact hfound

/-! ## What is noted of files -/

/-- A file that was opened: what it was found to hold, and where its run was cut, if it was. -/
structure Noted where
  path : Path
  found : Except FileError String
  cut : Option Nat

namespace Noted

/-- The entry that a file leaves among the reports. -/
def report? (plan : ReviewPlan) (n : Noted) : Option (Path × FileReport) :=
  n.found.toOption.map fun content =>
    (n.path, ⟨n.path, lineCount content,
      .cutAt (plan.jobs (fileContext n.path) content) n.cut⟩)

/-- The entry that a file leaves among the failures. -/
def failure? (n : Noted) : Option (Path × String) :=
  match n.found with
  | .ok _ => none
  | .error cause => some (n.path, (RunError.ofFileError n.path cause).message)

def add (plan : ReviewPlan) (report : DirectoryReport) (n : Noted) : DirectoryReport where
  files := (n.report? plan).elim report.files fun e => report.files.insert e.1 e.2
  failures := n.failure?.elim report.failures fun e => report.failures.insert e.1 e.2

end Noted

/-- The report of a review in which these files were dealt with. -/
def notedAll (plan : ReviewPlan) (ns : List Noted) : DirectoryReport :=
  ns.foldl (Noted.add plan) .empty

theorem notedAll_append (plan : ReviewPlan) (ns ms : List Noted) :
    notedAll plan (ns ++ ms) = ms.foldl (Noted.add plan) (notedAll plan ns) :=
  List.foldl_append

namespace Noted

variable {plan : ReviewPlan} {n : Noted} {ns : List Noted}

theorem report?_eq_some {e : Path × FileReport} (h : n.report? plan = some e) :
    ∃ content, n.found = .ok content ∧ e = (n.path, ⟨n.path, lineCount content,
      .cutAt (plan.jobs (fileContext n.path) content) n.cut⟩) := by
  unfold report? at h
  cases hfound : n.found with
  | error cause =>
    rw [hfound] at h
    cases h
  | ok content =>
    rw [hfound] at h
    cases h
    exact ⟨content, rfl, rfl⟩

theorem failure?_eq_some {e : Path × String} (h : n.failure? = some e) :
    ∃ cause, n.found = .error cause ∧ e = (n.path, (RunError.ofFileError n.path cause).message) := by
  unfold failure? at h
  cases hfound : n.found with
  | ok content =>
    rw [hfound] at h
    cases h
  | error cause =>
    rw [hfound] at h
    cases h
    exact ⟨cause, rfl, rfl⟩

/-- A file that could be read has a report, made of the last reading of that file. -/
theorem exists_report (hn : n ∈ ns) {content : String} (hfound : n.found = .ok content)
    (report : DirectoryReport) :
    ∃ m ∈ ns, ∃ text, m.found = .ok text ∧ key m.path = key n.path ∧
      (ns.foldl (add plan) report).files.find? n.path =
        some ⟨m.path, lineCount text, .cutAt (plan.jobs (fileContext m.path) text) m.cut⟩ := by
  have hfiles : (ns.foldl (add plan) report).files =
      ns.foldl (fun m n => (n.report? plan).elim m fun e => m.insert e.1 e.2) report.files :=
    (List.foldl_hom DirectoryReport.files fun _ _ => rfl).symm
  have he : n.report? plan = some (n.path, ⟨n.path, lineCount content,
      .cutAt (plan.jobs (fileContext n.path) content) n.cut⟩) := by
    rw [report?, hfound]
    rfl
  obtain ⟨m, hm, d, hd, hkey, hfind⟩ := OrderedMap.exists_of_foldl_insert hn he report.files
  obtain ⟨text, htext, rfl⟩ := report?_eq_some hd
  exact ⟨m, hm, text, htext, hkey, hfiles ▸ hfind⟩

/-- A file that could not be read has a failure, made of the last such attempt on that file. -/
theorem exists_failure (hn : n ∈ ns) {cause : FileError} (hfound : n.found = .error cause)
    (report : DirectoryReport) :
    ∃ m ∈ ns, ∃ why, m.found = .error why ∧ key m.path = key n.path ∧
      (ns.foldl (add plan) report).failures.find? n.path =
        some (RunError.ofFileError m.path why).message := by
  have hfailures : (ns.foldl (add plan) report).failures =
      ns.foldl (fun m n => n.failure?.elim m fun e => m.insert e.1 e.2) report.failures :=
    (List.foldl_hom DirectoryReport.failures fun _ _ => rfl).symm
  have he : n.failure? = some (n.path, (RunError.ofFileError n.path cause).message) := by
    rw [failure?, hfound]
  obtain ⟨m, hm, d, hd, hkey, hfind⟩ := OrderedMap.exists_of_foldl_insert hn he report.failures
  obtain ⟨why, hwhy, rfl⟩ := failure?_eq_some hd
  exact ⟨m, hm, why, hwhy, hkey, hfailures ▸ hfind⟩

end Noted

/-! ## The run of a file -/

/-- A run over the jobs of a file that was not cancelled or is halted, and where it is cut. -/
inductive Underway (plan : ReviewPlan) (p : Path) (content : String) :
    Bool → Option Nat → Run → Prop
  | free {run : Run}
      (hsteady : run.Steady (distinctBy Job.step (plan.jobs (fileContext p) content)) none)
      (hsignal : run.signal = false) (hslot : plan.workers ≤ 1 → run.OneSlot) :
      Underway plan p content false none run
  | halted {run : Run} {seen : Option Nat}
      (hsteady : run.Steady (distinctBy Job.step (plan.jobs (fileContext p) content)) seen)
      (hhalted : run.Halted) : Underway plan p content true (some run.phases.length) run

namespace Underway

variable {plan : ReviewPlan} {p : Path} {content : String} {stopping : Bool} {cut : Option Nat}
  {run run' : Run} {a : Action}

theorem begin (plan : ReviewPlan) (p : Path) (content : String) (telemetry : Telemetry) :
    Underway plan p content stopping (if stopping then some 0 else none)
      (plan.runOn stopping telemetry (fileContext p) content) := by
  have hsteady := Run.steady_begin plan.workers stopping telemetry (plan.jobs (fileContext p) content)
  cases stopping with
  | false => exact .free hsteady rfl fun hone => Run.oneSlot_begin hone false telemetry _
  | true => exact .halted hsteady ⟨rfl, nofun⟩

theorem steady (h : Underway plan p content stopping cut run) :
    ∃ seen, run.Steady (distinctBy Job.step (plan.jobs (fileContext p) content)) seen := by
  cases h with
  | free hsteady => exact ⟨_, hsteady⟩
  | halted hsteady => exact ⟨_, hsteady⟩

theorem act (h : Underway plan p content stopping cut run) (hact : run.act a = some run')
    (ha : stopping = false → a ≠ .cancel) : Underway plan p content stopping cut run' := by
  have hturn := Run.turn_of_act hact
  cases h with
  | free hsteady hsignal hslot =>
    have hsteady' := hsteady.act hact
    rw [hsignal] at hsteady'
    refine .free (by simpa using hsteady') ?_ fun hone => hturn.oneSlot (hslot hone)
    rw [hturn.frame.2, hsignal]
    simpa using ha rfl
  | halted hsteady hhalted =>
    obtain ⟨hhalted', hlength, -⟩ := hturn.halted hhalted
    rw [← hlength]
    exact .halted (hsteady.act hact) hhalted'

theorem actAll {as : List Action} (h : Underway plan p content stopping cut run)
    (hrun : run.actAll as = some run') (has : stopping = false → .cancel ∉ as) :
    Underway plan p content stopping cut run' := by
  induction as generalizing run with
  | nil =>
    cases hrun
    exact h
  | cons a as ih =>
    obtain ⟨s, hact, hrest⟩ := Option.bind_eq_some_iff.1 hrun
    refine ih (h.act hact ?_) hrest ?_
    · rintro hstopping rfl
      exact has hstopping List.mem_cons_self
    · intro hstopping hmem
      exact has hstopping (List.mem_cons_of_mem a hmem)

theorem ne_start (h : Underway plan p content true cut run) (hact : run.act a = some run') (i : Nat) :
    a ≠ .start i := by
  cases h with
  | halted hsteady hhalted => exact ((Run.turn_of_act hact).halted hhalted).2.2 i

/-- Cancelling while the executor of a job runs halts the run of a file at that job. -/
theorem cancel (h : Underway plan p content false cut run) (hone : plan.workers ≤ 1) {k : Nat}
    (hexecutes : run.phases[k]?.any JobPhase.executes = true) :
    Underway plan p content true (some (k + 1)) { run with signal := true } ∧
      (∀ i, run.started i = if i ≤ k then 1 else 0) ∧
      k + 1 ≤ (distinctBy Job.step (plan.jobs (fileContext p) content)).length := by
  obtain ⟨q, hq, hexecutes⟩ := (Option.any_eq_true _ _).1 hexecutes
  cases h with
  | free hsteady hsignal hslot =>
    obtain ⟨hhalted, hlength⟩ := (hslot hone).halted hq hexecutes
    refine ⟨?_, ?_, hlength ▸ hsteady.room⟩
    · rw [← hlength]
      have hsteady' := hsteady.act (a := .cancel) rfl
      exact .halted hsteady' hhalted
    · intro i
      have hstarted := Run.started_of_quiet hhalted.quiet i
      rw [hlength] at hstarted
      refine Eq.trans hstarted ?_
      simp only [Nat.lt_succ_iff]

theorem report (h : Underway plan p content stopping cut run) (hover : run.isOver = true) :
    run.report = .cutAt (plan.jobs (fileContext p) content) cut := by
  cases h with
  | free hsteady hsignal hslot => exact hsteady.report_eq hover
  | halted hsteady hhalted => exact hsteady.report_cutAt hover

/-- The signal of the run of a file is that of the review. -/
theorem signal (h : Underway plan p content stopping cut run) : run.signal = stopping := by
  cases h with
  | free hsteady hsignal hslot => exact hsignal
  | halted hsteady hhalted => exact hhalted.signal

end Underway

namespace Review

variable {σ : Type}

/-! ## What a review has noted -/

/-- Whether an action cancels the review. -/
def isCancelling : ReviewAction → Bool
  | .cancel | .inRun .cancel => true
  | _ => false

/-- How an opened file is noted, in a review that is being stopped or not. -/
def noteOf (stopping : Bool) (x : Path × Except FileError String) : Noted :=
  ⟨x.1, x.2, if stopping then some 0 else none⟩

/-- A review that has dealt with the noted files, or is dealing with the last of them. -/
inductive Follows (plan : ReviewPlan) (stopping : Bool) : List Noted → Review σ → Prop
  | between {ns : List Noted} {r : Review σ} {telemetry : Telemetry} (hplan : r.plan = plan)
      (hstage : r.stage = .between stopping telemetry) (hreport : r.report = notedAll plan ns) :
      Follows plan stopping ns r
  | within {ns : List Noted} {r : Review σ} {p : Path} {content : String} {cut : Option Nat}
      {run : Run} (hplan : r.plan = plan) (hstage : r.stage = .within p (lineCount content) run)
      (hreport : r.report = notedAll plan ns) (hrun : Underway plan p content stopping cut run) :
      Follows plan stopping (ns ++ [⟨p, .ok content, cut⟩]) r

variable {plan : ReviewPlan} {stopping : Bool} {ns : List Noted} {r r' : Review σ}
  {a : ReviewAction}

theorem follows_begin (plan : ReviewPlan) (signal : Bool) (telemetry : Telemetry) (files : σ)
    (paths : List Path) : Follows plan signal [] (Review.begin plan signal telemetry files paths) :=
  .between rfl rfl rfl

theorem Follows.of_between (h : Follows plan stopping ns r) {signal : Bool}
    {telemetry : Telemetry} (hstage : r.stage = .between signal telemetry) :
    r.plan = plan ∧ signal = stopping ∧ r.report = notedAll plan ns := by
  cases h with
  | between hplan hbetween hreport =>
    rw [hstage] at hbetween
    cases hbetween
    exact ⟨hplan, rfl, hreport⟩
  | within hplan hwithin =>
    rw [hstage] at hwithin
    cases hwithin

theorem Follows.of_within (h : Follows plan stopping ns r) {p : Path} {lines : Nat} {run : Run}
    (hstage : r.stage = .within p lines run) :
    ∃ ms content cut, ns = ms ++ [⟨p, .ok content, cut⟩] ∧ r.plan = plan ∧
      lines = lineCount content ∧ r.report = notedAll plan ms ∧
      Underway plan p content stopping cut run := by
  cases h with
  | between hplan hbetween =>
    rw [hstage] at hbetween
    cases hbetween
  | within hplan hwithin hreport hrun =>
    rw [hstage] at hwithin
    cases hwithin
    exact ⟨_, _, _, rfl, hplan, rfl, hreport, hrun⟩

/-- A review that is over has dealt with all files. -/
theorem Follows.over (h : Follows plan stopping ns r) (hover : r.isOver = true) :
    r.waiting = [] ∧ r.report = notedAll plan ns := by
  cases h with
  | between hplan hstage hreport =>
    refine ⟨?_, hreport⟩
    simpa [isOver, hstage] using hover
  | within hplan hstage => simp [isOver, hstage] at hover

/-- What a review that is stopped at the job at a place has noted. -/
theorem Follows.cancel {before : List (Path × Except FileError String)}
    (h : Follows plan false (before.map (noteOf false)) r) (hone : plan.workers ≤ 1) {p : Path}
    {lines k : Nat} {run : Run} (hstage : r.stage = .within p lines run)
    (hexecutes : run.phases[k]?.any JobPhase.executes = true) :
    ∃ front content, before = front ++ [(p, .ok content)] ∧
      Follows plan true (front.map (noteOf false) ++ [⟨p, .ok content, some (k + 1)⟩])
        { r with stage := .within p lines { run with signal := true } } ∧
      (∀ i, run.started i = if i ≤ k then 1 else 0) ∧
      k + 1 ≤ (distinctBy Job.step (plan.jobs (fileContext p) content)).length := by
  obtain ⟨ms, content, cut, hnotes, hplan, rfl, hreport, hunder⟩ := h.of_within hstage
  obtain ⟨hstopped, hstarted, hk⟩ := hunder.cancel hone hexecutes
  obtain ⟨front, last, rfl, rfl, hlast⟩ := List.map_eq_append_iff.1 hnotes
  obtain ⟨⟨q, found⟩, rfl, hnote⟩ := List.map_eq_singleton_iff.1 hlast
  cases hnote
  exact ⟨front, content, rfl, .within hplan rfl hreport hstopped, hstarted, hk⟩

variable [FileAccess σ]

/-- An action adds the file that it opens to those that are noted. -/
theorem Follows.act (h : Follows plan stopping ns r) (hact : r.act a = some r')
    (ha : stopping = false → isCancelling a = false) :
    Follows plan stopping (ns ++ ((r.opening? a).map (noteOf stopping)).toList) r' := by
  by_cases hopen : a = .openFile
  · subst hopen
    cases turn_of_act hact with
    | @read signal telemetry p ps content files hstage hwaiting hread =>
      obtain ⟨rfl, rfl, hreport⟩ := h.of_between hstage
      rw [opening?_of_read hstage hwaiting hread]
      exact .within rfl rfl hreport (Underway.begin r.plan p content telemetry)
    | @unread signal telemetry p ps cause files hstage hwaiting hread =>
      obtain ⟨hplan, rfl, hreport⟩ := h.of_between hstage
      rw [opening?_of_read hstage hwaiting hread]
      refine .between hplan rfl ?_
      rw [Option.map_some, Option.toList_some, notedAll_append, ← hreport]
      rfl
  · rw [opening?_of_ne hopen, Option.map_none, Option.toList_none, List.append_nil]
    cases turn_of_act hact with
    | read => exact absurd rfl hopen
    | unread => exact absurd rfl hopen
    | ran hstage hrun =>
      obtain ⟨ms, content, cut, rfl, hplan, rfl, hreport, hunder⟩ := h.of_within hstage
      refine .within hplan rfl hreport (hunder.act hrun ?_)
      rintro hstopping rfl
      cases ha hstopping
    | closed hstage hover =>
      obtain ⟨ms, content, cut, rfl, hplan, rfl, hreport, hunder⟩ := h.of_within hstage
      refine .between hplan (by rw [hunder.signal]) ?_
      rw [notedAll_append, ← hreport, hunder.report hover]
      rfl
    | left hstragglers =>
      cases h with
      | between hplan hstage hreport => exact .between hplan hstage hreport
      | within hplan hstage hreport hunder => exact .within hplan hstage hreport hunder
    | @cancelled signal telemetry hstage =>
      obtain ⟨hplan, rfl, hreport⟩ := h.of_between hstage
      cases signal with
      | false => cases ha rfl
      | true => exact .between hplan rfl hreport

theorem Follows.actAll {as : List ReviewAction} (h : Follows plan stopping ns r)
    (hrun : r.actAll as = some r')
    (has : stopping = false → ∀ a ∈ as, isCancelling a = false) :
    Follows plan stopping (ns ++ (r.openings as).map (noteOf stopping)) r' := by
  induction as generalizing r ns with
  | nil =>
    cases hrun
    rw [openings, List.map_nil, List.append_nil]
    exact h
  | cons a as ih =>
    obtain ⟨s, hact, hrest⟩ := Option.bind_eq_some_iff.1 hrun
    have hs := h.act hact fun hstopping => has hstopping a List.mem_cons_self
    have hr' := ih hs hrest fun hstopping b hb => has hstopping b (List.mem_cons_of_mem a hb)
    rw [openings, hact, Option.elim_some, List.map_append, ← Option.toList_map, ← List.append_assoc]
    exact hr'

/-- No executor is started in a review that is being stopped. -/
theorem Follows.ne_start (h : Follows plan true ns r) (hact : r.act a = some r') (i : Nat) :
    a ≠ .inRun (.start i) := by
  rintro rfl
  cases turn_of_act hact with
  | ran hstage hrun =>
    obtain ⟨ms, content, cut, rfl, hplan, rfl, hreport, hunder⟩ := h.of_within hstage
    exact hunder.ne_start hrun i rfl

theorem Follows.not_mem_start {as : List ReviewAction} (h : Follows plan true ns r)
    (hrun : r.actAll as = some r') (i : Nat) :
    .inRun (.start i) ∉ as := by
  induction as generalizing r ns with
  | nil => exact List.not_mem_nil
  | cons a as ih =>
    obtain ⟨s, hact, hrest⟩ := Option.bind_eq_some_iff.1 hrun
    rintro (_ | ⟨_, hmem⟩)
    · exact h.ne_start hact i rfl
    · exact ih (h.act hact nofun) hrest hmem

/-! ## The way to the end -/

/-- How many actions other than cancelling a review still takes before it opens a file, at most. -/
def rest (r : Review σ) : Nat :=
  match r.stage with
  | .between .. => r.stragglers
  | .within _ _ run => r.stragglers + run.rest + 1

/-- How many actions other than cancelling an opened file takes, at most. -/
def costOf (plan : ReviewPlan) (x : Path × Except FileError String) : Nat :=
  match x.2 with
  | .ok content => 5 * (distinctBy Job.step (plan.jobs (fileContext x.1) content)).length + 3
  | .error _ => 1

omit [FileAccess σ] in
theorem rest_between {signal : Bool} {telemetry : Telemetry}
    (hstage : r.stage = .between signal telemetry) : r.rest = r.stragglers := by
  rw [rest, hstage]

omit [FileAccess σ] in
theorem rest_within {p : Path} {lines : Nat} {run : Run} (hstage : r.stage = .within p lines run) :
    r.rest = r.stragglers + run.rest + 1 := by
  rw [rest, hstage]

/-- An action other than cancelling takes work off a review, or brings the work of a file that it
opens. -/
theorem Follows.rest_act (h : Follows plan stopping ns r) (hact : r.act a = some r') :
    (if isCancelling a then 0 else 1) + r'.rest ≤
      r.rest + ((r.opening? a).toList.map (costOf plan)).sum := by
  cases turn_of_act hact with
  | @read signal telemetry p ps content files hstage hwaiting hread =>
    obtain ⟨rfl, rfl, hreport⟩ := h.of_between hstage
    have hbegin := Run.rest_begin r.plan.workers signal telemetry
      (r.plan.jobs (fileContext p) content)
    rw [opening?_of_read hstage hwaiting hread, rest_between hstage, rest_within rfl]
    change 1 + (r.stragglers + Run.rest (.begin ..) + 1) ≤
      r.stragglers + (5 * (distinctBy Job.step (r.plan.jobs (fileContext p) content)).length + 3 + 0)
    omega
  | unread hstage hwaiting hread =>
    rw [opening?_of_read hstage hwaiting hread, rest_between hstage, rest_between rfl]
    exact Nat.le_of_eq (Nat.add_comm 1 r.stragglers)
  | @ran p lines run run' a hstage hrun =>
    obtain ⟨ms, content, cut, rfl, hplan, rfl, hreport, hunder⟩ := h.of_within hstage
    obtain ⟨seen, hsteady⟩ := hunder.steady
    rw [opening?_of_ne (by simp), rest_within hstage, rest_within rfl]
    by_cases ha : a = .cancel
    · subst ha
      cases hrun
      exact Nat.le_of_eq (Nat.zero_add _)
    · have hless := hsteady.rest_lt hrun ha
      have hone : (if isCancelling (.inRun a) then 0 else 1) ≤ 1 := by split <;> decide
      change _ + (r.stragglers + run'.rest + 1) ≤ r.stragglers + run.rest + 1 + 0
      omega
  | @closed p lines run hstage hover =>
    have hleft := run.executing_le_rest
    rw [rest_within hstage, rest_between rfl]
    change 1 + (r.stragglers + run.executing) ≤ r.stragglers + run.rest + 1 + 0
    omega
  | left hstragglers =>
    have hleave : 1 + rest { r with stragglers := r.stragglers - 1 } = r.rest := by
      unfold rest
      cases r.stage <;> simp only <;> omega
    exact Nat.le_of_eq hleave
  | cancelled hstage =>
    rw [rest_between hstage, rest_between rfl]
    exact Nat.le_of_eq (Nat.zero_add _)

theorem Follows.countP_add_rest_le {as : List ReviewAction} (h : Follows plan stopping ns r)
    (hrun : r.actAll as = some r')
    (has : stopping = false → ∀ a ∈ as, isCancelling a = false) :
    as.countP (fun a => !isCancelling a) + r'.rest ≤
      r.rest + ((r.openings as).map (costOf plan)).sum := by
  induction as generalizing r ns with
  | nil =>
    cases hrun
    simp
  | cons a as ih =>
    obtain ⟨s, hact, hrest⟩ := Option.bind_eq_some_iff.1 hrun
    have hfirst := h.rest_act hact
    have hs := h.act hact fun hstopping => has hstopping a List.mem_cons_self
    have hothers := ih hs hrest fun hstopping b hb => has hstopping b (List.mem_cons_of_mem a hb)
    rw [openings, hact, Option.elim_some, List.map_append, List.sum_append, List.countP_cons]
    have hcount : (if (!isCancelling a) = true then 1 else 0) = if isCancelling a then 0 else 1 := by
      cases isCancelling a <;> rfl
    omega

/-- As long as a review is not over it goes on, unless reading the next file crashes. -/
theorem Follows.exists_act (h : Follows plan stopping ns r) (hover : r.isOver = false) :
    (∃ a, isCancelling a = false ∧ (r.act a).isSome = true) ∨
      ∃ p ps e files, r.waiting = p :: ps ∧ FileAccess.read p r.files = .error e files := by
  cases h with
  | between hplan hstage hreport =>
    cases hwaiting : r.waiting with
    | nil => simp [isOver, hstage, hwaiting] at hover
    | cons p ps =>
      cases hread : FileAccess.read p r.files with
      | error e files => exact .inr ⟨p, ps, e, files, rfl, hread⟩
      | ok found files =>
        refine .inl ⟨.openFile, rfl, ?_⟩
        cases found <;> simp [Review.act, openFile, hstage, hwaiting, hread]
  | @within ms _ p content cut run hplan hstage hreport hunder =>
    left
    cases hrun : run.isOver with
    | true => exact ⟨.closeFile, rfl, by simp [Review.act, closeFile, hstage, hrun]⟩
    | false =>
      obtain ⟨seen, hsteady⟩ := hunder.steady
      obtain ⟨a, ha, hact⟩ := hsteady.exists_act hrun
      refine ⟨.inRun a, ?_, by simpa [Review.act, inRun, hstage] using hact⟩
      cases a with
      | cancel => exact absurd rfl ha
      | _ => rfl

/-! ## Stopped reviews -/

/-- The report of a review that was stopped by the executor of the job at a place, in the run over the
file at `p`.  The files in `front` were opened before that file and those in `late` after it. -/
structure StoppedReport (plan : ReviewPlan) (front : List (Path × Except FileError String))
    (p : Path) (content : String) (k : Nat) (late : List (Path × Except FileError String))
    (report : DirectoryReport) : Prop where
  noted : report = notedAll plan
    (front.map (noteOf false) ++ [⟨p, .ok content, some (k + 1)⟩] ++ late.map (noteOf true))
  /-- The report on the file accounts for its jobs up to that one, unless the file was listed again. -/
  stopped : (∀ x ∈ late, key x.1 ≠ key p) →
    ∃ run, report.files.find? p = some ⟨p, lineCount content, run⟩ ∧
      run.Accounts (plan.jobs (fileContext p) content) (k + 1) ∧
      (run.cancelled = true ↔
        k + 1 < (distinctBy Job.step (plan.jobs (fileContext p) content)).length)
  /-- A later file that could be read has a report with all its steps skipped; of several readings of
  one file, one counts. -/
  read : ∀ q text, (q, .ok text) ∈ late →
    ∃ q' text' run, (q', .ok text') ∈ late ∧ key q' = key q ∧
      report.files.find? q = some ⟨q', lineCount text', run⟩ ∧
      run.Accounts (plan.jobs (fileContext q') text') 0 ∧
      (run.cancelled = true ↔ plan.jobs (fileContext q') text' ≠ [])
  unread : ∀ q cause, (q, .error cause) ∈ late →
    ∃ q' cause', (q', .error cause') ∈ late ∧ key q' = key q ∧
      report.failures.find? q = some (RunError.ofFileError q' cause').message

/-- What becomes of such a review, after all its actions: it comes to its end unless reading a file
crashes, and there it has dealt with all files. -/
structure StopsReview (plan : ReviewPlan) (paths : List Path)
    (front : List (Path × Except FileError String)) (p : Path) (content : String) (k : Nat)
    (late : List (Path × Except FileError String)) (as : List ReviewAction) (r : Review σ) :
    Prop where
  bounded : as.countP (fun a => !isCancelling a) ≤
    ((front ++ [(p, Except.ok content)] ++ late).map (costOf plan)).sum
  goesOn : r.isOver = false → (∃ a, isCancelling a = false ∧ (r.act a).isSome = true) ∨
    ∃ q ps e files, r.waiting = q :: ps ∧ FileAccess.read q r.files = .error e files
  opened : r.isOver = true → (front ++ [(p, Except.ok content)] ++ late).map Prod.fst = paths
  report : r.isOver = true → StoppedReport plan front p content k late r.report

theorem stoppedReport (front : List (Path × Except FileError String)) {p : Path} {content : String}
    {k : Nat} (hk : k + 1 ≤ (distinctBy Job.step (plan.jobs (fileContext p) content)).length)
    (late : List (Path × Except FileError String)) :
    StoppedReport plan front p content k late (notedAll plan
      (front.map (noteOf false) ++ [⟨p, .ok content, some (k + 1)⟩] ++ late.map (noteOf true))) := by
  refine ⟨rfl, ?_, ?_, ?_⟩
  · intro hlate
    have hnote : (⟨p, .ok content, some (k + 1)⟩ : Noted) ∈
        [⟨p, .ok content, some (k + 1)⟩] ++ late.map (noteOf true) :=
      List.mem_append_left _ List.mem_cons_self
    obtain ⟨m, hm, text, htext, hkey, hfind⟩ :=
      Noted.exists_report hnote rfl (notedAll plan (front.map (noteOf false)))
    rw [List.append_assoc, notedAll_append]
    rcases List.mem_append.1 hm with hm | hm
    · obtain rfl := List.mem_singleton.1 hm
      cases htext
      exact ⟨_, hfind, Run.accounts_cutAt hk, Run.cancelled_cutAt _ _⟩
    · obtain ⟨x, hx, rfl⟩ := List.mem_map.1 hm
      exact absurd hkey (hlate x hx)
  · intro q text hq
    have hnote : noteOf true (q, .ok text) ∈ late.map (noteOf true) := List.mem_map_of_mem hq
    rw [notedAll_append]
    obtain ⟨m, hm, text', htext, hkey, hfind⟩ := Noted.exists_report hnote rfl (notedAll plan _)
    obtain ⟨⟨q', found⟩, hx, rfl⟩ := List.mem_map.1 hm
    obtain rfl : found = .ok text' := htext
    exact ⟨q', text', _, hx, hkey, hfind, Run.accounts_cutAt (Nat.zero_le _),
      Run.cancelled_cutAt_zero _⟩
  · intro q cause hq
    have hnote : noteOf true (q, .error cause) ∈ late.map (noteOf true) := List.mem_map_of_mem hq
    rw [notedAll_append]
    obtain ⟨m, hm, why, hwhy, hkey, hfind⟩ := Noted.exists_failure hnote rfl (notedAll plan _)
    obtain ⟨⟨q', found⟩, hx, rfl⟩ := List.mem_map.1 hm
    obtain rfl : found = .error why := hwhy
    exact ⟨q', why, hx, hkey, hfind⟩

theorem stopsReview_of_cancel (hone : plan.workers ≤ 1) {telemetry : Telemetry} {files : σ}
    {paths : List Path} {before after : List ReviewAction} {k : Nat} {p : Path} {lines : Nat}
    {run : Run} {c : Review σ}
    (hbefore : (Review.begin plan false telemetry files paths).actAll before = some c)
    (hquiet : ∀ a ∈ before, isCancelling a = false) (hstage : c.stage = .within p lines run)
    (hexecutes : run.phases[k]?.any JobPhase.executes = true)
    (hafter : c.actAll (.inRun .cancel :: after) = some r) :
    ∃ front content,
      (Review.begin plan false telemetry files paths).openings before =
        front ++ [(p, .ok content)] ∧
      (∀ i, run.started i = if i ≤ k then 1 else 0) ∧
      (∀ i, .inRun (.start i) ∉ after) ∧
      StopsReview plan paths front p content k (c.openings (.inRun .cancel :: after))
        (before ++ .inRun .cancel :: after) r := by
  have hbegin := follows_begin plan false telemetry files paths
  have hfollows := hbegin.actAll hbefore fun _ => hquiet
  rw [List.nil_append] at hfollows
  obtain ⟨front, content, hopened, hstopped, hstarted, hk⟩ := hfollows.cancel hone hstage hexecutes
  have hact : c.act (.inRun .cancel) =
      some { c with stage := .within p lines { run with signal := true } } :=
    inRun_of_within hstage rfl
  have hrest : Review.actAll { c with stage := .within p lines { run with signal := true } } after =
      some r := by
    rw [actAll, List.foldlM_cons, hact] at hafter
    exact hafter
  have hany : true = false → ∀ a ∈ after, isCancelling a = false := fun h => Bool.noConfusion h
  have hend := hstopped.actAll hrest hany
  have hlate : c.openings (.inRun .cancel :: after) =
      Review.openings { c with stage := .within p lines { run with signal := true } } after := by
    rw [openings, hact]
    rfl
  refine ⟨front, content, hopened, hstarted, fun i => hstopped.not_mem_start hrest i, ?_⟩
  rw [hlate]
  refine ⟨?_, hend.exists_act, ?_, ?_⟩
  · have hfirst := hbegin.countP_add_rest_le hbefore fun _ => hquiet
    have hothers := hstopped.countP_add_rest_le hrest hany
    have hzero : (Review.begin plan false telemetry files paths).rest = 0 := rfl
    have hsame : rest { c with stage := .within p lines { run with signal := true } } = c.rest := by
      rw [rest_within hstage, rest_within rfl]
      rfl
    have hcancel : (after.countP fun a => !isCancelling a) =
        (ReviewAction.inRun .cancel :: after).countP fun a => !isCancelling a := rfl
    rw [List.countP_append, ← hcancel, ← hopened, List.map_append, List.sum_append]
    omega
  · intro hover
    have hfirst := waiting_actAll hbefore
    have hothers := waiting_actAll hrest
    rw [(hend.over hover).1, List.append_nil] at hothers
    rw [← hopened, List.map_append, hothers]
    exact hfirst
  · intro hover
    rw [(hend.over hover).2]
    exact stoppedReport front hk _

/-- With one worker slot an executor that cancels is the last one to run: the jobs up to its own come
out as they do, and the later ones are skipped, over a content (`Run.StopsAt`) and, when no one cancels
before, over the files of a review (`StopsReview`).  It may be overdue by then; as long as no executor
is, one that runs belongs to the file under review. -/
theorem cancelling_executor_is_last (hone : plan.workers ≤ 1) :
    (∀ (telemetry : Telemetry) (context : StepContext) (content : String)
      (before after : List Action) (k : Nat) (s r : Run),
      (plan.runOn false telemetry context content).actAll before = some s →
      s.phases[k]?.any JobPhase.executes = true →
      s.actAll (.cancel :: after) = some r →
      Run.StopsAt (plan.jobs context content) k (before ++ .cancel :: after) r) ∧
    ∀ (telemetry : Telemetry) (files : σ) (paths : List Path) (before after : List ReviewAction)
      (k : Nat) (p : Path) (lines : Nat) (run : Run) (c r : Review σ),
      (Review.begin plan false telemetry files paths).actAll before = some c →
      (∀ a ∈ before, isCancelling a = false) →
      c.stage = .within p lines run →
      run.phases[k]?.any JobPhase.executes = true →
      c.actAll (.inRun .cancel :: after) = some r →
      ∃ front content,
        (Review.begin plan false telemetry files paths).openings before =
          front ++ [(p, .ok content)] ∧
        (∀ i, run.started i = if i ≤ k then 1 else 0) ∧
        (∀ i, .inRun (.start i) ∉ after) ∧
        StopsReview plan paths front p content k (c.openings (.inRun .cancel :: after))
          (before ++ .inRun .cancel :: after) r := by
  refine ⟨?_, ?_⟩
  · intro telemetry context content before after k s r hbefore hexecutes hafter
    exact Run.stopsAt_of_cancel hone hbefore hexecutes hafter
  · intro telemetry files paths before after k p lines run c r hbefore hquiet hstage hexecutes hafter
    exact stopsReview_of_cancel hone hbefore hquiet hstage hexecutes hafter

/-- Three steps for every file. -/
def haltingPlan : ReviewPlan where
  workers := 0
  jobs _ _ :=
    [⟨"lint", .failed "no rules", {}⟩, ⟨"scan", .issues [], {}⟩, ⟨"audit", .crashed "boom", {}⟩]

/-- A review of two files and, between them, one that may not be read. -/
def haltingReview : Review MemoryFiles :=
  Review.begin haltingPlan false {}
    (((MemoryFiles.empty.withFile ⟨"a"⟩ "a0\n").withFile ⟨"b"⟩ "b0\n").refuseReads ⟨"m"⟩)
    [⟨"a"⟩, ⟨"m"⟩, ⟨"b"⟩]

/-- The actions of a run until the second executor runs. -/
def upToScan : List Action :=
  [.advance, .advance, .start 0, .advance, .finish 0, .settle 0, .advance, .start 1]

/-- The actions of a run after the second executor has cancelled. -/
def fromScanOn : List Action :=
  [.finish 1, .settle 1, .advance]

/-- The actions of the review after that. -/
def fromScanToEnd : List ReviewAction :=
  fromScanOn.map .inRun ++ [.closeFile, .openFile, .openFile, .inRun .advance, .closeFile]

theorem cancelling_executor_is_last_of_haltingPlan :
    (∃ r, r.isOver = true ∧
      Run.StopsAt (haltingPlan.jobs {} "") 1 (upToScan ++ .cancel :: fromScanOn) r) ∧
    ∃ r : Review MemoryFiles, r.isOver = true ∧
      StopsReview haltingPlan [⟨"a"⟩, ⟨"m"⟩, ⟨"b"⟩] [] ⟨"a"⟩ "a0\n" 1
        [(⟨"m"⟩, .error (.unreadable ⟨"m"⟩)), (⟨"b"⟩, .ok "b0\n")]
        (.openFile :: upToScan.map .inRun ++ .inRun .cancel :: fromScanToEnd) r := by
  have hlast := @cancelling_executor_is_last MemoryFiles haltingPlan _ (Nat.zero_le 1)
  constructor
  · have hrun : ((haltingPlan.runOn false {} {} "").actAll upToScan).map
        (fun s => (s.phases[1]?.any JobPhase.executes,
          (s.actAll (.cancel :: fromScanOn)).map Run.isOver)) = some (true, some true) := by
      decide +kernel
    obtain ⟨s, hs, hrun⟩ := Option.map_eq_some_iff.1 hrun
    obtain ⟨hexecutes, hafter⟩ := Prod.mk.inj hrun
    obtain ⟨r, hr, hover⟩ := Option.map_eq_some_iff.1 hafter
    exact ⟨r, hover, hlast.1 {} {} "" upToScan fromScanOn 1 s r hs hexecutes hr⟩
  · have hreview : (haltingReview.actAll (.openFile :: upToScan.map .inRun)).map
        (fun c => (match c.stage with
            | .within _ _ run => run.phases[1]?.any JobPhase.executes
            | .between .. => false,
          (c.actAll (.inRun .cancel :: fromScanToEnd)).map Review.isOver,
          c.openings (.inRun .cancel :: fromScanToEnd))) =
        some (true, some true, [(⟨"m"⟩, .error (.unreadable ⟨"m"⟩)), (⟨"b"⟩, .ok "b0\n")]) := by
      decide +kernel
    have hfirst : haltingReview.openings (.openFile :: upToScan.map .inRun) =
        [(⟨"a"⟩, .ok "a0\n")] := by
      decide +kernel
    obtain ⟨c, hc, hreview⟩ := Option.map_eq_some_iff.1 hreview
    obtain ⟨hexecutes, hreview⟩ := Prod.mk.inj hreview
    obtain ⟨hafter, hlate⟩ := Prod.mk.inj hreview
    obtain ⟨r, hr, hover⟩ := Option.map_eq_some_iff.1 hafter
    cases hstage : c.stage with
    | between => simp [hstage] at hexecutes
    | within p lines run =>
      rw [hstage] at hexecutes
      obtain ⟨front, content, hopened, -, -, hstops⟩ :=
        hlast.2 {} _ _ _ fromScanToEnd 1 p lines run c r hc (by decide) hstage hexecutes hr
      have hsame := hopened.symm.trans hfirst
      simp only [List.append_eq_singleton_iff, List.cons_ne_self, and_false, or_false] at hsame
      obtain ⟨rfl, hlast⟩ := hsame
      cases hlast
      rw [hlate] at hstops
      exact ⟨r, hover, hstops⟩

end Review

end CodeReview
