import CodeReview.Proofs.MemoryVault
import CodeReview.Proofs.StoppedReviews
import CodeReview.Statistics

/-!
# Reviews of several files, file by file

A review that no one cancels comes, file by file, to what a review of each file alone comes to
(`FileByFile`): nothing of one file reaches the next one.  What a file comes to is told without a run
by `ReviewPlan.answerTo`, so the report of the review is filled from the list of paths
(`ReviewPlan.reportOn`), and for different paths their order does not matter.
-/

namespace CodeReview

/-! ## One file -/

/-- The text that the review of a file fails with, if it fails. -/
def failureText? : Except RunError FileReport → Option String
  | .ok _ => none
  | .error e => some e.message

theorem MemoryFiles.textAt_congr (files : MemoryFiles) {p q : Path} (h : key p = key q) :
    (files.textAt p).toOption = (files.textAt q).toOption := by
  unfold textAt
  rw [OrderedMap.contains, OrderedMap.contains, files.readProtected.find?_congr h,
    files.files.find?_congr h]
  split
  · rfl
  · cases files.files.find? q <;> rfl

namespace ReviewPlan

/-- What the review of a file alone comes to, in whatever order the actions of its run are taken, when
no one cancels it. -/
inductive Yields (plan : ReviewPlan) (files : MemoryFiles) (p : Path) :
    Except RunError FileReport → Prop
  | unread {cause : FileError} (hfile : files.textAt p = .error cause) :
      Yields plan files p (.error (RunError.ofFileError p cause))
  | read {content : String} {telemetry : Telemetry} {as : List Action} {run : Run}
      (hfile : files.textAt p = .ok content)
      (hrun : (plan.runOn false telemetry (fileContext p) content).actAll as = some run)
      (hquiet : .cancel ∉ as) (hover : run.isOver = true) :
      Yields plan files p (.ok ⟨p, lineCount content, run.report⟩)

def answerTo (plan : ReviewPlan) (files : MemoryFiles) (p : Path) : Except RunError FileReport :=
  match files.textAt p with
  | .error cause => .error (RunError.ofFileError p cause)
  | .ok content => .ok ⟨p, lineCount content, .cutAt (plan.jobs (fileContext p) content) none⟩

variable {plan : ReviewPlan} {files : MemoryFiles} {p : Path} {paths : List Path}

theorem report_of_quiet {telemetry : Telemetry} {content : String} {as : List Action} {run : Run}
    (hrun : (plan.runOn false telemetry (fileContext p) content).actAll as = some run)
    (hquiet : .cancel ∉ as) (hover : run.isOver = true) :
    run.report = .cutAt (plan.jobs (fileContext p) content) none :=
  ((Underway.begin plan p content telemetry).actAll hrun fun _ => hquiet).report hover

/-- The review of a file comes to one answer, and to no other. -/
theorem yields_iff {answer : Except RunError FileReport} :
    plan.Yields files p answer ↔ answer = plan.answerTo files p := by
  unfold answerTo
  constructor
  · rintro (hfile | ⟨hfile, hrun, hquiet, hover⟩)
    · rw [hfile]
    · rw [hfile, report_of_quiet hrun hquiet hover]
  · rintro rfl
    cases hfile : files.textAt p with
    | error cause => exact .unread hfile
    | ok content =>
      have hbegin := Run.steady_begin plan.workers false {} (plan.jobs (fileContext p) content)
      obtain ⟨as, run, hrun, hquiet, hover⟩ := hbegin.exists_end
      simp only [← report_of_quiet hrun hquiet hover]
      exact .read hfile hrun hquiet hover

theorem isSome_answerTo : (plan.answerTo files p).toOption.isSome =
    (files.textAt p).toOption.isSome := by
  unfold answerTo
  cases files.textAt p <;> rfl

theorem isSome_failureText : (failureText? (plan.answerTo files p)).isSome =
    !(files.textAt p).toOption.isSome := by
  unfold answerTo
  cases files.textAt p <;> rfl

/-! ## Several files -/

/-- The report on a list of files that no one cancels. -/
def reportOn (plan : ReviewPlan) (files : MemoryFiles) (paths : List Path) : DirectoryReport where
  files := .fill (fun p => (plan.answerTo files p).toOption) paths
  failures := .fill (fun p => failureText? (plan.answerTo files p)) paths

theorem notedAll_eq_reportOn (plan : ReviewPlan) (files : MemoryFiles) (paths : List Path) :
    notedAll plan (paths.map fun p => Review.noteOf false (p, files.textAt p)) =
      plan.reportOn files paths := by
  have hadd : ∀ (report : DirectoryReport) (p : Path),
      (Review.noteOf false (p, files.textAt p)).add plan report =
        ⟨(plan.answerTo files p).toOption.elim report.files fun v => report.files.insert p v,
          (failureText? (plan.answerTo files p)).elim report.failures fun v =>
            report.failures.insert p v⟩ := by
    intro report p
    unfold answerTo
    cases files.textAt p <;> rfl
  induction paths using List.reverseRecOn with
  | nil => rfl
  | append_singleton paths p ih =>
    rw [List.map_append, notedAll_append, ih, List.map_singleton, List.foldl_cons, List.foldl_nil,
      hadd]
    simp only [reportOn, OrderedMap.fill_concat]

theorem contains_files_reportOn : (plan.reportOn files paths).files.contains p = true ↔
    (∃ q ∈ paths, key q = key p) ∧ (files.textAt p).toOption.isSome = true := by
  refine (OrderedMap.contains_fill_of_agree fun q _ hkey => ?_).trans ?_
  · rw [isSome_answerTo, isSome_answerTo, files.textAt_congr hkey]
  · rw [isSome_answerTo]

theorem contains_failures_reportOn : (plan.reportOn files paths).failures.contains p = true ↔
    (∃ q ∈ paths, key q = key p) ∧ (!(files.textAt p).toOption.isSome) = true := by
  refine (OrderedMap.contains_fill_of_agree fun q _ hkey => ?_).trans ?_
  · rw [isSome_failureText, isSome_failureText, files.textAt_congr hkey]
  · rw [isSome_failureText]

theorem contains_reportOn_of_mem (hp : p ∈ paths) :
    (plan.reportOn files paths).files.contains p = (files.textAt p).toOption.isSome ∧
      (plan.reportOn files paths).failures.contains p = !(files.textAt p).toOption.isSome := by
  have hlisted : ∃ q ∈ paths, key q = key p := ⟨p, hp, rfl⟩
  constructor
  · rw [Bool.eq_iff_iff, contains_files_reportOn, and_iff_right hlisted]
  · rw [Bool.eq_iff_iff, contains_failures_reportOn, and_iff_right hlisted]

/-- A file is noted as it was listed last. -/
theorem find?_reportOn {front back : List Path} (hlast : ∀ q ∈ back, key q ≠ key p) :
    (plan.reportOn files (front ++ p :: back)).files.find? p =
        (plan.answerTo files p).toOption ∧
      (plan.reportOn files (front ++ p :: back)).failures.find? p =
        failureText? (plan.answerTo files p) := by
  constructor
  · refine OrderedMap.find?_fill hlast fun q _ hkey => ?_
    rw [isSome_answerTo, isSome_answerTo, files.textAt_congr hkey]
  · refine OrderedMap.find?_fill hlast fun q _ hkey => ?_
    rw [isSome_failureText, isSome_failureText, files.textAt_congr hkey]

/-- The order in which different paths are listed does not matter. -/
theorem reportOn_perm {paths' : List Path} (hkeys : (paths.map key).Nodup)
    (hperm : paths.Perm paths') : plan.reportOn files paths = plan.reportOn files paths' := by
  simp only [reportOn, OrderedMap.fill_perm hkeys hperm]

end ReviewPlan

theorem DirectoryReport.totalIssues_eq_sum (report : DirectoryReport) :
    report.totalIssues = (report.files.values.map fun f => f.report.issues.length).sum := by
  rw [totalIssues, ← List.foldr_map (f := fun f : FileReport => f.report.issues.length)
    (g := fun k n => k + n)]
  rfl

theorem DirectoryReport.length_allIssues (report : DirectoryReport) :
    report.allIssues.length = report.totalIssues := by
  rw [totalIssues_eq_sum, allIssues, List.length_flatMap, OrderedMap.values, List.map_map]
  simp [Function.comp_def]

namespace Review

variable {plan : ReviewPlan} {files : MemoryFiles} {paths : List Path} {telemetry : Telemetry}
  {r r' : Review MemoryFiles} {a : ReviewAction} {as : List ReviewAction}

/-! ## What is opened -/

theorem opens_of_read {signal : Bool} {p : Path} {ps : List Path}
    {found : Except FileError String} {files : MemoryFiles}
    (hstage : r.stage = .between signal telemetry) (hwaiting : r.waiting = p :: ps)
    (hread : FileAccess.read p r.files = .ok found files) :
    files = r.files ∧ ∀ x ∈ r.opening? .openFile, x.2 = r.files.textAt x.1 := by
  obtain ⟨hfound, hfiles⟩ := EStateM.Result.ok.inj hread
  refine ⟨hfiles.symm, ?_⟩
  rw [opening?_of_read hstage hwaiting hread]
  rintro _ ⟨⟩
  exact hfound.symm

theorem Turn.opens (h : Turn r a r') :
    r'.files = r.files ∧ ∀ x ∈ r.opening? a, x.2 = r.files.textAt x.1 := by
  cases h with
  | read hstage hwaiting hread => exact opens_of_read hstage hwaiting hread
  | unread hstage hwaiting hread => exact opens_of_read hstage hwaiting hread
  | _ => exact ⟨rfl, nofun⟩

/-- Reviewing changes no file, so what a path is found to hold is what it holds at the beginning. -/
theorem opens_actAll (hrun : r.actAll as = some r') :
    r'.files = r.files ∧ ∀ x ∈ r.openings as, x.2 = r.files.textAt x.1 := by
  induction as generalizing r with
  | nil =>
    cases hrun
    exact ⟨rfl, nofun⟩
  | cons a as ih =>
    obtain ⟨s, hact, hrest⟩ := Option.bind_eq_some_iff.1 hrun
    obtain ⟨hfiles, hopening⟩ := (turn_of_act hact).opens
    obtain ⟨hfiles', hopenings⟩ := ih hrest
    refine ⟨hfiles'.trans hfiles, ?_⟩
    intro x hx
    rw [openings, hact, Option.elim_some, List.mem_append, Option.mem_toList] at hx
    rcases hx with hx | hx
    · exact hopening x hx
    · rw [← hfiles]
      exact hopenings x hx

theorem openings_eq (hrun : r.actAll as = some r') :
    r.openings as = ((r.openings as).map Prod.fst).map fun p => (p, r.files.textAt p) := by
  rw [List.map_map]
  refine (List.map_id _).symm.trans (List.map_congr_left fun x hx => ?_)
  exact Prod.ext rfl ((opens_actAll hrun).2 x hx)

theorem report_of_over
    (hrun : (Review.begin plan false telemetry files paths).actAll as = some r)
    (hquiet : ∀ a ∈ as, isCancelling a = false) (hover : r.isOver = true) :
    r.report = plan.reportOn files paths := by
  have hfollows := (follows_begin plan false telemetry files paths).actAll hrun fun _ => hquiet
  obtain ⟨hwaiting, hreport⟩ := hfollows.over hover
  have hpaths := waiting_actAll hrun
  rw [hwaiting, List.append_nil] at hpaths
  have hopenings := openings_eq hrun
  rw [hpaths] at hopenings
  rw [hreport, List.nil_append, hopenings, List.map_map]
  exact plan.notedAll_eq_reportOn files paths

/-- How many actions a review takes that no one cancels, at most. -/
theorem length_le_of_quiet
    (hrun : (Review.begin plan false telemetry files paths).actAll as = some r)
    (hquiet : ∀ a ∈ as, isCancelling a = false) :
    as.length ≤ (paths.map fun p => costOf plan (p, files.textAt p)).sum := by
  have hcount := (follows_begin plan false telemetry files paths).countP_add_rest_le hrun
    fun _ => hquiet
  have hall : as.countP (fun a => !isCancelling a) = as.length := by
    rw [List.countP_eq_length]
    intro a ha
    rw [hquiet a ha]
    rfl
  rw [hall, openings_eq hrun, List.map_map] at hcount
  have hpaths : _ = paths := waiting_actAll hrun
  rw [← hpaths, List.map_append, List.sum_append]
  calc as.length ≤ as.length + r.rest := Nat.le_add_right _ _
    _ ≤ 0 + _ := hcount
    _ = _ := Nat.zero_add _
    _ ≤ _ := Nat.le_add_right _ _

end Review

/-! ## By the clock -/

namespace ReviewPlan

variable {plan : ReviewPlan} {files : MemoryFiles} {p : Path}

/-- The executors that a file calls for return, and cancel nothing. -/
def Harmless (plan : ReviewPlan) (files : MemoryFiles) (p : Path) : Prop :=
  ∀ content, files.textAt p = .ok content →
    ∀ j ∈ plan.jobs (fileContext p) content, j.Prompt ∧ j.pace.cancels = []

theorem harmless_scripted {steps : List (Step Script)} (hhang : ∀ s ∈ steps, .hang ∉ s.executor)
    (workers : Nat) (timeout : Option Nat) (files : MemoryFiles) (p : Path) :
    (ReviewPlan.mk workers (scriptedJobs steps false timeout)).Harmless files p :=
  fun _ _ _ hj => ⟨prompt_of_mem_scriptedJobs hhang hj, cancels_of_mem_scriptedJobs hj⟩

theorem Harmless.drive (h : plan.Harmless files p) {content : String}
    (hfile : files.textAt p = .ok content) {c : Clock} (hagenda : c.agenda = []) (signal : Bool)
    (telemetry : Telemetry) {d : Clock} {run : Run}
    (hdrive : c.drive (plan.runOn signal telemetry (fileContext p) content) = (d, run)) :
    (∃ as, (plan.runOn signal telemetry (fileContext p) content).actAll as = some run ∧
      .cancel ∉ as) ∧ run.isOver = true ∧ d.carryOver.agenda = [] := by
  have hquiet : c.Quiet := by simp [Clock.Quiet, hagenda]
  obtain ⟨as, hrun, has, hend⟩ := hquiet.exists_actAll_drive
    (fun j hj => (h content hfile j hj).2) plan.workers signal telemetry
  obtain ⟨-, -, hover⟩ := Clock.drive_isOver (c := c) (by simp [hagenda])
    (fun j hj => (h content hfile j hj).1) plan.workers signal telemetry
  unfold runOn at hdrive ⊢
  rw [hdrive] at hrun hend hover
  exact ⟨⟨as, hrun, has⟩, hover, hend⟩

/-- A review of a file by the clock comes to what the file yields. -/
theorem Harmless.reviewFile (h : plan.Harmless files p) (telemetry : Telemetry) :
    ∃ answer telemetry', plan.Yields files p answer ∧
      CodeReview.reviewFile plan false telemetry p files =
        .ok (answer.map fun report => (report, telemetry')) files := by
  cases hfile : files.textAt p with
  | error cause =>
    refine ⟨_, telemetry, .unread hfile, ?_⟩
    rw [CodeReview.reviewFile, Attempt.bind_of_ok (MemoryFiles.read_run p files), hfile]
    rfl
  | ok content =>
    obtain ⟨d, run, hdrive⟩ : ∃ d run,
        Clock.drive {} (plan.runOn false telemetry (fileContext p) content) = (d, run) := ⟨_, _, rfl⟩
    obtain ⟨⟨as, hrun, has⟩, hover, -⟩ := h.drive hfile rfl false telemetry hdrive
    refine ⟨_, run.closing, .read hfile hrun has hover, ?_⟩
    rw [CodeReview.reviewFile, Attempt.bind_of_ok (MemoryFiles.read_run p files), hfile]
    simp only [reviewContent, hdrive]
    rfl

end ReviewPlan

namespace Review

variable {plan : ReviewPlan} {files : MemoryFiles} {paths : List Path} {telemetry : Telemetry}
  {r r' : Review MemoryFiles} {a : ReviewAction} {as : List ReviewAction}

theorem quiet_file {as : List Action} (has : .cancel ∉ as) :
    ∀ a ∈ [.openFile] ++ (as.map .inRun ++ [.closeFile]), isCancelling a = false := by
  simp only [List.mem_append, List.mem_singleton, List.mem_map]
  rintro _ (rfl | ⟨a, ha, rfl⟩ | rfl)
  · rfl
  · cases a with
    | cancel => exact absurd ha has
    | _ => rfl
  · rfl

/-- The clock deals with the next file, and leaves nothing on its agenda. -/
theorem exists_reviewNext {signal : Bool} {p : Path} {ps : List Path} {c : Clock}
    (hstage : r.stage = .between signal telemetry) (hwaiting : r.waiting = p :: ps)
    (hagenda : c.agenda = []) (hp : r.plan.Harmless r.files p) :
    ∃ c' s as signal' telemetry', r.reviewNext c = some (c', s) ∧ c'.agenda = [] ∧
      r.actAll as = some s ∧ (∀ a ∈ as, isCancelling a = false) ∧
      s.stage = .between signal' telemetry' ∧ s.waiting = ps ∧ s.plan = r.plan ∧
      s.files = r.files := by
  cases hfile : r.files.textAt p with
  | error cause =>
    have hopen : r.openFile =
        some ({ r with waiting := ps }.noteUnread p cause signal telemetry) := by
      simp [openFile, hstage, hwaiting, hfile]
    refine ⟨c, { r with waiting := ps }.noteUnread p cause signal telemetry, [.openFile], _, _, ?_,
      hagenda, ?_, by decide, rfl, rfl, rfl, rfl⟩
    · rw [reviewNext, hopen]
      rfl
    · rw [actAll, List.foldlM_cons, act, hopen]
      rfl
  | ok content =>
    obtain ⟨d, run, hdrive⟩ : ∃ d run,
        c.drive (r.plan.runOn signal telemetry (fileContext p) content) = (d, run) := ⟨_, _, rfl⟩
    obtain ⟨⟨as, hrun, has⟩, hover, hend⟩ := hp.drive hfile hagenda signal telemetry hdrive
    let opened : Review MemoryFiles :=
      { r with
        waiting := ps
        stage := .within p (lineCount content)
          (r.plan.runOn signal telemetry (fileContext p) content) }
    let ran : Review MemoryFiles := { opened with stage := .within p (lineCount content) run }
    have hopen : r.openFile = some opened := by simp [openFile, hstage, hwaiting, hfile, opened]
    -- the run is over, so its report can be taken
    obtain ⟨s, hact⟩ : ∃ s, ran.act .closeFile = some s :=
      Option.isSome_iff_exists.1 (by simp [act, closeFile, ran, hover])
    have hs : ∃ signal' telemetry', s.stage = .between signal' telemetry' ∧ s.waiting = ps ∧
        s.plan = r.plan ∧ s.files = r.files := by
      cases turn_of_act hact with
      | closed => exact ⟨_, _, rfl, rfl, rfl, rfl⟩
    obtain ⟨signal', telemetry', hs⟩ := hs
    refine ⟨d.carryOver, s, _, signal', telemetry', ?_, hend,
      actAll_file hopen rfl hrun hact, quiet_file has, hs⟩
    rw [reviewNext, hopen]
    simp only [Option.bind_eq_bind, Option.bind_some, opened, hdrive]
    exact Option.bind_eq_some_iff.2 ⟨s, hact, rfl⟩

theorem exists_reviewFor {signal : Bool} {c : Clock} (hstage : r.stage = .between signal telemetry)
    (hagenda : c.agenda = []) (hall : ∀ p ∈ r.waiting, r.plan.Harmless r.files p) :
    ∃ as, r.actAll as = some (reviewFor r.waiting.length c r) ∧
      (∀ a ∈ as, isCancelling a = false) ∧ (reviewFor r.waiting.length c r).isOver = true := by
  induction hwaiting : r.waiting generalizing r c signal telemetry with
  | nil => exact ⟨[], rfl, nofun, by simp [reviewFor, isOver, hstage, hwaiting]⟩
  | cons p ps ih =>
    -- what one file leaves is again a review between two files, with an empty agenda
    rw [hwaiting] at hall
    obtain ⟨c', s, as, signal', telemetry', hnext, hagenda', hrun, has, hstage', hps, hplan, hfiles⟩ :=
      exists_reviewNext hstage hwaiting hagenda (hall p List.mem_cons_self)
    have hothers : ∀ q ∈ s.waiting, s.plan.Harmless s.files q := by
      rw [hps, hplan, hfiles]
      exact fun q hq => hall q (List.mem_cons_of_mem p hq)
    obtain ⟨bs, hrest, hbs, hover⟩ := ih hstage' hagenda' hothers hps
    have hfor : reviewFor (p :: ps).length c r = reviewFor ps.length c' s := by
      rw [List.length_cons, reviewFor, hnext]
    rw [hfor]
    refine ⟨as ++ bs, (actAll_append hrun).trans hrest, ?_, hover⟩
    intro a ha
    rcases List.mem_append.1 ha with ha | ha
    · exact has a ha
    · exact hbs a ha

/-! ## Reviews that no one cancels -/

/-- What a review of several files comes to, in whatever order its actions are taken, when no one
cancels it. -/
inductive EndsWith (plan : ReviewPlan) (files : MemoryFiles) (paths : List Path) :
    DirectoryReport → Prop
  | finished {telemetry : Telemetry} {as : List ReviewAction} {r : Review MemoryFiles}
      (hrun : (Review.begin plan false telemetry files paths).actAll as = some r)
      (hquiet : ∀ a ∈ as, isCancelling a = false) (hover : r.isOver = true) :
      EndsWith plan files paths r.report

theorem EndsWith.eq {report : DirectoryReport} (h : EndsWith plan files paths report) :
    report = plan.reportOn files paths := by
  cases h with
  | finished hrun hquiet hover => exact report_of_over hrun hquiet hover

theorem endsWith_reviewDirectory (hall : ∀ p ∈ paths, plan.Harmless files p) (telemetry : Telemetry) :
    EndsWith plan files paths (reviewDirectory plan false telemetry files paths).1 := by
  obtain ⟨as, hrun, has, hover⟩ := exists_reviewFor (c := {})
    (r := Review.begin plan false telemetry files paths) rfl rfl hall
  exact .finished hrun has hover

/-- The report on a list of paths says of each path what the review of that file alone comes to, and
nothing else.  Spellings of one path are one path, and the one that is listed last counts. -/
structure FileByFile (plan : ReviewPlan) (files : MemoryFiles) (paths : List Path)
    (report : DirectoryReport) : Prop where
  listed : ∀ p, report.files.contains p = true ∨ report.failures.contains p = true →
    ∃ q ∈ paths, key q = key p
  exactlyOne : ∀ p ∈ paths, report.files.contains p = !report.failures.contains p
  failed : ∀ p ∈ paths, report.failures.contains p = true ↔ ∃ cause, files.textAt p = .error cause
  answered : ∀ front p back, paths = front ++ p :: back → (∀ q ∈ back, key q ≠ key p) →
    ∃ answer, (∀ other, plan.Yields files p other ↔ other = answer) ∧
      report.files.find? p = answer.toOption ∧ report.failures.find? p = failureText? answer
  total : report.totalIssues = report.allIssues.length ∧
    report.totalIssues = (report.files.values.map fun f => f.report.issues.length).sum

theorem fileByFile_reportOn (plan : ReviewPlan) (files : MemoryFiles) (paths : List Path) :
    FileByFile plan files paths (plan.reportOn files paths) := by
  refine ⟨?_, ?_, ?_, ?_, ?_⟩
  · rintro p (hp | hp)
    · exact (ReviewPlan.contains_files_reportOn.1 hp).1
    · exact (ReviewPlan.contains_failures_reportOn.1 hp).1
  · intro p hp
    rw [(ReviewPlan.contains_reportOn_of_mem hp).1, (ReviewPlan.contains_reportOn_of_mem hp).2,
      Bool.not_not]
  · intro p hp
    rw [(ReviewPlan.contains_reportOn_of_mem hp).2]
    cases files.textAt p <;> simp [Except.toOption]
  · rintro front p back rfl hlast
    exact ⟨plan.answerTo files p, fun other => ReviewPlan.yields_iff,
      ReviewPlan.find?_reportOn hlast⟩
  · exact ⟨(DirectoryReport.length_allIssues _).symm, DirectoryReport.totalIssues_eq_sum _⟩

/-- A file that can be read, one that may not be read, and a path without a file. -/
def mixedFiles : MemoryFiles :=
  ((MemoryFiles.empty.withFile ⟨"a"⟩ "a0\n").withFile ⟨"m"⟩ "m0\n").refuseReads ⟨"m"⟩

/-- One step finds a text, cancelling nothing, and the other one runs out of time. -/
def mixedSteps : List (Step Script) :=
  [⟨"find", "find", "", .quality, .low, ∅, [.cancel, .find "0"]⟩,
    ⟨"wait", "wait", "", .quality, .low, ∅, [.sleep 2, .context]⟩]

def mixedPlan : ReviewPlan where
  workers := 2
  jobs := scriptedJobs mixedSteps false (some 1000)

end Review

end CodeReview
