import CodeReview.Proofs.AllOrNothing
import CodeReview.Proofs.Edits
import CodeReview.Proofs.Steps

/-!
# Batches

Applying a batch whose requests have no line in common replaces all blocks at once: every file is
afterwards what it was before with each block replaced that a request fits (`Edit.replaceAll`), the
requests that fit are applied, and the others fail.  So the order in which the requests were put in
does not matter (`batch_replaces_at_once`).

The requests of a file are applied one after another, each to what those before it left.  `Midway`
says what holds in between: the files are the old ones with the blocks of the requests so far replaced
at once.
-/

namespace CodeReview

namespace Manager

/-! ## Batches that can be replaced at once -/

/-- The requests for a file. -/
def requestsFor (p : Path) (qs : List ChangeRequest) : List ChangeRequest :=
  qs.filter fun q => q.file.same p

/-- Whether the lines that a request expects stand in its file. -/
def accepts (m : Manager MemoryFiles) (q : ChangeRequest) : Bool :=
  (m.text? q.file).any fun content => q.fits content

/-- Two requests that, if they are for one file, are to replace no line in common. -/
def Compatible (p q : ChangeRequest) : Prop :=
  p.file.same q.file = true → p.Apart q

theorem Compatible.symm {p q : ChangeRequest} (h : Compatible p q) : Compatible q p := by
  intro hsame
  rw [Path.same_comm] at hsame
  exact (h hsame).symm

/-- A manager that writes changes, whose batch has readable files that are no backups, no two requests
for a line of one file, and no fitting request for a last line without terminator. -/
structure BatchReady (m : Manager MemoryFiles) : Prop where
  live : m.config.dryRun = false
  writes : ∀ p, m.refusesWrite p = false
  readable : ∀ q ∈ m.pending, ∃ content, m.vault.files.textAt q.file = .ok content
  untracked : ∀ q ∈ m.pending, m.tracks q.file = false
  apart : m.pending.Pairwise Compatible
  ends : ∀ q ∈ m.pending, ∀ content, m.text? q.file = some content →
    Edit.EndsWell content (requestsFor q.file m.pending)

/-- What a batch comes to. -/
structure BatchDone (m : Manager MemoryFiles) (report : BatchReport)
    (m' : Manager MemoryFiles) : Prop where
  applied : report.applied = m.pending.countP m.accepts
  failed : report.failed = m.pending.countP fun q => !m.accepts q
  previewed : report.previewed = 0
  /-- The requests that are accepted are those that are applied. -/
  records : ∃ rs, m'.history = m.history ++ rs ∧ List.Forall₂ (fun q r => r.Repeats q ∧
    r.status = if m.accepts q then .applied else .failed) (batchOrder m.pending) rs
  files : ∀ p content, m.tracks p = false → m.text? p = some content →
    m'.text? p = some (Edit.replaceAll content (requestsFor p m.pending))
  /-- A file that was not there before is a backup. -/
  others : ∀ p, m.tracks p = false → m.text? p = none → m'.text? p = none ∨ m'.tracks p = true

/-- In between: some requests of the batch are done. -/
structure Midway (m : Manager MemoryFiles) (done : List ChangeRequest)
    (s : Manager MemoryFiles) : Prop where
  live : s.config.dryRun = false
  writes : ∀ p, s.refusesWrite p = false
  reads : ∀ p, s.refusesRead p = m.refusesRead p
  targets : ∀ q ∈ m.pending, s.tracks q.file = false
  files : ∀ p, m.tracks p = false → s.tracks p = false →
    s.text? p = (m.text? p).map fun content => Edit.replaceAll content (requestsFor p done)
  backups : ∀ p, m.tracks p = false → s.tracks p = true → m.text? p = none

/-- What a request of a batch leads to: it is applied or fails, and it leaves a record. -/
structure Settles (q : ChangeRequest) (accepted : Bool) (a : Except ChangeError ChangeOutcome)
    (r : ChangeRecord) : Prop where
  repeats : r.Repeats q
  status : r.status = if accepted then .applied else .failed
  answer : if accepted then a = .ok (.applied r) else ∃ e, a = .error e

variable {m s s' : Manager MemoryFiles} {done : List ChangeRequest} {q : ChangeRequest}

theorem requestsFor_congr {p x : Path} (h : p.key = x.key) (qs : List ChangeRequest) :
    requestsFor p qs = requestsFor x qs := by
  simp only [requestsFor, Path.same, h]

theorem requestsFor_cons_of_same {p : Path} (h : q.file.same p = true) (qs : List ChangeRequest) :
    requestsFor p (q :: qs) = q :: requestsFor p qs := by
  simp [requestsFor, h]

theorem requestsFor_cons_of_other {p : Path} (h : q.file.same p = false) (qs : List ChangeRequest) :
    requestsFor p (q :: qs) = requestsFor p qs := by
  simp [requestsFor, h]

/-! ## One request of a batch -/

/-- The requests that are done before a request: those of its file begin no higher and have no line in
common with it. -/
def Below (q : ChangeRequest) (done : List ChangeRequest) : Prop :=
  ∀ p ∈ done, p.file.same q.file = true → q.line ≤ p.line ∧ p.Apart q

theorem Below.ends_above {content : String} (h : Below q done) :
    ∀ p ∈ requestsFor q.file done, p.fits content = true → q.line + q.block.length ≤ p.line := by
  intro p hp hfits
  obtain ⟨hmem, hsame⟩ := List.mem_filter.1 hp
  obtain ⟨hline, hapart⟩ := h p hmem hsame
  exact hapart.below hline (ChangeRequest.fits_iff.1 hfits).2.1

/-- The text of the file of a request before its turn. -/
theorem Midway.target (h : Midway m done s) (hready : BatchReady m) (hq : q ∈ m.pending) :
    ∃ content, m.text? q.file = some content ∧
      s.vault.files.textAt q.file = .ok (Edit.replaceAll content (requestsFor q.file done)) := by
  obtain ⟨content, hread⟩ := hready.readable q hq
  have htext : m.text? q.file = some content := MemoryFiles.contents?_of_textAt hread
  refine ⟨content, htext, MemoryFiles.textAt_of_contents? ?_ ?_⟩
  · have hnow := h.files q.file (hready.untracked q hq) (h.targets q hq)
    rw [htext] at hnow
    exact hnow
  · exact (h.reads q.file).trans (MemoryFiles.readProtected_of_textAt hread)

/-- The edit of a request of a batch can be made exactly if the request fits the old text, and then it
makes one block more replaced. -/
theorem edit_midway {content : String} (hbelow : Below q done)
    (hterm : q.fits content = true → ∀ l ∈ (Line.split content.toList).take
      (q.line - 1 + q.block.length), l.IsTerminated) :
    if q.fits content then
      Edit.replaceBlock (Edit.replaceAll content (requestsFor q.file done)) q.line q.expected
        q.suggested = .ok (Edit.replaceAll content (q :: requestsFor q.file done))
    else ∃ e, Edit.replaceBlock (Edit.replaceAll content (requestsFor q.file done)) q.line q.expected
      q.suggested = .error e := by
  split
  · next hfits => exact Edit.replaceBlock_replaceAll hfits (hterm hfits) hbelow.ends_above
  · next hfits =>
    exact Edit.replaceBlock_replaceAll_of_not_fits (Bool.eq_false_iff.2 hfits) hbelow.ends_above

theorem Midway.failed (h : Midway m done s) {content : String}
    (htext : m.text? q.file = some content) (hfits : q.fits content = false) (e : ChangeError) :
    Midway m (q :: done) (s.noteFailed q e none) := by
  have htracks := tracks_noteFailed_none q e h.live
  refine ⟨?_, ?_, ?_, ?_, ?_, ?_⟩
  · rw [config_noteFailed, h.live]
  · intro p
    rw [refusesWrite_noteFailed, h.writes]
  · intro p
    rw [refusesRead_noteFailed, h.reads]
  · intro x hx
    rw [htracks, h.targets x hx]
  · intro p hm hs
    rw [htracks] at hs
    rw [text?_noteFailed, h.files p hm hs]
    cases hsame : q.file.same p with
    | false => rw [requestsFor_cons_of_other hsame]
    | true =>
      rw [requestsFor_cons_of_same hsame, ← m.text?_congr (Path.same_iff.1 hsame), htext]
      simp only [Option.map_some]
      rw [Edit.replaceAll_cons_of_not_fits hfits]
  · intro p hm hs
    rw [htracks] at hs
    exact h.backups p hm hs

/-- Counting and reporting change nothing that a batch in between is about. -/
theorem Midway.noting (h : Midway m done s) (c : Counter) (e : Event) :
    Midway m done ((s.counting c).reporting e) :=
  ⟨h.live, h.writes, h.reads, h.targets, h.files, h.backups⟩

section

variable {content : String} {k : Manager MemoryFiles} {b : BackupEntry} {p : Path}

/-- The backup of a request is no file of the batch: it was free, and these are there. -/
theorem Midway.targets_applied (h : Midway m done s) (hready : BatchReady m)
    (hgone : s.text? b.backup = none) (htracks : ∀ p, k.tracks p = s.tracks p) {x : ChangeRequest}
    (hx : x ∈ m.pending) : (k.noteApplied q b).tracks x.file = false := by
  obtain ⟨old, -, hread⟩ := h.target hready hx
  have hthere : s.text? x.file = some _ := MemoryFiles.contents?_of_textAt hread
  rw [← Bool.not_eq_true]
  intro htracked
  rcases tracks_of_noteApplied htracked with hold | hnew
  · rw [htracks, h.targets x hx] at hold
    cases hold
  · exact ne_of_text? hthere hgone (Path.same_iff.1 hnew)

/-- A request that takes effect replaces one block more in its file. -/
theorem Midway.files_applied (h : Midway m done s) (htext : m.text? q.file = some content)
    (htracks : ∀ p, k.tracks p = s.tracks p)
    (hafter : ∀ p, k.text? p =
      if q.file.key = p.key then some (Edit.replaceAll content (q :: requestsFor q.file done))
      else if b.backup.key = p.key then some (Edit.replaceAll content (requestsFor q.file done))
      else s.text? p)
    (hm : m.tracks p = false) (hs : (k.noteApplied q b).tracks p = false) :
    (k.noteApplied q b).text? p =
      (m.text? p).map fun content => Edit.replaceAll content (requestsFor p (q :: done)) := by
  cases hbackup : s.tracks p with
  | true =>
    -- a backup of before that was dropped
    rw [text?_noteApplied_of_dropped (by rw [htracks, hbackup]) hs, h.backups p hm hbackup]
    rfl
  | false =>
    have hne : b.backup.key ≠ p.key := Ne.symm (ne_of_tracks tracks_noteApplied_new hs)
    rw [text?_noteApplied_of_untracked (by rw [htracks, hbackup]), hafter]
    by_cases hkey : q.file.key = p.key
    · rw [if_pos hkey, requestsFor_cons_of_same (Path.same_iff.2 hkey), ← m.text?_congr hkey,
        htext, ← requestsFor_congr hkey]
      rfl
    · rw [if_neg hkey, if_neg hne, h.files p hm hbackup,
        requestsFor_cons_of_other (Path.not_same_iff.2 hkey)]

/-- Where a backup is afterwards, the batch found no file. -/
theorem Midway.backups_applied (h : Midway m done s) (hgone : s.text? b.backup = none)
    (htracks : ∀ p, k.tracks p = s.tracks p) (hm : m.tracks p = false)
    (hs : (k.noteApplied q b).tracks p = true) : m.text? p = none := by
  cases hbackup : s.tracks p with
  | true => exact h.backups p hm hbackup
  | false =>
    rcases tracks_of_noteApplied hs with hold | hnew
    · rw [htracks, hbackup] at hold
      cases hold
    · have hnone : s.text? p = none := (s.text?_congr (Path.same_iff.1 hnew)).symm.trans hgone
      rw [h.files p hm hbackup] at hnone
      exact Option.map_eq_none_iff.1 hnone

end

theorem Midway.applied (h : Midway m done s) (hready : BatchReady m) {content : String}
    (htext : m.text? q.file = some content) {n : Nat} (hfree : s.FreeNumber q.file n)
    {k : Manager MemoryFiles} {b : BackupEntry}
    (hk : k = (s.backingUp q.file n (Edit.replaceAll content (requestsFor q.file done))).writing
      q.file (Edit.replaceAll content (q :: requestsFor q.file done)))
    (hb : b.backup = s.vault.store.pathOf q.file n) : Midway m (q :: done) (k.noteApplied q b) := by
  have hgone : s.text? b.backup = none := hb ▸ hfree.free
  have htracks : ∀ p, k.tracks p = s.tracks p := by
    intro p
    rw [hk]
    rfl
  refine ⟨?_, ?_, ?_, ?_, ?_, ?_⟩
  · rw [hk]
    exact h.live
  · intro p
    rw [refusesWrite_noteApplied, hk]
    exact h.writes p
  · intro p
    rw [refusesRead_noteApplied, hk]
    exact h.reads p
  · intro x hx
    exact h.targets_applied hready hgone htracks hx
  · intro p hm hs
    refine h.files_applied htext htracks ?_ hm hs
    intro p
    rw [hk, hb, text?_writing, text?_backingUp]
  · intro p hm hs
    exact h.backups_applied hgone htracks hm hs

theorem Midway.step (h : Midway m done s) (hready : BatchReady m) (hq : q ∈ m.pending)
    (hbelow : Below q done) :
    ∃ a r, applyValid q s = .ok a ((applyValid q).endState s) ∧
      Midway m (q :: done) ((applyValid q).endState s) ∧
      ((applyValid q).endState s).history = s.history ++ [r] ∧ Settles q (m.accepts q) a r := by
  obtain ⟨content, htext, hread⟩ := h.target hready hq
  have haccepts : m.accepts q = q.fits content := by
    simp [accepts, htext]
  have hterm : q.fits content = true → ∀ l ∈ (Line.split content.toList).take
      (q.line - 1 + q.block.length), l.IsTerminated := by
    intro hfits
    have hmem : q ∈ requestsFor q.file m.pending :=
      List.mem_filter.2 ⟨hq, Path.same_refl q.file⟩
    exact (hready.ends q hq content htext).terminated hmem hfits
  have hedit := edit_midway hbelow hterm
  obtain ⟨a, hrun, hcase⟩ := applyValid_endState q s
  rw [haccepts]
  refine ⟨a, ?_⟩
  generalize (applyValid q).endState s = s' at hrun hcase ⊢
  cases hcase with
  | unreadable herror =>
    rw [hread] at herror
    cases herror
  | @conflict old cause hread' hconflict =>
    rw [hread] at hread'
    obtain rfl := Except.ok.inj hread'
    cases hfits : q.fits content with
    | true =>
      rw [hfits, if_pos rfl, hconflict] at hedit
      cases hedit
    | false =>
      exact ⟨_, hrun, h.failed htext hfits _, history_noteFailed _ _ _ h.live,
        ⟨rfl, rfl, rfl, rfl⟩, rfl, _, rfl⟩
  | previewed hread' hedit' hdry =>
    rw [h.live] at hdry
    cases hdry
  | backupRefused hread' hedit' hlive hfree hbackup =>
    rw [h.writes] at hbackup
    cases hbackup
  | writeRefused hread' hedit' hlive hfree hbackup htarget =>
    rw [h.writes] at htarget
    cases htarget
  | @applied old new n hread' hedit' hlive hfree hbackup htarget =>
    rw [hread] at hread'
    obtain rfl := Except.ok.inj hread'
    cases hfits : q.fits content with
    | false =>
      rw [hfits, if_neg Bool.false_ne_true] at hedit
      obtain ⟨e, herror⟩ := hedit
      rw [herror] at hedit'
      cases hedit'
    | true =>
      rw [hfits, if_pos rfl, hedit'] at hedit
      obtain rfl := Except.ok.inj hedit
      exact ⟨_, hrun, (h.applied hready htext hfree rfl rfl).noting _ _, rfl,
        ⟨rfl, rfl, rfl, rfl⟩, rfl, rfl⟩

/-! ## The requests one after another -/

/-- The order in which requests for one file can be applied one after another: from the bottom upwards
and without a line in common. -/
def Descends (p q : ChangeRequest) : Prop :=
  p.file.same q.file = true → q.line ≤ p.line ∧ p.Apart q

theorem Midway.run (hready : BatchReady m) {qs : List ChangeRequest} (h : Midway m done s)
    (hqs : ∀ q ∈ qs, q ∈ m.pending) (horder : qs.Pairwise Descends)
    (hbelow : ∀ q ∈ qs, Below q done) (report : BatchReport) :
    ∃ report' rs, applyEach report qs s = .ok report' (settled qs s) ∧
      Midway m (qs.reverse ++ done) (settled qs s) ∧ (settled qs s).history = s.history ++ rs ∧
      List.Forall₂ (fun q r => r.Repeats q ∧
        r.status = if m.accepts q then .applied else .failed) qs rs ∧
      report'.applied = report.applied + qs.countP m.accepts ∧
      report'.failed = report.failed + qs.countP (fun q => !m.accepts q) ∧
      report'.previewed = report.previewed := by
  induction qs generalizing done s report with
  | nil => exact ⟨report, [], rfl, h, (List.append_nil _).symm, .nil, rfl, rfl, rfl⟩
  | cons q qs ih =>
    obtain ⟨hq, hrest⟩ := List.forall_mem_cons.1 hqs
    obtain ⟨hfirst, htail⟩ := List.pairwise_cons.1 horder
    obtain ⟨hqbelow, hqsbelow⟩ := List.forall_mem_cons.1 hbelow
    obtain ⟨a, r, hrun, hmid, hhistory, hsettles⟩ := h.step hready hq hqbelow
    have hnext : ∀ x ∈ qs, Below x (q :: done) := fun x hx =>
      List.forall_mem_cons.2 ⟨hfirst x hx, hqsbelow x hx⟩
    obtain ⟨report', rs, hruns, hmids, hhistories, hrecords, happlied, hfailed, hpreviewed⟩ :=
      ih hmid hrest htail hnext (report.add q a)
    refine ⟨report', r :: rs, ?_, ?_, ?_, .cons ⟨hsettles.repeats, hsettles.status⟩ hrecords, ?_⟩
    · unfold applyEach
      rw [Attempt.bind_of_ok hrun]
      exact hruns
    · rw [List.reverse_cons, List.append_assoc]
      exact hmids
    · refine hhistories.trans ?_
      rw [hhistory, List.append_assoc]
      rfl
    · have hanswer := hsettles.answer
      rw [happlied, hfailed, hpreviewed, List.countP_cons, List.countP_cons]
      cases haccepts : m.accepts q with
      | true =>
        rw [haccepts, if_pos rfl] at hanswer
        rw [hanswer]
        simp only [BatchReport.add, if_true, Bool.not_true, Bool.false_eq_true, if_false,
          Nat.add_zero, and_true]
        omega
      | false =>
        rw [haccepts, if_neg Bool.false_ne_true] at hanswer
        obtain ⟨e, rfl⟩ := hanswer
        simp only [BatchReport.add, if_true, Bool.not_false, Bool.false_eq_true, if_false,
          Nat.add_zero, and_true, true_and]
        omega

/-- A batch is applied from the bottom of each file upwards. -/
theorem batchOrder_descends (hready : BatchReady m) : (batchOrder m.pending).Pairwise Descends := by
  have hapart := ((batchOrder_perm m.pending).pairwise_iff Compatible.symm).2 hready.apart
  apply ((batchOrder_descending m.pending).and hapart).imp
  intro p q h hsame
  exact ⟨h.1 (Path.same_iff.1 hsame), h.2 hsame⟩

/-- Nothing is done at the beginning of a batch. -/
theorem midway_entered (hready : BatchReady m) : Midway m [] m.entered := by
  refine ⟨hready.live, hready.writes, fun _ => rfl, hready.untracked, ?_, ?_⟩
  · intro p _ _
    have hnothing : ∀ content, Edit.replaceAll content (requestsFor p []) = content := by
      intro content
      apply Edit.replaceAll_of_none_fits
      intro q hq
      cases hq
    simp only [hnothing, Option.map_id_fun']
    rfl
  · intro p hm hs
    rw [show m.entered.tracks p = m.tracks p from rfl, hm] at hs
    cases hs

theorem requestsFor_apart (hready : BatchReady m) (p : Path) :
    (requestsFor p m.pending).Pairwise ChangeRequest.Apart := by
  refine (hready.apart.filter _).imp_of_mem fun {a b} ha hb h => h ?_
  have hap := Path.same_iff.1 (List.mem_filter.1 ha).2
  have hbp := Path.same_iff.1 (List.mem_filter.1 hb).2
  exact Path.same_iff.2 (hap.trans hbp.symm)

/-- A batch that can be replaced at once is. -/
theorem applyPending_done (hready : BatchReady m) :
    ∃ report m', applyPending m = .ok report m' ∧ BatchDone m report m' := by
  obtain ⟨report, m', hrun, heach, halike, -⟩ := applyPending_run m
  have hperm := batchOrder_perm m.pending
  obtain ⟨report', rs, heach', hmid, hhistory, hrecords, happlied, hfailed, hpreviewed⟩ :=
    (midway_entered hready).run hready (fun q hq => hperm.mem_iff.1 hq)
      (batchOrder_descends hready) (fun q _ p hp => by cases hp) {}
  rw [heach] at heach'
  obtain ⟨rfl, -⟩ := EStateM.Result.ok.inj heach'
  have hsame : ∀ p content, Edit.replaceAll content
      (requestsFor p ((batchOrder m.pending).reverse ++ [])) =
      Edit.replaceAll content (requestsFor p m.pending) := by
    intro p content
    rw [List.append_nil]
    refine (Edit.replaceAll_perm ?_ (requestsFor_apart hready p)).symm
    exact ((List.reverse_perm _).trans hperm).symm.filter _
  refine ⟨report, m', hrun, ?_, ?_, hpreviewed, ⟨rs, ?_, hrecords⟩, ?_, ?_⟩
  · rw [happlied, hperm.countP_eq]
    exact Nat.zero_add _
  · rw [hfailed, hperm.countP_eq]
    exact Nat.zero_add _
  · rw [halike.history, hhistory]
    rfl
  · intro p content hm htext
    have hs : (settled (batchOrder m.pending) m.entered).tracks p = false := by
      rw [← Bool.not_eq_true]
      intro hbackup
      rw [hmid.backups p hm hbackup] at htext
      cases htext
    rw [halike.text, hmid.files p hm hs, htext, Option.map_some, hsame]
  · intro p hm htext
    rw [halike.text, halike.tracks]
    cases hs : (settled (batchOrder m.pending) m.entered).tracks p with
    | true => exact Or.inr rfl
    | false =>
      rw [hmid.files p hm hs, htext]
      exact Or.inl rfl

/-! ## The main theorem -/

/-- Whether a batch can be replaced at once does not depend on the order of its requests. -/
theorem BatchReady.perm (hready : BatchReady m) {qs : List ChangeRequest}
    (hperm : qs.Perm m.pending) : BatchReady { m with pending := qs } := by
  refine ⟨hready.live, hready.writes, fun q hq => hready.readable q (hperm.mem_iff.1 hq),
    fun q hq => hready.untracked q (hperm.mem_iff.1 hq),
    (hperm.pairwise_iff Compatible.symm).2 hready.apart, ?_⟩
  intro q hq content htext
  rcases hready.ends q (hperm.mem_iff.1 hq) content htext with hempty | hnewline | hlast
  · exact Or.inl hempty
  · exact Or.inr (Or.inl hnewline)
  · refine Or.inr (Or.inr fun x hx => hlast x ?_)
    exact ((hperm.filter _).mem_iff).1 hx

/-- A batch whose requests have no line in common comes to replacing all blocks at once that requests
fit, in every order in which the requests were put in: the counts and the contents of the files are
the same. -/
theorem batch_replaces_at_once (m : Manager MemoryFiles) (hready : BatchReady m) :
    ∃ report m', applyPending m = .ok report m' ∧ BatchDone m report m' ∧
      ∀ qs : List ChangeRequest, qs.Perm m.pending →
        ∃ report' m'', applyPending { m with pending := qs } = .ok report' m'' ∧
          report'.applied = report.applied ∧ report'.failed = report.failed ∧
          report'.previewed = report.previewed ∧
          ∀ p, m.tracks p = false → m.text? p ≠ none → m''.text? p = m'.text? p := by
  obtain ⟨report, m', hrun, hdone⟩ := applyPending_done hready
  refine ⟨report, m', hrun, hdone, ?_⟩
  intro qs hperm
  obtain ⟨report', m'', hrun', hdone'⟩ := applyPending_done (hready.perm hperm)
  refine ⟨report', m'', hrun', ?_, ?_, ?_, ?_⟩
  · rw [hdone'.applied, hdone.applied]
    exact hperm.countP_eq _
  · rw [hdone'.failed, hdone.failed]
    exact hperm.countP_eq _
  · rw [hdone'.previewed, hdone.previewed]
  · intro p hm hthere
    obtain ⟨content, htext⟩ := Option.ne_none_iff_exists'.1 hthere
    rw [hdone'.files p content hm htext, hdone.files p content hm htext]
    refine congrArg some (Edit.replaceAll_perm ?_ (requestsFor_apart hready p)).symm
    exact (hperm.filter _).symm

/-- A batch of a change that inserts a line, one that does not fit and one further up. -/
def mixedBatch : Manager MemoryFiles :=
  { new { backupDir := ⟨"backups"⟩, maxBackups := 1 } (fun _ => "s") {}
      (MemoryFiles.empty.withFile ⟨"a"⟩ "a\nb\r\nc\n") with
    pending := [⟨⟨"a"⟩, 1, "a", "x"⟩, ⟨⟨"a/."⟩, 3, "z", ""⟩, ⟨⟨"a"⟩, 2, "b", "y\nz"⟩] }

/-- The parts of a mixed batch have no line in common. -/
theorem batch_replaces_at_once_of_mixed : ∃ report m', applyPending mixedBatch = .ok report m' ∧
    BatchDone mixedBatch report m' ∧
      ∀ qs : List ChangeRequest, qs.Perm mixedBatch.pending →
        ∃ report' m'', applyPending { mixedBatch with pending := qs } = .ok report' m'' ∧
          report'.applied = report.applied ∧ report'.failed = report.failed ∧
          report'.previewed = report.previewed ∧
          ∀ p, mixedBatch.tracks p = false → mixedBatch.text? p ≠ none →
            m''.text? p = m'.text? p := by
  have hfile : ∀ q ∈ mixedBatch.pending, q.file.key = (⟨"a"⟩ : Path).key := by decide +kernel
  have hcontent : mixedBatch.text? ⟨"a"⟩ = some "a\nb\r\nc\n" := by decide +kernel
  have hlines : mixedBatch.pending.Pairwise fun p q => p.line + p.block.length ≤ q.line ∨
      q.line + q.block.length ≤ p.line := by decide +kernel
  refine batch_replaces_at_once mixedBatch ⟨rfl, fun p => rfl, ?_, fun q hq => rfl, ?_, ?_⟩
  · intro q hq
    have htext : mixedBatch.text? q.file = some "a\nb\r\nc\n" :=
      (mixedBatch.text?_congr (hfile q hq)).trans hcontent
    exact ⟨_, MemoryFiles.textAt_of_contents? htext rfl⟩
  · refine hlines.imp fun {p q} hpq _ i hi => ?_
    have hcovers := ChangeRequest.covers_iff.1 hi
    exact ChangeRequest.not_covers_iff.2 (by omega)
  · intro q hq content htext
    rw [mixedBatch.text?_congr (hfile q hq), hcontent] at htext
    obtain rfl := Option.some.inj htext
    exact Or.inr (Or.inl (by decide))

end Manager

end CodeReview
