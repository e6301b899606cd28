import CodeReview.Proofs.Safekeeping

/-!
# The target of an undo

Whatever the limit on backups is, the latest applied change can be undone, if it is the last one of
its file: its backup is kept, and undoing it gives the file the text from before the change
(`undo_restores_last_change`).  The invariant of runs behind it says so of every change that is the
last of its file, not of the latest only, because the undo of one change makes another one the latest
(`Restorable.step`).
-/

namespace CodeReview

namespace Manager

variable {named : Path → Prop} {m m' : Manager MemoryFiles}

/-- Among the states of a run there are two, one after the other, between which a change was applied
whose file had the text `before`. -/
def AppliedAmong (states : List (Manager MemoryFiles)) (R : ChangeRecord) (before : String) : Prop :=
  ∃ s t, [s, t] <:+: states ∧ t.history = s.history ++ [R] ∧ s.text? R.file = some before

/-- The backup of a change is kept, and it has the text from before the change. -/
def HasBackup (states : List (Manager MemoryFiles)) (m : Manager MemoryFiles) (R : ChangeRecord) :
    Prop :=
  ∃ b before, R.backup = some b ∧ R.digest = some (digestOf before) ∧ m.Keeps b before ∧
    AppliedAmong states R before

/-- Every change that is the last of its file has its backup. -/
structure Restorable (named : Path → Prop) (states : List (Manager MemoryFiles))
    (m : Manager MemoryFiles) : Prop where
  books : Books named m
  backups : ∀ R, IsLastOf R m.history → HasBackup states m R

variable {states : List (Manager MemoryFiles)}

theorem HasBackup.mono {R : ChangeRecord} (h : HasBackup states m R)
    (hkeeps : ∀ b text, R.backup = some b → m.Keeps b text → m'.Keeps b text) :
    HasBackup states m' R := by
  obtain ⟨b, before, hb, hdigest, hkept, hamong⟩ := h
  exact ⟨b, before, hb, hdigest, hkeeps b before hb hkept, hamong⟩

/-- The change of a step that applies one has its backup. -/
theorem hasBackup_of_applied {q : ChangeRequest} {b : BackupEntry} {old new : String}
    (hold : m.text? q.file = some old) (hfree : m.text? b.backup = none)
    (hdigest : b.digest = digestOf old)
    (halike : Alike (((m.writing b.backup old).writing q.file new).noteApplied q b) m')
    (hpair : [m, m'] <:+: states) :
    HasBackup states m' (appliedRecord (m.recordId m.issued) q b) := by
  refine ⟨b.backup, old, rfl, ?_, ⟨?_, ?_⟩, m, m', hpair, halike.history, hold⟩
  · exact congrArg some hdigest
  · rw [halike.tracks]
    exact tracks_noteApplied_new
  · rw [halike.text, text?_noteApplied_new]
    simp [Ne.symm (ne_of_text? hold hfree)]

/-- A change that is the last of its file after a working step was it before, unless it is the change
that the step applied. -/
theorem isLastOf_before (hbooks : Books named m) (hstep : Working named m m') {R : ChangeRecord}
    (hlast : IsLastOf R m'.history) :
    IsLastOf R m.history ∨ ∃ (q : ChangeRequest) (b : BackupEntry) (old new : String),
      R = appliedRecord (m.recordId m.issued) q b ∧ m.text? q.file = some old ∧
        m.text? b.backup = none ∧ b.digest = digestOf old ∧
        Alike (((m.writing b.backup old).writing q.file new).noteApplied q b) m' := by
  have hpushed : ∀ {r : ChangeRecord}, r.status = .failed ∨ r.status = .rejected →
      m'.history = m.history ++ [r] → IsLastOf R m.history := by
    intro r hr hhistory
    rw [hhistory] at hlast
    rcases isLastOf_concat hlast with rfl | hbefore
    · exact absurd hlast.status (not_applied hr)
    · exact hbefore
  cases hstep with
  | quiet halike => exact Or.inl (halike.history ▸ hlast)
  | noted hstatus halike => exact Or.inl (hpushed hstatus halike.history)
  | spoiled hstatus hfree hdigest halike => exact Or.inl (hpushed (Or.inl hstatus) halike.history)
  | saved hfree hdigest halike =>
    have hhistory : m'.history = m.history := halike.history
    exact Or.inl (hhistory ▸ hlast)
  | @applied q b old new hnamed hold hedit hfree hdigest halike =>
    have hhistory : m'.history = m.history ++ [appliedRecord (m.recordId m.issued) q b] :=
      halike.history
    rw [hhistory] at hlast
    rcases isLastOf_concat hlast with hnew | hbefore
    · exact Or.inr ⟨q, b, old, new, hnew, hold, hfree, hdigest, halike⟩
    · exact Or.inl hbefore
  | @undone i r b text hselect hbackup htext halike =>
    obtain ⟨front, back, hsplit, -, -, hback, hmarked⟩ := hbooks.latest hselect
    have hhistory : m'.history = front ++ undoneRecord r :: back := halike.history.trans hmarked
    rw [hhistory] at hlast
    rw [hsplit]
    exact Or.inl (isLastOf_of_undone hback hlast)

theorem Restorable.step (h : Restorable named states m) (hstep : Step named m m')
    (hapart : ∀ p, named p → m.tracks p = false) (hpair : [m, m'] <:+: states) :
    Restorable named states m' := by
  refine ⟨h.books.step hstep, ?_⟩
  intro R hlast
  have hsame : IsLastOf R m.history → HasBackup states m' R := fun hbefore =>
    (h.backups R hbefore).mono fun b text hb hkept =>
      hstep.keeps h.books hapart hkept (hlast.backup_mem hb)
  cases hstep with
  | working hworking =>
    rcases isLastOf_before h.books hworking hlast with hbefore |
      ⟨q, b, old, new, rfl, hold, hfree, hdigest, halike⟩
    · exact hsame hbefore
    · exact hasBackup_of_applied hold hfree hdigest halike hpair
  | written hnamed halike =>
    have hhistory : m'.history = m.history := halike.history
    exact hsame (hhistory ▸ hlast)
  | deleted hnamed halike =>
    have hhistory : m'.history = m.history := halike.history
    exact hsame (hhistory ▸ hlast)
  | reset halike =>
    have hempty : m'.history = [] := halike.history
    have hmem := hlast.mem
    rw [hempty] at hmem
    cases hmem

/-- Every state of a run from a new manager keeps the backups of the last changes. -/
theorem restorable_of_mem_trace (config : ChangeConfig) (stamp recordId : Nat → String)
    (telemetry : Telemetry) (files : MemoryFiles) {as : List Action}
    (hapart : ∀ s ∈ trace as (new config stamp telemetry files recordId), ∀ a ∈ as, ∀ p ∈ a.paths,
      s.tracks p = false) :
    ∀ s ∈ trace as (new config stamp telemetry files recordId),
      Restorable (Action.NamedBy as) (trace as (new config stamp telemetry files recordId)) s := by
  let start := new config stamp telemetry files recordId
  have hnew : Restorable (Action.NamedBy as) (trace as start) start := by
    refine ⟨⟨rfl, fun r hr => by cases hr⟩, ?_⟩
    intro R hlast
    have hmem := hlast.mem
    cases hmem
  have hchain : List.IsChain (Step (Action.NamedBy as)) (trace as start) :=
    trace_isChain (fun a ha p hp => ⟨a, ha, hp⟩) fun q hq => by cases hq
  refine trace_invariant hchain hnew fun s t hpair hstep h => h.step hstep ?_ hpair
  rintro p ⟨a, ha, hp⟩
  exact hapart s (hpair.subset (by simp)) a ha p hp

/-! ## The main theorem -/

/-- A change whose backup is kept is undone, unless a refusal prevents it. -/
theorem undo_of_keeps {i : Nat} {R : ChangeRecord} {b : Path} {before : String}
    (hselect : m.selectUndo? = some (i, R)) (hb : R.backup = some b)
    (hdigest : R.digest = some (digestOf before)) (hkept : m.Keeps b before)
    (hwrite : m.refusesWrite R.file = false) (hread : m.refusesRead b = false) :
    ∃ m', undo m = .ok (.ok (undoneRecord R)) m' ∧ m'.text? R.file = some before := by
  have htext : m.vault.files.textAt b = .ok before :=
    MemoryFiles.textAt_of_contents? hkept.2 hread
  obtain ⟨a, m', hrun, hcase⟩ := undo_run m
  cases hcase with
  | nothing hnone =>
    rw [hselect] at hnone
    cases hnone
  | @obstructed j r e hsome hobstacle =>
    rw [hselect] at hsome
    obtain ⟨rfl, rfl⟩ := Prod.mk.inj (Option.some.inj hsome)
    exact absurd hobstacle (not_obstructed hb htext (by simp [hdigest]) hwrite e)
  | @undone j r b' contents hsome hbackup hread' hdigest' htarget =>
    rw [hselect] at hsome
    obtain ⟨rfl, rfl⟩ := Prod.mk.inj (Option.some.inj hsome)
    rw [hb] at hbackup
    obtain rfl := Option.some.inj hbackup
    rw [htext] at hread'
    obtain rfl := Except.ok.inj hread'
    refine ⟨_, hrun, ?_⟩
    change (m.writing R.file before).text? R.file = some before
    simp

/-- In every state of every run in which no action names a path that is at any time that of a backup,
the newest applied record can be undone if its change is the last of its file: its backup is kept,
whatever the limit is, and undoing it gives the file the text it had when the change was applied,
unless the file refuses writes or the backup refuses reads. -/
theorem undo_restores_last_change (config : ChangeConfig) (stamp recordId : Nat → String)
    (telemetry : Telemetry) (files : MemoryFiles) (as : List Action)
    (hapart : ∀ s ∈ trace as (new config stamp telemetry files recordId), ∀ a ∈ as, ∀ p ∈ a.paths,
      s.tracks p = false)
    {s : Manager MemoryFiles} (hs : s ∈ trace as (new config stamp telemetry files recordId))
    {front back : List ChangeRecord} {R : ChangeRecord}
    (hsplit : s.history = front ++ R :: back) (hR : R.status = .applied)
    (hnewest : ∀ r ∈ back, r.status ≠ .applied)
    (hlast : ∀ r ∈ back, r.isFor R.file = true → ChangeSummary.touched r = false) :
    ∃ b before, R.backup = some b ∧ s.tracks b = true ∧ s.text? b = some before ∧
      AppliedAmong (trace as (new config stamp telemetry files recordId)) R before ∧
      (s.refusesWrite R.file = false → s.refusesRead b = false →
        ∃ s', undo s = .ok (.ok (undoneRecord R)) s' ∧ s'.text? R.file = some before) := by
  have hrestorable := restorable_of_mem_trace config stamp recordId telemetry files hapart s hs
  obtain ⟨b, before, hb, hdigest, hkept, hamong⟩ :=
    hrestorable.backups R ⟨front, back, hsplit, hR, hlast⟩
  refine ⟨b, before, hb, hkept.1, hkept.2, hamong, ?_⟩
  intro hwrite hread
  have hselect := selectUndo?_of_latest hrestorable.books.stack hsplit hR hnewest
  exact undo_of_keeps hselect hb hdigest hkept hwrite hread

/-- The change of the first file is undone after that of the second, though one backup is the limit. -/
theorem undo_restores_last_change_over_two_files :
    let as := [Action.apply (retouch "a" 0), Action.apply (retouch "b" 0), Action.undo]
    let R := appliedRecord "0" (retouch "a" 0)
      ⟨⟨"a"⟩, (overTwoFiles 1).vault.store.pathOf ⟨"a"⟩ 0, digestOf "a0\n"⟩
    ∃ b before, R.backup = some b ∧ (run as (overTwoFiles 1)).tracks b = true ∧
      (run as (overTwoFiles 1)).text? b = some before ∧
      AppliedAmong (trace as (overTwoFiles 1)) R before ∧
      ((run as (overTwoFiles 1)).refusesWrite R.file = false →
        (run as (overTwoFiles 1)).refusesRead b = false →
        ∃ s', undo (run as (overTwoFiles 1)) = .ok (.ok (undoneRecord R)) s' ∧
          s'.text? R.file = some before) := by
  intro as R
  let S := appliedRecord "1" (retouch "b" 0)
    ⟨⟨"b"⟩, (overTwoFiles 1).vault.store.pathOf ⟨"b"⟩ 1, digestOf "b0\n"⟩
  have hhistory : (run as (overTwoFiles 1)).history = [] ++ R :: [undoneRecord S] := by
    decide +kernel
  have hback : ∀ r ∈ [undoneRecord S], r.status ≠ .applied := by
    intro r hr happlied
    rw [List.mem_singleton.1 hr] at happlied
    cases happlied
  have hother : ∀ r ∈ [undoneRecord S],
      r.isFor R.file = true → ChangeSummary.touched r = false := by
    intro r hr hfor
    rw [List.mem_singleton.1 hr] at hfor
    exact absurd hfor (by decide +kernel)
  exact undo_restores_last_change _ _ _ _ _ as (by decide +kernel) (run_mem_trace as _) hhistory rfl
    hback hother

end Manager

end CodeReview
