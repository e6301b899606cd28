import CodeReview.Proofs.Safekeeping
import Mathlib.Logic.Relation

/-!
# Files as a replay of the history

Where all backups are kept and nobody but the manager changes files, the files are at any time what
they were at the beginning with the changes replayed that are still applied, in the order of the
history (`files_are_replay`).  The manager does not replay anything: an undo copies one backup back,
whatever was applied and undone to other files meanwhile.  That both are the same rests on the backups
being snapshots: that of each applied change holds its file as the changes before it left it
(`Snapshots`).
-/

namespace CodeReview

/-! ## Replaying changes -/

/-- The contents after a text was put at a path. -/
def setText (C : Path → Option String) (p : Path) (text : String) : Path → Option String :=
  fun x => if p.key = x.key then some text else C x

/-- The contents after the edit of a record, if it can be made. -/
def redo (C : Path → Option String) (r : ChangeRecord) : Option (Path → Option String) := do
  let old ← C r.file
  let new ← (Edit.replaceBlock old r.line r.expected r.suggested).toOption
  return setText C r.file new

/-- The contents after the edits of several records, if all can be made. -/
def replay (C : Path → Option String) (rs : List ChangeRecord) : Option (Path → Option String) :=
  rs.foldlM redo C

theorem replay_concat {C C' : Path → Option String} {rs : List ChangeRecord} {r : ChangeRecord}
    {old new : String} (h : replay C rs = some C') (hold : C' r.file = some old)
    (hedit : Edit.replaceBlock old r.line r.expected r.suggested = .ok new) :
    replay C (rs ++ [r]) = some (setText C' r.file new) := by
  have hredo : redo C' r = some (setText C' r.file new) := by
    simp [redo, hold, hedit, Except.toOption]
  unfold replay at h ⊢
  simp [List.foldlM_append, h, hredo]

namespace Manager

variable {named : Path → Prop} {m m' : Manager MemoryFiles} {C₀ : Path → Option String}

/-! ## Backups as snapshots -/

/-- Replaying records gives certain contents, and the backup of each holds its file as the records
before it left it. -/
inductive Snapshots (m : Manager MemoryFiles) (C₀ : Path → Option String) :
    List ChangeRecord → (Path → Option String) → Prop
  | nil : Snapshots m C₀ [] C₀
  | concat {rs : List ChangeRecord} {C : Path → Option String} {r : ChangeRecord} {b : Path}
      {old new : String} (hbelow : Snapshots m C₀ rs C) (hold : C r.file = some old)
      (hedit : Edit.replaceBlock old r.line r.expected r.suggested = .ok new)
      (hbackup : r.backup = some b) (hkept : m.Keeps b old) :
      Snapshots m C₀ (rs ++ [r]) (setText C r.file new)

namespace Snapshots

theorem replay_eq {rs : List ChangeRecord} {C : Path → Option String}
    (h : Snapshots m C₀ rs C) : replay C₀ rs = some C := by
  induction h with
  | nil => rfl
  | concat hbelow hold hedit hbackup hkept ih => exact replay_concat ih hold hedit

theorem mono {rs : List ChangeRecord} {C : Path → Option String} (h : Snapshots m C₀ rs C)
    (hkeeps : ∀ p text, m.Keeps p text → m'.Keeps p text) : Snapshots m' C₀ rs C := by
  induction h with
  | nil => exact .nil
  | concat hbelow hold hedit hbackup hkept ih =>
    exact .concat ih hold hedit hbackup (hkeeps _ _ hkept)

/-- Contents do not depend on how a path is spelled. -/
theorem congr {rs : List ChangeRecord} {C : Path → Option String} (h : Snapshots m C₀ rs C)
    (hC₀ : ∀ p q : Path, p.key = q.key → C₀ p = C₀ q) :
    ∀ p q : Path, p.key = q.key → C p = C q := by
  induction h with
  | nil => exact hC₀
  | concat hbelow hold hedit hbackup hkept ih =>
    intro p q hpq
    simp only [setText, hpq, ih p q hpq]

/-- The latest of the records, and the contents before it. -/
theorem of_concat {rs : List ChangeRecord} {r : ChangeRecord} {C : Path → Option String}
    (h : Snapshots m C₀ (rs ++ [r]) C) :
    ∃ C' b old new, Snapshots m C₀ rs C' ∧ C' r.file = some old ∧ r.backup = some b ∧
      m.Keeps b old ∧ C = setText C' r.file new := by
  generalize hall : rs ++ [r] = all at h
  cases h with
  | nil => simp at hall
  | concat hbelow hold hedit hbackup hkept =>
    obtain ⟨rfl, hr⟩ := List.append_inj' hall rfl
    obtain rfl := List.singleton_inj.1 hr
    exact ⟨_, _, _, _, hbelow, hold, hbackup, hkept, rfl⟩

end Snapshots

/-! ## The invariant -/

/-- The files that are no backups are the replay of the applied records, and their backups are
snapshots. -/
structure Replayed (named : Path → Prop) (C₀ : Path → Option String)
    (m : Manager MemoryFiles) : Prop where
  books : Books named m
  unlimited : m.vault.store.limit = 0
  files : ∃ C, Snapshots m C₀ (applied m.history) C ∧ ∀ p, m.tracks p = false → m.text? p = C p

theorem noteApplied_of_unlimited (h : m.vault.store.limit = 0) (q : ChangeRequest)
    (b : BackupEntry) : (∀ p, (m.noteApplied q b).text? p = m.text? p) ∧
      ∀ p, (m.noteApplied q b).tracks p = (m.tracks p || b.backup.same p) := by
  let noted : Manager MemoryFiles :=
    { m with
      history := m.history ++ [appliedRecord (m.recordId m.issued) q b]
      undoStack := m.undoStack ++ [m.history.length]
      issued := m.issued + 1 }
  have hkeep : m.noteApplied q b = noted.recording b :=
    keeping_of_unlimited (m := noted) h (protectedBackups noted.history) b
  rw [hkeep]
  exact ⟨fun p => rfl, fun p => tracks_recording noted b p⟩

/-- Without a limit a working step forgets no backup. -/
theorem Working.tracks_mono (hstep : Working named m m') (h : m.vault.store.limit = 0) {p : Path}
    (hp : m.tracks p = true) : m'.tracks p = true := by
  cases hstep with
  | quiet halike => rwa [halike.tracks]
  | noted hstatus halike =>
    rw [halike.tracks]
    exact hp
  | @spoiled r b text hstatus hfree hdigest halike =>
    rw [halike.tracks]
    change ((m.writing b.backup text).recording b).tracks p = true
    simp [hp]
  | @saved b text hfree hdigest halike =>
    rw [halike.tracks, keeping_of_unlimited (m := m.writing b.backup text) h]
    simp [hp]
  | @applied q b old new hnamed hold hedit hfree hdigest halike =>
    rw [halike.tracks, (noteApplied_of_unlimited (m := (m.writing b.backup old).writing q.file new)
      h q b).2]
    simp [hp]
  | @undone i r b text hselect hbackup htext halike =>
    rw [halike.tracks]
    exact hp

theorem Working.untracked (hstep : Working named m m') (h : m.vault.store.limit = 0) {p : Path}
    (hp : m'.tracks p = false) : m.tracks p = false := by
  cases hm : m.tracks p with
  | false => rfl
  | true =>
    rw [hstep.tracks_mono h hm] at hp
    cases hp

/-- A backup that is written and recorded leaves the files that are no backups then. -/
theorem text?_recording_of_untracked {b : BackupEntry} {text : String} {p : Path}
    (hp : ((m.writing b.backup text).recording b).tracks p = false) :
    ((m.writing b.backup text).recording b).text? p = m.text? p := by
  rw [tracks_recording, Bool.or_eq_false_iff, Path.not_same_iff] at hp
  exact (text?_writing m b.backup p text).trans (if_neg hp.2)

namespace Replayed

theorem mono {named' : Path → Prop} (h : Replayed named C₀ m) (hnamed : ∀ p, named p → named' p) :
    Replayed named' C₀ m :=
  ⟨⟨h.books.stack, fun r hr happlied => hnamed _ (h.books.files r hr happlied)⟩, h.unlimited,
    h.files⟩

section

variable (h : Replayed named C₀ m) (hkeeps : ∀ p text, m.Keeps p text → m'.Keeps p text)
  (huntracked : ∀ p, m'.tracks p = false → m.tracks p = false)

include h hkeeps huntracked

/-- Where nothing is applied or undone, the files that are no backups need only stay. -/
theorem files_idle (happlied : applied m'.history = applied m.history)
    (htext : ∀ p, m'.tracks p = false → m'.text? p = m.text? p) :
    ∃ C, Snapshots m' C₀ (applied m'.history) C ∧ ∀ p, m'.tracks p = false → m'.text? p = C p := by
  obtain ⟨C, hsnap, hfiles⟩ := h.files
  rw [happlied]
  refine ⟨C, hsnap.mono hkeeps, ?_⟩
  intro p hp
  rw [htext p hp, hfiles p (huntracked p hp)]

/-- A request that takes effect is replayed behind the others, and its backup is a snapshot. -/
theorem files_applied {q : ChangeRequest} {b : BackupEntry} {old new : String}
    (huntrackedFile : m.tracks q.file = false) (hold : m.text? q.file = some old)
    (hedit : Edit.replaceBlock old q.line q.expected q.suggested = .ok new)
    (hfree : m.text? b.backup = none)
    (halike : Alike (((m.writing b.backup old).writing q.file new).noteApplied q b) m') :
    ∃ C, Snapshots m' C₀ (applied m'.history) C ∧ ∀ p, m'.tracks p = false → m'.text? p = C p := by
  obtain ⟨C, hsnap, hfiles⟩ := h.files
  obtain ⟨htext, htracks⟩ := noteApplied_of_unlimited
    (m := (m.writing b.backup old).writing q.file new) h.unlimited q b
  have hCold : C q.file = some old := (hfiles q.file huntrackedFile).symm.trans hold
  have hkept : m'.Keeps b.backup old := by
    refine Keeps.alike ⟨tracks_noteApplied_new, ?_⟩ halike
    rw [htext]
    simp [Ne.symm (ne_of_text? hold hfree)]
  have hhistory : applied m'.history =
      applied m.history ++ [appliedRecord (m.recordId m.issued) q b] := by
    rw [halike.history, history_noteApplied, applied_append]
    rfl
  rw [hhistory]
  refine ⟨_, .concat (hsnap.mono hkeeps) hCold hedit rfl hkept, ?_⟩
  intro p hp
  have hmp := huntracked p hp
  rw [halike.tracks, htracks, Bool.or_eq_false_iff, Path.not_same_iff] at hp
  rw [halike.text, htext, text?_writing, text?_writing, if_neg hp.2, hfiles p hmp]
  rfl

/-- An undo takes the latest change off the replay: its backup is what the changes before it left. -/
theorem files_undone (hC₀ : ∀ p q : Path, p.key = q.key → C₀ p = C₀ q) {i : Nat} {r : ChangeRecord}
    {b : Path} {text : String} (hselect : m.selectUndo? = some (i, r)) (hbackup : r.backup = some b)
    (htext : m.text? b = some text) (halike : Alike ((m.writing r.file text).marking i r) m') :
    ∃ C, Snapshots m' C₀ (applied m'.history) C ∧ ∀ p, m'.tracks p = false → m'.text? p = C p := by
  obtain ⟨C, hsnap, hfiles⟩ := h.files
  have hafter : applied m.history = applied m'.history ++ [r] :=
    (h.books.applied_marking hselect).trans (congrArg (applied · ++ [r]) halike.history.symm)
  rw [hafter] at hsnap
  obtain ⟨C', b', old, new, hbelow, hold, hb', hkept, rfl⟩ := hsnap.of_concat
  rw [hbackup] at hb'
  obtain rfl := Option.some.inj hb'
  have htext' : text = old := Option.some.inj (htext.symm.trans hkept.2)
  refine ⟨C', hbelow.mono hkeeps, ?_⟩
  intro p hp
  rw [halike.text]
  change (m.writing r.file text).text? p = C' p
  rw [text?_writing]
  by_cases hrp : r.file.key = p.key
  · rw [if_pos hrp, htext', ← hold]
    exact hbelow.congr hC₀ _ _ hrp
  · rw [if_neg hrp, hfiles p (huntracked p hp)]
    exact if_neg hrp

end

/-- A working step keeps the files a replay. -/
theorem working (h : Replayed named C₀ m) (hC₀ : ∀ p q : Path, p.key = q.key → C₀ p = C₀ q)
    (hstep : Working named m m') (hapart : ∀ p, named p → m.tracks p = false) :
    Replayed named C₀ m' := by
  have hlimit : m'.vault.store.limit = 0 := hstep.limit_eq.trans h.unlimited
  refine ⟨h.books.working hstep, hlimit, ?_⟩
  have hkeeps : ∀ p text, m.Keeps p text → m'.Keeps p text := fun p text hkept =>
    hstep.keeps h.books hapart hkept (Or.inl hlimit)
  have huntracked : ∀ p, m'.tracks p = false → m.tracks p = false := fun p hp =>
    hstep.untracked h.unlimited hp
  cases hstep with
  | quiet halike =>
    exact h.files_idle hkeeps huntracked (congrArg applied halike.history) fun p _ => halike.text p
  | @noted r hstatus halike =>
    refine h.files_idle hkeeps huntracked ?_ fun p _ => halike.text p
    rw [halike.history]
    exact applied_concat_of_not (not_applied hstatus) m.history
  | @spoiled r b text hstatus hfree hdigest halike =>
    refine h.files_idle hkeeps huntracked ?_ ?_
    · rw [halike.history]
      exact applied_concat_of_not (not_applied (Or.inl hstatus)) m.history
    · intro p hp
      rw [halike.tracks] at hp
      exact (halike.text p).trans (text?_recording_of_untracked hp)
  | @saved b text hfree hdigest halike =>
    rw [keeping_of_unlimited (m := m.writing b.backup text) h.unlimited] at halike
    refine h.files_idle hkeeps huntracked (congrArg applied halike.history) ?_
    intro p hp
    rw [halike.tracks] at hp
    exact (halike.text p).trans (text?_recording_of_untracked hp)
  | @applied q b old new hnamed hold hedit hfree hdigest halike =>
    exact h.files_applied hkeeps huntracked (hapart q.file hnamed) hold hedit hfree halike
  | @undone i r b text hselect hbackup htext halike =>
    exact h.files_undone hkeeps huntracked hC₀ hselect hbackup htext halike

/-- Any number of working steps keeps the files a replay, if no path that is admitted is that of a
backup afterwards; then it never was. -/
theorem steps (h : Replayed named C₀ m) (hC₀ : ∀ p q : Path, p.key = q.key → C₀ p = C₀ q)
    (hsteps : Relation.ReflTransGen (Working named) m m')
    (hapart : ∀ p, named p → m'.tracks p = false) :
    Replayed named C₀ m' ∧ ∀ p, m'.tracks p = false → m.tracks p = false := by
  have hmono : ∀ {k : Manager MemoryFiles}, Relation.ReflTransGen (Working named) m k →
      k.vault.store.limit = 0 ∧ ∀ p, k.tracks p = false → m.tracks p = false := by
    intro k hk
    induction hk with
    | refl => exact ⟨h.unlimited, fun _ hp => hp⟩
    | @tail k l hk hstep ih =>
      refine ⟨hstep.limit_eq.trans ih.1, fun p hp => ih.2 p ?_⟩
      exact hstep.untracked ih.1 hp
  refine ⟨?_, (hmono hsteps).2⟩
  induction hsteps with
  | refl => exact h
  | @tail k l hk hstep ih =>
    have hbefore : ∀ p, named p → k.tracks p = false := fun p hp =>
      hstep.untracked (hmono hk).1 (hapart p hp)
    exact (ih hbefore).working hC₀ hstep hbefore

end Replayed

/-! ## Changes that succeed -/

/-- Requests are applied one after another, each with success. -/
inductive AppliesAll : List ChangeRequest → Manager MemoryFiles → Manager MemoryFiles → Prop
  | nil (m : Manager MemoryFiles) : AppliesAll [] m m
  | cons {q : ChangeRequest} {qs : List ChangeRequest} {r : ChangeRecord}
      {m m' m'' : Manager MemoryFiles} (hrun : apply q m = .ok (.ok (.applied r)) m')
      (hrest : AppliesAll qs m' m'') : AppliesAll (q :: qs) m m''

/-- So many changes are undone, each with success. -/
inductive UndoesAll : Nat → Manager MemoryFiles → Manager MemoryFiles → Prop
  | zero (m : Manager MemoryFiles) : UndoesAll 0 m m
  | succ {n : Nat} {r : ChangeRecord} {m m' m'' : Manager MemoryFiles}
      (hrun : undo m = .ok (.ok r) m') (hrest : UndoesAll n m' m'') : UndoesAll (n + 1) m m''

/-- A change that succeeds adds an applied record. -/
theorem applied_of_apply {q : ChangeRequest} {r : ChangeRecord} (hq : named q.file)
    (hrun : apply q m = .ok (.ok (.applied r)) m') :
    Working named m m' ∧ applied m'.history = applied m.history ++ [r] := by
  rcases apply_run q m with ⟨fault, -, hfault⟩ | ⟨-, a, k, hcase, happlying⟩
  · rw [hrun] at hfault
    cases hfault
  · rw [hrun] at hcase
    obtain ⟨rfl, rfl⟩ := EStateM.Result.ok.inj hcase
    refine ⟨working_applying hq happlying, ?_⟩
    cases happlying with
    | applied hread hedit hlive hfree hbackup htarget =>
      rw [history_reporting, history_counting, history_noteApplied, applied_append]
      rfl

/-- An undo that succeeds takes the last of the applied records away. -/
theorem applied_of_undo {r : ChangeRecord} (hbooks : Books named m)
    (hrun : undo m = .ok (.ok r) m') :
    Working named m m' ∧ ∃ r, applied m.history = applied m'.history ++ [r] := by
  obtain ⟨a, k, hcase, hundoing⟩ := undo_run m
  rw [hrun] at hcase
  obtain ⟨rfl, rfl⟩ := EStateM.Result.ok.inj hcase
  refine ⟨working_undoing hundoing, ?_⟩
  cases hundoing with
  | undone hselect hbackup hread hdigest htarget => exact ⟨_, hbooks.applied_marking hselect⟩

theorem AppliesAll.steps {qs : List ChangeRequest} (h : AppliesAll qs m m')
    (hqs : ∀ q ∈ qs, named q.file) :
    Relation.ReflTransGen (Working named) m m' ∧
      ∃ rs, rs.length = qs.length ∧ applied m'.history = applied m.history ++ rs := by
  induction h with
  | nil m => exact ⟨.refl, [], rfl, (List.append_nil _).symm⟩
  | @cons q qs r m k l hrun hrest ih =>
    obtain ⟨hq, hqs⟩ := List.forall_mem_cons.1 hqs
    obtain ⟨hstep, happlied⟩ := applied_of_apply hq hrun
    obtain ⟨hsteps, rs, hlen, hrs⟩ := ih hqs
    refine ⟨.head hstep hsteps, r :: rs, congrArg (· + 1) hlen, ?_⟩
    rw [hrs, happlied, List.append_assoc]
    rfl

theorem UndoesAll.steps {n : Nat} (h : UndoesAll n m m') (hbooks : Books named m) :
    Relation.ReflTransGen (Working named) m m' ∧
      ∃ rs : List ChangeRecord, rs.length = n ∧ applied m.history = applied m'.history ++ rs := by
  induction h with
  | zero m => exact ⟨.refl, [], rfl, (List.append_nil _).symm⟩
  | @succ n r m k l hrun hrest ih =>
    obtain ⟨hstep, r, happlied⟩ := applied_of_undo hbooks hrun
    obtain ⟨hsteps, rs, hlen, hrs⟩ := ih (hbooks.working hstep)
    refine ⟨.head hstep hsteps, rs ++ [r], by simp [hlen], ?_⟩
    rw [happlied, hrs, List.append_assoc]

theorem Books.steps (h : Books named m) (hsteps : Relation.ReflTransGen (Working named) m m') :
    Books named m' := by
  induction hsteps with
  | refl => exact h
  | tail _ hstep ih => exact ih.working hstep

/-- As many undos as there were changes before them give the files back. -/
theorem Replayed.text?_of_undone (h : Replayed named C₀ m)
    (hC₀ : ∀ p q : Path, p.key = q.key → C₀ p = C₀ q) {qs : List ChangeRequest}
    (hqs : ∀ q ∈ qs, named q.file) {k : Manager MemoryFiles} (happlies : AppliesAll qs m k)
    (hundoes : UndoesAll qs.length k m') (hapart : ∀ p, named p → m'.tracks p = false) {p : Path}
    (hp : m'.tracks p = false) : m'.text? p = m.text? p := by
  obtain ⟨hup, rs, hlen, hrs⟩ := happlies.steps hqs
  obtain ⟨hdown, rs', hlen', hrs'⟩ := hundoes.steps (h.books.steps hup)
  have hsame : applied m.history = applied m'.history := by
    rw [hrs] at hrs'
    exact (List.append_inj' hrs' (hlen.trans hlen'.symm)).1
  obtain ⟨hafter, huntracked⟩ := h.steps hC₀ (hup.trans hdown) hapart
  obtain ⟨C, hsnap, hfiles⟩ := h.files
  obtain ⟨C', hsnap', hfiles'⟩ := hafter.files
  have hC : C = C' := by
    have hreplay := hsnap'.replay_eq
    rw [← hsame, hsnap.replay_eq] at hreplay
    exact Option.some.inj hreplay
  rw [hfiles' p hp, ← hC, hfiles p (huntracked p hp)]

/-! ## The main theorem -/

/-- Without a limit on backups, and in every run of requests, undos, rejections and backups in which
no action names the path of a backup: the files that are no backups are at any time the initial ones
with the edits of the applied records replayed in the order of the history.  And as many successful
undos as there were successful changes before them give all of these files back. -/
theorem files_are_replay (config : ChangeConfig) (hlimit : config.maxBackups = 0)
    (stamp recordId : Nat → String) (telemetry : Telemetry) (files : MemoryFiles) (as : List Action)
    (hworking : ∀ a ∈ as, a.isWorking = true)
    (hapart : ∀ s ∈ trace as (new config stamp telemetry files recordId), ∀ a ∈ as, ∀ p ∈ a.paths,
      s.tracks p = false) :
    (∀ s ∈ trace as (new config stamp telemetry files recordId),
      ∃ C, replay files.contents? (applied s.history) = some C ∧
        ∀ p, s.tracks p = false → s.text? p = C p) ∧
    ∀ (qs : List ChangeRequest) (t u : Manager MemoryFiles),
      AppliesAll qs (run as (new config stamp telemetry files recordId)) t → UndoesAll qs.length t u →
      (∀ a ∈ as, ∀ p ∈ a.paths, u.tracks p = false) → (∀ q ∈ qs, u.tracks q.file = false) →
      ∀ p, u.tracks p = false →
        u.text? p = (run as (new config stamp telemetry files recordId)).text? p := by
  let start := new config stamp telemetry files recordId
  have hC₀ : ∀ p q : Path, p.key = q.key → files.contents? p = files.contents? q :=
    fun p q => files.contents?_congr
  have hnew : Replayed (Action.NamedBy as) files.contents? start :=
    ⟨⟨rfl, fun r hr => by cases hr⟩, hlimit, files.contents?, .nil, fun p _ => rfl⟩
  have hinv : ∀ s ∈ trace as start, Replayed (Action.NamedBy as) files.contents? s := by
    have hchain : List.IsChain (Working (Action.NamedBy as)) (trace as start) :=
      working_trace_isChain hworking (fun a ha p hp => ⟨a, ha, hp⟩) fun q hq => by cases hq
    apply trace_invariant hchain hnew
    intro s t hpair hstep h
    refine h.working hC₀ hstep ?_
    rintro p ⟨a, ha, hp⟩
    exact hapart s (hpair.subset (by simp)) a ha p hp
  refine ⟨?_, ?_⟩
  · intro s hs
    obtain ⟨C, hsnap, hfiles⟩ := (hinv s hs).files
    exact ⟨C, hsnap.replay_eq, hfiles⟩
  · intro qs t u happlies hundoes has hqs p hp
    have hend : Replayed (fun p => Action.NamedBy as p ∨ ∃ q ∈ qs, q.file = p) files.contents?
        (run as start) := (hinv _ (run_mem_trace as start)).mono fun p hp => Or.inl hp
    refine hend.text?_of_undone hC₀ (fun q hq => Or.inr ⟨q, hq, rfl⟩) happlies hundoes ?_ hp
    rintro x (⟨a, ha, hx⟩ | ⟨q, hq, rfl⟩)
    · exact has a ha x hx
    · exact hqs q hq

/-- Two files changed in turn, one change undone and one declined, all backups kept. -/
theorem files_are_replay_over_two_files :
    let as := [Action.apply (retouch "a" 0), Action.apply (retouch "b" 0),
      Action.apply (retouch "a" 1), Action.undo, Action.reject (retouch "b" 1)]
    (∀ s ∈ trace as (overTwoFiles 0),
      ∃ C, replay twoFiles.contents? (applied s.history) = some C ∧
        ∀ p, s.tracks p = false → s.text? p = C p) ∧
    ∀ (qs : List ChangeRequest) (t u : Manager MemoryFiles),
      AppliesAll qs (run as (overTwoFiles 0)) t → UndoesAll qs.length t u →
      (∀ a ∈ as, ∀ p ∈ a.paths, u.tracks p = false) → (∀ q ∈ qs, u.tracks q.file = false) →
      ∀ p, u.tracks p = false → u.text? p = (run as (overTwoFiles 0)).text? p := by
  intro as
  exact files_are_replay { backupDir := ⟨"backups"⟩, maxBackups := 0 } rfl (fun _ => "s") decimal {}
    twoFiles as (by decide) (by decide +kernel)

end Manager

end CodeReview
