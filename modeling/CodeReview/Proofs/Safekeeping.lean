import CodeReview.Proofs.Steps

/-!
# What every step keeps

Two facts about runs on which the undo rests.  The undo stack lists the places of the applied records
(`Books.step`), and a backup that the history protects keeps its text (`Working.keeps`), as long as
nobody but the manager names the paths of backups.
-/

namespace CodeReview

namespace Manager

variable {named : Path → Prop} {m m' : Manager MemoryFiles}

/-! ## The books -/

/-- The undo stack lists the applied records, and their files are paths that requests may name. -/
structure Books (named : Path → Prop) (m : Manager MemoryFiles) : Prop where
  stack : m.undoStack = appliedPlaces m.history
  files : ∀ r ∈ m.history, r.status = .applied → named r.file

namespace Books

/-- What an undo selects is the latest applied record, which is the one that it marks. -/
theorem latest (h : Books named m) {i : Nat} {r : ChangeRecord}
    (hselect : m.selectUndo? = some (i, r)) :
    ∃ front back, m.history = front ++ r :: back ∧ front.length = i ∧ r.status = .applied ∧
      (∀ s ∈ back, s.status ≠ .applied) ∧
      (m.marking i r).history = front ++ undoneRecord r :: back := by
  rcases selectUndo?_cases h.stack with ⟨-, hnone⟩ | ⟨front, s, back, hsplit, hs, hback, hsome⟩
  · rw [hnone] at hselect
    cases hselect
  · rw [hsome] at hselect
    obtain ⟨rfl, rfl⟩ := Prod.mk.inj (Option.some.inj hselect)
    exact ⟨front, back, hsplit, rfl, hs, hback, by simp [Manager.marking, hsplit]⟩

/-- The file of the change that an undo selects is a path that requests may name. -/
theorem named_of_selected (h : Books named m) {i : Nat} {r : ChangeRecord}
    (hselect : m.selectUndo? = some (i, r)) : named r.file := by
  obtain ⟨front, back, hsplit, -, hr, -, -⟩ := h.latest hselect
  refine h.files r ?_ hr
  rw [hsplit]
  simp

/-- Marking the selected change as undone takes the last of the applied records away. -/
theorem applied_marking (h : Books named m) {i : Nat} {r : ChangeRecord}
    (hselect : m.selectUndo? = some (i, r)) :
    applied m.history = applied (m.marking i r).history ++ [r] := by
  obtain ⟨front, back, hsplit, -, hr, hback, hmarked⟩ := h.latest hselect
  rw [hmarked, hsplit, applied_append, applied_append, applied_cons_of_applied hr,
    applied_cons_of_not (fun hu => by cases hu), applied_eq_nil hback, List.append_nil]

theorem of_eq (h : Books named m) (hstack : m'.undoStack = m.undoStack)
    (hhistory : m'.history = m.history) : Books named m' := by
  refine ⟨?_, ?_⟩
  · rw [hstack, hhistory]
    exact h.stack
  · rw [hhistory]
    exact h.files

theorem alike (h : Books named m) (halike : Alike m m') : Books named m' :=
  h.of_eq halike.undoStack halike.history

/-- A record that is not applied does not show in the books. -/
theorem pushing (h : Books named m) {r : ChangeRecord} (hr : r.status ≠ .applied) :
    Books named (m.pushing r) := by
  refine ⟨?_, ?_⟩
  · refine h.stack.trans (appliedPlaces_of_none ?_).symm
    intro s hs
    rwa [List.mem_singleton.1 hs]
  · intro s hs happlied
    rcases List.mem_append.1 hs with hold | hnew
    · exact h.files s hold happlied
    · rw [List.mem_singleton.1 hnew] at happlied
      exact absurd happlied hr

theorem noteApplied (h : Books named m) {q : ChangeRequest} (hq : named q.file)
    (b : BackupEntry) : Books named (m.noteApplied q b) := by
  refine ⟨?_, ?_⟩
  · have hnone : ∀ s ∈ ([] : List ChangeRecord), s.status ≠ .applied := fun s hs => by cases hs
    rw [undoStack_noteApplied, history_noteApplied, appliedPlaces_of_latest rfl hnone, h.stack]
  · intro r hr happlied
    rw [history_noteApplied] at hr
    rcases List.mem_append.1 hr with hold | hnew
    · exact h.files r hold happlied
    · rw [List.mem_singleton.1 hnew]
      exact hq

theorem marking (h : Books named m) {i : Nat} {r : ChangeRecord}
    (hselect : m.selectUndo? = some (i, r)) : Books named (m.marking i r) := by
  obtain ⟨front, back, hsplit, rfl, hr, hback, hhistory⟩ := h.latest hselect
  refine ⟨?_, ?_⟩
  · have hstack : m.undoStack = appliedPlaces front ++ [front.length] := by
      rw [h.stack, hsplit, appliedPlaces_of_latest hr hback]
    have hnone : ∀ s ∈ undoneRecord r :: back, s.status ≠ .applied :=
      List.forall_mem_cons.2 ⟨(fun hundone => by cases hundone), hback⟩
    rw [hhistory, appliedPlaces_of_none hnone]
    simp only [Manager.marking, hstack, eraseLast_concat]
  · intro s hs happlied
    rw [hhistory] at hs
    refine h.files s ?_ happlied
    rw [hsplit]
    rcases List.mem_append.1 hs with hmem | hmem
    · exact List.mem_append_left _ hmem
    · rcases List.mem_cons.1 hmem with rfl | hmem
      · cases happlied
      · exact List.mem_append_right _ (List.mem_cons_of_mem _ hmem)

theorem working (h : Books named m) (hstep : Working named m m') : Books named m' := by
  cases hstep with
  | quiet halike => exact h.alike halike
  | noted hstatus halike =>
    exact (h.pushing (not_applied hstatus)).alike halike
  | @spoiled r b text hstatus hfree hdigest halike =>
    have hwritten : Books named ((m.writing b.backup text).recording b) := h.of_eq rfl rfl
    exact (hwritten.pushing (not_applied (Or.inl hstatus))).alike halike
  | saved hfree hdigest halike => exact h.of_eq halike.undoStack halike.history
  | @applied q b old new hnamed hold hedit hfree hdigest halike =>
    have hwritten : Books named ((m.writing b.backup old).writing q.file new) := h.of_eq rfl rfl
    exact (hwritten.noteApplied hnamed b).alike halike
  | @undone i r b text hselect hbackup htext halike =>
    have hwritten : Books named (m.writing r.file text) := h.of_eq rfl rfl
    exact (hwritten.marking hselect).alike halike

theorem step (h : Books named m) (hstep : Step named m m') : Books named m' := by
  cases hstep with
  | working hworking => exact h.working hworking
  | written hnamed halike => exact h.of_eq halike.undoStack halike.history
  | deleted hnamed halike => exact h.of_eq halike.undoStack halike.history
  | reset halike =>
    have hempty : Books named m.reset := ⟨rfl, fun r hr => by cases hr⟩
    exact hempty.alike halike

end Books

/-! ## Protected backups -/

/-- Whether a backup is safe from eviction: there is no limit, or the history protects it. -/
def IsSafe (m : Manager MemoryFiles) (p : Path) : Prop :=
  m.vault.store.limit = 0 ∨ ∃ g ∈ protectedBackups m.history, g.key = p.key

theorem IsSafe.alike {p : Path} (h : IsSafe m' p) (halike : Alike m m') : IsSafe m p := by
  unfold IsSafe at h ⊢
  rwa [halike.limit, halike.history] at h

/-- A backup is kept with its text. -/
def Keeps (m : Manager MemoryFiles) (p : Path) (text : String) : Prop :=
  m.tracks p = true ∧ m.text? p = some text

theorem Keeps.alike {p : Path} {text : String} (h : m.Keeps p text) (halike : Alike m m') :
    m'.Keeps p text := by
  unfold Keeps
  rw [halike.tracks, halike.text]
  exact h

theorem Keeps.writing {p x : Path} {text : String} (h : m.Keeps p text) (hne : x.key ≠ p.key)
    (new : String) : (m.writing x new).Keeps p text := by
  refine ⟨h.1, ?_⟩
  rw [text?_writing, if_neg hne]
  exact h.2

theorem Keeps.recording {p : Path} {text : String} (h : m.Keeps p text) (b : BackupEntry) :
    (m.recording b).Keeps p text := by
  refine ⟨?_, h.2⟩
  rw [tracks_recording, h.1]
  rfl

/-- Enforcing the limit spares a backup that is safe. -/
theorem Keeps.keeping {p : Path} {text : String} (h : m.Keeps p text) {guarded : List Path}
    (b : BackupEntry) (hsafe : m.vault.store.limit = 0 ∨ ∃ g ∈ guarded, g.key = p.key) :
    (m.keeping guarded b).Keeps p text := by
  rcases hsafe with hlimit | ⟨g, hg, hkey⟩
  · rw [keeping_of_unlimited hlimit]
    exact h.recording b
  · refine ⟨tracks_keeping_of_guarded hg hkey (Or.inl h.1), ?_⟩
    rw [text?_keeping_of_guarded m b hg hkey]
    exact h.2

theorem Keeps.noteApplied {p : Path} {text : String} (h : m.Keeps p text) (q : ChangeRequest)
    (b : BackupEntry) (hsafe : (m.noteApplied q b).IsSafe p) : (m.noteApplied q b).Keeps p text :=
  Keeps.keeping (m := { m with
    history := m.history ++ [appliedRecord (m.recordId m.issued) q b]
    undoStack := m.undoStack ++ [m.history.length]
    issued := m.issued + 1 }) h b hsafe

/-- A working step keeps a backup that is safe afterwards, if the files of applied changes are no
backups. -/
theorem Working.keeps (hstep : Working named m m') (hbooks : Books named m)
    (hapart : ∀ p, named p → m.tracks p = false) {p : Path} {text : String} (h : m.Keeps p text)
    (hsafe : m'.IsSafe p) : m'.Keeps p text := by
  cases hstep with
  | quiet halike => exact h.alike halike
  | noted hstatus halike => exact Keeps.alike (m := m.pushing _) h halike
  | @spoiled r b old hstatus hfree hdigest halike =>
    have hwritten := (h.writing (ne_of_text? h.2 hfree) old).recording b
    exact Keeps.alike (m := ((m.writing b.backup old).recording b).pushing r) hwritten halike
  | @saved b old hfree hdigest halike =>
    have hwritten := h.writing (ne_of_text? h.2 hfree) old
    refine (hwritten.keeping b ?_).alike halike
    rcases hsafe.alike halike with hlimit | ⟨g, hg, hkey⟩
    · exact Or.inl hlimit
    · exact Or.inr ⟨g, List.mem_append_left _ hg, hkey⟩
  | @applied q b old new hnamed hold hedit hfree hdigest halike =>
    have hwritten := (h.writing (ne_of_text? h.2 hfree) old).writing
      (ne_of_tracks h.1 (hapart _ hnamed)) new
    exact (hwritten.noteApplied q b (hsafe.alike halike)).alike halike
  | @undone i r b old hselect hbackup htext halike =>
    have hnamed := hbooks.named_of_selected hselect
    have hwritten := h.writing (ne_of_tracks h.1 (hapart _ hnamed)) old
    exact Keeps.alike (m := (m.writing r.file old).marking i r) hwritten halike

/-- A step keeps a backup that the history protects afterwards. -/
theorem Step.keeps (hstep : Step named m m') (hbooks : Books named m)
    (hapart : ∀ p, named p → m.tracks p = false) {p : Path} {text : String} (h : m.Keeps p text)
    (hguard : p ∈ protectedBackups m'.history) : m'.Keeps p text := by
  cases hstep with
  | working hworking => exact hworking.keeps hbooks hapart h (Or.inr ⟨p, hguard, rfl⟩)
  | @written x new hnamed halike =>
    exact (h.writing (ne_of_tracks h.1 (hapart x hnamed)) new).alike halike
  | @deleted x hnamed halike =>
    have hspared : (m.touching (·.without x)).text? p = m.text? p :=
      (m.vault.files.contents?_without x p).trans
        (if_neg (ne_of_tracks h.1 (hapart x hnamed)))
    exact Keeps.alike (m := m.touching (·.without x)) ⟨h.1, hspared.trans h.2⟩ halike
  | reset halike =>
    -- the history is forgotten as well, and protects nothing
    have hempty : m'.history = [] := halike.history
    rw [hempty] at hguard
    cases hguard

/-- The books are right in every state of a run. -/
theorem books_trace {as : List Action} {start : Manager MemoryFiles}
    (hnew : Books (Action.NamedBy as) start) (hpending : start.pending = []) :
    ∀ s ∈ trace as start, Books (Action.NamedBy as) s := by
  have hstart : start.PendingNamed (Action.NamedBy as) := by
    intro q hq
    rw [hpending] at hq
    cases hq
  exact trace_invariant (trace_isChain (fun a ha p hp => ⟨a, ha, hp⟩) hstart) hnew
    fun s t _ hstep hs => hs.step hstep

end Manager

end CodeReview
