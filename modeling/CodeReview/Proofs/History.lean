import CodeReview.Proofs.Effects

/-!
# Histories and undo stacks

A history is read in two ways.  The undo stack lists the places of the records that are still applied
(`appliedPlaces`), so its last place splits the history at the latest applied change
(`split_at_latest`).  The protected backups are those of the latest applied change of each file; a
record that no later applied one of its file stands behind is protected (`mem_protectedBackups`).
-/

namespace CodeReview

namespace Manager

variable {σ : Type}

/-! ## The applied records -/

/-- The records that are still applied, oldest first. -/
def applied (history : List ChangeRecord) : List ChangeRecord :=
  history.filter fun r => r.status = .applied

/-- The places of the records that are still applied. -/
def appliedPlaces (history : List ChangeRecord) : List Nat :=
  (history.zipIdx.filter fun x => x.1.status = .applied).map Prod.snd

/-- The record of an attempt that failed or was declined is not applied. -/
theorem not_applied {r : ChangeRecord} (h : r.status = .failed ∨ r.status = .rejected) :
    r.status ≠ .applied := by
  rcases h with h | h
  · simp [h]
  · simp [h]

@[simp] theorem applied_nil : applied [] = [] :=
  rfl

@[simp] theorem applied_append (h k : List ChangeRecord) :
    applied (h ++ k) = applied h ++ applied k :=
  List.filter_append h k

theorem applied_cons_of_applied {r : ChangeRecord} (hr : r.status = .applied)
    (h : List ChangeRecord) : applied (r :: h) = r :: applied h := by
  simp [applied, hr]

theorem applied_cons_of_not {r : ChangeRecord} (hr : r.status ≠ .applied)
    (h : List ChangeRecord) : applied (r :: h) = applied h := by
  simp [applied, hr]

theorem applied_concat_of_not {r : ChangeRecord} (hr : r.status ≠ .applied)
    (h : List ChangeRecord) : applied (h ++ [r]) = applied h := by
  rw [applied_append, applied_cons_of_not hr, applied_nil, List.append_nil]

theorem applied_eq_nil {h : List ChangeRecord} (hnone : ∀ r ∈ h, r.status ≠ .applied) :
    applied h = [] := by
  simp only [applied, List.filter_eq_nil_iff, decide_eq_true_eq]
  exact hnone

theorem places_from_eq_nil {h : List ChangeRecord} (hnone : ∀ r ∈ h, r.status ≠ .applied)
    (n : Nat) : ((h.zipIdx n).filter fun x => x.1.status = .applied).map Prod.snd = [] := by
  simp only [List.map_eq_nil_iff, List.filter_eq_nil_iff, decide_eq_true_eq]
  intro x hx
  exact hnone x.1 (List.fst_mem_of_mem_zipIdx hx)

/-- Records behind the latest applied one do not show in the places. -/
theorem appliedPlaces_of_latest {front back : List ChangeRecord} {r : ChangeRecord}
    (hr : r.status = .applied) (hback : ∀ s ∈ back, s.status ≠ .applied) :
    appliedPlaces (front ++ r :: back) = appliedPlaces front ++ [front.length] := by
  simp only [appliedPlaces, List.zipIdx_append, List.zipIdx_cons, List.filter_append,
    List.map_append, List.filter_cons, hr, decide_true, if_true, List.map_cons,
    places_from_eq_nil hback, Nat.zero_add]

theorem appliedPlaces_of_none {front back : List ChangeRecord}
    (hback : ∀ s ∈ back, s.status ≠ .applied) :
    appliedPlaces (front ++ back) = appliedPlaces front := by
  simp only [appliedPlaces, List.zipIdx_append, List.filter_append, List.map_append,
    places_from_eq_nil hback, List.append_nil]

/-- A history has no applied record, or it splits at the latest one. -/
theorem split_at_latest (h : List ChangeRecord) :
    (∀ r ∈ h, r.status ≠ .applied) ∨
      ∃ front r back, h = front ++ r :: back ∧ r.status = .applied ∧
        ∀ s ∈ back, s.status ≠ .applied := by
  induction h with
  | nil => exact Or.inl fun r hr => by cases hr
  | cons x h ih =>
    rcases ih with hnone | ⟨front, r, back, rfl, hr, hback⟩
    · by_cases hx : x.status = .applied
      · exact Or.inr ⟨[], x, h, rfl, hx, hnone⟩
      · exact Or.inl (List.forall_mem_cons.2 ⟨hx, hnone⟩)
    · exact Or.inr ⟨x :: front, r, back, rfl, hr, hback⟩

/-- Undo selects the latest applied record. -/
theorem selectUndo?_of_latest {m : Manager σ} (hstack : m.undoStack = appliedPlaces m.history)
    {front back : List ChangeRecord} {r : ChangeRecord} (hsplit : m.history = front ++ r :: back)
    (hr : r.status = .applied) (hback : ∀ s ∈ back, s.status ≠ .applied) :
    m.selectUndo? = some (front.length, r) := by
  have hlast : m.undoStack.getLast? = some front.length := by
    rw [hstack, hsplit, appliedPlaces_of_latest hr hback]
    simp
  simp [selectUndo?, hlast, hsplit]

/-- What an undo selects from a manager whose stack lists the applied places: nothing, or the latest
applied record. -/
theorem selectUndo?_cases {m : Manager σ} (hstack : m.undoStack = appliedPlaces m.history) :
    (∀ r ∈ m.history, r.status ≠ .applied) ∧ m.selectUndo? = none ∨
      ∃ front r back, m.history = front ++ r :: back ∧ r.status = .applied ∧
        (∀ s ∈ back, s.status ≠ .applied) ∧ m.selectUndo? = some (front.length, r) := by
  rcases split_at_latest m.history with hnone | ⟨front, r, back, hsplit, hr, hback⟩
  · refine Or.inl ⟨hnone, ?_⟩
    have hempty : appliedPlaces m.history = [] := places_from_eq_nil hnone 0
    simp [selectUndo?, hstack, hempty]
  · exact Or.inr ⟨front, r, back, hsplit, hr, hback, selectUndo?_of_latest hstack hsplit hr hback⟩

theorem eraseLast_concat (i : Nat) (is : List Nat) : eraseLast i (is ++ [i]) = is := by
  simp [eraseLast]

/-! ## Protected backups -/

/-- The backup of each file that a history protects. -/
def latestBackups (latest : OrderedMap Path Path) (history : List ChangeRecord) :
    OrderedMap Path Path :=
  history.foldl (fun latest r =>
    match r.status, r.backup with
    | .applied, some backup => latest.insert r.file backup
    | _, _ => latest) latest

theorem protectedBackups_eq (history : List ChangeRecord) :
    protectedBackups history = (latestBackups ∅ history).values :=
  rfl

/-- Records that are not applied, or about other files, do not change what is protected of a file. -/
theorem find?_latestBackups_of_none {p : Path} {history : List ChangeRecord}
    (h : ∀ s ∈ history, s.status = .applied → s.file.key ≠ p.key) (latest : OrderedMap Path Path) :
    (latestBackups latest history).find? p = latest.find? p := by
  induction history generalizing latest with
  | nil => rfl
  | cons s history ih =>
    obtain ⟨hs, hrest⟩ := List.forall_mem_cons.1 h
    refine (ih hrest _).trans ?_
    simp only
    split
    · next hstatus _ => exact (OrderedMap.find?_insert latest s.file p _).trans (if_neg (hs hstatus))
    · rfl

/-- The backup of an applied record is protected, if no later applied record is about its file. -/
theorem mem_protectedBackups {front back : List ChangeRecord} {r : ChangeRecord} {b : Path}
    (hr : r.status = .applied) (hb : r.backup = some b)
    (hback : ∀ s ∈ back, s.status = .applied → s.file.key ≠ r.file.key) :
    b ∈ protectedBackups (front ++ r :: back) := by
  rw [protectedBackups_eq]
  refine OrderedMap.mem_values_of_find? (k := r.file) ?_
  have hsplit : latestBackups ∅ (front ++ r :: back) =
      latestBackups ((latestBackups ∅ front).insert r.file b) back := by
    simp only [latestBackups, List.foldl_append, List.foldl_cons, hr, hb]
  rw [hsplit, find?_latestBackups_of_none hback, OrderedMap.find?_insert, if_pos rfl]

/-! ## The last change of a file -/

/-- Whether a record is the applied one that was the last to touch its file: none of those behind it
has, whether or not it was undone since. -/
def IsLastOf (R : ChangeRecord) (history : List ChangeRecord) : Prop :=
  ∃ front back, history = front ++ R :: back ∧ R.status = .applied ∧
    ∀ s ∈ back, s.isFor R.file = true → ChangeSummary.touched s = false

theorem touched_of_applied {r : ChangeRecord} (h : r.status = .applied) :
    ChangeSummary.touched r = true := by
  simp [ChangeSummary.touched, h]

theorem touched_undoneRecord (r : ChangeRecord) :
    ChangeSummary.touched (undoneRecord r) = true := by
  simp [ChangeSummary.touched, undoneRecord]

theorem IsLastOf.mem {R : ChangeRecord} {h : List ChangeRecord} (hlast : IsLastOf R h) : R ∈ h := by
  obtain ⟨front, back, rfl, -, -⟩ := hlast
  simp

theorem IsLastOf.status {R : ChangeRecord} {h : List ChangeRecord} (hlast : IsLastOf R h) :
    R.status = .applied := by
  obtain ⟨-, -, -, hR, -⟩ := hlast
  exact hR

/-- The backup of the last change of a file is protected. -/
theorem IsLastOf.backup_mem {R : ChangeRecord} {h : List ChangeRecord} {b : Path}
    (hlast : IsLastOf R h) (hb : R.backup = some b) : b ∈ protectedBackups h := by
  obtain ⟨front, back, rfl, hR, hback⟩ := hlast
  apply mem_protectedBackups hR hb
  intro s hs happlied hkey
  have hquiet := hback s hs (Path.same_iff.2 hkey)
  rw [touched_of_applied happlied] at hquiet
  cases hquiet

/-- One more record is the last change of its file, or it leaves the last changes of files as they
were. -/
theorem isLastOf_concat {R r : ChangeRecord} {h : List ChangeRecord}
    (hlast : IsLastOf R (h ++ [r])) : R = r ∨ IsLastOf R h := by
  obtain ⟨front, back, heq, hR, hback⟩ := hlast
  rcases List.eq_nil_or_concat back with rfl | ⟨back', x, rfl⟩
  · exact Or.inl (List.singleton_inj.1 (List.append_inj_right' heq rfl)).symm
  · rw [List.concat_eq_append] at heq hback
    have hsplit : h ++ [r] = (front ++ R :: back') ++ [x] := by simpa using heq
    refine Or.inr ⟨front, back', List.append_inj_left' hsplit rfl, hR, ?_⟩
    intro s hs
    exact hback s (List.mem_append_left _ hs)

/-- Undoing the latest applied change makes no other change the last of its file. -/
theorem isLastOf_of_undone {R r : ChangeRecord} {front back : List ChangeRecord}
    (hback : ∀ s ∈ back, s.status ≠ .applied)
    (hlast : IsLastOf R (front ++ undoneRecord r :: back)) : IsLastOf R (front ++ r :: back) := by
  obtain ⟨before, behind, heq, hR, hbehind⟩ := hlast
  rcases List.append_eq_append_iff.1 heq with ⟨mid, rfl, hmid⟩ | ⟨mid, rfl, hmid⟩
  · -- `R` would stand at the undone record or behind it
    have hmem : R ∈ undoneRecord r :: back := by
      rw [hmid]
      simp
    rcases List.mem_cons.1 hmem with rfl | hR'
    · cases hR
    · exact absurd hR (hback R hR')
  · cases mid with
    | nil =>
      obtain ⟨rfl, -⟩ := List.cons.inj hmid
      cases hR
    | cons x mid =>
      obtain ⟨rfl, rfl⟩ := List.cons.inj hmid
      refine ⟨before, mid ++ r :: back, by simp, hR, ?_⟩
      intro s hs hfor
      rcases List.mem_append.1 hs with hmem | hmem
      · exact hbehind s (List.mem_append_left _ hmem) hfor
      · rcases List.mem_cons.1 hmem with rfl | hmem
        · have hundone := hbehind (undoneRecord s) (by simp) hfor
          rw [touched_undoneRecord] at hundone
          cases hundone
        · exact hbehind s (List.mem_append_right _ (List.mem_cons_of_mem _ hmem)) hfor

/-! ## Noting an applied change -/

section NoteApplied

variable {m : Manager MemoryFiles} {q : ChangeRequest} {b : BackupEntry}

@[simp] theorem history_noteApplied :
    (m.noteApplied q b).history = m.history ++ [appliedRecord (m.recordId m.issued) q b] :=
  rfl

@[simp] theorem undoStack_noteApplied :
    (m.noteApplied q b).undoStack = m.undoStack ++ [m.history.length] :=
  rfl

@[simp] theorem refusesWrite_noteApplied (p : Path) :
    (m.noteApplied q b).refusesWrite p = m.refusesWrite p :=
  congrArg (OrderedMap.contains · p) (MemoryFiles.withoutAll_writeProtected m.vault.files _)

@[simp] theorem refusesRead_noteApplied (p : Path) :
    (m.noteApplied q b).refusesRead p = m.refusesRead p :=
  congrArg (OrderedMap.contains · p) (MemoryFiles.withoutAll_readProtected m.vault.files _)

/-- The backup of a change that is being noted is protected. -/
theorem backup_mem_protectedBackups (id : String) (history : List ChangeRecord) :
    b.backup ∈ protectedBackups (history ++ [appliedRecord id q b]) :=
  mem_protectedBackups rfl rfl fun _ h => by cases h

theorem tracks_noteApplied_new : (m.noteApplied q b).tracks b.backup = true :=
  tracks_keeping_of_guarded (backup_mem_protectedBackups _ _) rfl (Or.inr rfl)

theorem tracks_of_noteApplied {x : Path} (h : (m.noteApplied q b).tracks x = true) :
    m.tracks x = true ∨ b.backup.same x = true :=
  tracks_of_keeping h

theorem text?_noteApplied_of_dropped {x : Path} (hold : m.tracks x = true)
    (hnew : (m.noteApplied q b).tracks x = false) : (m.noteApplied q b).text? x = none :=
  text?_keeping_of_dropped hold hnew

/-- A file that goes when an applied change is noted is one of an earlier backup that is not
protected. -/
theorem noteApplied_cases (x : Path) :
    (m.noteApplied q b).text? x = m.text? x ∨
      (m.noteApplied q b).text? x = none ∧ m.tracks x = true ∧
        ∀ p ∈ protectedBackups (m.noteApplied q b).history, p.same x = false := by
  rcases keeping_cases _ (protectedBackups (m.noteApplied q b).history) b x with
    hkept | ⟨hgone, hold | hnew, hguard⟩
  · exact Or.inl hkept
  · exact Or.inr ⟨hgone, hold, hguard⟩
  · have hprotected := hguard b.backup (backup_mem_protectedBackups _ _)
    rw [hnew] at hprotected
    cases hprotected

theorem text?_noteApplied_of_untracked {x : Path} (h : m.tracks x = false) :
    (m.noteApplied q b).text? x = m.text? x := by
  rcases m.noteApplied_cases x with hkept | ⟨-, htracked, -⟩
  · exact hkept
  · rw [h] at htracked
    cases htracked

theorem text?_noteApplied_of_protected {p x : Path}
    (hp : p ∈ protectedBackups (m.noteApplied q b).history) (hx : p.key = x.key) :
    (m.noteApplied q b).text? x = m.text? x :=
  text?_keeping_of_guarded _ b hp hx

theorem text?_noteApplied_new : (m.noteApplied q b).text? b.backup = m.text? b.backup :=
  text?_noteApplied_of_protected (backup_mem_protectedBackups _ _) rfl

end NoteApplied

end Manager

end CodeReview
