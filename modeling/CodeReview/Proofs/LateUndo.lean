import CodeReview.Proofs.AuditTrail
import Mathlib.Data.List.Sort

/-!
# An undo that is finished late

An undo selects a change, writes its backup back, and notes the change as undone.  It keeps others from
the file meanwhile, but not from the manager: other operations may complete before the last part
(`lateUndo`).  Most of them are harmless: records have names that are not given twice (`Continues`), so
the note finds the record that was selected or leaves the history alone.  A reset is not harmless.  The
place that was selected may hold another change by then, and as the undo stack knows places only, the
note takes that change off the stack although it stays applied.  The main theorem is `late_undo_law`;
it says when that happens.
-/

namespace CodeReview

namespace Manager

variable {σ : Type} {m m' m'' : Manager σ}

/-! ## Ids of records -/

/-- Each record of the later state stands where it stood in the earlier one, perhaps undone since, or
has an id that was drawn since. -/
structure Continues (m m' : Manager σ) : Prop where
  issued : m.issued ≤ m'.issued
  recordId : m'.recordId = m.recordId
  records : ∀ (j : Nat) (s' : ChangeRecord), m'.history[j]? = some s' →
    (∃ s, m.history[j]? = some s ∧ (s' = s ∨ s' = undoneRecord s)) ∨
      ∃ n, m.issued ≤ n ∧ n < m'.issued ∧ s'.id = m.recordId n

theorem Continues.of_same (hhistory : m'.history = m.history) (hissued : m'.issued = m.issued)
    (hrecordId : m'.recordId = m.recordId) : Continues m m' := by
  refine ⟨hissued ▸ Nat.le_refl _, hrecordId, fun j s' hs' => Or.inl ⟨s', ?_, Or.inl rfl⟩⟩
  rwa [hhistory] at hs'

theorem Continues.of_push {r : ChangeRecord} (hid : r.id = m.recordId m.issued)
    (hhistory : m'.history = m.history ++ [r]) (hissued : m'.issued = m.issued + 1)
    (hrecordId : m'.recordId = m.recordId) : Continues m m' := by
  refine ⟨by omega, hrecordId, fun j s' hs' => ?_⟩
  rw [hhistory] at hs'
  rcases Nat.lt_or_ge j m.history.length with hj | hj
  · rw [List.getElem?_append_left hj] at hs'
    exact Or.inl ⟨s', hs', Or.inl rfl⟩
  · rw [List.getElem?_append_right hj] at hs'
    have hs : s' = r := List.mem_singleton.1 (List.mem_of_getElem? hs')
    exact Or.inr ⟨m.issued, Nat.le_refl _, by omega, hs ▸ hid⟩

theorem Continues.trans (h : Continues m m') (h' : Continues m' m'') : Continues m m'' := by
  refine ⟨Nat.le_trans h.issued h'.issued, h'.recordId.trans h.recordId, fun j s'' hs'' => ?_⟩
  rcases h'.records j s'' hs'' with ⟨s', hs', hsame'⟩ | ⟨n, hn, hn', hid⟩
  · rcases h.records j s' hs' with ⟨s, hs, hsame⟩ | ⟨n, hn, hn', hid⟩
    · refine Or.inl ⟨s, hs, ?_⟩
      rcases hsame with rfl | rfl
      · exact hsame'
      · exact Or.inr (hsame'.elim id id)
    · refine Or.inr ⟨n, hn, Nat.lt_of_lt_of_le hn' h'.issued, ?_⟩
      rcases hsame' with rfl | rfl
      · exact hid
      · exact hid
  · exact Or.inr ⟨n, Nat.le_trans h.issued hn, hn', h.recordId ▸ hid⟩

instance : IsPreorder (Manager σ) Continues where
  refl _ := .of_same rfl rfl rfl
  trans _ _ _ := Continues.trans

theorem conduct_continues : Conduct (@Continues σ) where
  vault _ _ := .of_same rfl rfl rfl
  failed m q e b := by
    unfold noteFailed
    split
    · exact .of_same rfl rfl rfl
    · exact .of_push (r := failedRecord (m.recordId m.issued) q e b) rfl rfl rfl rfl
  applied m q b := .of_push (r := appliedRecord (m.recordId m.issued) q b) rfl rfl rfl rfl

/-! ## The last part of an undo -/

theorem getElem?_set_undone {h : List ChangeRecord} {i j : Nat} {s : ChangeRecord}
    (hs : h[i]? = some s) :
    (h.set i (undoneRecord s))[j]? = if j = i then some (undoneRecord s) else h[j]? := by
  obtain ⟨hi, -⟩ := List.getElem?_eq_some_iff.1 hs
  rw [List.getElem?_set]
  by_cases hj : j = i
  · simp [hj, hi]
  · simp [hj, Ne.symm hj]

theorem noteUndone_continues (m : Manager σ) (i : Nat) (r : ChangeRecord) :
    Continues m (m.noteUndone i r).2 := by
  rcases m.noteUndone_cases i r with ⟨s, hs, -, hrun⟩ | ⟨-, hrun⟩ <;> rw [hrun]
  · refine ⟨Nat.le_refl _, rfl, fun j s' hs' => Or.inl ?_⟩
    change (m.history.set i (undoneRecord s))[j]? = some s' at hs'
    rw [getElem?_set_undone hs] at hs'
    split at hs'
    · next hj =>
      subst hj
      exact ⟨s, hs, Or.inr (Option.some.inj hs').symm⟩
    · exact ⟨s', hs', Or.inl rfl⟩
  · exact .of_same rfl rfl rfl

/-- Where places do not repeat, taking one off the stack leaves the others. -/
theorem eraseLast_eq_filter {is : List Nat} (hdistinct : is.Nodup) (i : Nat) :
    eraseLast i is = is.filter (· ≠ i) := by
  have herase := (List.nodup_reverse.2 hdistinct).erase_eq_filter i
  rw [eraseLast, herase, ← List.filter_reverse, List.reverse_reverse]
  exact List.filter_congr fun j _ => by simp [bne, beq_eq_decide]

theorem appliedPlaces_set_undone {h : List ChangeRecord} {i : Nat} {s : ChangeRecord}
    (hs : h[i]? = some s) :
    appliedPlaces (h.set i (undoneRecord s)) = (appliedPlaces h).filter (· ≠ i) := by
  refine List.Pairwise.eq_of_mem_iff (appliedPlaces_increasing _)
    ((appliedPlaces_increasing h).sublist List.filter_sublist) fun {j} => ?_
  simp only [List.mem_filter, mem_appliedPlaces, getElem?_set_undone hs, decide_eq_true_eq]
  by_cases hj : j = i
  · simp [hj, undoneRecord]
  · simp [hj]

/-- What the note does to an audited manager in which the selected record stands at its place or
nowhere. -/
theorem noteUndone_law (hm : Audited m) {i : Nat} {r : ChangeRecord}
    (hnamed : ∀ s, m.history[i]? = some s → s.id = r.id → s = r ∨ s = undoneRecord r) :
    let noted := m.noteUndone i r
    noted.1 = undoneRecord r ∧
      (∀ j, noted.2.history[j]? = m.history[j]? ∨
        j = i ∧ m.history[i]? = some r ∧ noted.2.history[i]? = some (undoneRecord r)) ∧
      noted.2.undoStack = m.undoStack.filter (· ≠ i) ∧
      (noted.2.undoStack = appliedPlaces noted.2.history ↔
        ∀ s, m.history[i]? = some s → s.status = .applied → s = r) := by
  have hdistinct : (appliedPlaces m.history).Nodup :=
    (appliedPlaces_increasing m.history).imp Nat.ne_of_lt
  have hstack : eraseLast i m.undoStack = (appliedPlaces m.history).filter (· ≠ i) := by
    rw [hm.stack, eraseLast_eq_filter hdistinct]
  rw [hm.stack]
  rcases m.noteUndone_cases i r with ⟨s, hs, hid, hrun⟩ | ⟨hother, hrun⟩ <;> simp only [hrun]
  · -- the place holds the selected record, undone by now or not
    have hundone : undoneRecord s = undoneRecord r := by
      rcases hnamed s hs hid with rfl | rfl <;> rfl
    refine ⟨hundone, fun j => ?_, hstack, ?_⟩
    · simp only [marking, getElem?_set_undone hs]
      by_cases hj : j = i
      · rcases hnamed s hs hid with rfl | rfl
        · exact Or.inr ⟨hj, hs, by simp⟩
        · left
          simp [hj, hs, undoneRecord]
      · left
        simp [hj]
    · simp only [marking, appliedPlaces_set_undone hs, hstack, true_iff]
      intro t ht happlied
      rw [hs] at ht
      cases ht
      rcases hnamed s hs hid with rfl | rfl
      · rfl
      · cases happlied
  · -- it holds another record, or none
    refine ⟨trivial, fun j => Or.inl rfl, hstack, ?_⟩
    simp only [unstacking, hstack, List.filter_eq_self, mem_appliedPlaces]
    constructor
    · intro hall s hs happlied
      simpa using hall i ⟨s, hs, happlied⟩
    · rintro hall j ⟨s, hs, happlied⟩
      simp only [decide_eq_true_eq]
      rintro rfl
      exact hother s hs (congrArg ChangeRecord.id (hall s hs happlied))

section

variable [FileAccess σ]

/-! ## Operations -/

omit [FileAccess σ] in
theorem reject_continues (q : ChangeRequest) :
    (reject q : Attempt (Manager σ) _).Within Continues := by
  intro m
  exact Attempt.ends_of_ok rfl
    (.of_push (r := ChangeRecord.ofRequest (m.recordId m.issued) q .rejected) rfl rfl rfl rfl)

namespace Operation

theorem after_continues (o : Operation σ) (m : Manager σ) : Continues m (o.after m) := by
  by_cases hundo : o = .undo
  · subst hundo
    exact (undo_within conduct_continues.vault.files noteUndone_continues m).endState
  · by_cases hreset : o = .reset
    · subst hreset
      exact ⟨Nat.le_refl _, rfl, fun j s' hs' => by cases hs'⟩
    · exact after_within conduct_continues (fun _ _ => .of_same rfl rfl rfl) reject_continues o hundo
        hreset m

theorem afterAll_continues (os : List (Operation σ)) (m : Manager σ) :
    Continues m (afterAll os m) := by
  induction os generalizing m with
  | nil => exact refl_of Continues m
  | cons o os ih => exact (o.after_continues m).trans (ih _)

end Operation

omit [FileAccess σ] in
/-- Every record of what a new manager has become has an id that was drawn. -/
theorem Continues.drawn {config : ChangeConfig} {stamp recordId : Nat → String}
    {telemetry : Telemetry} {files : σ}
    (h : Continues (new config stamp telemetry files recordId) m) {j : Nat} {s : ChangeRecord}
    (hs : m.history[j]? = some s) : ∃ n, n < m.issued ∧ s.id = m.recordId n := by
  rw [h.recordId]
  rcases h.records j s hs with ⟨s, hs, -⟩ | ⟨n, -, hn, hid⟩
  · cases hs
  · exact ⟨n, hn, hid⟩

omit [FileAccess σ] in
/-- A later record with the id of an earlier one is that one, perhaps undone since, if no id is drawn
twice. -/
theorem Continues.eq_of_id {config : ChangeConfig} {stamp recordId : Nat → String}
    {telemetry : Telemetry} {files : σ} (hdistinct : Function.Injective recordId)
    (hnew : Continues (new config stamp telemetry files recordId) m) (h : Continues m m')
    {i : Nat} {r s' : ChangeRecord} (hr : m.history[i]? = some r)
    (hs' : m'.history[i]? = some s') (hid : s'.id = r.id) : s' = r ∨ s' = undoneRecord r := by
  obtain ⟨k, hk, hrid⟩ := hnew.drawn hr
  rcases h.records i s' hs' with ⟨s, hs, hsame⟩ | ⟨n, hn, -, hsid⟩
  · rw [hr] at hs
    cases hs
    exact hsame
  · have hsource : m.recordId = recordId := hnew.recordId
    have heq : n = k := hdistinct (by rw [← hsource, ← hsid, hid, hrid])
    omega

/-! ## Undoing late -/

/-- Undo the latest applied change, while other operations complete before the change is noted as
undone. -/
def lateUndo (os : List (Operation σ)) : Attempt (Manager σ) (Except ChangeError ChangeRecord) := do
  match (← get).selectUndo? with
  | none => return .error (.nothingToUndo .nothingApplied)
  | some (i, r) =>
    match ← restoreFrom r with
    | .error e => return .error e
    | .ok backup =>
      modify (Operation.afterAll os)
      return .ok (← commitUndo i r backup)

/-- Where nothing comes between, this is the undo. -/
theorem lateUndo_nil : (lateUndo [] : Attempt (Manager σ) _) = undo :=
  rfl

theorem lateUndo_run (os : List (Operation σ)) {i : Nat} {r : ChangeRecord} {backup : Path}
    {restored : Manager σ} (hselect : m.selectUndo? = some (i, r))
    (hrestore : restoreFrom r m = .ok (.ok backup) restored) :
    let noted := (Operation.afterAll os restored).noteUndone i r
    lateUndo os m = .ok (.ok noted.1)
      ((noted.2.counting .changesUndone).reporting (.changeUndone noted.1.file backup)) := by
  unfold lateUndo
  rw [Attempt.bind_of_ok (Attempt.get_run m), hselect]
  simp only
  rw [Attempt.bind_of_ok hrestore]
  rfl

/-- If no id is drawn twice: after any operations on a new manager, let an undo select a change and
restore its file, and let any operations complete before it notes the change as undone.  Then it
succeeds; no record changes but the selected one, which is undone if it still stands in the history; and
the place that was selected goes off the undo stack.  The stack lists the applied records just if no
other change stands at that place by then that is applied.  Without a reset none does. -/
theorem late_undo_law (config : ChangeConfig) (stamp recordId : Nat → String)
    (hdistinct : Function.Injective recordId) (telemetry : Telemetry) (files : σ)
    (os os' : List (Operation σ)) {i : Nat} {r : ChangeRecord} {backup : Path} {restored : Manager σ}
    (hselect : (Operation.afterAll os
      (new config stamp telemetry files recordId)).selectUndo? = some (i, r))
    (hrestore : restoreFrom r (Operation.afterAll os (new config stamp telemetry files recordId)) =
      .ok (.ok backup) restored) :
    let before := Operation.afterAll os' restored
    ∃ after, lateUndo os' (Operation.afterAll os (new config stamp telemetry files recordId)) =
        .ok (.ok (undoneRecord r)) after ∧
      (∀ j, after.history[j]? = before.history[j]? ∨
        j = i ∧ before.history[i]? = some r ∧ after.history[i]? = some (undoneRecord r)) ∧
      after.undoStack = before.undoStack.filter (· ≠ i) ∧
      (after.undoStack = appliedPlaces after.history ↔
        ∀ s, before.history[i]? = some s → s.status = .applied → s = r) ∧
      (.reset ∉ os' → after.undoStack = appliedPlaces after.history) := by
  intro before
  let m := Operation.afterAll os (new config stamp telemetry files recordId)
  have hm : Audited m := Operation.audited_afterAll os ⟨rfl, fun r hr => by cases hr⟩
  have hbooks : SameBooks m restored :=
    (restoreFrom_within sameBooks_blind.files.lenient r m).of_ok hrestore
  have hrestored : Audited restored := hbooks.appends.audited hm
  have hr : restored.history[i]? = some r := by
    rw [hbooks.history]
    exact (selectUndo?_eq_some.1 hselect).2
  have hnew : Continues (new config stamp telemetry files recordId) restored :=
    (Operation.afterAll_continues os _).trans
      ((restoreFrom_within conduct_continues.vault.files.lenient r m).of_ok hrestore)
  obtain ⟨hanswer, hrecords, hstack, hiff⟩ :=
    noteUndone_law (Operation.audited_afterAll os' hrestored) (i := i) (r := r) fun _ hs hid =>
      hnew.eq_of_id hdistinct (Operation.afterAll_continues os' restored) hr hs hid
  have hrun := lateUndo_run os' hselect hrestore
  simp only [hanswer] at hrun
  refine ⟨_, hrun, hrecords, hstack, hiff, fun hos => hiff.2 ?_⟩
  intro s hs happlied
  rcases preserves_afterAll hos hrestored i r hr with hsame | ⟨-, hundone⟩
  · exact Option.some.inj (hs.symm.trans hsame)
  · cases Option.some.inj (hs.symm.trans hundone)
    cases happlied

/-- Before an undo is finished, a change of another file completes; and in a second run a reset comes
after that and leaves the place of the selected change empty. -/
theorem late_undo_law_over_two_files :
    let m := Operation.afterAll [.apply (retouch "a" 0)] (overTwoFiles 0)
    ∃ r, (∃ after, lateUndo [.apply (retouch "b" 0)] m = .ok (.ok (undoneRecord r)) after ∧
        after.undoStack = appliedPlaces after.history) ∧
      ∃ after, lateUndo [.apply (retouch "b" 0), .reset] m = .ok (.ok (undoneRecord r)) after ∧
        after.history = [] ∧ after.undoStack = appliedPlaces after.history := by
  intro m
  have hrestores : m.selectUndo?.map (fun x => ((restoreFrom x.2).answer? m).map Except.isOk) =
      some (some true) := by
    decide +kernel
  obtain ⟨⟨i, r⟩, hselect, hrestores⟩ := Option.map_eq_some_iff.1 hrestores
  cases hrestore : restoreFrom r m with
  | error e restored => simp [Attempt.answer?, hrestore] at hrestores
  | ok answer restored =>
    cases answer with
    | error e => simp [Attempt.answer?, hrestore, Except.isOk, Except.toBool] at hrestores
    | ok backup =>
      have hlaw := fun os' => late_undo_law { backupDir := ⟨"backups"⟩, maxBackups := 0 }
        (fun _ => "s") decimal (fun _ _ => decimal_inj) {} twoFiles [.apply (retouch "a" 0)] os'
        hselect hrestore
      obtain ⟨after, hrun, -, -, -, hstack⟩ := hlaw [.apply (retouch "b" 0)]
      obtain ⟨after', hrun', hrecords, -, hiff, -⟩ := hlaw [.apply (retouch "b" 0), .reset]
      refine ⟨r, ⟨after, hrun, hstack (by simp)⟩, after', hrun', ?_, hiff.2 nofun⟩
      refine List.ext_getElem? fun j => ?_
      rcases hrecords j with hsame | ⟨-, hthere, -⟩
      · exact hsame
      · cases hthere

/-- A change is undone; before the undo is finished, the manager is reset and another file is changed.
That change stays applied, but it is not on the undo stack any more. -/
theorem late_undo_drops_newer_change :
    let m := (Operation.apply (retouch "a" 0)).after (overTwoFiles 0)
    let act : Attempt (Manager MemoryFiles) _ := lateUndo [.reset, .apply (retouch "b" 0)]
    (act.answer? m).map (fun a => a.toOption.map ChangeRecord.file) = some (some ⟨"a"⟩) ∧
      (act.endState m).history.map (fun r => (r.file, r.status)) = [(⟨"b"⟩, .applied)] ∧
      (act.endState m).undoStack = [] := by
  decide +kernel

end

end Manager

end CodeReview
