import CodeReview.Proofs.AuditTrail

/-!
# Undoing safely

Between the look at the undo stack and the note in the history an undo may stop in five ways: there is
nothing to undo, the backup is gone, it cannot be read, it was altered, or the file refuses the write.
In each of them the manager and its files are what they were (`undo_cases`).  Otherwise the latest
applied change is taken back as `TookBack` says in full.  Which of the two happens depends on the
backup and the file alone (`undo_succeeds_iff`), so nothing but a text with the recorded digest is
ever written back.
-/

namespace CodeReview

namespace Manager

variable {m m' : Manager MemoryFiles} {r : ChangeRecord}

/-- The change of a record was the latest applied one of a manager, and in the other it is undone:
its file has the text of the backup, which has the recorded digest.  Nothing else changed but
telemetry. -/
structure TookBack (m : Manager MemoryFiles) (r : ChangeRecord) (m' : Manager MemoryFiles) :
    Prop where
  latest : ∃ front back, m.history = front ++ r :: back ∧ r.status = .applied ∧
    (∀ s ∈ back, s.status ≠ .applied) ∧ m'.history = front ++ undoneRecord r :: back ∧
    m.undoStack = m'.undoStack ++ [front.length]
  restored : ∃ b text, r.backup = some b ∧ r.digest = some (digestOf text) ∧
    m.text? b = some text ∧ m'.text? b = some text ∧ m'.text? r.file = some text
  others : ∀ p, p.key ≠ r.file.key → m'.text? p = m.text? p
  refusals : ∀ p, m'.refusesWrite p = m.refusesWrite p ∧ m'.refusesRead p = m.refusesRead p
  store : m'.vault.store = m.vault.store
  batch : m'.pending = m.pending
  config : m'.config = m.config
  issued : m'.issued = m.issued
  recordId : m'.recordId = m.recordId

/-- An applied record has a digest, so the check against it is not idle. -/
theorem digest_eq_of_check (hsound : r.Sound) (hr : r.status = .applied) {text : String}
    (hcheck : r.digest.all (· = digestOf text) = true) : r.digest = some (digestOf text) := by
  unfold ChangeRecord.Sound at hsound
  rw [hr] at hsound
  obtain ⟨-, hdigest, -⟩ := hsound
  obtain ⟨d, hd⟩ := Option.isSome_iff_exists.1 hdigest
  rw [hd] at hcheck ⊢
  simpa using hcheck

theorem tookBack_undoing (hm : Audited m) {front back : List ChangeRecord} {b : Path}
    {text : String} (hsplit : m.history = front ++ r :: back) (hr : r.status = .applied)
    (hback : ∀ s ∈ back, s.status ≠ .applied) (hbackup : r.backup = some b)
    (htext : m.text? b = some text) (hdigest : r.digest = some (digestOf text)) :
    TookBack m r (m.undoing front.length r b text) := by
  have hmarked : m.history.set front.length (undoneRecord r) = front ++ undoneRecord r :: back := by
    simp [hsplit]
  have hstack : m.undoStack = appliedPlaces front ++ [front.length] := by
    rw [hm.stack, hsplit, appliedPlaces_of_latest hr hback]
  have hwritten : ∀ p, (m.undoing front.length r b text).text? p =
      if r.file.key = p.key then some text else m.text? p := fun p => text?_writing m r.file p text
  refine
    { latest := ⟨front, back, hsplit, hr, hback, hmarked, ?_⟩
      restored := ⟨b, text, hbackup, hdigest, htext, ?_, ?_⟩
      others := ?_
      refusals := fun _ => ⟨rfl, rfl⟩
      store := rfl
      batch := rfl
      config := rfl
      issued := rfl
      recordId := rfl }
  · change m.undoStack = eraseLast front.length m.undoStack ++ [front.length]
    rw [hstack, eraseLast_concat]
  · rw [hwritten, htext, ite_self]
  · rw [hwritten, if_pos rfl]
  · intro p hp
    rw [hwritten, if_neg (Ne.symm hp)]

/-- An undo leaves everything as it was, or takes the latest applied change back. -/
theorem undo_cases (hm : Audited m) :
    (∃ e, undo m = .ok (.error e) m) ∨
      ∃ r m', undo m = .ok (.ok (undoneRecord r)) m' ∧ TookBack m r m' := by
  obtain ⟨a, m', hrun, hcase⟩ := undo_run m
  cases hcase with
  | nothing hselect => exact Or.inl ⟨_, hrun⟩
  | obstructed hselect hobstacle => exact Or.inl ⟨_, hrun⟩
  | @undone i r b text hselect hbackup hread hcheck htarget =>
    rcases selectUndo?_cases hm.stack with ⟨-, hnone⟩ | ⟨front, s, back, hsplit, hs, hback, hsome⟩
    · rw [hnone] at hselect
      cases hselect
    · rw [hsome] at hselect
      obtain ⟨rfl, rfl⟩ := Prod.mk.inj (Option.some.inj hselect)
      have hsound : s.Sound := hm.sound s (by simp [hsplit])
      exact Or.inr ⟨s, _, hrun, tookBack_undoing hm hsplit hs hback hbackup
        (MemoryFiles.contents?_of_textAt hread) (digest_eq_of_check hsound hs hcheck)⟩

/-- The latest applied change can be taken back just if its backup can be read and has the recorded
digest, and its file can be written. -/
theorem undo_succeeds_iff (hm : Audited m) {front back : List ChangeRecord}
    (hsplit : m.history = front ++ r :: back) (hr : r.status = .applied)
    (hback : ∀ s ∈ back, s.status ≠ .applied) :
    (∃ m', undo m = .ok (.ok (undoneRecord r)) m') ↔
      ∃ b text, r.backup = some b ∧ m.vault.files.textAt b = .ok text ∧
        r.digest = some (digestOf text) ∧ m.refusesWrite r.file = false := by
  have hselect := selectUndo?_of_latest hm.stack hsplit hr hback
  have hsound : r.Sound := hm.sound r (by simp [hsplit])
  obtain ⟨a, k, hrun, hcase⟩ := undo_run m
  rw [hrun]
  cases hcase with
  | nothing hnone => rw [hselect] at hnone; cases hnone
  | @obstructed i s e hsome hobstacle =>
    rw [hselect] at hsome
    obtain ⟨rfl, rfl⟩ := Prod.mk.inj (Option.some.inj hsome)
    constructor
    · rintro ⟨m', h⟩
      cases h
    · rintro ⟨b, text, hbackup, hread, hdigest, htarget⟩
      exact absurd hobstacle (not_obstructed hbackup hread (by simp [hdigest]) htarget e)
  | @undone i s b text hsome hbackup hread hcheck htarget =>
    rw [hselect] at hsome
    obtain ⟨rfl, rfl⟩ := Prod.mk.inj (Option.some.inj hsome)
    exact ⟨fun _ => ⟨b, text, hbackup, hread, digest_eq_of_check hsound hr hcheck, htarget⟩,
      fun _ => ⟨_, rfl⟩⟩

/-- A backup whose text has another digest than the recorded one stops the undo. -/
theorem undo_of_altered (hm : Audited m) {front back : List ChangeRecord}
    (hsplit : m.history = front ++ r :: back) (hr : r.status = .applied)
    (hback : ∀ s ∈ back, s.status ≠ .applied) {b : Path} {text : String}
    (hbackup : r.backup = some b) (htext : m.text? b = some text)
    (haltered : r.digest ≠ some (digestOf text)) : ∃ e, undo m = .ok (.error e) m := by
  rcases undo_cases hm with hrefused | ⟨s, m', hrun, htook⟩
  · exact hrefused
  · obtain ⟨front', back', hsplit', hs, hback', -, -⟩ := htook.latest
    have hselect := selectUndo?_of_latest hm.stack hsplit hr hback
    rw [selectUndo?_of_latest hm.stack hsplit' hs hback'] at hselect
    obtain ⟨-, rfl⟩ := Prod.mk.inj (Option.some.inj hselect)
    obtain ⟨b', text', hbackup', hdigest, htext', -, -⟩ := htook.restored
    obtain rfl := Option.some.inj (hbackup.symm.trans hbackup')
    obtain rfl := Option.some.inj (htext.symm.trans htext')
    exact absurd hdigest haltered

/-- After any operations on a new manager, whatever others did to the files and the backups meanwhile,
an undo leaves everything as it was, or it takes the latest applied change back.  It does the latter
just if the backup can be read and has the recorded digest and the file accepts the write; so it can
be tried again once what stopped it is gone, and an altered backup is never written to a file. -/
theorem undo_restores_or_refuses (config : ChangeConfig) (stamp recordId : Nat → String)
    (telemetry : Telemetry) (files : MemoryFiles) (os : List (Operation MemoryFiles)) :
    let m := Operation.afterAll os (new config stamp telemetry files recordId)
    ((∃ e, undo m = .ok (.error e) m) ∨
      ∃ r m', undo m = .ok (.ok (undoneRecord r)) m' ∧ TookBack m r m') ∧
    ∀ front r back, m.history = front ++ r :: back → r.status = .applied →
      (∀ s ∈ back, s.status ≠ .applied) →
        ((∃ m', undo m = .ok (.ok (undoneRecord r)) m') ↔
          ∃ b text, r.backup = some b ∧ m.vault.files.textAt b = .ok text ∧
            r.digest = some (digestOf text) ∧ m.refusesWrite r.file = false) ∧
        ∀ b text, r.backup = some b → m.text? b = some text → r.digest ≠ some (digestOf text) →
          ∃ e, undo m = .ok (.error e) m := by
  intro m
  have hm : Audited m := Operation.audited_afterAll os ⟨rfl, fun r hr => by cases hr⟩
  refine ⟨undo_cases hm, ?_⟩
  intro front r back hsplit hr hback
  refine ⟨undo_succeeds_iff hm hsplit hr hback, ?_⟩
  intro b text hbackup htext haltered
  exact undo_of_altered hm hsplit hr hback hbackup htext haltered

theorem undo_restores_or_refuses_of_tampered :
    let backup := (overTwoFiles 0).vault.store.pathOf ⟨"a"⟩ 0
    let m := Operation.afterAll
      [.apply (retouch "a" 0), .meanwhile (·.withFile backup "a2\n")] (overTwoFiles 0)
    m.text? backup = some "a2\n" ∧ ∃ e, undo m = .ok (.error e) m := by
  intro backup m
  have hrecords : m.history.map (fun r => (r.status, r.backup,
      decide (r.digest = some (digestOf "a2\n")))) = [(.applied, some backup, false)] := by
    decide +kernel
  have htext : m.text? backup = some "a2\n" := by decide +kernel
  obtain ⟨r, hhistory, hrecord⟩ := List.map_eq_singleton_iff.1 hrecords
  obtain ⟨hstatus, hrest⟩ := Prod.mk.inj hrecord
  obtain ⟨hbackup, hdigest⟩ := Prod.mk.inj hrest
  have hlatest := (undo_restores_or_refuses _ _ _ _ _ _).2 [] r [] hhistory hstatus nofun
  exact ⟨htext, hlatest.2 backup "a2\n" hbackup htext (of_decide_eq_false hdigest)⟩

end Manager

end CodeReview
