import CodeReview.Proofs.History
import CodeReview.Proofs.Outcomes

/-!
# A request takes effect as a whole or not at all

Applying a request either changes its file to the edited text, with one new backup of the old text and
one new record on top of history and undo stack (`TookEffect`), or it leaves the file and the undo
stack as they were (`WasRefused`).  What else happens to files is said in full: an applied change may
drop earlier backups, a failed write leaves one new backup behind, and nothing else changes.  The main
theorem is `apply_whole_or_refused`.
-/

namespace CodeReview

/-- Whether a record says what a request asked for. -/
structure ChangeRecord.Repeats (r : ChangeRecord) (q : ChangeRequest) : Prop where
  file : r.file = q.file
  line : r.line = q.line
  expected : r.expected = q.expected
  suggested : r.suggested = q.suggested

namespace Manager

/-! ## The two ends -/

/-- What a request that took effect made of a manager `m`: `m'`, where the file had the text `old` and
has the text `new`, and `b` is the backup. -/
structure TookEffect (m : Manager MemoryFiles) (q : ChangeRequest) (r : ChangeRecord)
    (m' : Manager MemoryFiles) (old new : String) (b : Path) : Prop where
  before : m.text? q.file = some old
  edit : Edit.replaceBlock old q.line q.expected q.suggested = .ok new
  after : m'.text? q.file = some new
  /-- The backup is a new file, and it is still there when the limit has been enforced. -/
  fresh : m.text? b = none
  kept : m'.text? b = some old
  tracked : m'.tracks b = true
  /-- Any other file that differs was an earlier backup and is gone. -/
  frame : ∀ p, p.same q.file = false → p.same b = false →
    m'.text? p = m.text? p ∨ m'.text? p = none ∧ m.tracks p = true
  status : r.status = .applied
  repeats : r.Repeats q
  backup : r.backup = some b
  digest : r.digest = some (digestOf old)
  history : m'.history = m.history ++ [r]
  undoStack : m'.undoStack = m.undoStack ++ [m.history.length]

/-- What a refused request made of the history: a request without sense leaves none, any other one
leaves one failed record. -/
def NotedFailure (q : ChangeRequest) (history history' : List ChangeRecord) : ChangeError → Prop
  | .invalidRequest _ => history' = history
  | e => ∃ r, r.status = .failed ∧ r.Repeats q ∧ r.error = some e.message ∧
      history' = history ++ [r]

/-- What a refused request made of the files: after a failed write there is one new backup of the old
text, otherwise all files are the same. -/
def FilesAfterFailure (m : Manager MemoryFiles) (q : ChangeRequest) (m' : Manager MemoryFiles) :
    ChangeError → Prop
  | .applyFailed _ b _ _ => m.text? b = none ∧ m'.tracks b = true ∧
      (∃ old, m.text? q.file = some old ∧ m'.text? b = some old) ∧
      ∀ p, p.same b = false → m'.text? p = m.text? p
  | _ => ∀ p, m'.text? p = m.text? p

/-- What a request that was refused with an error made of a manager. -/
structure WasRefused (m : Manager MemoryFiles) (q : ChangeRequest) (e : ChangeError)
    (m' : Manager MemoryFiles) : Prop where
  target : m'.text? q.file = m.text? q.file
  undoStack : m'.undoStack = m.undoStack
  history : NotedFailure q m.history m'.history e
  files : FilesAfterFailure m q m' e
  /-- The error says whether a backup was left behind. -/
  sideEffects : e.hadSideEffects = true ↔ ∃ b, m.text? b = none ∧ m'.text? b ≠ none

/-! ## Refusals -/

section

variable {m k : Manager MemoryFiles} {q : ChangeRequest} {e : ChangeError}

theorem notedFailure_noteFailed (hlive : k.config.dryRun = false)
    (hvalid : ∀ fault, e ≠ .invalidRequest fault) (b : Option BackupEntry) :
    NotedFailure q k.history (k.noteFailed q e b).history e := by
  have hrecord : ∃ r, r.status = .failed ∧ r.Repeats q ∧ r.error = some e.message ∧
      (k.noteFailed q e b).history = k.history ++ [r] :=
    ⟨_, rfl, ⟨rfl, rfl, rfl, rfl⟩, rfl, history_noteFailed q e b hlive⟩
  cases e with
  | invalidRequest fault => exact absurd rfl (hvalid fault)
  | _ => exact hrecord

/-- A failure that is noted without a backup shows in the history only. -/
theorem wasRefused_of_noted (hlive : k.config.dryRun = false) (htext : ∀ p, k.text? p = m.text? p)
    (hstack : k.undoStack = m.undoStack) (hhistory : k.history = m.history)
    (hvalid : ∀ fault, e ≠ .invalidRequest fault) (hquiet : e.hadSideEffects = false) :
    WasRefused m q e (k.noteFailed q e none) := by
  have hfiles : ∀ p, (k.noteFailed q e none).text? p = m.text? p := by
    intro p
    rw [text?_noteFailed, htext p]
  refine ⟨hfiles q.file, ?_, ?_, ?_, ?_⟩
  · rw [undoStack_noteFailed, hstack]
  · rw [← hhistory]
    exact notedFailure_noteFailed hlive hvalid none
  · cases e with
    | applyFailed => cases hquiet
    | _ => exact hfiles
  · rw [hquiet]
    refine ⟨fun h => absurd h Bool.false_ne_true, ?_⟩
    rintro ⟨b, hnone, hsome⟩
    exact absurd ((hfiles b).trans hnone) hsome

/-- A failed write leaves a backup of the old text, and no other file changes. -/
theorem wasRefused_of_written {old : String} {n : Nat} {cause : FileError}
    (hread : m.vault.files.textAt q.file = .ok old) (hlive : m.config.dryRun = false)
    (hfree : m.FreeNumber q.file n) :
    WasRefused m q
      (.applyFailed q.file (m.vault.store.pathOf q.file n) false cause)
      (((m.backingUp q.file n old).reporting (.rollbackFailed q.file cause.message)).noteFailed q
        (.applyFailed q.file (m.vault.store.pathOf q.file n) false cause)
        (some (m.entryOf q.file n old))) := by
  have hold : m.text? q.file = some old := MemoryFiles.contents?_of_textAt hread
  have hne := ne_of_text? hold hfree.free
  refine ⟨?_, ?_, ?_, ?_, ?_⟩
  · simp [hne]
  · simp
  · exact notedFailure_noteFailed (k := (m.backingUp q.file n old).reporting _) hlive
      (fun _ h => by cases h) _
  · refine ⟨hfree.free, ?_, ⟨old, hold, by simp⟩, ?_⟩
    · refine tracks_iff.2 ⟨m.entryOf q.file n old, ?_, rfl⟩
      rw [entries_noteFailed]
      · simp
      · exact hlive
    · intro p hp
      simp [Ne.symm (Path.not_same_iff.1 hp)]
  · exact ⟨fun _ => ⟨_, hfree.free, by simp⟩, fun _ => rfl⟩

/-! ## Changes that take effect -/

/-- An applied change took effect, unless its file is one of the backups. -/
theorem tookEffect_of_applied {old new : String} {n : Nat}
    (hread : m.vault.files.textAt q.file = .ok old)
    (hedit : Edit.replaceBlock old q.line q.expected q.suggested = .ok new)
    (hfree : m.FreeNumber q.file n) (htarget : m.tracks q.file = false) :
    TookEffect m q (appliedRecord (m.recordId m.issued) q (m.entryOf q.file n old))
      (((((m.backingUp q.file n old).writing q.file new).noteApplied q
          (m.entryOf q.file n old)).counting .changesApplied).reporting
        (.changeApplied q.file q.line (m.vault.store.pathOf q.file n)))
      old new (m.vault.store.pathOf q.file n) := by
  have hold : m.text? q.file = some old := MemoryFiles.contents?_of_textAt hread
  have hne := ne_of_text? hold hfree.free
  have hstored : ((m.backingUp q.file n old).writing q.file new).text?
      (m.vault.store.pathOf q.file n) = some old := by
    simp [Ne.symm hne]
  refine ⟨hold, hedit, ?_, hfree.free, ?_, ?_, ?_, rfl,
    ⟨rfl, rfl, rfl, rfl⟩, rfl, rfl, ?_, ?_⟩
  · rw [text?_reporting, text?_counting, text?_noteApplied_of_untracked (by simpa using htarget)]
    simp
  · rw [text?_reporting, text?_counting]
    exact text?_noteApplied_new.trans hstored
  · rw [tracks_reporting, tracks_counting]
    exact tracks_noteApplied_new
  · intro p hq hb
    have hqp : q.file.key ≠ p.key := Ne.symm (Path.not_same_iff.1 hq)
    have hbp : (m.vault.store.pathOf q.file n).key ≠ p.key := Ne.symm (Path.not_same_iff.1 hb)
    have hbefore : ((m.backingUp q.file n old).writing q.file new).text? p = m.text? p := by
      simp [hqp, hbp]
    rcases noteApplied_cases (m := (m.backingUp q.file n old).writing q.file new) (q := q)
      (b := m.entryOf q.file n old) p with hkept | ⟨hgone, htracked, -⟩
    · exact Or.inl (hkept.trans hbefore)
    · exact Or.inr ⟨hgone, htracked⟩
  · rw [history_reporting, history_counting, history_noteApplied]
    rfl
  · rw [undoStack_reporting, undoStack_counting, undoStack_noteApplied]
    rfl

/-! ## The main theorem -/

/-- Where changes are written, applying a request whose file is none of the backups has one of two
ends: the change took effect as a whole, or it was refused and left no more than a failed write's
backup. -/
theorem apply_whole_or_refused (m : Manager MemoryFiles) (q : ChangeRequest)
    (hlive : m.config.dryRun = false) (htarget : m.tracks q.file = false) :
    (∃ r m' old new b, apply q m = .ok (.ok (.applied r)) m' ∧ TookEffect m q r m' old new b) ∨
      ∃ e m', apply q m = .ok (.error e) m' ∧ WasRefused m q e m' := by
  rcases apply_run q m with ⟨fault, -, hrun⟩ | ⟨-, a, m', hrun, hcase⟩
  · refine Or.inr ⟨_, _, hrun, rfl, rfl, rfl, fun _ => rfl, ?_⟩
    refine ⟨fun h => absurd h Bool.false_ne_true, ?_⟩
    rintro ⟨b, hnone, hsome⟩
    exact absurd hnone hsome
  · cases hcase with
    | unreadable hread =>
      exact Or.inr ⟨_, _, hrun, wasRefused_of_noted hlive (fun _ => rfl) rfl rfl
        (fun _ h => by cases h) rfl⟩
    | conflict hread hedit =>
      exact Or.inr ⟨_, _, hrun, wasRefused_of_noted hlive (fun _ => rfl) rfl rfl
        (fun _ h => by cases h) rfl⟩
    | previewed hread hedit hdry =>
      rw [hlive] at hdry
      cases hdry
    | backupRefused hread hedit _ hfree hbackup =>
      exact Or.inr ⟨_, _, hrun, wasRefused_of_noted (k := m.skipTo _) hlive (fun _ => rfl) rfl rfl
        (fun _ h => by cases h) rfl⟩
    | writeRefused hread hedit _ hfree hbackup _ =>
      exact Or.inr ⟨_, _, hrun, wasRefused_of_written hread hlive hfree⟩
    | applied hread hedit _ hfree hbackup _ =>
      exact Or.inl ⟨_, _, _, _, _, hrun, tookEffect_of_applied hread hedit hfree htarget⟩

/-- The second change under a limit of one backup. -/
theorem apply_whole_or_refused_over_two_files :
    let m := (apply (retouch "a" 0)).endState (overTwoFiles 1)
    let q := retouch "b" 0
    m.config.dryRun = false ∧ m.tracks q.file = false ∧
      ((∃ r m' old new b, apply q m = .ok (.ok (.applied r)) m' ∧ TookEffect m q r m' old new b) ∨
        ∃ e m', apply q m = .ok (.error e) m' ∧ WasRefused m q e m') := by
  intro m q
  have hlive : m.config.dryRun = false := by decide +kernel
  have htarget : m.tracks q.file = false := by decide +kernel
  exact ⟨hlive, htarget, apply_whole_or_refused m q hlive htarget⟩

end

end Manager

end CodeReview
