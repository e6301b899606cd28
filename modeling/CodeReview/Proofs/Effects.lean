import CodeReview.Proofs.MemoryVault
import CodeReview.Proofs.Retention

/-!
# Effects on a change manager

What the parts of an operation make of a manager over files in memory, as functions on managers, and
how each of them shows in the views of a manager: the text of a file, the backups that are kept track
of, the history, the undo stack.  A part changes few of them, so most of these laws are frames.
-/

namespace CodeReview

namespace Manager

variable {σ : Type}

/-! ## Views -/

/-- The text of a file, whether or not it may be read. -/
def text? (m : Manager MemoryFiles) (p : Path) : Option String :=
  m.vault.files.contents? p

theorem text?_congr (m : Manager MemoryFiles) {p q : Path} (h : p.key = q.key) :
    m.text? p = m.text? q :=
  m.vault.files.contents?_congr h

/-- Whether a path is that of a backup that is kept track of. -/
def tracks (m : Manager σ) (p : Path) : Bool :=
  m.vault.store.entries.any fun e => e.backup.same p

theorem tracks_iff {m : Manager σ} {p : Path} :
    m.tracks p = true ↔ ∃ e ∈ m.vault.store.entries, e.backup.key = p.key := by
  simp [tracks, Path.same_iff]

theorem tracks_congr (m : Manager σ) {p q : Path} (h : p.key = q.key) :
    m.tracks p = m.tracks q := by
  simp only [tracks, Path.same, h]

theorem ne_of_text? {m : Manager MemoryFiles} {p x : Path} {text : String}
    (hp : m.text? p = some text) (hx : m.text? x = none) : x.key ≠ p.key := by
  intro h
  rw [m.text?_congr h, hp] at hx
  cases hx

theorem ne_of_tracks {m : Manager σ} {p x : Path} (hp : m.tracks p = true)
    (hx : m.tracks x = false) : x.key ≠ p.key := by
  intro h
  rw [m.tracks_congr h, hp] at hx
  cases hx

/-- Whether writing a path is refused. -/
def refusesWrite (m : Manager MemoryFiles) (p : Path) : Bool :=
  m.vault.files.writeProtected.contains p

/-- Whether reading a path is refused. -/
def refusesRead (m : Manager MemoryFiles) (p : Path) : Bool :=
  m.vault.files.readProtected.contains p

/-! ## A small case -/

/-- Two files of one line each. -/
def twoFiles : MemoryFiles :=
  (MemoryFiles.empty.withFile ⟨"a"⟩ "a0\n").withFile ⟨"b"⟩ "b0\n"

/-- A new manager over two files. -/
def overTwoFiles (limit : Nat) : Manager MemoryFiles :=
  new { backupDir := ⟨"backups"⟩, maxBackups := limit } (fun _ => "s") {} twoFiles

/-- The request that gives one of the two files another text. -/
def retouch (name : String) (version : Nat) : ChangeRequest :=
  ⟨⟨name⟩, 1, name ++ decimal version, name ++ decimal (version + 1)⟩

/-! ## Effects -/

def reporting (m : Manager σ) (e : Event) : Manager σ :=
  { m with vault := { m.vault with telemetry := m.vault.telemetry.report e } }

def counting (m : Manager σ) (c : Counter) : Manager σ :=
  { m with vault := { m.vault with telemetry := m.vault.telemetry.count c } }

/-- The manager after the numbers of backups below `n` are used up. -/
def skipTo (m : Manager σ) (n : Nat) : Manager σ :=
  { m with vault := m.vault.skipTo n }

def writing (m : Manager MemoryFiles) (p : Path) (text : String) : Manager MemoryFiles :=
  { m with vault := { m.vault with files := m.vault.files.withFile p text } }

/-- The backup of a file under a number. -/
def entryOf (m : Manager σ) (file : Path) (n : Nat) (contents : String) : BackupEntry :=
  ⟨file, m.vault.store.pathOf file n, digestOf contents⟩

/-- The manager after a backup of a file was written under a number. -/
def backingUp (m : Manager MemoryFiles) (file : Path) (n : Nat) (contents : String) :
    Manager MemoryFiles :=
  ((m.skipTo (n + 1)).writing (m.vault.store.pathOf file n) contents).reporting
    (.backupCreated file (m.vault.store.pathOf file n))

def failedRecord (id : String) (q : ChangeRequest) (e : ChangeError) (b : Option BackupEntry) :
    ChangeRecord :=
  { ChangeRecord.ofRequest id q .failed with
    error := some e.message
    backup := b.map BackupEntry.backup
    digest := b.map BackupEntry.digest }

def appliedRecord (id : String) (q : ChangeRequest) (b : BackupEntry) : ChangeRecord :=
  { ChangeRecord.ofRequest id q .applied with
    backup := some b.backup
    digest := some b.digest }

/-- The manager after a failed attempt was noted. -/
def noteFailed (m : Manager σ) (q : ChangeRequest) (e : ChangeError) (b : Option BackupEntry) :
    Manager σ :=
  let counted := (m.counting .changesFailed).reporting (.changeFailed q.file q.line e.message)
  if m.config.dryRun then counted
  else
    { counted with
      vault := { counted.vault with store := b.elim m.vault.store m.vault.store.record }
      history := m.history ++ [failedRecord (m.recordId m.issued) q e b]
      issued := m.issued + 1 }

/-- The manager after the files of dropped backups were deleted. -/
def discarding (m : Manager MemoryFiles) (dropped : List Path) : Manager MemoryFiles :=
  { m with
    vault := { m.vault with
      files := m.vault.files.withoutAll dropped
      telemetry := dropped.foldl (fun t p => (t.count .backupsEvicted).report (.backupEvicted p))
        m.vault.telemetry } }

/-- The manager after a backup was kept track of and those that are too many were deleted. -/
def keeping (m : Manager MemoryFiles) (guarded : List Path) (b : BackupEntry) :
    Manager MemoryFiles :=
  let sorted := (m.vault.store.record b).sortOut guarded
  { m with vault := { m.vault with store := { m.vault.store with entries := sorted.2 } } }.discarding
    (sorted.1.map BackupEntry.backup)

/-- The manager after an applied change was noted and its backup kept track of. -/
def noteApplied (m : Manager MemoryFiles) (q : ChangeRequest) (b : BackupEntry) :
    Manager MemoryFiles :=
  let history := m.history ++ [appliedRecord (m.recordId m.issued) q b]
  { m with
    history := history
    undoStack := m.undoStack ++ [m.history.length]
    issued := m.issued + 1 }.keeping (protectedBackups history) b

/-- The manager after an applied change was noted, before backups are dropped. -/
def noting (m : Manager σ) (q : ChangeRequest) (b : BackupEntry) : Manager σ :=
  { m with
    vault := { m.vault with store := m.vault.store.record b }
    history := m.history ++ [appliedRecord (m.recordId m.issued) q b]
    undoStack := m.undoStack ++ [m.history.length]
    issued := m.issued + 1 }

/-- The manager after backups that are too many were dropped; their files are still there. -/
def limiting (m : Manager σ) (guarded : List Path) : Manager σ :=
  { m with vault := { m.vault with
    store := { m.vault.store with entries := (m.vault.store.sortOut guarded).2 } } }

/-- The record of a change after it was undone. -/
def undoneRecord (r : ChangeRecord) : ChangeRecord :=
  { r with status := .undone }

/-- The manager after the record at a place was noted as undone. -/
def marking (m : Manager σ) (i : Nat) (r : ChangeRecord) : Manager σ :=
  { m with
    undoStack := eraseLast i m.undoStack
    history := m.history.set i (undoneRecord r) }

/-- The manager after a place was taken off the undo stack. -/
def unstacking (m : Manager σ) (i : Nat) : Manager σ :=
  { m with undoStack := eraseLast i m.undoStack }

/-- The manager after the file of a record was restored and the record noted as undone. -/
def undoing (m : Manager MemoryFiles) (i : Nat) (r : ChangeRecord) (b : Path)
    (contents : String) : Manager MemoryFiles :=
  (((m.writing r.file contents).marking i r).counting .changesUndone).reporting
    (.changeUndone r.file b)

/-- The manager after a backup was kept track of, without regard to the limit. -/
def recording (m : Manager σ) (b : BackupEntry) : Manager σ :=
  { m with vault := { m.vault with store := m.vault.store.record b } }

/-- The manager after a record was added to the history. -/
def pushing (m : Manager σ) (r : ChangeRecord) : Manager σ :=
  { m with history := m.history ++ [r] }

/-- A number that the search for a backup path of a file may end at. -/
structure FreeNumber (m : Manager MemoryFiles) (file : Path) (n : Nat) : Prop where
  unused : m.vault.store.next ≤ n
  free : m.text? (m.vault.store.pathOf file n) = none

/-! ## Effects that leave a view alone -/

section Frames

variable (m : Manager MemoryFiles) (p file : Path) (n : Nat) (text : String) (e : Event)
  (c : Counter)

@[simp] theorem text?_reporting : (m.reporting e).text? p = m.text? p :=
  rfl

@[simp] theorem text?_counting : (m.counting c).text? p = m.text? p :=
  rfl

@[simp] theorem tracks_reporting : (m.reporting e).tracks p = m.tracks p :=
  rfl

@[simp] theorem tracks_counting : (m.counting c).tracks p = m.tracks p :=
  rfl

@[simp] theorem tracks_writing : (m.writing file text).tracks p = m.tracks p :=
  rfl

@[simp] theorem tracks_backingUp : (m.backingUp file n text).tracks p = m.tracks p :=
  rfl

@[simp] theorem history_reporting : (m.reporting e).history = m.history :=
  rfl

@[simp] theorem history_counting : (m.counting c).history = m.history :=
  rfl

@[simp] theorem undoStack_reporting : (m.reporting e).undoStack = m.undoStack :=
  rfl

@[simp] theorem undoStack_counting : (m.counting c).undoStack = m.undoStack :=
  rfl

@[simp] theorem undoStack_backingUp : (m.backingUp file n text).undoStack = m.undoStack :=
  rfl

end Frames

/-! ## Noting a failure -/

section Failures

variable (m : Manager MemoryFiles) (q : ChangeRequest) (e : ChangeError) (b : Option BackupEntry)

@[simp] theorem text?_noteFailed (p : Path) : (m.noteFailed q e b).text? p = m.text? p := by
  unfold noteFailed
  split <;> rfl

@[simp] theorem refusesWrite_noteFailed (p : Path) :
    (m.noteFailed q e b).refusesWrite p = m.refusesWrite p := by
  unfold noteFailed
  split <;> rfl

@[simp] theorem refusesRead_noteFailed (p : Path) :
    (m.noteFailed q e b).refusesRead p = m.refusesRead p := by
  unfold noteFailed
  split <;> rfl

end Failures

section Failures

variable (m : Manager σ) (q : ChangeRequest) (e : ChangeError) (b : Option BackupEntry)

@[simp] theorem undoStack_noteFailed : (m.noteFailed q e b).undoStack = m.undoStack := by
  unfold noteFailed
  split <;> rfl

@[simp] theorem config_noteFailed : (m.noteFailed q e b).config = m.config := by
  unfold noteFailed
  split <;> rfl

@[simp] theorem pending_noteFailed : (m.noteFailed q e b).pending = m.pending := by
  unfold noteFailed
  split <;> rfl

variable {m}

theorem files_noteFailed : (m.noteFailed q e b).vault.files = m.vault.files := by
  unfold noteFailed
  split <;> rfl

theorem history_noteFailed (hlive : m.config.dryRun = false) :
    (m.noteFailed q e b).history = m.history ++ [failedRecord (m.recordId m.issued) q e b] := by
  unfold noteFailed
  rw [hlive]
  rfl

theorem entries_noteFailed (hlive : m.config.dryRun = false) :
    (m.noteFailed q e b).vault.store.entries = m.vault.store.entries ++ b.toList := by
  unfold noteFailed
  rw [hlive]
  cases b with
  | none => simp [Option.elim, counting, reporting]
  | some b => rfl

theorem tracks_noteFailed_none (hlive : m.config.dryRun = false) (p : Path) :
    (m.noteFailed q e none).tracks p = m.tracks p := by
  unfold tracks
  rw [entries_noteFailed q e none hlive, Option.toList_none, List.append_nil]

end Failures

/-! ## Files and backups after an effect -/

@[simp] theorem text?_writing (m : Manager MemoryFiles) (p x : Path) (text : String) :
    (m.writing p text).text? x = if p.key = x.key then some text else m.text? x :=
  m.vault.files.contents?_withFile p x text

@[simp] theorem text?_backingUp (m : Manager MemoryFiles) (file x : Path) (n : Nat)
    (contents : String) :
    (m.backingUp file n contents).text? x =
      if (m.vault.store.pathOf file n).key = x.key then some contents else m.text? x :=
  text?_writing m _ x contents

@[simp] theorem tracks_recording (m : Manager σ) (b : BackupEntry) (x : Path) :
    (m.recording b).tracks x = (m.tracks x || b.backup.same x) := by
  simp [tracks, recording, BackupStore.record]

/-- Keeping a backup deletes the files of the dropped ones. -/
theorem text?_keeping (m : Manager MemoryFiles) (guarded : List Path) (b : BackupEntry) (x : Path) :
    (m.keeping guarded b).text? x =
      if ((m.vault.store.record b).sortOut guarded).1.any (fun e => e.backup.same x) then none
      else m.text? x := by
  have htext := m.vault.files.contents?_withoutAll
    (((m.vault.store.record b).sortOut guarded).1.map BackupEntry.backup) x
  rw [List.any_map] at htext
  exact htext

/-- A backup that is kept track of afterwards is the new one or was kept track of before. -/
theorem tracks_of_keeping {m : Manager MemoryFiles} {guarded : List Path} {b : BackupEntry}
    {x : Path} (h : (m.keeping guarded b).tracks x = true) :
    m.tracks x = true ∨ b.backup.same x = true := by
  obtain ⟨e, he, hx⟩ := tracks_iff.1 h
  have hmem : e ∈ m.vault.store.entries ++ [b] := (BackupStore.kept_sublist _ guarded).mem he
  rcases List.mem_append.1 hmem with hold | hnew
  · exact Or.inl (tracks_iff.2 ⟨e, hold, hx⟩)
  · rw [List.mem_singleton.1 hnew] at hx
    exact Or.inr (Path.same_iff.2 hx)

/-- A file that goes when a backup is kept is one of a backup that was kept track of before, unless it
is the new one, and it is not protected. -/
theorem keeping_cases (m : Manager MemoryFiles) (guarded : List Path) (b : BackupEntry) (x : Path) :
    (m.keeping guarded b).text? x = m.text? x ∨
      (m.keeping guarded b).text? x = none ∧ (m.tracks x = true ∨ b.backup.same x = true) ∧
        ∀ p ∈ guarded, p.same x = false := by
  rw [text?_keeping]
  split
  · next hany =>
    obtain ⟨e, he, hx⟩ := List.any_eq_true.1 hany
    obtain ⟨hmem, hguard⟩ := BackupStore.mem_dropped he
    refine Or.inr ⟨rfl, ?_, ?_⟩
    · rcases List.mem_append.1 (show e ∈ m.vault.store.entries ++ [b] from hmem) with hold | hnew
      · exact Or.inl (tracks_iff.2 ⟨e, hold, Path.same_iff.1 hx⟩)
      · exact Or.inr (List.mem_singleton.1 hnew ▸ hx)
    · intro p hp
      have hne := hguard p hp
      simp only [Path.same, decide_eq_false_iff_not] at hne ⊢
      exact fun hp => hne (hp.trans (Path.same_iff.1 hx).symm)
  · exact Or.inl rfl

/-- The file of a protected path stays. -/
theorem text?_keeping_of_guarded (m : Manager MemoryFiles) {guarded : List Path} (b : BackupEntry)
    {p x : Path} (hp : p ∈ guarded) (hx : p.key = x.key) :
    (m.keeping guarded b).text? x = m.text? x := by
  rcases m.keeping_cases guarded b x with hkept | ⟨-, -, hguard⟩
  · exact hkept
  · exact absurd (Path.same_iff.2 hx) (by simp [hguard p hp])

/-- The file of a backup that is not kept track of any more is gone. -/
theorem text?_keeping_of_dropped {m : Manager MemoryFiles} {guarded : List Path} {b : BackupEntry}
    {x : Path} (hold : m.tracks x = true) (hnew : (m.keeping guarded b).tracks x = false) :
    (m.keeping guarded b).text? x = none := by
  obtain ⟨e, he, hx⟩ := tracks_iff.1 hold
  have hmem : e ∈ (m.vault.store.record b).entries := List.mem_append_left _ he
  rw [text?_keeping, if_pos]
  rcases List.mem_append.1 ((BackupStore.sortOut_perm _ guarded).mem_iff.2 hmem) with hd | hk
  · exact List.any_eq_true.2 ⟨e, hd, Path.same_iff.2 hx⟩
  · have htracks : (m.keeping guarded b).tracks x = true := tracks_iff.2 ⟨e, hk, hx⟩
    rw [hnew] at htracks
    cases htracks

/-- A protected backup is kept track of. -/
theorem tracks_keeping_of_guarded {m : Manager MemoryFiles} {guarded : List Path} {b : BackupEntry}
    {p x : Path} (hp : p ∈ guarded) (hx : p.key = x.key)
    (h : m.tracks x = true ∨ b.backup.key = x.key) : (m.keeping guarded b).tracks x = true := by
  have hentry : ∃ e ∈ m.vault.store.entries ++ [b], e.backup.key = x.key := by
    rcases h with hold | hnew
    · obtain ⟨e, he, hx⟩ := tracks_iff.1 hold
      exact ⟨e, List.mem_append_left _ he, hx⟩
    · exact ⟨b, List.mem_append_right _ (List.mem_singleton_self b), hnew⟩
  obtain ⟨e, he, hex⟩ := hentry
  exact tracks_iff.2 ⟨e, BackupStore.mem_kept_of_guarded he hp
    (Path.same_iff.2 (hx.trans hex.symm)), hex⟩

/-- Without a limit, keeping a backup is no more than keeping track of it. -/
theorem keeping_of_unlimited {m : Manager MemoryFiles} (h : m.vault.store.limit = 0)
    (guarded : List Path) (b : BackupEntry) : m.keeping guarded b = m.recording b := by
  have hsorted := BackupStore.sortOut_of_unlimited (s := m.vault.store.record b) h guarded
  unfold keeping
  rw [hsorted]
  rfl

end Manager

end CodeReview
