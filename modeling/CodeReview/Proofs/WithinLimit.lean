import CodeReview.Distinct
import CodeReview.Proofs.Stock
import CodeReview.Proofs.TrackedBackups

/-!
# Backups within the limit

A limit on backups is not a bound on how many are tracked at any time: failed writes add backups
without regard to it, and the backup of the latest applied change of each file is kept in any case.
But when a change is applied or a file backed up, as many are dropped as may be, so that afterwards no
more are tracked than the limit says or the history protects (`WithinLimit`).  The new backup stays,
and so do the protected ones.  Over files in memory no file of a backup is left behind untracked
(`FilesFollow`).
-/

namespace CodeReview

namespace Manager

/-! ## Files with applied records -/

/-- The files that have an applied record, each once. -/
def changedFiles (history : List ChangeRecord) : List Path :=
  distinctBy Path.key ((applied history).map ChangeRecord.file)

theorem key_of_mem_latestBackups {history : List ChangeRecord} {latest : OrderedMap Path Path}
    {e : Path × Path} (h : e ∈ (latestBackups latest history).entries) :
    (∃ r ∈ applied history, r.file.key = e.1.key) ∨ ∃ x ∈ latest.entries, x.1.key = e.1.key := by
  induction history generalizing latest with
  | nil => exact .inr ⟨e, h, rfl⟩
  | cons r history ih =>
    obtain ⟨s, hs, hkey⟩ | ⟨x, hx, hkey⟩ := ih h
    · refine .inl ⟨s, ?_, hkey⟩
      exact (List.sublist_cons_self r history).filter _ |>.mem hs
    · simp only at hx
      split at hx
      · next hstatus _ =>
        obtain hnew | ⟨y, hy, hkey'⟩ := OrderedMap.key_of_mem_updateEntries hx
        · refine .inl ⟨r, ?_, hnew.symm.trans hkey⟩
          rw [applied_cons_of_applied hstatus]
          exact List.mem_cons_self
        · exact .inr ⟨y, hy, hkey'.trans hkey⟩
      · exact .inr ⟨x, hx, hkey⟩

/-- No more backups are protected than there are files with an applied record. -/
theorem length_protectedBackups_le (history : List ChangeRecord) :
    (protectedBackups history).length ≤ (changedFiles history).length := by
  let es := (latestBackups ∅ history).entries
  have hnodup : (es.map fun e => e.1.key).Nodup := by
    refine List.pairwise_map.2 ((latestBackups ∅ history).sorted.imp ?_)
    intro a b hlt heq
    change a.1.key < b.1.key at hlt
    rw [heq] at hlt
    exact key_lt_irrefl _ hlt
  have hsub : (es.map fun e => e.1.key) ⊆ (changedFiles history).map Path.key := by
    intro x hx
    obtain ⟨e, he, rfl⟩ := List.mem_map.1 hx
    obtain ⟨r, hr, hkey⟩ | ⟨y, hy, -⟩ := key_of_mem_latestBackups he
    · rw [changedFiles, map_distinctBy, mem_distinct, List.map_map]
      exact List.mem_map.2 ⟨r, hr, hkey⟩
    · cases hy
  rw [protectedBackups_eq, OrderedMap.values, List.length_map]
  simpa [es] using (List.subperm_of_subset hnodup hsub).length_le

/-! ## Calls that take backups -/

section

variable {σ : Type} [FileAccess σ] {m m' : Manager σ}

/-- A request is answered, on its own or as one of a batch. -/
def Answers (m : Manager σ) (q : ChangeRequest) (a : Except ChangeError ChangeOutcome)
    (m' : Manager σ) : Prop :=
  apply q m = .ok a m' ∨ applyValid q m = .ok a m'

/-- A call takes a backup of a file: it applies a request, or its write fails after the backup was
taken, or it asks for a backup. -/
inductive Takes (file p : Path) (m m' : Manager σ) : Prop
  | applied {q : ChangeRequest} {r : ChangeRecord} (hrun : Answers m q (.ok (.applied r)) m')
      (hfile : q.file = file) (hbackup : r.backup = some p)
  | spoiled {q : ChangeRequest} {rolledBack : Bool} {cause : FileError}
      (hrun : Answers m q (.error (.applyFailed file p rolledBack cause)) m') (hfile : q.file = file)
  | saved {e : BackupEntry} (hrun : backUp file m = .ok (.ok e) m') (hbackup : e.backup = p)

theorem Answers.supplied {q : ChangeRequest} {a : Except ChangeError ChangeOutcome}
    (h : Answers m q a m') : Supplied m a m' := by
  obtain hrun | hrun := h
  · exact (ends_apply_stock q).of_ok hrun
  · exact (ends_applyValid_stock q).of_ok hrun

theorem sorted_of_backUp {file : Path} {e : BackupEntry} (h : backUp file m = .ok (.ok e) m') :
    Sorted m e (protectedBackups m'.history ++ [e.backup]) m' :=
  (ends_backUp_stock file).of_ok h

omit [FileAccess σ] in
theorem Grew.tracks {b : BackupEntry} (h : Grew m b m') : m'.tracks b.backup = true := by
  refine tracks_iff.2 ⟨b, ?_, rfl⟩
  rw [h.entries]
  exact List.mem_append_right _ (List.mem_singleton_self b)

omit [FileAccess σ] in
theorem Sorted.tracks {b : BackupEntry} {guarded : List Path} (h : Sorted m b guarded m') :
    m'.tracks b.backup = true := by
  refine tracks_iff.2 ⟨b, ?_, rfl⟩
  rw [h.entries]
  exact BackupStore.mem_kept_of_guarded (List.mem_append_right _ (List.mem_singleton_self b))
    h.guards (Path.same_refl _)

/-- A backup that a call takes is tracked after the call. -/
theorem Takes.tracks {file p : Path} (h : Takes file p m m') : m'.tracks p = true := by
  cases h with
  | applied hrun hfile hbackup =>
    cases hrun.supplied with
    | applied hbackup' hsorted =>
      obtain rfl := Option.some.inj (hbackup'.symm.trans hbackup)
      exact hsorted.tracks
  | spoiled hrun hfile =>
    cases hrun.supplied with
    | refused he hsame => cases he
    | spoiled hgrew => exact hgrew.tracks
  | saved hrun hbackup =>
    subst hbackup
    exact (sorted_of_backUp hrun).tracks

/-! ## How many are tracked -/

omit [FileAccess σ] in
theorem Sorted.length_le {b : BackupEntry} {guarded : List Path} (h : Sorted m b guarded m')
    (hlimit : m.vault.store.limit ≠ 0) (horderly : m.vault.store.Orderly) :
    m'.vault.store.entries.length ≤ max m.vault.store.limit guarded.length := by
  rw [h.entries]
  exact BackupStore.kept_length_le (s := m.vault.store.record b) hlimit
    (horderly.distinct_concat h.new)

/-- What a limit on backups comes to for the next call.  After a change took effect, and after a file
was backed up, no more backups are tracked than the limit says or are protected.  The backup that a
call takes is tracked after the call.  And neither an operation nor a request of a batch drops the
backup of the latest applied change of a file. -/
structure WithinLimit (limit : Nat) (m : Manager σ) : Prop where
  applied : ∀ q r m', Answers m q (.ok (.applied r)) m' →
    m'.vault.store.entries.length ≤ max limit (changedFiles m'.history).length
  saved : ∀ file e m', backUp file m = .ok (.ok e) m' →
    m'.vault.store.entries.length ≤ max limit ((changedFiles m'.history).length + 1)
  taken : ∀ file p m', Takes file p m m' → m'.tracks p = true
  latest : ∀ m', (∃ o, o ≠ .applyPending ∧ m' = Operation.after o m) ∨
      (∃ q, m' = (applyValid q).endState m) →
    ∀ front R back b, m'.history = front ++ R :: back → R.status = .applied →
      (∀ r ∈ back, r.status = .applied → r.file.key ≠ R.file.key) → R.backup = some b →
      m.tracks b = true → m'.tracks b = true

theorem withinLimit_of_orderly (hlimit : m.vault.store.limit ≠ 0)
    (horderly : m.vault.store.Orderly) : WithinLimit m.vault.store.limit m := by
  refine ⟨?_, ?_, fun file p m' h => h.tracks, ?_⟩
  · intro q r m' hrun
    cases hrun.supplied with
    | applied hbackup hsorted =>
      have hlength := hsorted.length_le hlimit horderly
      have hprotected := length_protectedBackups_le m'.history
      omega
  · intro file e m' hrun
    have hlength := (sorted_of_backUp hrun).length_le hlimit horderly
    have hprotected := length_protectedBackups_le m'.history
    rw [List.length_append, List.length_singleton] at hlength
    omega
  · intro m' hstep front R back b hsplit hR hback hb htracked
    have hguard : b ∈ protectedBackups m'.history := by
      rw [hsplit]
      exact mem_protectedBackups hR hb hback
    obtain ⟨o, hbatch, rfl⟩ | ⟨q, rfl⟩ := hstep
    · exact (o.stocking hbatch m).tracks hguard htracked
    · exact (request_stocking q m).tracks hguard htracked

end

/-! ## Backups over files in memory -/

variable {named : Path → Prop} {m m' : Manager MemoryFiles}

theorem Answers.applying {q : ChangeRequest} {a : Except ChangeError ChangeOutcome}
    (hvalid : ∀ fault, a ≠ .error (.invalidRequest fault)) (h : Answers m q a m') :
    Applying m q a m' := by
  have hrun : applyValid q m = .ok a m' := by
    obtain h | h := h
    · obtain ⟨fault, -, hrun⟩ | ⟨hfault, -⟩ := apply_run q m
      · rw [h] at hrun
        cases hrun
        exact absurd rfl (hvalid fault)
      · rwa [apply_of_valid hfault] at h
    · exact h
  obtain ⟨a', m'', hrun', hcase⟩ := applyValid_run q m
  rw [hrun] at hrun'
  cases hrun'
  exact hcase

/-- A backup that a call takes has the text of the file after the call. -/
theorem Takes.text {file p : Path} (h : Takes file p m m') :
    ∃ text, m.text? file = some text ∧ m'.text? p = some text := by
  cases h with
  | @applied q r hrun hfile hbackup =>
    subst hfile
    cases hrun.applying (by simp) with
    | @applied old new n hread hedit hlive hfree haccepted htarget =>
      have hpath : (m.entryOf q.file n old).backup = p := Option.some.inj hbackup
      have hold : m.text? q.file = some old := MemoryFiles.contents?_of_textAt hread
      have hne : q.file.key ≠ (m.entryOf q.file n old).backup.key :=
        (ne_of_text? hold hfree.free).symm
      refine ⟨old, hold, ?_⟩
      rw [text?_reporting, text?_counting, ← hpath, text?_noteApplied_new, text?_writing,
        if_neg hne, text?_backingUp]
      exact if_pos rfl
  | @spoiled q rolledBack cause hrun hfile =>
    subst hfile
    cases hrun.applying (by simp) with
    | @writeRefused old new n hread hedit hlive hfree haccepted htarget =>
      refine ⟨old, MemoryFiles.contents?_of_textAt hread, ?_⟩
      rw [text?_noteFailed, text?_reporting, text?_backingUp]
      exact if_pos rfl
  | saved hrun hbackup =>
    obtain ⟨a, m'', hrun', hcase⟩ := backUp_run file m
    rw [hrun] at hrun'
    cases hrun'
    cases hcase with
    | @taken contents n hread hfree haccepted =>
      subst hbackup
      have hguard : (m.entryOf file n contents).backup ∈
          protectedBackups m.history ++ [m.vault.store.pathOf file n] :=
        List.mem_append_right _ (List.mem_singleton_self _)
      refine ⟨contents, MemoryFiles.contents?_of_textAt hread, ?_⟩
      rw [text?_keeping_of_guarded _ _ hguard rfl, text?_backingUp]
      exact if_pos rfl

/-- What is tracked after a move was tracked before, or the move took it. -/
theorem Move.taken (h : Move named false m m') {e : BackupEntry}
    (he : e ∈ m'.vault.store.entries) :
    e ∈ m.vault.store.entries ∨ Takes e.file e.backup m m' := by
  -- a list of which every entry is an old one or the new one
  have hconcat : ∀ {b : BackupEntry}, e ∈ m.vault.store.entries ++ [b] → Takes b.file b.backup m m' →
      e ∈ m.vault.store.entries ∨ Takes e.file e.backup m m' := by
    intro b hmem htakes
    obtain hold | hnew := List.mem_append.1 hmem
    · exact .inl hold
    · exact .inr (List.mem_singleton.1 hnew ▸ htakes)
  have hnoted : ∀ {k : Manager MemoryFiles} {q : ChangeRequest} {c : ChangeError},
      k.vault.store.entries = m.vault.store.entries →
      e ∈ (k.noteFailed q c none).vault.store.entries → e ∈ m.vault.store.entries := by
    intro k q c hk hmem
    have hsame : (k.noteFailed q c none).vault.store = k.vault.store := by
      unfold noteFailed
      split <;> rfl
    rwa [hsame, hk] at hmem
  cases h with
  | idle hstore halike => exact .inl (halike.entries ▸ he)
  | rejected hstatus hstore halike => exact .inl (halike.entries ▸ he)
  | @applying _ _ _ q a hnamed hrun hcase =>
    cases hcase with
    | unreadable hread => exact .inl (hnoted rfl he)
    | conflict hread hedit => exact .inl (hnoted rfl he)
    | previewed hread hedit hdry => exact .inl he
    | @backupRefused old new n hread hedit hlive hfree hbackup =>
      exact .inl (hnoted (k := m.skipTo (n + 1)) rfl he)
    | @writeRefused old new n hread hedit hlive hfree hbackup htarget =>
      rw [entries_noteFailed (m := (m.backingUp q.file n old).reporting _) _ _ _ hlive] at he
      exact hconcat (b := m.entryOf q.file n old) he (.spoiled (.inr hrun) rfl)
    | @applied old new n hread hedit hlive hfree hbackup htarget =>
      exact hconcat (b := m.entryOf q.file n old) ((BackupStore.kept_sublist _ _).mem he)
        (.applied (.inr hrun) rfl rfl)
  | undoing h => cases h <;> exact .inl he
  | backingUp hrun h =>
    cases h with
    | unreadable hread => exact .inl he
    | refused hread hfree hbackup => exact .inl he
    | @taken contents n hread hfree hbackup =>
      exact hconcat (b := m.entryOf _ n contents) ((BackupStore.kept_sublist _ _).mem he)
        (.saved hrun rfl)
  | restoring hnamed h => cases h <;> exact .inl he
  | overwritten hnamed text => exact .inl he
  | deleted hnamed => exact .inl he
  | reset => cases he

/-! ## Backups taken since the last reset -/

/-- A call took a backup of a file, and nothing was forgotten since.  The past lists the states before
the current one, the newest first. -/
inductive TakenSince (file p : Path) : List (Manager MemoryFiles) → Manager MemoryFiles → Prop
  | now {past : List (Manager MemoryFiles)} {m m' : Manager MemoryFiles} (h : Takes file p m m') :
    TakenSince file p (m :: past) m'
  | before {past : List (Manager MemoryFiles)} {m m' : Manager MemoryFiles}
      (h : TakenSince file p past m) (hreset : m' ≠ m.reset) : TakenSince file p (m :: past) m'

theorem taken_of_tracked {as : List Action} {start : Manager MemoryFiles}
    (hchain : List.IsChain (Move named false) (trace as start))
    (hnew : start.vault.store.entries = []) :
    ∀ past m back, trace as start = past.reverse ++ m :: back →
      ∀ e ∈ m.vault.store.entries, TakenSince e.file e.backup past m := by
  refine trace_past hchain ?_ ?_
  · intro e he
    rw [hnew] at he
    cases he
  · intro past s t back hsplit hmove hs e he
    obtain hold | htakes := hmove.taken he
    · refine .before (hs e hold) ?_
      rintro rfl
      cases he
    · exact .now htakes

/-- A backup that was taken since the last reset is tracked, or its file is gone. -/
theorem tracked_or_gone {as : List Action} {start : Manager MemoryFiles}
    (hchain : List.IsChain (Backing (Action.NamedBy as)) (trace as start))
    (hledger : ∀ s ∈ trace as start, Ledger (trace as start) s)
    (hapart : ∀ s ∈ trace as start, ∀ p, Action.NamedBy as p → s.tracks p = false)
    {file p : Path} {past : List (Manager MemoryFiles)} (htaken : TakenSince file p past m) :
    ∀ back, trace as start = past.reverse ++ m :: back →
      Unnamed (Action.NamedBy as) p ∧ (m.tracks p = true ∨ Gone m p) := by
  induction htaken with
  | @now past u v htakes =>
    intro back hsplit
    have hv : v ∈ trace as start := by
      rw [hsplit]
      simp
    have htracked := htakes.tracks
    exact ⟨fun x hx => ne_of_tracks htracked (hapart v hv x hx), .inl htracked⟩
  | @before past u v hbefore hreset ih =>
    intro back hsplit
    have hsplit' : trace as start = past.reverse ++ u :: v :: back := by simpa using hsplit
    have hu : u ∈ trace as start := by
      rw [hsplit']
      simp
    have hstep : Backing (Action.NamedBy as) u v := by
      rw [hsplit'] at hchain
      exact (List.isChain_cons_cons.1 hchain.right_of_append).1
    obtain ⟨hunnamed, htracked | hgone⟩ := ih (v :: back) hsplit'
    · refine ⟨hunnamed, ?_⟩
      cases hafter : v.tracks p with
      | true => exact .inl rfl
      | false =>
        exact .inr (gone_of_dropped (hledger u hu) hunnamed hstep htracked hafter hreset)
    · exact ⟨hunnamed, .inr (hgone.step hunnamed hstep)⟩

/-! ## The main theorem -/

/-- The files of backups follow the list of tracked ones.  A backup that a call takes has the text of
its file.  The backups that were taken since the last reset and whose files are still there are those
that are tracked.  And a step that leaves a change the latest applied one of its file leaves its backup
as it is. -/
structure FilesFollow (states : List (Manager MemoryFiles)) : Prop where
  taken : ∀ m ∈ states, ∀ file p m', Takes file p m m' →
    ∃ text, m.text? file = some text ∧ m'.text? p = some text
  present : ∀ past m back, states = past.reverse ++ m :: back → ∀ p,
    m.tracks p = true ↔
      (m.text? p).isSome = true ∧ ∃ file b, b.key = p.key ∧ TakenSince file b past m
  latest : ∀ m m', [m, m'] <:+: states → ∀ front R back b, m'.history = front ++ R :: back →
    R.status = .applied → (∀ r ∈ back, r.status = .applied → r.file.key ≠ R.file.key) →
    R.backup = some b → m.tracks b = true → m'.tracks b = true ∧ m'.text? b = m.text? b

theorem filesFollow_trace (config : ChangeConfig) (stamp recordId : Nat → String)
    (telemetry : Telemetry) (files : MemoryFiles) (as : List Action)
    (hapart : ∀ s ∈ trace as (new config stamp telemetry files recordId), ∀ a ∈ as, ∀ p ∈ a.paths,
      s.tracks p = false) :
    FilesFollow (trace as (new config stamp telemetry files recordId)) := by
  let start := new config stamp telemetry files recordId
  have happart : ∀ s ∈ trace as start, ∀ p, Action.NamedBy as p → s.tracks p = false := by
    rintro s hs p ⟨a, ha, hp⟩
    exact hapart s hs a ha p hp
  have hnew : Books (Action.NamedBy as) start := ⟨rfl, fun r hr => by cases hr⟩
  have hbooks := books_trace hnew rfl
  have hbacking := backing_trace hnew rfl
  have hledger := ledger_trace hbacking rfl happart
  have hnamed : ∀ a ∈ as, ∀ p ∈ a.paths, Action.NamedBy as p := fun a ha p hp => ⟨a, ha, hp⟩
  have hmoves := trace_isChain_move (w := false) (m := start) (by simp) hnamed
    fun q hq => by cases hq
  refine ⟨fun _ _ _ _ _ htakes => htakes.text, ?_, ?_⟩
  · intro past s back hsplit p
    have hs : s ∈ trace as start := by
      rw [hsplit]
      simp
    constructor
    · intro htracked
      obtain ⟨e, he, hkey⟩ := tracks_iff.1 htracked
      obtain ⟨text, htext, -⟩ := (hledger s hs).held e he
      refine ⟨?_, e.file, e.backup, hkey, taken_of_tracked hmoves rfl past s back hsplit e he⟩
      rw [← s.text?_congr hkey, htext]
      rfl
    · rintro ⟨hthere, file, b, hkey, htaken⟩
      rw [← s.tracks_congr hkey]
      obtain ⟨-, htracked | hgone⟩ := tracked_or_gone hbacking hledger happart htaken back hsplit
      · exact htracked
      · rw [← s.text?_congr hkey, hgone.1] at hthere
        cases hthere
  · intro u v hpair front R back b hsplit hR hback hb htracked
    have hu : u ∈ trace as start := hpair.subset (by simp)
    have hmove := List.IsChain.infix hmoves hpair
    have hstep : Step (Action.NamedBy as) u v := (List.isChain_pair.1 hmove).step
    obtain ⟨e, he, hkey⟩ := tracks_iff.1 htracked
    obtain ⟨text, htext, -⟩ := (hledger u hu).held e he
    rw [u.text?_congr hkey] at htext
    have hguard : b ∈ protectedBackups v.history := by
      rw [hsplit]
      exact mem_protectedBackups hR hb hback
    have hkept := hstep.keeps (hbooks u hu) (happart u hu) ⟨htracked, htext⟩ hguard
    exact ⟨hkept.1, hkept.2.trans htext.symm⟩

/-- With a limit of at least one backup, every call on a manager keeps within the limit, over any files
and after any operations, changes from outside and requests of a batch; and over files in memory the
files of backups follow, in every run in which no action names a path that is at any time that of a
backup. -/
theorem limit_kept (config : ChangeConfig) (stamp recordId : Nat → String) (telemetry : Telemetry)
    (hlimit : 1 ≤ config.maxBackups) :
    (∀ {σ : Type} [FileAccess σ] (files : σ) (m : Manager σ),
      Reached (new config stamp telemetry files recordId) m → WithinLimit config.maxBackups m) ∧
    ∀ (files : MemoryFiles) (as : List Action),
      (∀ s ∈ trace as (new config stamp telemetry files recordId), ∀ a ∈ as, ∀ p ∈ a.paths,
        s.tracks p = false) →
      FilesFollow (trace as (new config stamp telemetry files recordId)) := by
  refine ⟨?_, filesFollow_trace config stamp recordId telemetry⟩
  intro σ _ files m hreached
  have hnew : (new config stamp telemetry files recordId).vault.store.Orderly :=
    ⟨(fun e he => by cases he), List.Pairwise.nil⟩
  have hstays := hreached.staysOrderly
  have hsame : m.vault.store.limit = config.maxBackups := hstays.limit
  rw [← hsame]
  refine withinLimit_of_orderly ?_ (hstays.orderly hnew)
  omega

/-- One backup is the limit, two files are changed, and a write fails in between: its backup is dropped
when the next change is applied, and those of the latest changes are kept besides. -/
theorem limit_kept_over_two_files :
    let as : List Action := [.apply (retouch "a" 0), .refuseWrites ⟨"b"⟩, .apply (retouch "b" 0),
      .acceptWrites ⟨"b"⟩, .apply (retouch "b" 0), .apply (retouch "a" 1), .backUp ⟨"b"⟩, .undo]
    WithinLimit 1 ((Operation.apply (retouch "a" 0)).after (overTwoFiles 1)) ∧
      FilesFollow (trace as (overTwoFiles 1)) := by
  intro as
  obtain ⟨hwithin, hfollow⟩ := limit_kept { backupDir := ⟨"backups"⟩, maxBackups := 1 }
    (fun _ => "s") decimal {} (by decide)
  exact ⟨hwithin twoFiles _ (.after .start _), hfollow twoFiles as (by decide +kernel)⟩

end Manager

end CodeReview
