import CodeReview.Proofs.Safekeeping

/-!
# Tracked backups

What a run does to the list of tracked backups and to their files.  A step leaves the list alone, takes
one backup and may drop older ones, or forgets all of them (`Backing`).  A backup gets a number that
no other has, so as long as nobody names the paths of backups, each tracked one keeps the text that it
was taken of, and the files of dropped ones stay away (`tracked_backups_hold`).
-/

namespace CodeReview

namespace Manager

variable {named : Path → Prop} {m m' : Manager MemoryFiles}

/-! ## What a step does to backups -/

/-- No path that is named denotes the given one. -/
def Unnamed (named : Path → Prop) (x : Path) : Prop :=
  ∀ p, named p → p.key ≠ x.key

/-- The tracked backups are the same, and only files that may be named have changed. -/
structure Calm (named : Path → Prop) (m m' : Manager MemoryFiles) : Prop where
  entries : m'.vault.store.entries = m.vault.store.entries
  next : m.vault.store.next ≤ m'.vault.store.next
  files : ∀ x, Unnamed named x → m'.text? x = m.text? x

/-- A backup of a text was taken under a new number, and the dropped ones went with their files. -/
structure Took (named : Path → Prop) (m m' : Manager MemoryFiles) (b : BackupEntry) (text : String)
    (dropped : List BackupEntry) : Prop where
  number : ∃ n, b.backup = m.vault.store.pathOf b.file n ∧ m.vault.store.next ≤ n ∧
    n < m'.vault.store.next
  free : m.text? b.backup = none
  source : m.text? b.file = some text
  digest : b.digest = digestOf text
  perm : (dropped ++ m'.vault.store.entries).Perm (m.vault.store.entries ++ [b])
  order : m'.vault.store.entries.Sublist (m.vault.store.entries ++ [b])
  kept : b ∈ m'.vault.store.entries
  files : ∀ x, Unnamed named x → m'.text? x =
    if dropped.any (·.backup.same x) then none
    else if b.backup.key = x.key then some text else m.text? x

/-- What a step does to backups. -/
inductive Backing (named : Path → Prop) (m m' : Manager MemoryFiles) : Prop
  | calm (h : Calm named m m')
  | took {b : BackupEntry} {text : String} {dropped : List BackupEntry}
      (h : Took named m m' b text dropped)
  | forgot (h : m' = m.reset)

theorem calm_noteFailed {k : Manager MemoryFiles} (h : Calm named m k) (q : ChangeRequest)
    (e : ChangeError) : Calm named m (k.noteFailed q e none) := by
  have hstore : (k.noteFailed q e none).vault.store = k.vault.store := by
    unfold noteFailed
    split <;> rfl
  refine ⟨?_, ?_, ?_⟩
  · rw [hstore, h.entries]
  · rw [hstore]
    exact h.next
  · intro x hx
    rw [text?_noteFailed, h.files x hx]

theorem text?_writing_of_unnamed {p x : Path} (hp : named p) (hx : Unnamed named x)
    (text : String) : (m.writing p text).text? x = m.text? x := by
  rw [text?_writing, if_neg (hx p hp)]

theorem calm_writing {p : Path} (hp : named p) (text : String) :
    Calm named m (m.writing p text) :=
  ⟨rfl, Nat.le_refl _, fun _ hx => text?_writing_of_unnamed hp hx text⟩

/-- After a backup was written to a free path, keeping it drops others but never it. -/
theorem took_keeping {k : Manager MemoryFiles} {file : Path} {n : Nat} {text : String}
    {guarded : List Path} (hread : m.vault.files.textAt file = .ok text)
    (hfree : m.FreeNumber file n) (hentries : k.vault.store.entries = m.vault.store.entries)
    (hnext : k.vault.store.next = n + 1) (hguard : m.vault.store.pathOf file n ∈ guarded)
    (hfiles : ∀ x, Unnamed named x → k.text? x = (m.backingUp file n text).text? x) :
    Took named m (k.keeping guarded (m.entryOf file n text)) (m.entryOf file n text) text
      ((k.vault.store.record (m.entryOf file n text)).sortOut guarded).1 := by
  let b := m.entryOf file n text
  have hrecord : (k.vault.store.record b).entries = m.vault.store.entries ++ [b] :=
    congrArg (· ++ [b]) hentries
  refine ⟨⟨n, rfl, hfree.unused, ?_⟩, hfree.free, MemoryFiles.contents?_of_textAt hread, rfl, ?_,
    ?_, ?_, ?_⟩
  · exact Nat.lt_of_lt_of_eq (Nat.lt_succ_self n) hnext.symm
  · rw [← hrecord]
    exact BackupStore.sortOut_perm _ guarded
  · rw [← hrecord]
    exact BackupStore.kept_sublist _ guarded
  · refine BackupStore.mem_kept_of_guarded ?_ hguard (Path.same_refl _)
    rw [hrecord]
    exact List.mem_append_right _ (List.mem_singleton_self b)
  · intro x hx
    rw [text?_keeping, hfiles x hx, text?_backingUp]
    rfl

/-- A failed write keeps the backup that was taken for it, whatever the limit is. -/
theorem took_noteFailed {k : Manager MemoryFiles} {q : ChangeRequest} {n : Nat} {text : String}
    (e : ChangeError) (hlive : k.config.dryRun = false)
    (hread : m.vault.files.textAt q.file = .ok text) (hfree : m.FreeNumber q.file n)
    (hentries : k.vault.store.entries = m.vault.store.entries)
    (hnext : k.vault.store.next = n + 1)
    (hfiles : ∀ x, k.text? x = (m.backingUp q.file n text).text? x) :
    Took named m (k.noteFailed q e (some (m.entryOf q.file n text))) (m.entryOf q.file n text) text
      [] := by
  let b := m.entryOf q.file n text
  have hafter : (k.noteFailed q e (some b)).vault.store.entries = m.vault.store.entries ++ [b] := by
    rw [entries_noteFailed q e (some b) hlive, hentries]
    rfl
  have hnumber : (k.noteFailed q e (some b)).vault.store.next = n + 1 := by
    rw [← hnext]
    unfold noteFailed
    split <;> rfl
  refine ⟨⟨n, rfl, hfree.unused, ?_⟩, hfree.free, MemoryFiles.contents?_of_textAt hread, rfl, ?_,
    ?_, ?_, ?_⟩
  · exact Nat.lt_of_lt_of_eq (Nat.lt_succ_self n) hnumber.symm
  · exact .of_eq hafter
  · rw [hafter]
  · rw [hafter]
    exact List.mem_append_right _ (List.mem_singleton_self b)
  · intro x _
    rw [text?_noteFailed, hfiles, text?_backingUp]
    rfl

theorem backing_applying {q : ChangeRequest} {a : Except ChangeError ChangeOutcome}
    (hq : named q.file) (h : Applying m q a m') : Backing named m m' := by
  have hsame : Calm named m m := ⟨rfl, Nat.le_refl _, fun _ _ => rfl⟩
  cases h with
  | unreadable hread => exact .calm (calm_noteFailed hsame q _)
  | conflict hread hedit => exact .calm (calm_noteFailed hsame q _)
  | previewed hread hedit hdry => exact .calm ⟨rfl, Nat.le_refl _, fun _ _ => rfl⟩
  | @backupRefused old new n hread hedit hlive hfree hbackup =>
    have hskipped : Calm named m (m.skipTo (n + 1)) :=
      ⟨rfl, Nat.le_succ_of_le hfree.unused, fun _ _ => rfl⟩
    exact .calm (calm_noteFailed hskipped q _)
  | @writeRefused old new n hread hedit hlive hfree hbackup htarget =>
    exact .took (took_noteFailed _ hlive hread hfree rfl rfl fun _ => rfl)
  | @applied old new n hread hedit hlive hfree hbackup htarget =>
    let k : Manager MemoryFiles := { (m.backingUp q.file n old).writing q.file new with
      history := m.history ++ [appliedRecord (m.recordId m.issued) q (m.entryOf q.file n old)]
      undoStack := m.undoStack ++ [m.history.length]
      issued := m.issued + 1 }
    have hguard : m.vault.store.pathOf q.file n ∈ protectedBackups k.history :=
      backup_mem_protectedBackups (b := m.entryOf q.file n old) (m.recordId m.issued) m.history
    have htook : Took named m (k.keeping (protectedBackups k.history) (m.entryOf q.file n old))
        (m.entryOf q.file n old) old _ :=
      took_keeping hread hfree rfl rfl hguard fun x hx => text?_writing_of_unnamed hq hx new
    exact .took ⟨htook.number, htook.free, htook.source, htook.digest, htook.perm, htook.order,
      htook.kept, htook.files⟩

theorem backing_undoing (hbooks : Books named m) {a : Except ChangeError ChangeRecord}
    (h : Undoing m a m') : Backing named m m' := by
  cases h with
  | @undone i r b contents hselect hbackup hread hdigest htarget =>
    have hcalm := calm_writing (m := m) (hbooks.named_of_selected hselect) contents
    exact .calm ⟨hcalm.entries, hcalm.next, hcalm.files⟩
  | _ => exact .calm ⟨rfl, Nat.le_refl _, fun _ _ => rfl⟩

theorem backing_backingUp {file : Path} {a : Except ChangeError BackupEntry}
    (h : BackingUp m file a m') : Backing named m m' := by
  cases h with
  | unreadable hread => exact .calm ⟨rfl, Nat.le_refl _, fun _ _ => rfl⟩
  | refused hread hfree hbackup =>
    exact .calm ⟨rfl, Nat.le_succ_of_le hfree.unused, fun _ _ => rfl⟩
  | taken hread hfree hbackup =>
    exact .took (took_keeping hread hfree rfl rfl
      (List.mem_append_right _ (List.mem_singleton_self _)) fun _ _ => rfl)

theorem backing_restoring {file : Path} {a : Except ChangeError BackupEntry} (hfile : named file)
    (h : Restoring m file a m') : Backing named m m' := by
  cases h with
  | @restored b contents hlatest hread hdigest htarget =>
    have hcalm := calm_writing (m := m) hfile contents
    exact .calm ⟨hcalm.entries, hcalm.next, hcalm.files⟩
  | _ => exact .calm ⟨rfl, Nat.le_refl _, fun _ _ => rfl⟩

/-- What an operation does to backups, if requests and undos keep to the paths that are named. -/
theorem Move.backing (hbooks : Books named m) (h : Move named false m m') : Backing named m m' := by
  cases h with
  | idle hstore halike =>
    exact .calm ⟨halike.entries, Nat.le_of_eq (congrArg BackupStore.next hstore.symm),
      fun x _ => halike.text x⟩
  | rejected hstatus hstore halike =>
    exact .calm ⟨halike.entries, Nat.le_of_eq (congrArg BackupStore.next hstore.symm),
      fun x _ => halike.text x⟩
  | applying hnamed hrun h => exact backing_applying hnamed h
  | undoing h => exact backing_undoing hbooks h
  | backingUp hrun h => exact backing_backingUp h
  | restoring hnamed h => exact backing_restoring hnamed h
  | overwritten hnamed text => exact .calm (calm_writing hnamed text)
  | @deleted _ p hnamed =>
    refine .calm ⟨rfl, Nat.le_refl _, ?_⟩
    intro x hx
    exact (m.vault.files.contents?_without p x).trans (if_neg (hx p hnamed))
  | reset => exact .forgot rfl

/-! ## The ledger of a run -/

/-- Between two states of a run, one after the other, a backup was taken of a text of its file. -/
def TakenAmong (states : List (Manager MemoryFiles)) (e : BackupEntry) (text : String) : Prop :=
  ∃ u v, [u, v] <:+: states ∧ e ∉ u.vault.store.entries ∧ e ∈ v.vault.store.entries ∧
    u.text? e.file = some text

/-- A backup was taken when another was tracked already. -/
def TakenAfter (states : List (Manager MemoryFiles)) (d e : BackupEntry) : Prop :=
  ∃ u v, [u, v] <:+: states ∧ d ∈ u.vault.store.entries ∧ e ∉ u.vault.store.entries ∧
    e ∈ v.vault.store.entries

/-- A path that a backup has got, or might have got, under a number that is used up. -/
def Numbered (m : Manager MemoryFiles) (p : Path) : Prop :=
  ∃ n < m.vault.store.next, ∃ (s : BackupStore) (file : Path), p.key = (s.pathOf file n).key

/-- What holds of the tracked backups in every state of a run. -/
structure Ledger (states : List (Manager MemoryFiles)) (m : Manager MemoryFiles) : Prop where
  numbered : ∀ e ∈ m.vault.store.entries, Numbered m e.backup
  distinct : m.vault.store.entries.Pairwise fun d e => d.backup.key ≠ e.backup.key
  held : ∀ e ∈ m.vault.store.entries, ∃ text, m.text? e.backup = some text ∧
    e.digest = digestOf text ∧ TakenAmong states e text
  ages : m.vault.store.entries.Pairwise (TakenAfter states)

variable {states : List (Manager MemoryFiles)}

theorem unnamed_of_tracked (hapart : ∀ p, named p → m.tracks p = false) {e : BackupEntry}
    (he : e ∈ m.vault.store.entries) : Unnamed named e.backup := by
  intro p hp
  exact ne_of_tracks (tracks_iff.2 ⟨e, he, rfl⟩) (hapart p hp)

theorem Numbered.mono {p : Path} (h : Numbered m p)
    (hnext : m.vault.store.next ≤ m'.vault.store.next) : Numbered m' p := by
  obtain ⟨n, hn, hpath⟩ := h
  exact ⟨n, Nat.lt_of_lt_of_le hn hnext, hpath⟩

theorem Took.next_le {b : BackupEntry} {text : String} {dropped : List BackupEntry}
    (h : Took named m m' b text dropped) : m.vault.store.next ≤ m'.vault.store.next := by
  obtain ⟨n, -, hn, hn'⟩ := h.number
  omega

theorem Ledger.calm (h : Ledger states m) (hapart : ∀ p, named p → m.tracks p = false)
    (hcalm : Calm named m m') : Ledger states m' := by
  refine ⟨?_, ?_, ?_, ?_⟩ <;> rw [hcalm.entries]
  · intro e he
    exact (h.numbered e he).mono hcalm.next
  · exact h.distinct
  · intro e he
    rw [hcalm.files e.backup (unnamed_of_tracked hapart he)]
    exact h.held e he
  · exact h.ages

/-- A backup at a free path differs from the tracked ones. -/
theorem Ledger.distinct_concat (h : Ledger states m) {b : BackupEntry}
    (hfree : m.text? b.backup = none) :
    (m.vault.store.entries ++ [b]).Pairwise fun d e => d.backup.key ≠ e.backup.key := by
  refine List.pairwise_append.2 ⟨h.distinct, List.pairwise_singleton _ b, ?_⟩
  intro d hd e he
  obtain ⟨old, hold, -⟩ := h.held d hd
  rw [List.mem_singleton.1 he]
  exact (ne_of_text? hold hfree).symm

theorem Ledger.took (h : Ledger states m) (hapart : ∀ p, named p → m.tracks p = false)
    (hapart' : ∀ p, named p → m'.tracks p = false) (hpair : [m, m'] <:+: states)
    {b : BackupEntry} {text : String} {dropped : List BackupEntry}
    (htook : Took named m m' b text dropped) : Ledger states m' := by
  have hall := h.distinct_concat htook.free
  have hother : ∀ e ∈ m.vault.store.entries, e.backup.key ≠ b.backup.key := fun e he =>
    (List.pairwise_append.1 hall).2.2 e he b (List.mem_singleton_self b)
  have hnew : b ∉ m.vault.store.entries := fun hb => hother b hb rfl
  have hdropped : ∀ e ∈ m'.vault.store.entries,
      dropped.any (·.backup.same e.backup) = false := by
    intro e he
    have hperm := (htook.perm.pairwise_iff fun hne => hne.symm).2 hall
    rw [List.any_eq_false]
    intro d hd
    rw [Bool.not_eq_true, Path.not_same_iff]
    exact (List.pairwise_append.1 hperm).2.2 d hd e he
  refine ⟨?_, hall.sublist htook.order, ?_, ?_⟩
  · intro e he
    rcases List.mem_append.1 (htook.order.mem he) with hold | hlast
    · exact (h.numbered e hold).mono htook.next_le
    · obtain ⟨n, hpath, -, hn⟩ := htook.number
      rw [List.mem_singleton.1 hlast, hpath]
      exact ⟨n, hn, m.vault.store, b.file, rfl⟩
  · intro e he
    rcases List.mem_append.1 (htook.order.mem he) with hold | hlast
    · rw [htook.files e.backup (unnamed_of_tracked hapart hold), hdropped e he,
        if_neg Bool.false_ne_true, if_neg (hother e hold).symm]
      exact h.held e hold
    · obtain rfl := List.mem_singleton.1 hlast
      rw [htook.files e.backup (unnamed_of_tracked hapart' he), hdropped e he,
        if_neg Bool.false_ne_true, if_pos rfl]
      exact ⟨text, rfl, htook.digest, m, m', hpair, hnew, he, htook.source⟩
  · have hages : (m.vault.store.entries ++ [b]).Pairwise (TakenAfter states) := by
      refine List.pairwise_append.2 ⟨h.ages, List.pairwise_singleton _ b, ?_⟩
      intro d hd e he
      obtain rfl := List.mem_singleton.1 he
      exact ⟨m, m', hpair, hd, hnew, htook.kept⟩
    exact hages.sublist htook.order

theorem Ledger.step (h : Ledger states m) (hapart : ∀ p, named p → m.tracks p = false)
    (hapart' : ∀ p, named p → m'.tracks p = false) (hpair : [m, m'] <:+: states)
    (hstep : Backing named m m') : Ledger states m' := by
  cases hstep with
  | calm hcalm => exact h.calm hapart hcalm
  | took htook => exact h.took hapart hapart' hpair htook
  | forgot hreset =>
    subst hreset
    exact ⟨(fun e he => by cases he), List.Pairwise.nil, (fun e he => by cases he),
      List.Pairwise.nil⟩

/-! ## Dropped backups -/

/-- A path without a file whose number is used up, so that no backup will get it. -/
def Gone (m : Manager MemoryFiles) (p : Path) : Prop :=
  m.text? p = none ∧ Numbered m p

theorem Gone.step {p : Path} (h : Gone m p) (hp : Unnamed named p)
    (hstep : Backing named m m') : Gone m' p := by
  obtain ⟨htext, hnumbered⟩ := h
  cases hstep with
  | calm hcalm => exact ⟨(hcalm.files p hp).trans htext, hnumbered.mono hcalm.next⟩
  | @took b text dropped htook =>
    refine ⟨?_, hnumbered.mono htook.next_le⟩
    have hother : b.backup.key ≠ p.key := by
      intro hkey
      obtain ⟨n, hpath, hn, -⟩ := htook.number
      obtain ⟨k, hk, s, file, hp⟩ := hnumbered
      rw [hpath, hp] at hkey
      have hnumber := BackupStore.number_of_key_eq hkey
      omega
    rw [htook.files p hp, if_neg hother, htext, ite_self]
  | forgot hreset =>
    subst hreset
    exact ⟨htext, hnumbered⟩

/-- A backup that is not tracked any more after a step has no file, unless all were forgotten. -/
theorem gone_of_dropped {p : Path} (h : Ledger states m) (hp : Unnamed named p)
    (hstep : Backing named m m') (hbefore : m.tracks p = true) (hafter : m'.tracks p = false)
    (hreset : m' ≠ m.reset) : Gone m' p := by
  obtain ⟨e, he, hkey⟩ := tracks_iff.1 hbefore
  have huntracked : ∀ d ∈ m'.vault.store.entries, d.backup.key ≠ p.key := by
    intro d hd hd'
    rw [tracks_iff.2 ⟨d, hd, hd'⟩] at hafter
    cases hafter
  cases hstep with
  | calm hcalm => exact absurd hkey (huntracked e (hcalm.entries ▸ he))
  | @took b text dropped htook =>
    have hdropped : dropped.any (·.backup.same p) = true := by
      rcases List.mem_append.1 (htook.perm.mem_iff.2 (List.mem_append_left [b] he)) with hd | hk
      · exact List.any_eq_true.2 ⟨e, hd, Path.same_iff.2 hkey⟩
      · exact absurd hkey (huntracked e hk)
    refine ⟨?_, ?_⟩
    · rw [htook.files p hp, if_pos hdropped]
    · obtain ⟨n, hn, s, file, hpath⟩ := (h.numbered e he).mono htook.next_le
      exact ⟨n, hn, s, file, hkey.symm.trans hpath⟩
  | forgot heq => exact absurd heq hreset

/-! ## The newest backup of a file -/

theorem latestFor?_eq_none {s : BackupStore} {p : Path} :
    s.latestFor? p = none ↔ ∀ e ∈ s.entries, e.file.key ≠ p.key := by
  simp [BackupStore.latestFor?, Path.same]

theorem latestFor?_eq_some {s : BackupStore} {p : Path} {e : BackupEntry}
    (h : s.latestFor? p = some e) :
    e.file.key = p.key ∧ ∃ front back, s.entries = front ++ e :: back ∧
      ∀ d ∈ back, d.file.key ≠ p.key := by
  obtain ⟨hsame, front, back, hsplit, hnone⟩ := List.find?_eq_some_iff_append.1 h
  refine ⟨Path.same_iff.1 hsame, back.reverse, front.reverse, ?_, ?_⟩
  · rw [← List.reverse_reverse s.entries, hsplit]
    simp
  · intro d hd
    have hother := hnone d (List.mem_reverse.1 hd)
    rwa [Bool.not_eq_true', Path.not_same_iff] at hother

/-- The newest backup of a file is written back, unless a refusal prevents it. -/
theorem restoreLatest_of_held {p : Path} {e : BackupEntry} {text : String}
    (hlatest : m.vault.store.latestFor? p = some e) (htext : m.text? e.backup = some text)
    (hdigest : e.digest = digestOf text) (hwrite : m.refusesWrite p = false)
    (hread : m.refusesRead e.backup = false) :
    restoreLatest p m =
      .ok (.ok e) ((m.writing p text).reporting (.backupRestored p e.backup)) := by
  have hcontents := MemoryFiles.textAt_of_contents? htext hread
  obtain ⟨a, m', hrun, hcase⟩ := restoreLatest_run p m
  rw [hrun]
  cases hcase with
  | noBackup hnone =>
    rw [hlatest] at hnone
    cases hnone
  | unreadable hsome herror =>
    rw [hlatest] at hsome
    cases hsome
    rw [hcontents] at herror
    cases herror
  | altered hsome hread' hother =>
    rw [hlatest] at hsome
    cases hsome
    rw [hcontents] at hread'
    cases hread'
    exact absurd hdigest hother
  | writeRefused hsome hread' hdigest' htarget =>
    rw [hwrite] at htarget
    cases htarget
  | restored hsome hread' hdigest' htarget =>
    rw [hlatest] at hsome
    cases hsome
    rw [hcontents] at hread'
    cases hread'
    rfl

theorem restoreLatest_noBackup_iff {p : Path} :
    (∃ q m', restoreLatest p m = .ok (.error (.noBackup q)) m') ↔
      ∀ e ∈ m.vault.store.entries, e.file.key ≠ p.key := by
  rw [← latestFor?_eq_none]
  constructor
  · rintro ⟨q, m', heq⟩
    obtain ⟨a, m'', hrun, hcase⟩ := restoreLatest_run p m
    rw [hrun] at heq
    cases heq
    cases hcase
    assumption
  · intro hnone
    refine ⟨p, m, ?_⟩
    unfold restoreLatest
    rw [Attempt.bind_of_ok (Attempt.get_run m), hnone]
    rfl

/-! ## The main theorem -/

/-- The tracked backups differ in their paths, each has the text that it was taken of, and restoring a
file finds a backup if there is one: the one that was taken last, whose text the file then gets.  It
changes no other file, no record and no backup. -/
structure BackupsHold (states : List (Manager MemoryFiles)) (m : Manager MemoryFiles) : Prop where
  distinct : m.vault.store.entries.Pairwise fun d e => d.backup.key ≠ e.backup.key
  held : ∀ e ∈ m.vault.store.entries, ∃ text, m.text? e.backup = some text ∧
    e.digest = digestOf text ∧ TakenAmong states e text
  noBackup : ∀ p, (∃ q m', restoreLatest p m = .ok (.error (.noBackup q)) m') ↔
    ∀ e ∈ m.vault.store.entries, e.file.key ≠ p.key
  restores : ∀ p, (∃ e ∈ m.vault.store.entries, e.file.key = p.key) →
    ∃ e ∈ m.vault.store.entries, e.file.key = p.key ∧
      (∀ d ∈ m.vault.store.entries, d.file.key = p.key → d = e ∨ TakenAfter states d e) ∧
      ∃ text, TakenAmong states e text ∧
        (m.refusesWrite p = false → m.refusesRead e.backup = false →
          ∃ m', restoreLatest p m = .ok (.ok e) m' ∧ m'.text? p = some text ∧
            (∀ x, x.key ≠ p.key → m'.text? x = m.text? x) ∧
            m'.history = m.history ∧ m'.vault.store = m.vault.store)

/-- Where a step drops a backup, other than by forgetting all of them, its file is gone from then on. -/
def DroppedStayGone (states : List (Manager MemoryFiles)) : Prop :=
  ∀ front u v back p, states = front ++ u :: v :: back → u.tracks p = true →
    v.tracks p = false → v ≠ u.reset → ∀ s ∈ v :: back, s.text? p = none

theorem Ledger.backupsHold (h : Ledger states m) : BackupsHold states m := by
  refine ⟨h.distinct, h.held, fun p => restoreLatest_noBackup_iff, ?_⟩
  rintro p ⟨d, hd, hdp⟩
  cases hlatest : m.vault.store.latestFor? p with
  | none => exact absurd hdp (latestFor?_eq_none.1 hlatest d hd)
  | some e =>
    obtain ⟨hfile, front, back, hsplit, hback⟩ := latestFor?_eq_some hlatest
    have he : e ∈ m.vault.store.entries := by
      rw [hsplit]
      simp
    obtain ⟨text, htext, hdigest, htaken⟩ := h.held e he
    refine ⟨e, he, hfile, ?_, text, htaken, ?_⟩
    · intro d hd hdp
      have hages := h.ages
      rw [hsplit] at hd hages
      rcases List.mem_append.1 hd with hbefore | hbehind
      · exact Or.inr ((List.pairwise_append.1 hages).2.2 d hbefore e List.mem_cons_self)
      · rcases List.mem_cons.1 hbehind with rfl | hlater
        · exact Or.inl rfl
        · exact absurd hdp (hback d hlater)
    · intro hwrite hread
      refine ⟨_, restoreLatest_of_held hlatest htext hdigest hwrite hread, ?_, ?_, rfl, rfl⟩
      · simp
      · intro x hx
        simp [hx.symm]

/-- The steps of a run do to backups what `Backing` says, and no state tracks a path that is named. -/
theorem backing_trace {as : List Action} {start : Manager MemoryFiles}
    (hnew : Books (Action.NamedBy as) start) (hpending : start.pending = []) :
    List.IsChain (Backing (Action.NamedBy as)) (trace as start) := by
  have hstart : start.PendingNamed (Action.NamedBy as) := by
    intro q hq
    rw [hpending] at hq
    cases hq
  have hnamed : ∀ a ∈ as, ∀ p ∈ a.paths, Action.NamedBy as p := fun a ha p hp => ⟨a, ha, hp⟩
  have hbooks := books_trace hnew hpending
  have hchain := trace_isChain_move (w := false) (by simp) hnamed hstart
  rw [List.isChain_iff_getElem] at hchain ⊢
  intro i hi
  exact (hchain i hi).backing (hbooks _ (List.getElem_mem _))

/-- Every state of a run keeps the ledger, if no state tracks a path that is named. -/
theorem ledger_trace {as : List Action} {start : Manager MemoryFiles}
    (hchain : List.IsChain (Backing (Action.NamedBy as)) (trace as start))
    (hnew : start.vault.store.entries = [])
    (hapart : ∀ s ∈ trace as start, ∀ p, Action.NamedBy as p → s.tracks p = false) :
    ∀ s ∈ trace as start, Ledger (trace as start) s := by
  have hstart : Ledger (trace as start) start := by
    refine ⟨?_, ?_, ?_, ?_⟩ <;> rw [hnew]
    · exact fun e he => by cases he
    · exact List.Pairwise.nil
    · exact fun e he => by cases he
    · exact List.Pairwise.nil
  refine trace_invariant hchain hstart ?_
  intro s t hpair hstep hs
  exact hs.step (hapart s (hpair.subset (by simp))) (hapart t (hpair.subset (by simp))) hpair hstep

/-- In a run in which no action names a path that is at any time that of a backup, the tracked backups
hold in every state, and the files of dropped ones stay gone. -/
theorem tracked_backups_hold (config : ChangeConfig) (stamp recordId : Nat → String)
    (telemetry : Telemetry) (files : MemoryFiles) (as : List Action)
    (hapart : ∀ s ∈ trace as (new config stamp telemetry files recordId), ∀ a ∈ as, ∀ p ∈ a.paths,
      s.tracks p = false) :
    (∀ s ∈ trace as (new config stamp telemetry files recordId),
      BackupsHold (trace as (new config stamp telemetry files recordId)) s) ∧
    DroppedStayGone (trace as (new config stamp telemetry files recordId)) := by
  let start := new config stamp telemetry files recordId
  have hchain : List.IsChain (Backing (Action.NamedBy as)) (trace as start) :=
    backing_trace ⟨rfl, fun r hr => by cases hr⟩ rfl
  have happart : ∀ s ∈ trace as start, ∀ p, Action.NamedBy as p → s.tracks p = false := by
    rintro s hs p ⟨a, ha, hp⟩
    exact hapart s hs a ha p hp
  have hledger := ledger_trace hchain rfl happart
  refine ⟨fun s hs => (hledger s hs).backupsHold, ?_⟩
  intro front u v back p hsplit hbefore hafter hreset
  have hu : u ∈ trace as start := by
    rw [hsplit]
    simp
  have hunnamed : Unnamed (Action.NamedBy as) p :=
    fun x hx => ne_of_tracks hbefore (happart u hu x hx)
  rw [hsplit] at hchain
  obtain ⟨hstep, hrest⟩ := List.isChain_cons_cons.1 hchain.right_of_append
  have hgone : Gone v p :=
    gone_of_dropped (hledger u hu) hunnamed hstep hbefore hafter hreset
  have hall : ∀ s ∈ v :: back, Gone s p := by
    refine hrest.induction (Gone · p) _ (fun s t hst hs => hs.step hunnamed hst) ?_
    intro _
    exact hgone
  exact fun s hs => (hall s hs).1

/-- One backup is the limit: that of the first change is dropped for that of the second, and the
backup of the other file is kept besides. -/
theorem tracked_backups_hold_over_two_files :
    let as : List Action := [.apply (retouch "a" 0), .apply (retouch "a" 1), .backUp ⟨"b"⟩, .undo,
      .restoreLatest ⟨"b"⟩]
    (∀ s ∈ trace as (overTwoFiles 1), BackupsHold (trace as (overTwoFiles 1)) s) ∧
      DroppedStayGone (trace as (overTwoFiles 1)) := by
  intro as
  exact tracked_backups_hold _ _ _ _ _ as (by decide +kernel)

end Manager

end CodeReview
