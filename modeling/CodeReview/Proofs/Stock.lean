import CodeReview.Proofs.AuditTrail
import CodeReview.Proofs.Retention

/-!
# The stock of backups

Over any files, and whether or not calls on them crash, an operation of a change manager leaves the
list of tracked backups alone, adds a backup under a new number and may drop others, or forgets all
(`Stocking`).  Numbers are not used twice, so the tracked backups differ in their paths (`Orderly`),
however many operations there were (`Reached`).
-/

namespace CodeReview

open Attempt (Ends)

/-! ## Stores -/

namespace BackupStore

variable {s t u : BackupStore} {b : BackupEntry} {p : Path}

/-- Two stores that track the same backups, the second of which may have used up more numbers. -/
structure SameStock (s t : BackupStore) : Prop where
  entries : t.entries = s.entries
  limit : t.limit = s.limit
  next : s.next ≤ t.next

theorem SameStock.refl (s : BackupStore) : SameStock s s :=
  ⟨rfl, rfl, Nat.le_refl _⟩

theorem SameStock.trans (h : SameStock s t) (h' : SameStock t u) : SameStock s u :=
  ⟨h'.entries.trans h.entries, h'.limit.trans h.limit, Nat.le_trans h.next h'.next⟩

/-- A path under a number that was not used up in one store and is in the other. -/
def NewPath (s t : BackupStore) (p : Path) : Prop :=
  ∃ (n : Nat) (r : BackupStore) (file : Path), s.next ≤ n ∧ n < t.next ∧ p = r.pathOf file n

theorem NewPath.mono {s' t' : BackupStore} (h : NewPath s t p) (hs : s'.next ≤ s.next)
    (ht : t.next ≤ t'.next) : NewPath s' t' p := by
  obtain ⟨n, r, file, hn, hn', hp⟩ := h
  exact ⟨n, r, file, by omega, by omega, hp⟩

/-- The tracked backups have different paths, all under numbers that are used up. -/
structure Orderly (s : BackupStore) : Prop where
  numbered : ∀ e ∈ s.entries, ∃ n < s.next, ∃ (r : BackupStore) (file : Path),
    e.backup = r.pathOf file n
  distinct : s.entries.Pairwise fun d e => d.backup.key ≠ e.backup.key

theorem Orderly.distinct_concat (h : s.Orderly) (hnew : NewPath s t b.backup) :
    (s.entries ++ [b]).Pairwise fun d e => d.backup.key ≠ e.backup.key := by
  refine List.pairwise_append.2 ⟨h.distinct, List.pairwise_singleton _ b, ?_⟩
  intro d hd e he hkey
  obtain rfl := List.mem_singleton.1 he
  obtain ⟨n, hn, r, file, hpath⟩ := h.numbered d hd
  obtain ⟨k, r', file', hk, -, hpath'⟩ := hnew
  rw [hpath, hpath'] at hkey
  have hsame := number_of_key_eq hkey
  omega

theorem Orderly.of_sameStock (h : s.Orderly) (hsame : SameStock s t) : t.Orderly := by
  refine ⟨?_, ?_⟩ <;> rw [hsame.entries]
  · intro e he
    obtain ⟨n, hn, hpath⟩ := h.numbered e he
    exact ⟨n, Nat.lt_of_lt_of_le hn hsame.next, hpath⟩
  · exact h.distinct

theorem Orderly.of_sublist (h : s.Orderly) (hnew : NewPath s t b.backup)
    (hsub : t.entries.Sublist (s.entries ++ [b])) : t.Orderly := by
  refine ⟨?_, (h.distinct_concat hnew).sublist hsub⟩
  intro e he
  obtain ⟨k, r, file, hk, hk', hpath⟩ := hnew
  obtain hold | hlast := List.mem_append.1 (hsub.mem he)
  · obtain ⟨n, hn, hpath⟩ := h.numbered e hold
    exact ⟨n, by omega, hpath⟩
  · rw [List.mem_singleton.1 hlast]
    exact ⟨k, hk', r, file, hpath⟩

theorem sortOut_congr (hentries : t.entries = s.entries) (hlimit : t.limit = s.limit)
    (guarded : List Path) : t.sortOut guarded = s.sortOut guarded := by
  unfold sortOut
  rw [hentries, hlimit]

theorem SameStock.sortOut_record (h : SameStock s t) (b : BackupEntry) (guarded : List Path) :
    (t.record b).sortOut guarded = (s.record b).sortOut guarded :=
  sortOut_congr (s := s.record b) (t := t.record b) (congrArg (· ++ [b]) h.entries) h.limit guarded

end BackupStore

/-! ## Taking a backup -/

open BackupStore (SameStock NewPath)

namespace Vault

variable {σ : Type} [FileAccess σ] {v : Vault σ}

theorem ends_freshPathWithin_stock (file : Path) (tries : Nat) :
    (freshPathWithin file tries : Attempt (Vault σ) Path).Ends v
      (fun p w => SameStock v.store w.store ∧ NewPath v.store w.store p)
      (fun w => SameStock v.store w.store) := by
  induction tries generalizing v with
  | zero => exact Attempt.ends_throw _ (.refl _)
  | succ tries ih =>
    let u : Vault σ := v.skipTo (v.store.next + 1)
    have hu : SameStock v.store u.store := ⟨rfl, rfl, Nat.le_succ _⟩
    apply Ends.bind
    apply Attempt.ends_of_ok (show reserve file v = .ok (v.store.pathOf file v.store.next) u from rfl)
    apply Ends.bind
    refine (onFiles_sameStore _ u).mono ?_ ?_
    · intro there w hw
      change w.store = u.store at hw
      cases there with
      | false =>
        refine Attempt.ends_pure ⟨hw ▸ hu, v.store.next, v.store, file, Nat.le_refl _, ?_, rfl⟩
        rw [hw]
        exact Nat.lt_succ_self _
      | true =>
        refine ih.mono ?_ ?_
        · rintro p w' ⟨hsame, hnew⟩
          rw [hw] at hsame hnew
          exact ⟨hu.trans hsame, hnew.mono hu.next (Nat.le_refl _)⟩
        · intro w' hsame
          rw [hw] at hsame
          exact hu.trans hsame
    · intro w hw
      change w.store = u.store at hw
      exact hw ▸ hu

theorem writeBackup_sameStore (file backup : Path) (contents : String) :
    (writeBackup file backup contents : Attempt (Vault σ) _).Ends v
      (fun a w => SameStore v w ∧ match a with
        | .ok b => b.backup = backup
        | .error e => e.hadSideEffects = false)
      (SameStore v) := by
  unfold writeBackup
  rcases backup.parent? with _ | dir
  case' none => have hu : SameStore v v := refl_of SameStore v
  case' some =>
    apply Ends.bind
    refine (onFiles_sameStore _ v).mono ?_ fun w hw => hw
    rintro (cause | _) u hu
    · exact Attempt.ends_pure ⟨hu, rfl⟩
  all_goals
    apply Ends.bind
    refine (onFiles_sameStore _ _).mono ?_ fun w hw => trans_of SameStore hu hw
    intro written w hw
    have hsame := trans_of SameStore hu hw
    cases written with
    | error cause => exact Attempt.ends_pure ⟨hsame, rfl⟩
    | ok _ => exact Attempt.ends_of_ok rfl ⟨hsame, rfl⟩

theorem ends_takeBackup_stock (file : Path) (contents : String) :
    (takeBackup file contents : Attempt (Vault σ) _).Ends v
      (fun a w => SameStock v.store w.store ∧ match a with
        | .ok b => NewPath v.store w.store b.backup
        | .error e => e.hadSideEffects = false)
      (fun w => SameStock v.store w.store) := by
  apply Ends.bind
  apply Ends.bind
  apply Attempt.ends_of_ok (Attempt.get_run v)
  refine (ends_freshPathWithin_stock file _).mono ?_ fun _ h => h
  rintro backup u ⟨hsame, hnew⟩
  refine (writeBackup_sameStore file backup contents).mono ?_ ?_
  · rintro a w ⟨hw, ha⟩
    change w.store = u.store at hw
    rw [hw]
    refine ⟨hsame, ?_⟩
    cases a with
    | ok b =>
      obtain rfl : b.backup = backup := ha
      exact hnew
    | error e => exact ha
  · intro w hw
    change w.store = u.store at hw
    exact hw ▸ hsame

end Vault

namespace Manager

variable {σ : Type} {m m' k : Manager σ} {b : BackupEntry} {guarded : List Path}

/-! ## What operations do to the stock -/

/-- The same backups are tracked and the same records kept, under the same settings. -/
structure Idle (m m' : Manager σ) : Prop where
  stock : SameStock m.vault.store m'.vault.store
  history : m'.history = m.history
  config : m'.config = m.config

instance : IsPreorder (Manager σ) Idle where
  refl _ := ⟨.refl _, rfl, rfl⟩
  trans _ _ _ h h' := ⟨h.stock.trans h'.stock, h'.history.trans h.history, h'.config.trans h.config⟩

theorem idle_blind : FilesBlind (@Idle σ) :=
  fun m _ hstore => ⟨hstore ▸ .refl m.vault.store, rfl, rfl⟩

/-- A backup was added, whatever the limit is. -/
structure Grew (m : Manager σ) (b : BackupEntry) (m' : Manager σ) : Prop where
  new : NewPath m.vault.store m'.vault.store b.backup
  entries : m'.vault.store.entries = m.vault.store.entries ++ [b]
  limit : m'.vault.store.limit = m.vault.store.limit

/-- A backup was added that is protected, and others were dropped that are not. -/
structure Sorted (m : Manager σ) (b : BackupEntry) (guarded : List Path) (m' : Manager σ) :
    Prop where
  new : NewPath m.vault.store m'.vault.store b.backup
  entries : m'.vault.store.entries = ((m.vault.store.record b).sortOut guarded).2
  limit : m'.vault.store.limit = m.vault.store.limit
  guards : b.backup ∈ guarded

theorem Grew.of_idle (h : Idle m k) (hgrew : Grew k b m') : Grew m b m' :=
  ⟨hgrew.new.mono h.stock.next (Nat.le_refl _), h.stock.entries ▸ hgrew.entries,
    hgrew.limit.trans h.stock.limit⟩

theorem Sorted.of_idle (h : Idle m k) (hsorted : Sorted k b guarded m') :
    Sorted m b guarded m' := by
  refine ⟨hsorted.new.mono h.stock.next (Nat.le_refl _), ?_, hsorted.limit.trans h.stock.limit,
    hsorted.guards⟩
  rw [hsorted.entries, h.stock.sortOut_record]

theorem Sorted.trans_idle (hsorted : Sorted m b guarded k) (h : Idle k m') :
    Sorted m b guarded m' :=
  ⟨hsorted.new.mono (Nat.le_refl _) h.stock.next, h.stock.entries.trans hsorted.entries,
    h.stock.limit.trans hsorted.limit, hsorted.guards⟩

/-- What an operation does to the tracked backups. -/
inductive Stocking (m m' : Manager σ) : Prop
  | same (h : SameStock m.vault.store m'.vault.store)
  | grew {b : BackupEntry} (h : Grew m b m')
  | sorted {b : BackupEntry} {guarded : List Path} (h : Sorted m b guarded m')
      (hcover : ∀ p ∈ protectedBackups m'.history, p ∈ guarded)
  | forgot (hentries : m'.vault.store.entries = [])
      (hlimit : m'.vault.store.limit = m.vault.store.limit) (hhistory : m'.history = [])

/-- What the answer to a request tells of the tracked backups. -/
inductive Supplied (m : Manager σ) : Except ChangeError ChangeOutcome → Manager σ → Prop
  | refused {m' : Manager σ} {e : ChangeError} (he : e.hadSideEffects = false)
      (h : SameStock m.vault.store m'.vault.store) : Supplied m (.error e) m'
  | previewed {m' : Manager σ} {file : Path} {text : String}
      (h : SameStock m.vault.store m'.vault.store) : Supplied m (.ok (.previewed file text)) m'
  | spoiled {m' : Manager σ} {b : BackupEntry} {file : Path} {back : Bool} {cause : FileError}
      (h : Grew m b m') : Supplied m (.error (.applyFailed file b.backup back cause)) m'
  | applied {m' : Manager σ} {b : BackupEntry} {r : ChangeRecord}
      (hbackup : r.backup = some b.backup) (h : Sorted m b (protectedBackups m'.history) m') :
      Supplied m (.ok (.applied r)) m'

theorem Stocking.of_idle (h : Idle m k) (hstocking : Stocking k m') : Stocking m m' := by
  cases hstocking with
  | same hsame => exact .same (h.stock.trans hsame)
  | grew hgrew => exact .grew (hgrew.of_idle h)
  | sorted hsorted hcover => exact .sorted (hsorted.of_idle h) hcover
  | forgot hentries hlimit hhistory => exact .forgot hentries (hlimit.trans h.stock.limit) hhistory

theorem Supplied.of_idle {a : Except ChangeError ChangeOutcome} (h : Idle m k)
    (hsupplied : Supplied k a m') : Supplied m a m' := by
  cases hsupplied with
  | refused he hsame => exact .refused he (h.stock.trans hsame)
  | previewed hsame => exact .previewed (h.stock.trans hsame)
  | spoiled hgrew => exact .spoiled (hgrew.of_idle h)
  | applied hbackup hsorted => exact .applied hbackup (hsorted.of_idle h)

theorem Supplied.stocking {a : Except ChangeError ChangeOutcome} (h : Supplied m a m') :
    Stocking m m' := by
  cases h with
  | refused he hsame => exact .same hsame
  | previewed hsame => exact .same hsame
  | spoiled hgrew => exact .grew hgrew
  | applied hbackup hsorted => exact .sorted hsorted fun _ hp => hp

theorem ends_refuse_stock {q : ChangeRequest} {e : ChangeError} (he : e.hadSideEffects = false)
    (h : Idle m k) :
    (refuse q e none : Attempt (Manager σ) (Except ChangeError ChangeOutcome)).Ends k (Supplied m)
      (Stocking m) := by
  apply Attempt.ends_of_ok (refuse_run q e none k)
  have hstore : (k.noteFailed q e none).vault.store = k.vault.store := by
    unfold noteFailed
    split <;> rfl
  exact .refused he (hstore ▸ h.stock)

section

variable [FileAccess σ]

theorem ends_takeBackup_stock (file : Path) (contents : String) :
    (inVault (Vault.takeBackup file contents)).Ends m
      (fun a k => Idle m k ∧ match a with
        | .ok b => NewPath m.vault.store k.vault.store b.backup
        | .error e => e.hadSideEffects = false)
      (Idle m) := by
  apply ends_inVault
  exact (Vault.ends_takeBackup_stock file contents).mono
    (fun _ _ h => ⟨⟨h.1, rfl, rfl⟩, h.2⟩) fun _ h => ⟨h, rfl, rfl⟩

/-- Noting an applied change adds its backup and drops what may be dropped. -/
theorem ends_commit_stock {q : ChangeRequest} (hidle : Idle m k)
    (hnew : NewPath m.vault.store k.vault.store b.backup) :
    (do
      let (r, dropped) ← commit q b
      discard dropped
      count .changesApplied
      report (.changeApplied q.file q.line b.backup)
      return .ok (.applied r) : Attempt (Manager σ) (Except ChangeError _)).Ends k (Supplied m)
      (Stocking m) := by
  apply Ends.bind
  apply Attempt.ends_of_ok (commit_run q b k)
  apply Ends.bind
  let guarded := protectedBackups (k.noting q b).history
  have hsorted : Sorted m b guarded ((k.noting q b).limiting guarded) :=
    ⟨hnew, congrArg Prod.snd (hidle.stock.sortOut_record b guarded), hidle.stock.limit,
      backup_mem_protectedBackups _ _⟩
  refine (discard_within idle_blind _ _).mono ?_ ?_
  · intro _ l hl
    let l' : Manager σ :=
      (l.counting .changesApplied).reporting (.changeApplied q.file q.line b.backup)
    have hcounted : Idle l l' := ⟨.refl _, rfl, rfl⟩
    have hl' := trans_of Idle hl hcounted
    refine Attempt.ends_of_ok (t := l') rfl (.applied rfl ?_)
    rw [hl'.history]
    exact hsorted.trans_idle hl'
  · intro l hl
    refine .sorted (hsorted.trans_idle hl) ?_
    rw [hl.history]
    exact fun _ hp => hp

theorem ends_carryOut_stock {q : ChangeRequest} (old new : String)
    (hlive : m.config.dryRun = false) :
    (carryOut q old new).Ends m (Supplied m) (Stocking m) := by
  apply Ends.bind
  refine (ends_takeBackup_stock q.file old).mono ?_ fun k hk => .same hk.stock
  rintro taken k ⟨hk, htaken⟩
  cases taken with
  | error e => exact ends_refuse_stock htaken hk
  | ok b =>
    apply Ends.bind
    refine (replaceText_within idle_blind.lenient q.file old new k).mono ?_ ?_
    · intro replaced l hl
      have hidle := trans_of Idle hk hl
      have hnew : NewPath m.vault.store l.vault.store b.backup :=
        htaken.mono (Nat.le_refl _) hl.stock.next
      cases replaced with
      | error failure =>
        have hlive' : l.config.dryRun = false := by rw [hidle.config, hlive]
        let e : ChangeError := .applyFailed q.file b.backup failure.2 failure.1
        have hstore : (l.noteFailed q e (some b)).vault.store = l.vault.store.record b := by
          unfold noteFailed
          rw [hlive']
          rfl
        apply Attempt.ends_of_ok (refuse_run q e (some b) l)
        refine .spoiled ⟨?_, ?_, ?_⟩ <;> rw [hstore]
        · exact hnew
        · exact congrArg (· ++ [b]) hidle.stock.entries
        · exact hidle.stock.limit
      | ok _ => exact ends_commit_stock hidle hnew
    · exact fun l hl => .same (trans_of Idle hk hl).stock

theorem ends_applyValid_stock (q : ChangeRequest) :
    (applyValid q).Ends m (Supplied m) (Stocking m) := by
  apply Ends.bind
  refine (onFiles_within idle_blind.lenient _ m).mono ?_ fun k hk => .same hk.stock
  intro read k hk
  cases read with
  | error cause => exact ends_refuse_stock rfl hk
  | ok old =>
    simp only
    cases Edit.replaceBlock old q.line q.expected q.suggested with
    | error cause => exact ends_refuse_stock rfl hk
    | ok new =>
      apply Ends.bind
      apply Attempt.ends_of_ok (Attempt.get_run k)
      cases hdry : k.config.dryRun with
      | true =>
        rw [if_pos rfl]
        exact Attempt.ends_of_ok rfl (.previewed hk.stock)
      | false =>
        rw [if_neg Bool.false_ne_true]
        exact (ends_carryOut_stock old new hdry).mono (fun _ _ h => h.of_idle hk)
          fun _ h => h.of_idle hk

theorem ends_apply_stock (q : ChangeRequest) : (apply q).Ends m (Supplied m) (Stocking m) := by
  unfold apply
  cases hvalid : q.validate with
  | error e =>
    refine Attempt.ends_pure (.refused ?_ (.refl _))
    unfold ChangeRequest.validate at hvalid
    cases hfault : q.fault? with
    | none => simp [hfault] at hvalid
    | some fault =>
      rw [hfault] at hvalid
      cases hvalid
      rfl
  | ok _ => exact ends_applyValid_stock q

theorem ends_backUp_stock (file : Path) :
    (backUp file).Ends m
      (fun a m' => match a with
        | .ok b => Sorted m b (protectedBackups m'.history ++ [b.backup]) m'
        | .error _ => SameStock m.vault.store m'.vault.store)
      (Stocking m) := by
  apply Ends.bind
  refine (onFiles_within idle_blind.lenient _ m).mono ?_ fun k hk => .same hk.stock
  intro read k hk
  cases read with
  | error cause => exact Attempt.ends_pure hk.stock
  | ok contents =>
    apply Ends.bind
    refine (ends_takeBackup_stock file contents).mono ?_ fun l hl =>
      .same (trans_of Idle hk hl).stock
    rintro taken l ⟨hl, htaken⟩
    have hidle := trans_of Idle hk hl
    cases taken with
    | error e => exact Attempt.ends_pure hidle.stock
    | ok b =>
      let guarded := protectedBackups l.history ++ [b.backup]
      apply Ends.bind
      apply Attempt.ends_of_ok (record_run b l)
      apply Ends.bind
      apply Attempt.ends_of_ok (Attempt.get_run _)
      apply Ends.bind
      apply Attempt.ends_of_ok (enforceLimit_run guarded _)
      have hsorted : Sorted m b guarded ((l.recording b).limiting guarded) :=
        ⟨htaken.mono hk.stock.next (Nat.le_refl _),
          congrArg Prod.snd (hidle.stock.sortOut_record b guarded), hidle.stock.limit,
          List.mem_append_right _ (List.mem_singleton_self _)⟩
      apply Ends.bind
      refine (discard_within idle_blind _ _).mono ?_ ?_
      · intro _ l' hl'
        refine Attempt.ends_pure ?_
        have hhistory : l'.history = l.history := hl'.history
        simp only
        rw [hhistory]
        exact hsorted.trans_idle hl'
      · intro l' hl'
        have hhistory : l'.history = l.history := hl'.history
        refine .sorted (hsorted.trans_idle hl') ?_
        rw [hhistory]
        exact fun _ hp => List.mem_append_left _ hp

/-! ## One step -/

/-- A step keeps the stock in order. -/
structure StaysOrderly (m m' : Manager σ) : Prop where
  limit : m'.vault.store.limit = m.vault.store.limit
  orderly : m.vault.store.Orderly → m'.vault.store.Orderly

instance : IsPreorder (Manager σ) StaysOrderly where
  refl _ := ⟨rfl, fun h => h⟩
  trans _ _ _ h h' := ⟨h'.limit.trans h.limit, fun hm => h'.orderly (h.orderly hm)⟩

omit [FileAccess σ] in
theorem Stocking.staysOrderly (h : Stocking m m') : StaysOrderly m m' := by
  cases h with
  | same hsame => exact ⟨hsame.limit, fun hm => hm.of_sameStock hsame⟩
  | grew hgrew =>
    refine ⟨hgrew.limit, fun hm => hm.of_sublist hgrew.new ?_⟩
    rw [hgrew.entries]
  | sorted hsorted hcover =>
    refine ⟨hsorted.limit, fun hm => hm.of_sublist hsorted.new ?_⟩
    rw [hsorted.entries]
    exact BackupStore.kept_sublist _ _
  | forgot hentries hlimit hhistory =>
    refine ⟨hlimit, fun _ => ⟨?_, ?_⟩⟩ <;> rw [hentries]
    · exact fun e he => by cases he
    · exact List.Pairwise.nil

omit [FileAccess σ] in
/-- A tracked backup that the history protects afterwards is tracked afterwards. -/
theorem Stocking.tracks (h : Stocking m m') {p : Path} (hguard : p ∈ protectedBackups m'.history)
    (hp : m.tracks p = true) : m'.tracks p = true := by
  obtain ⟨e, he, hkey⟩ := tracks_iff.1 hp
  refine tracks_iff.2 ⟨e, ?_, hkey⟩
  cases h with
  | same hsame => exact hsame.entries ▸ he
  | grew hgrew =>
    rw [hgrew.entries]
    exact List.mem_append_left _ he
  | sorted hsorted hcover =>
    rw [hsorted.entries]
    exact BackupStore.mem_kept_of_guarded (List.mem_append_left _ he) (hcover p hguard)
      (Path.same_iff.2 hkey.symm)
  | forgot hentries hlimit hhistory =>
    rw [hhistory] at hguard
    cases hguard

/-- The same backups are tracked, whatever the records are. -/
def KeepsStock (m m' : Manager σ) : Prop :=
  SameStock m.vault.store m'.vault.store

instance : IsPreorder (Manager σ) KeepsStock where
  refl m := .refl m.vault.store
  trans _ _ _ h h' := SameStock.trans h h'

omit [FileAccess σ] in
theorem noteUndone_keepsStock (m : Manager σ) (i : Nat) (r : ChangeRecord) :
    KeepsStock m (m.noteUndone i r).2 := by
  rcases m.noteUndone_cases i r with ⟨s, -, -, hrun⟩ | ⟨-, hrun⟩ <;> rw [hrun] <;> exact .refl _

/-- What an operation does to the tracked backups; a batch is told by its requests. -/
theorem Operation.stocking (o : Operation σ) (hbatch : o ≠ .applyPending) (m : Manager σ) :
    Stocking m (o.after m) := by
  cases o with
  | apply q => exact ((ends_apply_stock q).mono (fun _ _ h => h.stocking) fun _ h => h).endState
  | applyPending => exact absurd rfl hbatch
  | undo =>
    have hblind : FilesBlind (@KeepsStock σ) := fun m vault hstore => (idle_blind m vault hstore).stock
    exact .same (undo_within hblind noteUndone_keepsStock m).endState
  | reject q => exact .same (.refl _)
  | backUp file =>
    refine ((ends_backUp_stock file).mono ?_ fun _ h => h).endState
    intro a m' h
    cases a with
    | ok b => exact .sorted h fun _ hp => List.mem_append_left _ hp
    | error e => exact .same h
  | restoreLatest file => exact .same (restoreLatest_within idle_blind.lenient file m).endState.stock
  | addPending q =>
    simp only [after, Manager.addPending]
    cases q.validate with
    | error e => exact .same (.refl _)
    | ok _ => exact .same (.refl _)
  | clearPending => exact .same (.refl _)
  | reset => exact .forgot rfl rfl rfl
  | meanwhile f => exact .same (.refl _)

theorem request_stocking (q : ChangeRequest) (m : Manager σ) :
    Stocking m ((applyValid q).endState m) :=
  ((ends_applyValid_stock q).mono (fun _ _ h => h.stocking) fun _ h => h).endState

/-! ## Any number of steps -/

theorem applyPending_staysOrderly :
    (applyPending : Attempt (Manager σ) BatchReport).Within StaysOrderly := by
  have hrequest : ∀ q, (applyValid q : Attempt (Manager σ) _).Within StaysOrderly := fun q m =>
    (ends_applyValid_stock q).mono (fun _ _ h => h.stocking.staysOrderly) fun _ h => h.staysOrderly
  exact applyPending_within hrequest (fun _ => ⟨rfl, id⟩) (fun _ => ⟨rfl, id⟩)
    (fun _ _ _ _ => ⟨rfl, id⟩) fun _ => ⟨rfl, id⟩

/-- A manager that operations, changes from outside and the requests of batches lead to. -/
inductive Reached (start : Manager σ) : Manager σ → Prop
  | start : Reached start start
  | after {m : Manager σ} (h : Reached start m) (o : Operation σ) : Reached start (o.after m)
  /-- A batch begins. -/
  | entered {m : Manager σ} (h : Reached start m) :
    Reached start { m with
      pending := []
      vault := { m.vault with telemetry := m.vault.telemetry.enter } }
  /-- A request of a batch is applied. -/
  | request {m : Manager σ} (h : Reached start m) (q : ChangeRequest) :
    Reached start ((applyValid q).endState m)

theorem Reached.staysOrderly {start : Manager σ} (h : Reached start m) : StaysOrderly start m := by
  induction h with
  | start => exact refl_of StaysOrderly start
  | @after m _ o ih =>
    refine trans_of StaysOrderly ih ?_
    by_cases hbatch : o = .applyPending
    · subst hbatch
      exact (applyPending_staysOrderly m).endState
    · exact (o.stocking hbatch m).staysOrderly
  | entered _ ih => exact ⟨ih.limit, ih.orderly⟩
  | @request m _ q ih => exact trans_of StaysOrderly ih (request_stocking q m).staysOrderly

end

end Manager

end CodeReview
