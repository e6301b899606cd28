import CodeReview.Proofs.Agreement
import CodeReview.Proofs.Handling
import CodeReview.Proofs.Stock

/-!
# Reserved paths

A path that is reserved for a backup is tested at once, and no test comes between.  So files that keep
a list of the paths that were asked for (`Surveyed`) tell which paths an operation reserved.  They
stand under one number after another, beginning with the one that was next before (`Numbered`), and a
number is never given back, not even by a reset.  So in any run, of a change manager or of a backup
store on its own, the paths that were reserved differ from each other (`Numbered.nodup_keys`).
-/

namespace CodeReview

/-! ## Numbered paths -/

namespace BackupStore

/-- Paths of backups under one number after another, from the first one up to the one that is next. -/
inductive Numbered : Nat → List Path → Nat → Prop
  | nil (n : Nat) : Numbered n [] n
  | cons {n next : Nat} {ps : List Path} (s : BackupStore) (file : Path)
      (h : Numbered (n + 1) ps next) : Numbered n (s.pathOf file n :: ps) next

namespace Numbered

variable {n k next : Nat} {ps qs : List Path}

theorem single (s : BackupStore) (file : Path) (n : Nat) : Numbered n [s.pathOf file n] (n + 1) :=
  .cons s file (.nil _)

theorem append (h : Numbered n ps k) (h' : Numbered k qs next) : Numbered n (ps ++ qs) next := by
  induction h with
  | nil _ => exact h'
  | cons s file _ ih => exact .cons s file (ih h')

theorem next_eq (h : Numbered n ps next) : next = n + ps.length := by
  induction h with
  | nil _ => rfl
  | cons s file _ ih => rw [ih, List.length_cons]; omega

theorem exists_number (h : Numbered n ps next) {p : Path} (hp : p ∈ ps) :
    ∃ (s : BackupStore) (file : Path) (k : Nat), n ≤ k ∧ p = s.pathOf file k := by
  induction h with
  | nil _ => cases hp
  | @cons n _ _ s file _ ih =>
    rcases List.mem_cons.1 hp with rfl | hp
    · exact ⟨s, file, n, Nat.le_refl n, rfl⟩
    · obtain ⟨t, other, k, hk, rfl⟩ := ih hp
      exact ⟨t, other, k, Nat.le_of_succ_le hk, rfl⟩

theorem nodup_keys (h : Numbered n ps next) : (ps.map Path.key).Nodup := by
  induction h with
  | nil _ => exact List.nodup_nil
  | @cons n _ _ s file hrest ih =>
    refine List.nodup_cons.2 ⟨fun hmem => ?_, ih⟩
    obtain ⟨p, hp, hkey⟩ := List.mem_map.1 hmem
    obtain ⟨t, other, k, hk, rfl⟩ := hrest.exists_number hp
    have hsame := number_of_key_eq hkey
    omega

end Numbered

end BackupStore

open BackupStore (Numbered)

/-! ## Surveyed files -/

/-- Files with the paths that were asked for, the latest last. -/
structure Surveyed (σ : Type) where
  files : σ
  asked : List Path

namespace Surveyed

variable {σ α : Type}

/-- A call on the files that asks for some paths. -/
def asking (ps : List Path) (act : Attempt σ α) : Attempt (Surveyed σ) α := fun s =>
  match act s.files with
  | .ok a files => .ok a ⟨files, s.asked ++ ps⟩
  | .error e files => .error e ⟨files, s.asked ++ ps⟩

instance [FileAccess σ] : FileAccess (Surveyed σ) where
  read p := asking [] (FileAccess.read p)
  write p text := asking [] (FileAccess.write p text)
  present p := asking [p] (FileAccess.present p)
  remove p := asking [] (FileAccess.remove p)
  makeDirs p := asking [] (FileAccess.makeDirs p)
  occupied s := FileAccess.occupied s.files

theorem ends_asking (ps : List Path) (act : Attempt σ α) (s : Surveyed σ) :
    (asking ps act).Ends s (fun _ t => t.asked = s.asked ++ ps) fun t => t.asked = s.asked ++ ps := by
  unfold Attempt.Ends asking
  cases act s.files with
  | ok a files => rfl
  | error e files => rfl

theorem asking_agrees (ps : List Path) (act : Attempt σ α) :
    Attempt.Agree (fun s files => s.files = files) (asking ps act) act := by
  rintro s _ rfl
  unfold asking
  cases act s.files with
  | ok a files => exact .ok rfl
  | error e files => exact .error rfl

/-- Surveyed files and the files themselves answer all calls alike. -/
theorem coupled [FileAccess σ] :
    FileAccess.Coupled fun (s : Surveyed σ) (files : σ) => s.files = files where
  read _ := asking_agrees _ _
  write _ _ := asking_agrees _ _
  present _ := asking_agrees _ _
  remove _ := asking_agrees _ _
  makeDirs _ := asking_agrees _ _
  occupied _ _ h := congrArg FileAccess.occupied h

end Surveyed

/-! ## Numbers that are used up -/

namespace Vault

variable {σ α : Type}

/-- The numbers that were used up went to the paths that were asked for meanwhile. -/
def Spends (v w : Vault (Surveyed σ)) : Prop :=
  ∃ ps, w.files.asked = v.files.asked ++ ps ∧ Numbered v.store.next ps w.store.next

instance : IsPreorder (Vault (Surveyed σ)) Spends where
  refl _ := ⟨[], (List.append_nil _).symm, .nil _⟩
  trans := by
    rintro u v w ⟨ps, hasked, hps⟩ ⟨qs, hasked', hqs⟩
    exact ⟨ps ++ qs, by rw [hasked', hasked, List.append_assoc], hps.append hqs⟩

theorem asking_nil_spends (act : Attempt σ α) :
    (onFiles (Surveyed.asking [] act)).Within Spends := by
  have hspends : ∀ (v : Vault (Surveyed σ)) (files : Surveyed σ),
      files.asked = v.files.asked ++ [] → Spends v { v with files := files } :=
    fun v files hasked => ⟨[], hasked, .nil _⟩
  exact fun v => ends_onFiles ((Surveyed.ends_asking [] act v.files).mono
    (fun _ files => hspends v files) fun files => hspends v files)

variable [FileAccess σ]

/-- Each turn of a search uses up a number for the path that it asks for, also when that crashes. -/
theorem freshPathWithin_spends (file : Path) (tries : Nat) :
    (freshPathWithin file tries : Attempt (Vault (Surveyed σ)) Path).Within Spends := by
  induction tries with
  | zero => exact Attempt.within_throw _
  | succ tries ih =>
    intro v
    let u : Vault (Surveyed σ) := v.skipTo (v.store.next + 1)
    let p := v.store.pathOf file v.store.next
    have hspends : ∀ files : Surveyed σ, files.asked = u.files.asked ++ [p] →
        Spends v { u with files := files } :=
      fun files hasked => ⟨[p], hasked, .single v.store file _⟩
    apply Attempt.Ends.bind
    apply Attempt.ends_of_ok (show reserve file v = .ok p u from rfl)
    apply Attempt.Ends.bind
    refine ends_onFiles ((Surveyed.ends_asking [p] (FileAccess.present p) u.files).mono ?_ hspends)
    intro there files hasked
    have hturn := hspends files hasked
    cases there with
    | false => exact Attempt.ends_pure hturn
    | true =>
      exact (ih { u with files := files }).mono (fun _ _ h => trans_of Spends hturn h)
        fun _ h => trans_of Spends hturn h

theorem handling_spends : Handling (@Spends σ) where
  read _ := asking_nil_spends _
  write _ _ := asking_nil_spends _
  remove _ := asking_nil_spends _
  makeDirs _ := asking_nil_spends _
  search := freshPathWithin_spends
  telemetry _ _ := ⟨[], (List.append_nil _).symm, .nil _⟩
  entries _ _ := ⟨[], (List.append_nil _).symm, .nil _⟩

theorem readVerified_sameStore (backup : Path) (digest : Option String) :
    (readVerified backup digest : Attempt (Vault σ) _).Within SameStore := by
  refine (onFiles_sameStore _).bind fun read => ?_
  cases read with
  | error cause => exact Attempt.within_pure _
  | ok contents =>
    simp only
    split
    · exact Attempt.within_pure _
    · exact Attempt.within_pure _

/-- The vault over its files with no path asked for yet. -/
def surveyed (v : Vault σ) : Vault (Surveyed σ) :=
  ⟨⟨v.files, []⟩, v.telemetry, v.store⟩

omit [FileAccess σ] in
theorem Spends.numbered {v : Vault σ} {w : Vault (Surveyed σ)} (h : Spends v.surveyed w) :
    Numbered v.store.next w.files.asked w.store.next := by
  obtain ⟨ps, hasked, hps⟩ := h
  rw [hasked]
  exact hps

end Vault

/-! ## Runs of a change manager -/

theorem Telemetry.coupled_eq : Telemetry.Coupled Eq :=
  ⟨fun _ h => h ▸ rfl, fun _ h => h ▸ rfl⟩

namespace Manager

variable {σ : Type}

/-- The manager over its files with no path asked for yet. -/
def surveyed (m : Manager σ) : Manager (Surveyed σ) :=
  ⟨m.config, m.vault.surveyed, m.history, m.undoStack, m.pending, m.issued, m.recordId⟩

theorem surveyed_like (m : Manager σ) :
    Like (fun (s : Surveyed σ) files => s.files = files) Eq m.surveyed m :=
  ⟨⟨rfl, rfl, rfl⟩, rfl, rfl, rfl, rfl, rfl⟩

/-- Two managers whose next backups get the same number. -/
def SameNext (m m' : Manager σ) : Prop :=
  m'.vault.store.next = m.vault.store.next

instance : IsPreorder (Manager σ) SameNext where
  refl _ := rfl
  trans _ _ _ h h' := Eq.trans h' h

theorem filesBlind_sameNext : FilesBlind (@SameNext σ) :=
  fun _ _ hstore => congrArg BackupStore.next hstore

theorem noteUndone_sameNext (m : Manager σ) (i : Nat) (r : ChangeRecord) :
    SameNext m (m.noteUndone i r).2 := by
  rcases m.noteUndone_cases i r with ⟨s, -, -, hrun⟩ | ⟨-, hrun⟩ <;> rw [hrun] <;> rfl

namespace Operation

variable [FileAccess σ]

/-- The paths that an operation reserves.  The others test no path but that of a backup that they
restore. -/
def reserved : Operation σ → Manager σ → List Path
  | apply q, m => ((Manager.apply q).endState m.surveyed).vault.files.asked
  | applyPending, m => (Manager.applyPending.endState m.surveyed).vault.files.asked
  | backUp file, m => ((Manager.backUp file).endState m.surveyed).vault.files.asked
  | _, _ => []

/-- The paths that operations reserve, the latest last. -/
def reservedAll : List (Operation σ) → Manager σ → List Path
  | [], _ => []
  | o :: os, m => o.reserved m ++ reservedAll os (o.after m)

theorem numbered_reserved (o : Operation σ) (m : Manager σ) :
    Numbered m.vault.store.next (o.reserved m) (o.after m).vault.store.next := by
  have hquiet : ∀ {m' : Manager σ}, SameNext m m' →
      Numbered m.vault.store.next [] m'.vault.store.next := by
    intro m' h
    rw [show m'.vault.store.next = m.vault.store.next from h]
    exact .nil _
  cases o with
  | apply q =>
    have hlike := (apply_agrees Surveyed.coupled Telemetry.coupled_eq q _ _ m.surveyed_like).endState
    have hspends : Vault.Spends _ _ := (Vault.handling_spends.apply q m.surveyed).endState
    rw [after, ← hlike.vault.store]
    exact hspends.numbered
  | applyPending =>
    have hlike := (applyPending_agrees Surveyed.coupled m.surveyed_like rfl).endState
    have hspends : Vault.Spends _ _ := (Vault.handling_spends.applyPending m.surveyed).endState
    rw [after, ← hlike.vault.store]
    exact hspends.numbered
  | backUp file =>
    have hlike :=
      (backUp_agrees Surveyed.coupled Telemetry.coupled_eq file _ _ m.surveyed_like).endState
    have hspends : Vault.Spends _ _ := (Vault.handling_spends.backUp file m.surveyed).endState
    rw [after, ← hlike.vault.store]
    exact hspends.numbered
  | undo => exact hquiet (undo_within filesBlind_sameNext noteUndone_sameNext m).endState
  | restoreLatest file =>
    exact hquiet (restoreLatest_within filesBlind_sameNext.lenient file m).endState
  | reject q => exact hquiet rfl
  | addPending q =>
    simp only [after, Manager.addPending]
    cases q.validate with
    | error e => exact hquiet rfl
    | ok _ => exact hquiet rfl
  | clearPending => exact hquiet rfl
  | reset => exact hquiet rfl
  | meanwhile f => exact hquiet rfl

theorem numbered_reservedAll (os : List (Operation σ)) (m : Manager σ) :
    Numbered m.vault.store.next (reservedAll os m) (afterAll os m).vault.store.next := by
  induction os generalizing m with
  | nil => exact .nil _
  | cons o os ih => exact (o.numbered_reserved m).append (ih (o.after m))

end Operation

end Manager

/-! ## Runs of a backup store -/

/-- What can be done with a backup store over files, and what others do to its files meanwhile. -/
inductive StoreOperation (σ : Type) where
  | reserve (file : Path)
  | create (file : Path) (contents : String)
  | record (e : BackupEntry)
  | enforceLimit (guarded : List Path)
  | removeFiles (backups : List Path)
  | writeBackup (file backup : Path) (contents : String)
  | readVerified (backup : Path) (digest : Option String)
  | clear
  | meanwhile (f : σ → σ)

namespace StoreOperation

variable {σ : Type} [FileAccess σ]

/-- The store and its files after an operation, whether it answered or crashed. -/
def after : StoreOperation σ → Vault σ → Vault σ
  | reserve file => (Vault.reserve file).endState
  | create file contents => (Vault.create file contents).endState
  | record e => (Vault.record e).endState
  | enforceLimit guarded => (Vault.enforceLimit guarded).endState
  | removeFiles backups => (Vault.removeFiles backups).endState
  | writeBackup file backup contents => (Vault.writeBackup file backup contents).endState
  | readVerified backup digest => (Vault.readVerified backup digest).endState
  | clear => fun v => { v with store := v.store.clear }
  | meanwhile f => fun v => { v with files := f v.files }

def afterAll (os : List (StoreOperation σ)) (v : Vault σ) : Vault σ :=
  os.foldl (fun v o => o.after v) v

/-- The paths that an operation reserves. -/
def reserved : StoreOperation σ → Vault σ → List Path
  | reserve file, v => ((Vault.reserve file).answer? v).toList
  | create file contents, v => ((Vault.create file contents).endState v.surveyed).files.asked
  | _, _ => []

/-- The paths that operations reserve, the latest last. -/
def reservedAll : List (StoreOperation σ) → Vault σ → List Path
  | [], _ => []
  | o :: os, v => o.reserved v ++ reservedAll os (o.after v)

theorem numbered_reserved (o : StoreOperation σ) (v : Vault σ) :
    Numbered v.store.next (o.reserved v) (o.after v).store.next := by
  have hquiet : ∀ {w : Vault σ}, Vault.SameStore v w →
      Numbered v.store.next [] w.store.next := by
    intro w h
    rw [show w.store = v.store from h]
    exact .nil _
  cases o with
  | reserve file => exact .single v.store file _
  | create file contents =>
    have hlike : Vault.Like (fun (s : Surveyed σ) files => s.files = files) Eq v.surveyed v :=
      ⟨rfl, rfl, rfl⟩
    have hsame := Vault.create_agrees Surveyed.coupled Telemetry.coupled_eq file contents
      v.surveyed v hlike
    rw [after, ← hsame.endState.store]
    exact (Vault.handling_spends.create file contents v.surveyed).endState.numbered
  | record e => exact .nil _
  | enforceLimit guarded =>
    change Numbered _ [] (v.store.enforceLimit guarded).2.next
    rw [BackupStore.enforceLimit_eq]
    exact .nil _
  | removeFiles backups =>
    exact hquiet (Vault.removeFiles_within (fun p => Vault.onFiles_sameStore _)
      Vault.report_sameStore backups v).endState
  | writeBackup file backup contents =>
    refine hquiet (Attempt.Ends.endState ?_)
    exact (Vault.writeBackup_sameStore file backup contents).mono (fun _ _ h => h.1) fun _ h => h
  | readVerified backup digest => exact hquiet (Vault.readVerified_sameStore backup digest v).endState
  | clear => exact .nil _
  | meanwhile f => exact .nil _

theorem numbered_reservedAll (os : List (StoreOperation σ)) (v : Vault σ) :
    Numbered v.store.next (reservedAll os v) (afterAll os v).store.next := by
  induction os generalizing v with
  | nil => exact .nil _
  | cons o os ih => exact (o.numbered_reserved v).append (ih (o.after v))

end StoreOperation

end CodeReview
