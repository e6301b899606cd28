import CodeReview.Files.Memory
import CodeReview.Proofs.Attempts
import CodeReview.Proofs.BackupNames
import Mathlib.Data.List.Nodup

/-!
# Backups over files in memory

Files in memory never crash: a call answers, and it changes the one path it names or nothing.  Over
them the search for a free backup path ends, so that taking a backup either writes the whole text to
a path that was free or fails without changing any file.
-/

namespace CodeReview

/-! ## Files in memory -/

namespace MemoryFiles

@[simp] theorem read_run (p : Path) (m : MemoryFiles) :
    (FileAccess.read p : Attempt MemoryFiles _) m = .ok (m.textAt p) m :=
  rfl

@[simp] theorem write_run (p : Path) (text : String) (m : MemoryFiles) :
    (FileAccess.write p text : Attempt MemoryFiles _) m = .ok (m.put p text).1 (m.put p text).2 :=
  rfl

@[simp] theorem present_run (p : Path) (m : MemoryFiles) :
    (FileAccess.present p : Attempt MemoryFiles _) m = .ok (m.files.contains p) m :=
  rfl

@[simp] theorem remove_run (p : Path) (m : MemoryFiles) :
    (FileAccess.remove p : Attempt MemoryFiles _) m = .ok (m.drop p).1 (m.drop p).2 :=
  rfl

theorem contents?_congr (m : MemoryFiles) {p q : Path} (h : p.key = q.key) :
    m.contents? p = m.contents? q :=
  m.files.find?_congr h

theorem contains_eq (m : MemoryFiles) (p : Path) :
    m.files.contains p = (m.contents? p).isSome :=
  rfl

theorem contents?_withFile (m : MemoryFiles) (p q : Path) (text : String) :
    (m.withFile p text).contents? q = if p.key = q.key then some text else m.contents? q :=
  m.files.find?_insert p q text

/-- A file that can be read is there. -/
theorem contents?_of_textAt {m : MemoryFiles} {p : Path} {text : String}
    (h : m.textAt p = .ok text) : m.contents? p = some text := by
  unfold textAt at h
  split at h
  · cases h
  · change m.files.find? p = some text
    cases hf : m.files.find? p with
    | none => simp [hf] at h
    | some found => simpa [hf] using h

theorem readProtected_of_textAt {m : MemoryFiles} {p : Path} {text : String}
    (h : m.textAt p = .ok text) : m.readProtected.contains p = false := by
  unfold textAt at h
  split at h
  · cases h
  · next hopen => simpa using hopen

/-- A file that is there can be read, unless reading it is refused. -/
theorem textAt_of_contents? {m : MemoryFiles} {p : Path} {text : String}
    (h : m.contents? p = some text) (hread : m.readProtected.contains p = false) :
    m.textAt p = .ok text := by
  have hf : m.files.find? p = some text := h
  simp [textAt, hread, hf]

theorem put_of_accepted {m : MemoryFiles} {p : Path} (text : String)
    (h : m.writeProtected.contains p = false) : m.put p text = (.ok (), m.withFile p text) := by
  simp [put, h]

theorem put_of_refused {m : MemoryFiles} {p : Path} (text : String)
    (h : m.writeProtected.contains p = true) : m.put p text = (.error (.writeRefused p), m) := by
  simp [put, h]

/-- Take a file away, if it is there. -/
def without (m : MemoryFiles) (p : Path) : MemoryFiles :=
  (m.drop p).2

theorem contents?_without (m : MemoryFiles) (p q : Path) :
    (m.without p).contents? q = if p.key = q.key then none else m.contents? q := by
  unfold without drop
  cases h : m.files.contains p
  · have hnone : m.contents? p = none := by simpa [contains_eq] using h
    by_cases hk : p.key = q.key
    · simp [hk, ← m.contents?_congr hk, hnone]
    · simp [hk]
  · exact m.files.find?_erase p q

@[simp] theorem without_writeProtected (m : MemoryFiles) (p : Path) :
    (m.without p).writeProtected = m.writeProtected := by
  unfold without drop
  split <;> rfl

@[simp] theorem without_readProtected (m : MemoryFiles) (p : Path) :
    (m.without p).readProtected = m.readProtected := by
  unfold without drop
  split <;> rfl

def withoutAll (m : MemoryFiles) (ps : List Path) : MemoryFiles :=
  ps.foldl without m

/-- Only the named files go. -/
theorem contents?_withoutAll (m : MemoryFiles) (ps : List Path) (q : Path) :
    (m.withoutAll ps).contents? q =
      if ps.any (fun p => p.same q) then none else m.contents? q := by
  induction ps generalizing m with
  | nil => rfl
  | cons p ps ih =>
    change ((m.without p).withoutAll ps).contents? q = _
    rw [ih, contents?_without]
    by_cases hp : p.key = q.key
    · simp [Path.same_iff.2 hp, hp]
    · have hsame : p.same q = false := by simp [Path.same, hp]
      simp [hsame, hp]

@[simp] theorem withoutAll_writeProtected (m : MemoryFiles) (ps : List Path) :
    (m.withoutAll ps).writeProtected = m.writeProtected := by
  induction ps generalizing m with
  | nil => rfl
  | cons p ps ih => exact (ih _).trans (without_writeProtected m p)

@[simp] theorem withoutAll_readProtected (m : MemoryFiles) (ps : List Path) :
    (m.withoutAll ps).readProtected = m.readProtected := by
  induction ps generalizing m with
  | nil => rfl
  | cons p ps ih => exact (ih _).trans (without_readProtected m p)

end MemoryFiles

/-! ## The search for a free path -/

/-- The paths that a search tries are different. -/
theorem BackupStore.nodup_tries (s : BackupStore) (file : Path) (first tries : Nat) :
    (((List.range tries).map fun i => s.pathOf file (first + i)).map Path.key).Nodup := by
  rw [List.map_map]
  refine List.Nodup.map ?_ List.nodup_range
  intro i j hij
  exact Nat.add_left_cancel (BackupStore.number_of_key_eq hij)

namespace Vault

/-- The vault after the numbers below `n` are used up. -/
def skipTo {σ : Type} (v : Vault σ) (n : Nat) : Vault σ :=
  { v with store := { v.store with next := n } }

/-- A search in which `present` says of every path whether it is occupied, and changes nothing, ends
at the first free path, unless all the paths it tries are occupied. -/
theorem freshPathWithin_run {σ : Type} [FileAccess σ] {occupied : Path → Bool} (file : Path)
    (tries : Nat) (v : Vault σ)
    (hpresent : ∀ p, (FileAccess.present p : Attempt σ Bool) v.files = .ok (occupied p) v.files) :
    (∃ n, v.store.next ≤ n ∧ occupied (v.store.pathOf file n) = false ∧
      freshPathWithin file tries v = .ok (v.store.pathOf file n) (v.skipTo (n + 1))) ∨
    ∀ i < tries, occupied (v.store.pathOf file (v.store.next + i)) = true := by
  induction tries generalizing v with
  | zero => exact Or.inr fun i hi => absurd hi (Nat.not_lt_zero i)
  | succ tries ih =>
    let u := v.skipTo (v.store.next + 1)
    have hreserve : reserve file v = .ok (v.store.pathOf file v.store.next) u := rfl
    have hpres := onFiles_of_ok (v := u) (hpresent (v.store.pathOf file v.store.next))
    unfold freshPathWithin
    rw [Attempt.bind_of_ok hreserve, present, Attempt.bind_of_ok hpres]
    cases hocc : occupied (v.store.pathOf file v.store.next) with
    | false => exact Or.inl ⟨v.store.next, Nat.le_refl _, hocc, rfl⟩
    | true =>
      rcases ih u hpresent with ⟨n, hn, hfree, hrun⟩ | hall
      · exact Or.inl ⟨n, Nat.le_of_succ_le hn, hfree, hrun⟩
      · apply Or.inr
        intro i hi
        cases i with
        | zero => exact hocc
        | succ i =>
          have hi := hall i (Nat.lt_of_succ_lt_succ hi)
          rwa [show u.store.next + i = v.store.next + (i + 1) by
            simp only [u, skipTo]; omega] at hi

/-- The search for a free backup path ends.  Its tries differ in their numbers, so they cannot all be
occupied. -/
theorem freshPath_eq (v : Vault MemoryFiles) (file : Path) :
    ∃ n, v.store.next ≤ n ∧ v.files.contents? (v.store.pathOf file n) = none ∧
      freshPath file v = .ok (v.store.pathOf file n) (v.skipTo (n + 1)) := by
  rcases freshPathWithin_run file (v.files.files.size + 1) v
      (fun p => MemoryFiles.present_run p v.files) with ⟨n, hn, hfree, hrun⟩ | hall
  · refine ⟨n, hn, ?_, hrun⟩
    simpa [MemoryFiles.contains_eq] using hfree
  · let paths := (List.range (v.files.files.size + 1)).map fun i =>
      v.store.pathOf file (v.store.next + i)
    have hdistinct : (paths.map Keyed.key).Nodup := v.store.nodup_tries file v.store.next _
    have hmem : ∀ p ∈ paths, v.files.files.contains p = true := by
      intro p hp
      obtain ⟨i, hi, rfl⟩ := List.mem_map.1 hp
      exact hall i (List.mem_range.1 hi)
    have hlen := OrderedMap.length_le_size hdistinct hmem
    simp only [paths, List.length_map, List.length_range] at hlen
    omega

/-- Taking a backup writes the whole text to a free path, or is refused there and changes no file. -/
theorem takeBackup_run (v : Vault MemoryFiles) (file : Path) (contents : String) :
    ∃ n, v.store.next ≤ n ∧ v.files.contents? (v.store.pathOf file n) = none ∧
      takeBackup file contents v =
        if v.files.writeProtected.contains (v.store.pathOf file n) then
          .ok (.error (.fileAccess (v.store.pathOf file n)
            (.writeRefused (v.store.pathOf file n)))) (v.skipTo (n + 1))
        else
          .ok (.ok ⟨file, v.store.pathOf file n, digestOf contents⟩)
            { v.skipTo (n + 1) with
              files := v.files.withFile (v.store.pathOf file n) contents
              telemetry := v.telemetry.report (.backupCreated file (v.store.pathOf file n)) } := by
  obtain ⟨n, hn, hfree, hrun⟩ := freshPath_eq v file
  refine ⟨n, hn, hfree, ?_⟩
  unfold takeBackup
  rw [Attempt.bind_of_ok hrun]
  generalize v.store.pathOf file n = b
  unfold writeBackup
  have hdirs : ∀ dir, onFiles (FileAccess.makeDirs dir) (v.skipTo (n + 1)) =
      .ok (.ok ()) (v.skipTo (n + 1)) := fun dir => rfl
  have hwrite := onFiles_of_ok (MemoryFiles.write_run b contents (v.skipTo (n + 1)).files)
  cases hprot : v.files.writeProtected.contains b with
  | true =>
    rw [MemoryFiles.put_of_refused (m := (v.skipTo (n + 1)).files) contents hprot] at hwrite
    cases hdir : b.parent? with
    | none => simp only [write, Attempt.bind_of_ok hwrite]; rfl
    | some dir =>
      simp only [Attempt.bind_of_ok (hdirs dir), write, Attempt.bind_of_ok hwrite]; rfl
  | false =>
    rw [MemoryFiles.put_of_accepted (m := (v.skipTo (n + 1)).files) contents hprot] at hwrite
    cases hdir : b.parent? with
    | none => simp only [write, Attempt.bind_of_ok hwrite]; rfl
    | some dir =>
      simp only [Attempt.bind_of_ok (hdirs dir), write, Attempt.bind_of_ok hwrite]; rfl

end Vault

end CodeReview
