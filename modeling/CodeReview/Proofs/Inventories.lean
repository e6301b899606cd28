import CodeReview.Proofs.Endings
import CodeReview.Proofs.MemoryVault
import Mathlib.Combinatorics.Pigeonhole

/-!
# What there is at a path

An `Inventory` says of files where a path leads and what is there.  There are finitely many things, and
two paths that end in different names do not lead to the same one.  The paths that a search for a backup
path tries end in different names, so after as many turns as there are things at most, one of them leads
to nothing, and the search takes the first that does (`exists_first_free`).

Making the directory of a path can uncover something there: a way that leads back over a directory
which is not there leads to nothing, until that directory is made.  So of everything that there was
before a backup, what its path leads to by then (`Inventory.uncovered?`) may be lost, and nothing else
(`OverwritesUncovered`).
-/

namespace CodeReview

open Attempt (Ends)

/-- Where paths lead and what is there, for files that can be tested without a change. -/
structure Inventory (σ : Type) [FileAccess σ] where
  /-- Where a thing can be. -/
  Spot : Type
  /-- What can be there. -/
  Thing : Type
  thing? : σ → Spot → Option Thing
  /-- Where a path leads, if there is something. -/
  spot? : σ → Path → Option Spot
  present_run (p : Path) (s : σ) : FileAccess.present p s = .ok (spot? s p).isSome s
  there {s : σ} {p : Path} {x : Spot} : spot? s p = some x → (thing? s x).isSome = true
  /-- Paths that end in different names lead to different spots. -/
  apart {s : σ} {p q : Path} {a b : List Char} : p.EndsIn a → q.EndsIn b → a ≠ b →
    (spot? s p).isSome = true → spot? s p ≠ spot? s q
  finite (s : σ) : ∃ xs : List Spot, (∀ x, (thing? s x).isSome = true → x ∈ xs) ∧
    xs.length ≤ FileAccess.occupied s

namespace Inventory

variable {σ : Type} [FileAccess σ] (inv : Inventory σ)

/-- Spots among which are all those where there is something. -/
def Lists (s : σ) (xs : List inv.Spot) : Prop :=
  ∀ x, (inv.thing? s x).isSome = true → x ∈ xs

/-- Everything that there was is where it was. -/
def Keeps (s t : σ) : Prop :=
  ∀ x y, inv.thing? s x = some y → inv.thing? t x = some y

instance : IsPreorder σ inv.Keeps where
  refl _ _ _ h := h
  trans _ _ _ h h' x y hx := h' x y (h x y hx)

/-- Everything that there was is where it was, what was at `lost` apart. -/
def KeepsBut (lost : Option inv.Spot) (s t : σ) : Prop :=
  ∀ x y, lost ≠ some x → inv.thing? s x = some y → inv.thing? t x = some y

instance (lost : Option inv.Spot) : IsPreorder σ (inv.KeepsBut lost) where
  refl _ _ _ _ h := h
  trans _ _ _ h h' x y hlost hx := h' x y hlost (h x y hlost hx)

variable {inv} in
theorem Keeps.but {s t : σ} (h : inv.Keeps s t) (lost : Option inv.Spot) :
    inv.KeepsBut lost s t :=
  fun x y _ hx => h x y hx

theorem keepsBut_none {s t : σ} : inv.KeepsBut none s t ↔ inv.Keeps s t :=
  ⟨fun h x y hx => h x y (Option.some_ne_none x).symm hx, fun h => h.but none⟩

/-- The files when the directories that a path lies in are made. -/
def prepared (s : σ) (p : Path) : σ :=
  p.parent?.elim s fun dir => (FileAccess.makeDirs dir).endState s

/-- Where a path leads when the directories that it lies in are made, if there is something then. -/
def uncovered? (s : σ) (p : Path) : Option inv.Spot :=
  inv.spot? (prepared s p) p

/-! ## The first free path -/

/-- Of the paths of backups under one number after another, one leads to nothing. -/
theorem exists_free (s : σ) (store : BackupStore) (file : Path) (first : Nat)
    {xs : List inv.Spot} (hxs : inv.Lists s xs) :
    ∃ i ≤ xs.length, inv.spot? s (store.pathOf file (first + i)) = none := by
  classical
  by_contra hall
  push Not at hall
  let spot (i : Nat) := inv.spot? s (store.pathOf file (first + i))
  have hcard : ((xs.map some).toFinset).card < (Finset.range (xs.length + 1)).card := by
    rw [Finset.card_range, ← List.length_map (f := some)]
    exact Nat.lt_succ_of_le (List.toFinset_card_le _)
  have hspot : ∀ i ∈ Finset.range (xs.length + 1), spot i ∈ (xs.map some).toFinset := by
    intro i hi
    obtain ⟨x, hx⟩ := Option.ne_none_iff_exists'.1 (hall i (Finset.mem_range_succ_iff.1 hi))
    rw [List.mem_toFinset, show spot i = some x from hx]
    exact List.mem_map_of_mem (hxs x (inv.there hx))
  obtain ⟨i, hi, j, -, hne, hsame⟩ := Finset.exists_ne_map_eq_of_card_lt_of_maps_to hcard hspot
  -- the two paths end in different numbers
  obtain ⟨v, hv⟩ := store.pathOf_endsIn file (first + i)
  obtain ⟨w, hw⟩ := store.pathOf_endsIn file (first + j)
  refine inv.apart hv hw (fun hname => hne ?_) ?_ hsame
  · exact Nat.add_left_cancel (BackupStore.number_of_ending_eq hname)
  · exact Option.isSome_iff_ne_none.2 (hall i (Finset.mem_range_succ_iff.1 hi))

/-- The first of them is not behind more paths than there are things. -/
theorem exists_first_free (s : σ) (store : BackupStore) (file : Path) (first : Nat) :
    ∃ k, (∀ xs, inv.Lists s xs → k ≤ xs.length) ∧
      (∀ i < k, (inv.spot? s (store.pathOf file (first + i))).isSome = true) ∧
      inv.spot? s (store.pathOf file (first + k)) = none := by
  classical
  obtain ⟨listed, hlisted, -⟩ := inv.finite s
  have hfree : ∃ i, inv.spot? s (store.pathOf file (first + i)) = none := by
    obtain ⟨i, -, hi⟩ := inv.exists_free s store file first hlisted
    exact ⟨i, hi⟩
  refine ⟨Nat.find hfree, fun xs hxs => ?_, fun i hi => ?_, Nat.find_spec hfree⟩
  · obtain ⟨i, hle, hi⟩ := inv.exists_free s store file first hxs
    exact Nat.le_trans (Nat.find_min' hfree hi) hle
  · exact Option.isSome_iff_ne_none.2 (Nat.find_min hfree hi)

end Inventory

/-! ## The search for a path -/

namespace Vault

variable {σ : Type} [FileAccess σ] (inv : Inventory σ)

/-- One turn of a search. -/
theorem freshPathWithin_succ (file : Path) (tries : Nat) (v : Vault σ) :
    freshPathWithin file (tries + 1) v =
      if (inv.spot? v.files (v.store.pathOf file v.store.next)).isSome then
        freshPathWithin file tries (v.skipTo (v.store.next + 1))
      else .ok (v.store.pathOf file v.store.next) (v.skipTo (v.store.next + 1)) := by
  have hreserve : reserve file v =
      .ok (v.store.pathOf file v.store.next) (v.skipTo (v.store.next + 1)) := rfl
  have htest := onFiles_of_ok (v := v.skipTo (v.store.next + 1))
    (inv.present_run (v.store.pathOf file v.store.next) v.files)
  rw [freshPathWithin, Attempt.bind_of_ok hreserve, present, Attempt.bind_of_ok htest]
  split <;> rfl

/-- A search ends in the turn of the first free path, if it has that many turns. -/
theorem freshPathWithin_of_first_free (file : Path) {k tries : Nat} (htries : k < tries)
    (v : Vault σ)
    (hocc : ∀ i < k, (inv.spot? v.files (v.store.pathOf file (v.store.next + i))).isSome = true)
    (hfree : inv.spot? v.files (v.store.pathOf file (v.store.next + k)) = none) :
    freshPathWithin file tries v =
      .ok (v.store.pathOf file (v.store.next + k)) (v.skipTo (v.store.next + k + 1)) := by
  induction k generalizing tries v with
  | zero =>
    obtain ⟨tries, rfl⟩ := Nat.exists_eq_add_one.2 htries
    rw [Nat.add_zero] at hfree ⊢
    rw [freshPathWithin_succ inv, hfree]
    rfl
  | succ k ih =>
    obtain ⟨tries, rfl⟩ := Nat.exists_eq_add_one.2 (Nat.zero_lt_of_lt htries)
    have hnext : ∀ i, v.store.next + (i + 1) = (v.skipTo (v.store.next + 1)).store.next + i :=
      fun i => by simp only [skipTo]; omega
    have hrest := ih (Nat.lt_of_succ_lt_succ htries) (v.skipTo (v.store.next + 1))
      (fun i hi => hnext i ▸ hocc (i + 1) (Nat.succ_lt_succ hi)) (hnext k ▸ hfree)
    have hfirst : (inv.spot? v.files (v.store.pathOf file v.store.next)).isSome = true :=
      hocc 0 (Nat.zero_lt_succ k)
    rw [freshPathWithin_succ inv, hfirst, if_pos rfl, hrest, hnext k]
    rfl

/-- A search for the path of a backup that finds the first `k` paths occupied and the next one free.
It ends with that one, also if it may take any other number of turns that is large enough, and there are
at least `k` things. -/
structure Searches (file : Path) (v : Vault σ) (k : Nat) : Prop where
  occupied : ∀ i < k, (inv.spot? v.files (v.store.pathOf file (v.store.next + i))).isSome = true
  free : inv.spot? v.files (v.store.pathOf file (v.store.next + k)) = none
  bound : ∀ xs, inv.Lists v.files xs → k ≤ xs.length
  within : ∀ tries, k < tries → freshPathWithin file tries v =
    .ok (v.store.pathOf file (v.store.next + k)) (v.skipTo (v.store.next + k + 1))
  run : freshPath file v =
    .ok (v.store.pathOf file (v.store.next + k)) (v.skipTo (v.store.next + k + 1))

theorem exists_searches (file : Path) (v : Vault σ) : ∃ k, Searches inv file v k := by
  obtain ⟨k, hbound, hocc, hfree⟩ := inv.exists_first_free v.files v.store file v.store.next
  have hwithin := fun tries (htries : k < tries) =>
    freshPathWithin_of_first_free inv file htries v hocc hfree
  refine ⟨k, hocc, hfree, hbound, hwithin, ?_⟩
  obtain ⟨xs, hxs, hle⟩ := inv.finite v.files
  rw [freshPath, Attempt.bind_of_ok (Attempt.get_run v)]
  exact hwithin _ (Nat.lt_succ_of_le (Nat.le_trans (hbound xs hxs) hle))

end Vault

/-! ## What a backup overwrites -/

/-- Files in which nothing goes when directories are made, and only what a path leads to when something
is written to it. -/
structure Inventory.Careful {σ : Type} [FileAccess σ] (inv : Inventory σ) : Prop where
  write (s : σ) (p : Path) (text : String) :
    inv.KeepsBut (inv.spot? s p) s ((FileAccess.write p text).endState s)
  makeDirs (s : σ) (p : Path) : inv.Keeps s ((FileAccess.makeDirs p).endState s)

namespace Vault

variable {σ : Type} [FileAccess σ] {inv : Inventory σ} {v : Vault σ}

/-- Everything that there was in the files is where it was, what was at `lost` apart. -/
def KeepsBut (inv : Inventory σ) (lost : Option inv.Spot) (v w : Vault σ) : Prop :=
  inv.KeepsBut lost v.files w.files

instance (lost : Option inv.Spot) : IsPreorder (Vault σ) (KeepsBut inv lost) where
  refl v := refl_of (inv.KeepsBut lost) v.files
  trans _ _ _ h h' := trans_of (inv.KeepsBut lost) h h'

omit [FileAccess σ] in
/-- A call on files leaves the files that it ends in, and everything else as it was. -/
theorem ends_onFiles_self {α : Type} (act : Attempt σ α) (v : Vault σ) :
    (onFiles act).Ends v (fun _ w => w = { v with files := act.endState v.files })
      fun w => w = { v with files := act.endState v.files } := by
  apply ends_onFiles
  unfold Attempt.Ends Attempt.endState
  cases act v.files with
  | ok a files => rfl
  | error e files => rfl

/-- A backup goes to a path if it is written, and whether it is written, fails or crashes, everything
that there was stays, what is uncovered at that path apart. -/
def OverwritesUncovered (inv : Inventory σ) (backup : Path)
    (act : Attempt (Vault σ) (Except ChangeError BackupEntry)) (v : Vault σ) : Prop :=
  act.Ends v (fun a w => KeepsBut inv (inv.uncovered? v.files backup) v w ∧
    ∀ b, a = .ok b → b.backup = backup) (KeepsBut inv (inv.uncovered? v.files backup) v)

/-- A backup is written to a path that led to nothing, and whether it is written, fails or crashes,
everything that there was stays. -/
def OverwritesNothing (inv : Inventory σ)
    (act : Attempt (Vault σ) (Except ChangeError BackupEntry)) (v : Vault σ) : Prop :=
  act.Ends v (fun a w => inv.Keeps v.files w.files ∧
    ∀ b, a = .ok b → inv.spot? v.files b.backup = none) fun w => inv.Keeps v.files w.files

theorem OverwritesUncovered.nothing {backup : Path}
    {act : Attempt (Vault σ) (Except ChangeError BackupEntry)}
    (h : OverwritesUncovered inv backup act v) (hfree : inv.spot? v.files backup = none)
    (huncovered : inv.uncovered? v.files backup = none) : OverwritesNothing inv act v := by
  unfold OverwritesUncovered KeepsBut at h
  simp only [huncovered, inv.keepsBut_none] at h
  refine h.mono ?_ fun _ hw => hw
  rintro a w ⟨hkeeps, hpath⟩
  exact ⟨hkeeps, fun b hb => by rw [hpath b hb, hfree]⟩

theorem overwritesUncovered_writeBackup (h : inv.Careful) (file backup : Path) (contents : String) :
    OverwritesUncovered inv backup (writeBackup file backup contents) v := by
  have hwrite : ∀ u : Vault σ, KeepsBut inv (inv.uncovered? v.files backup) v u →
      u.files = Inventory.prepared v.files backup →
      KeepsBut inv (inv.uncovered? v.files backup) v
        { u with files := (FileAccess.write backup contents).endState u.files } := by
    intro u hu hprepared
    refine trans_of (KeepsBut inv _) hu ?_
    rw [Inventory.uncovered?, ← hprepared]
    exact h.write u.files backup contents
  unfold writeBackup
  rcases hdir : backup.parent? with _ | dir
  case' none =>
    have hwritten := hwrite v (refl_of (KeepsBut inv _) v)
      (by rw [Inventory.prepared, hdir, Option.elim_none])
  case' some =>
    have hmade : KeepsBut inv (inv.uncovered? v.files backup) v
        { v with files := (FileAccess.makeDirs dir).endState v.files } :=
      (h.makeDirs v.files dir).but _
    have hwritten := hwrite _ hmade (by rw [Inventory.prepared, hdir, Option.elim_some])
    apply Ends.bind
    refine (ends_onFiles_self (FileAccess.makeDirs dir) v).mono ?_ fun w hw => hw ▸ hmade
    rintro (cause | _) u rfl
    · exact Attempt.ends_pure ⟨hmade, fun b hb => by cases hb⟩
  all_goals
    apply Ends.bind
    refine (ends_onFiles_self (FileAccess.write backup contents) _).mono ?_ fun w hw => hw ▸ hwritten
    rintro (cause | _) w rfl
    · exact Attempt.ends_pure ⟨hwritten, fun b hb => by cases hb⟩
    · exact Attempt.ends_of_ok rfl ⟨hwritten, fun b hb => by cases hb; rfl⟩

theorem overwritesUncovered_takeBackup (h : inv.Careful) {file : Path} (contents : String) {k : Nat}
    (hsearch : Searches inv file v k) :
    OverwritesUncovered inv (v.store.pathOf file (v.store.next + k)) (takeBackup file contents) v := by
  apply Ends.bind
  apply Attempt.ends_of_ok hsearch.run
  exact overwritesUncovered_writeBackup (v := v.skipTo (v.store.next + k + 1)) h file _ contents

theorem overwritesUncovered_create (h : inv.Careful) {file : Path} (contents : String) {k : Nat}
    (hsearch : Searches inv file v k) :
    OverwritesUncovered inv (v.store.pathOf file (v.store.next + k)) (create file contents) v := by
  apply Ends.bind
  refine (overwritesUncovered_takeBackup h contents hsearch).mono ?_ fun _ hw => hw
  rintro (e | b) w hw
  · exact Attempt.ends_pure hw
  · exact Attempt.ends_of_ok rfl hw

end Vault

/-! ## Files in memory -/

namespace MemoryFiles

/-- The files in memory by what their paths denote. -/
def inventory : Inventory MemoryFiles where
  Spot := List (List Nat)
  Thing := String
  thing? m x := (m.files.entries.find? fun e => e.1.key = x).map Prod.snd
  spot? m p := if m.files.contains p then some p.key else none
  present_run p m := by
    rw [present_run]
    cases m.files.contains p <;> rfl
  there {m p x} h := by
    split at h
    · next hthere =>
      cases h
      exact hthere
    · cases h
  apart {m p q a b} ha hb hne hsome hsame := by
    have hp : m.files.contains p = true := by
      by_contra hnot
      rw [if_neg hnot] at hsome
      cases hsome
    rw [if_pos hp] at hsame
    by_cases hq : m.files.contains q = true
    · rw [if_pos hq] at hsame
      exact hne (Path.name_eq_of_key_eq ha hb (Option.some.inj hsame))
    · rw [if_neg hq] at hsame
      cases hsame
  finite m := by
    refine ⟨m.files.keys.map Path.key, fun x hx => ?_, ?_⟩
    · rw [Option.isSome_map, List.find?_isSome] at hx
      obtain ⟨e, he, hkey⟩ := hx
      refine List.mem_map.2 ⟨e.1, List.mem_map_of_mem he, by simpa using hkey⟩
    · rw [List.length_map, OrderedMap.keys, List.length_map]
      exact Nat.le_refl m.files.size

/-- Writing to a path keeps the files that other paths denote, and no directories are made. -/
theorem careful : inventory.Careful where
  write m p text x y hlost hx := by
    change inventory.thing? (m.put p text).2 x = some y
    by_cases hprotected : m.writeProtected.contains p = true
    · rwa [put_of_refused text hprotected]
    · rw [put_of_accepted text (by simpa using hprotected)]
      obtain ⟨e, he, rfl⟩ := Option.map_eq_some_iff.1 hx
      -- something is there under the path of an entry
      have hkey : e.1.key = x := by simpa using List.find?_some he
      subst hkey
      refine (contents?_withFile m p e.1 text).trans ?_
      rw [if_neg, ← hx]
      · rfl
      · intro hsame
        have hthere : m.files.contains p = true := by
          rw [contains_eq, m.contents?_congr hsame]
          exact Option.isSome_iff_exists.2 ⟨_, hx⟩
        exact hlost ((if_pos hthere).trans (congrArg some hsame))
  makeDirs m p x y hx := hx

theorem uncovered?_eq (m : MemoryFiles) (p : Path) :
    inventory.uncovered? m p = inventory.spot? m p := by
  unfold Inventory.uncovered? Inventory.prepared
  cases p.parent? <;> rfl

end MemoryFiles

end CodeReview
