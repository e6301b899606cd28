import CodeReview.Backup
import CodeReview.Proofs.BackupNames
import Mathlib.Data.List.Perm.Subperm

/-!
# Keeping the number of backups within the limit

Which backups are dropped and which are kept.  Both parts together are the backups there were; the
kept ones stand in their order, and a protected one is never dropped.  No more are kept than the limit
says, unless more are protected (`kept_length_le`).
-/

namespace CodeReview

namespace BackupStore

/-! ## Dropping the oldest -/

variable (droppable : BackupEntry → Bool)

/-- The first entry that may be dropped and the others are all entries. -/
theorem cons_eraseP_perm {es : List BackupEntry} {e : BackupEntry}
    (h : es.find? droppable = some e) : (e :: es.eraseP droppable).Perm es := by
  induction es with
  | nil => cases h
  | cons x es ih =>
    by_cases hx : droppable x = true
    · simp only [List.find?_cons_of_pos hx, Option.some.injEq] at h
      rw [List.eraseP_cons_of_pos hx, h]
    · rw [List.find?_cons_of_neg hx] at h
      rw [List.eraseP_cons_of_neg hx]
      exact (List.Perm.swap x e _).trans ((ih h).cons x)

theorem dropOldest_perm (excess : Nat) (es : List BackupEntry) :
    ((dropOldest droppable excess es).1 ++ (dropOldest droppable excess es).2).Perm es := by
  induction excess generalizing es with
  | zero => exact List.Perm.refl es
  | succ excess ih =>
    simp only [dropOldest]
    cases h : es.find? droppable with
    | none => exact List.Perm.refl es
    | some e => exact ((ih _).cons e).trans (cons_eraseP_perm droppable h)

theorem dropOldest_kept_sublist (excess : Nat) (es : List BackupEntry) :
    (dropOldest droppable excess es).2.Sublist es := by
  induction excess generalizing es with
  | zero => exact List.Sublist.refl es
  | succ excess ih =>
    simp only [dropOldest]
    cases es.find? droppable with
    | none => exact List.Sublist.refl es
    | some e => exact (ih _).trans List.eraseP_sublist

theorem droppable_of_mem_dropOldest {excess : Nat} {es : List BackupEntry} {e : BackupEntry}
    (h : e ∈ (dropOldest droppable excess es).1) : droppable e = true := by
  induction excess generalizing es with
  | zero => cases h
  | succ excess ih =>
    simp only [dropOldest] at h
    cases hf : es.find? droppable with
    | none => simp [hf] at h
    | some x =>
      rw [hf] at h
      rcases List.mem_cons.1 h with rfl | h
      · exact List.find?_some hf
      · exact ih h

/-- Dropping goes on until enough are dropped, or only those are left that may not be. -/
theorem dropOldest_kept_length_le (excess : Nat) (es : List BackupEntry) :
    (dropOldest droppable excess es).2.length ≤
      max (es.length - excess) (es.countP fun e => !droppable e) := by
  induction excess generalizing es with
  | zero => exact Nat.le_max_left _ _
  | succ excess ih =>
    simp only [dropOldest]
    cases h : es.find? droppable with
    | none =>
      have hall : (es.countP fun e => !droppable e) = es.length := by
        refine List.countP_eq_length.2 fun e he => ?_
        simpa using List.find?_eq_none.1 h e he
      exact hall ▸ Nat.le_max_right _ _
    | some e =>
      have hperm := cons_eraseP_perm droppable h
      have hlength : (es.eraseP droppable).length + 1 = es.length := hperm.length_eq
      have hcount : ((es.eraseP droppable).countP fun e => !droppable e) =
          es.countP fun e => !droppable e := by
        rw [← hperm.countP_eq, List.countP_cons, List.find?_some h]
        rfl
      have hkept := ih (es.eraseP droppable)
      rw [hcount] at hkept
      simp only
      omega

/-! ## Enforcing the limit -/

/-- The entries that enforcing the limit drops and those that it keeps. -/
def sortOut (s : BackupStore) (guarded : List Path) : List BackupEntry × List BackupEntry :=
  if s.limit = 0 then ([], s.entries)
  else dropOldest (mayDrop guarded) (s.entries.length - s.limit) s.entries

theorem enforceLimit_eq (s : BackupStore) (guarded : List Path) :
    s.enforceLimit guarded = ((s.sortOut guarded).1.map BackupEntry.backup,
      { s with entries := (s.sortOut guarded).2 }) := by
  unfold enforceLimit sortOut
  split <;> rfl

theorem sortOut_perm (s : BackupStore) (guarded : List Path) :
    ((s.sortOut guarded).1 ++ (s.sortOut guarded).2).Perm s.entries := by
  unfold sortOut
  split
  · exact List.Perm.refl _
  · exact dropOldest_perm _ _ _

theorem kept_sublist (s : BackupStore) (guarded : List Path) :
    (s.sortOut guarded).2.Sublist s.entries := by
  unfold sortOut
  split
  · exact List.Sublist.refl _
  · exact dropOldest_kept_sublist _ _ _

theorem sortOut_of_unlimited {s : BackupStore} (h : s.limit = 0) (guarded : List Path) :
    s.sortOut guarded = ([], s.entries) := by
  simp [sortOut, h]

/-- A dropped entry was kept track of, and its path is none of the protected ones. -/
theorem mem_dropped {s : BackupStore} {guarded : List Path} {e : BackupEntry}
    (h : e ∈ (s.sortOut guarded).1) :
    e ∈ s.entries ∧ ∀ p ∈ guarded, p.same e.backup = false := by
  refine ⟨(s.sortOut_perm guarded).mem_iff.1 (List.mem_append_left _ h), ?_⟩
  intro p hp
  unfold sortOut at h
  split at h
  · cases h
  · have hmay := droppable_of_mem_dropOldest _ h
    simp only [mayDrop, Bool.not_eq_true', List.any_eq_false] at hmay
    simpa using hmay p hp

theorem mem_kept_of_guarded {s : BackupStore} {guarded : List Path} {e : BackupEntry} {p : Path}
    (he : e ∈ s.entries) (hp : p ∈ guarded) (hsame : p.same e.backup = true) :
    e ∈ (s.sortOut guarded).2 := by
  rcases List.mem_append.1 ((s.sortOut_perm guarded).mem_iff.2 he) with hd | hk
  · exact absurd ((mem_dropped hd).2 p hp) (by simp [hsame])
  · exact hk

/-- Of backups with different paths no more are protected than there are protected paths. -/
theorem countP_guarded_le {es : List BackupEntry} {guarded : List Path}
    (hdistinct : es.Pairwise fun d e => d.backup.key ≠ e.backup.key) :
    (es.countP fun e => !mayDrop guarded e) ≤ guarded.length := by
  rw [List.countP_eq_length_filter]
  let kept := es.filter fun e => !mayDrop guarded e
  have hnodup : (kept.map fun e => e.backup.key).Nodup :=
    List.pairwise_map.2 (hdistinct.sublist List.filter_sublist)
  have hsub : (kept.map fun e => e.backup.key) ⊆ guarded.map Path.key := by
    intro x hx
    obtain ⟨e, he, rfl⟩ := List.mem_map.1 hx
    obtain ⟨-, hguarded⟩ := List.mem_filter.1 he
    simp only [mayDrop, Bool.not_not, List.any_eq_true] at hguarded
    obtain ⟨p, hp, hsame⟩ := hguarded
    exact List.mem_map.2 ⟨p, hp, Path.same_iff.1 hsame⟩
  simpa [kept] using (List.subperm_of_subset hnodup hsub).length_le

/-- With a limit, no more backups are kept than it says, unless more are protected. -/
theorem kept_length_le {s : BackupStore} {guarded : List Path} (hlimit : s.limit ≠ 0)
    (hdistinct : s.entries.Pairwise fun d e => d.backup.key ≠ e.backup.key) :
    (s.sortOut guarded).2.length ≤ max s.limit guarded.length := by
  have hkept := dropOldest_kept_length_le (mayDrop guarded) (s.entries.length - s.limit) s.entries
  have hguarded : (s.entries.countP fun e => !mayDrop guarded e) ≤ guarded.length :=
    countP_guarded_le hdistinct
  rw [sortOut, if_neg hlimit]
  by_cases hwithin : s.entries.length ≤ s.limit
  · have hsub := (dropOldest_kept_sublist (mayDrop guarded) (s.entries.length - s.limit)
      s.entries).length_le
    omega
  · omega

end BackupStore

end CodeReview
