import CodeReview.Proofs.Retention

/-!
# The oldest backups go first

Which backups a store drops can be told in one pass: as many of the unprotected ones as there are too
many, from the oldest on (`BackupStore.expired`).  A store looks for them one after the other, each
time from the start; as long as no backup occurs twice this comes to the same
(`dropOldest_eq`).  So no protected backup goes, no older one is passed over for the sake of a newer
one, no more go than have to, and too many stay only if all of them are protected
(`enforceLimit_drops_oldest`).
-/

namespace CodeReview

namespace BackupStore

/-! ## One after the other -/

section DropOldest

variable {droppable : BackupEntry → Bool} {es : List BackupEntry} {e : BackupEntry}

theorem filter_eq_cons_of_find? (h : es.find? droppable = some e) :
    es.filter droppable = e :: (es.eraseP droppable).filter droppable := by
  induction es with
  | nil => cases h
  | cons x es ih =>
    by_cases hx : droppable x = true
    · rw [List.find?_cons_of_pos hx] at h
      rw [List.filter_cons_of_pos hx, List.eraseP_cons_of_pos hx, Option.some.inj h]
    · rw [List.find?_cons_of_neg hx] at h
      rw [List.filter_cons_of_neg hx, List.eraseP_cons_of_neg hx, List.filter_cons_of_neg hx, ih h]

theorem eraseP_eq_filter_of_find? (hnodup : es.Nodup) (h : es.find? droppable = some e) :
    es.eraseP droppable = es.filter fun x => x ≠ e := by
  induction es with
  | nil => cases h
  | cons x es ih =>
    obtain ⟨hx, hes⟩ := List.nodup_cons.1 hnodup
    by_cases hdrop : droppable x = true
    · rw [List.find?_cons_of_pos hdrop] at h
      obtain rfl := Option.some.inj h
      have hothers : ∀ y ∈ es, decide (y ≠ x) = true := fun y hy =>
        decide_eq_true fun hyx => hx (hyx ▸ hy)
      rw [List.eraseP_cons_of_pos hdrop, List.filter_cons_of_neg (by simp),
        List.filter_eq_self.2 hothers]
    · rw [List.find?_cons_of_neg hdrop] at h
      have hxe : x ≠ e := fun hxe => hx (hxe ▸ List.mem_of_find?_eq_some h)
      rw [List.eraseP_cons_of_neg hdrop, List.filter_cons_of_pos (by simpa using hxe), ih hes h]

/-- To drop one after the other is to drop the first of those that may be dropped. -/
theorem dropOldest_eq (excess : Nat) (hnodup : es.Nodup) :
    dropOldest droppable excess es = ((es.filter droppable).take excess,
      es.filter fun e => e ∉ (es.filter droppable).take excess) := by
  induction excess generalizing es with
  | zero => simp [dropOldest]
  | succ excess ih =>
    rw [dropOldest]
    cases hfind : es.find? droppable with
    | none =>
      have hnone : es.filter droppable = [] := by
        rw [List.filter_eq_nil_iff]
        exact List.find?_eq_none.1 hfind
      simp [hnone]
    | some e =>
      simp only [filter_eq_cons_of_find? hfind, List.take_succ_cons,
        ih (hnodup.sublist List.eraseP_sublist)]
      rw [eraseP_eq_filter_of_find? hnodup hfind]
      simp only [List.filter_filter, List.mem_cons, not_or, Bool.decide_and, Bool.and_comm]

end DropOldest

/-! ## In one pass -/

/-- What comes before one of the first items of a list is one of them too. -/
theorem mem_take_of_pair_sublist {α : Type} {as : List α} {a b : α} {k : Nat} (hnodup : as.Nodup)
    (hpair : [a, b].Sublist as) (hb : b ∈ as.take k) : a ∈ as.take k := by
  rw [← List.take_append_drop k as, List.sublist_append_iff] at hpair
  obtain ⟨front, back, hsplit, hfront, hback⟩ := hpair
  cases front with
  | nil =>
    obtain rfl : [a, b] = back := hsplit
    have hlate : b ∈ as.drop k := hback.subset (by simp)
    exact absurd hlate (List.disjoint_take_drop hnodup (Nat.le_refl k) hb)
  | cons x front =>
    obtain rfl : a = x := (List.cons.inj hsplit).1
    exact hfront.subset List.mem_cons_self

/-- Whether a backup is one of the protected ones. -/
def IsProtected (guarded : List Path) (e : BackupEntry) : Prop :=
  ∃ p ∈ guarded, p.key = e.backup.key

instance (guarded : List Path) : DecidablePred (IsProtected guarded) :=
  fun e => inferInstanceAs (Decidable (∃ p ∈ guarded, p.key = e.backup.key))

/-- The backups that may go. -/
def unprotected (s : BackupStore) (guarded : List Path) : List BackupEntry :=
  s.entries.filter fun e => ¬ IsProtected guarded e

/-- The backups that have to go: the oldest of those that may, as many as there are too many. -/
def expired (s : BackupStore) (guarded : List Path) : List BackupEntry :=
  if s.limit = 0 ∨ s.entries.length ≤ s.limit then []
  else
    let free := s.unprotected guarded
    free.take (min (s.entries.length - s.limit) free.length)

/-- The other ones. -/
def remaining (s : BackupStore) (guarded : List Path) : List BackupEntry :=
  s.entries.filter fun e => e ∉ s.expired guarded

/-- What it is to drop the oldest backups that may be dropped, and no more than is needed. -/
structure DropsOldest (s : BackupStore) (guarded : List Path) (gone stay : List BackupEntry) :
    Prop where
  spared : ∀ e ∈ gone, ¬ IsProtected guarded e
  oldest : ∀ older newer, [older, newer].Sublist s.entries → newer ∈ gone → older ∈ stay →
    IsProtected guarded older
  needed : gone ≠ [] → s.limit ≤ stay.length
  enough : s.limit ≠ 0 → s.limit < stay.length → ∀ e ∈ stay, IsProtected guarded e

variable {s : BackupStore} {guarded : List Path}

theorem filter_mayDrop (s : BackupStore) (guarded : List Path) :
    s.entries.filter (mayDrop guarded) = s.unprotected guarded := by
  refine List.filter_congr fun e _ => ?_
  rw [Bool.eq_iff_iff]
  simp [mayDrop, IsProtected, Path.same_iff]

theorem mem_unprotected {e : BackupEntry} :
    e ∈ s.unprotected guarded ↔ e ∈ s.entries ∧ ¬ IsProtected guarded e := by
  simp [unprotected]

theorem expired_sublist (s : BackupStore) (guarded : List Path) :
    (s.expired guarded).Sublist (s.unprotected guarded) := by
  unfold expired
  split
  · exact List.nil_sublist _
  · exact List.take_sublist _ _

theorem sortOut_eq (hnodup : s.entries.Nodup) :
    s.sortOut guarded = (s.expired guarded, s.remaining guarded) := by
  unfold sortOut remaining expired
  by_cases hlimit : s.limit = 0
  · simp [hlimit]
  · rw [if_neg hlimit, dropOldest_eq _ hnodup, filter_mayDrop]
    by_cases hwithin : s.entries.length ≤ s.limit
    · simp [hwithin, Nat.sub_eq_zero_of_le hwithin]
    · rw [if_neg (not_or.2 ⟨hlimit, hwithin⟩), ← List.take_eq_take_min]

/-- What goes and what stays are all backups. -/
theorem length_remaining (hnodup : s.entries.Nodup) :
    (s.expired guarded).length + (s.remaining guarded).length = s.entries.length := by
  have hperm := (s.sortOut_perm guarded).length_eq
  rwa [sortOut_eq hnodup, List.length_append] at hperm

/-- Of two backups that may go the newer one does not go before the older one. -/
theorem mem_expired_of_older {older newer : BackupEntry} (hnodup : s.entries.Nodup)
    (horder : [older, newer].Sublist s.entries) (holder : ¬ IsProtected guarded older)
    (hgone : newer ∈ s.expired guarded) : older ∈ s.expired guarded := by
  have hnewer := (mem_unprotected.1 ((expired_sublist s guarded).subset hgone)).2
  have hpair : [older, newer].Sublist (s.unprotected guarded) := by
    have hfiltered := horder.filter fun e => decide (¬ IsProtected guarded e)
    rwa [List.filter_eq_self.2 (by simp [holder, hnewer])] at hfiltered
  have hnodupFree : (s.unprotected guarded).Nodup := hnodup.sublist List.filter_sublist
  unfold expired at hgone ⊢
  split at hgone
  · cases hgone
  · next hover =>
    rw [if_neg hover]
    exact mem_take_of_pair_sublist hnodupFree hpair hgone

theorem length_expired (s : BackupStore) (guarded : List Path) :
    (s.expired guarded).length ≤ s.entries.length - s.limit := by
  unfold expired
  split
  · exact Nat.zero_le _
  · rw [List.length_take]
    omega

/-- Fewer go than there are too many only if no other one may go. -/
theorem mem_expired_of_length_lt {e : BackupEntry} (he : e ∈ s.entries)
    (hfree : ¬ IsProtected guarded e) (hlimit : s.limit ≠ 0)
    (hfew : (s.expired guarded).length < s.entries.length - s.limit) : e ∈ s.expired guarded := by
  have hmem : e ∈ s.unprotected guarded := mem_unprotected.2 ⟨he, hfree⟩
  unfold expired at hfew ⊢
  rw [if_neg (by omega)] at hfew ⊢
  rw [List.length_take] at hfew
  rwa [List.take_of_length_le (by omega)]

theorem dropsOldest (hnodup : s.entries.Nodup) :
    DropsOldest s guarded (s.expired guarded) (s.remaining guarded) := by
  have hlength : (s.expired guarded).length + (s.remaining guarded).length = s.entries.length :=
    length_remaining hnodup
  have hstay : ∀ e ∈ s.remaining guarded, e ∈ s.entries ∧ e ∉ s.expired guarded := by
    simp [remaining]
  refine ⟨fun e he => ?_, fun older newer horder hgone holder => ?_, fun hne => ?_,
    fun hlimit hover e he => ?_⟩
  · exact (mem_unprotected.1 ((expired_sublist s guarded).subset he)).2
  · by_contra hfree
    exact (hstay older holder).2 (mem_expired_of_older hnodup horder hfree hgone)
  · have hpos := List.length_pos_iff.2 hne
    have hle := s.length_expired guarded
    omega
  · by_contra hfree
    obtain ⟨hmem, hkept⟩ := hstay e he
    exact hkept (mem_expired_of_length_lt hmem hfree hlimit (by omega))

/-- Enforcing the limit drops the backups that have to go and keeps all others, each in their order; it
changes nothing else of the store. -/
theorem enforceLimit_drops_oldest (s : BackupStore) (guarded : List Path)
    (hdistinct : s.entries.Pairwise fun d e => d.backup.key ≠ e.backup.key) :
    s.enforceLimit guarded = ((s.expired guarded).map BackupEntry.backup,
        { s with entries := s.remaining guarded }) ∧
      DropsOldest s guarded (s.expired guarded) (s.remaining guarded) := by
  have hnodup : s.entries.Nodup :=
    hdistinct.imp fun hne heq => hne (congrArg (fun e => e.backup.key) heq)
  refine ⟨?_, dropsOldest hnodup⟩
  rw [enforceLimit_eq, sortOut_eq hnodup]

/-- Five backups, two of them protected, of which three are too many. -/
def fiveBackups : BackupStore :=
  { BackupStore.new ⟨"/b"⟩ 2 (fun _ => "") with
    entries := ["/b/1", "/b/2", "/b/3", "/b/4", "/b/5"].map fun text => ⟨⟨"a"⟩, ⟨text⟩, ""⟩ }

theorem enforceLimit_drops_oldest_of_fiveBackups :
    (fiveBackups.entries.Pairwise fun d e => d.backup.key ≠ e.backup.key) ∧
      (fiveBackups.enforceLimit [⟨"/b//1"⟩, ⟨"/b/4"⟩]).1 = [⟨"/b/2"⟩, ⟨"/b/3"⟩, ⟨"/b/5"⟩] ∧
      DropsOldest fiveBackups [⟨"/b//1"⟩, ⟨"/b/4"⟩] (fiveBackups.expired [⟨"/b//1"⟩, ⟨"/b/4"⟩])
        (fiveBackups.remaining [⟨"/b//1"⟩, ⟨"/b/4"⟩]) := by
  have hdistinct : fiveBackups.entries.Pairwise fun d e => d.backup.key ≠ e.backup.key := by decide
  obtain ⟨hdropped, holdest⟩ :=
    enforceLimit_drops_oldest fiveBackups [⟨"/b//1"⟩, ⟨"/b/4"⟩] hdistinct
  refine ⟨hdistinct, ?_, holdest⟩
  rw [hdropped]
  decide

end BackupStore

end CodeReview
