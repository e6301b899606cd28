import CodeReview.Change.Manager
import CodeReview.Proofs.BackupNames
import Mathlib.Data.List.Perm.Basic

/-!
# The order of a batch

A batch is applied group by group, a group being the requests for one file, and from the bottom of
each file upwards.  This is the requests in one order, sorted in such a way that requests for one line
stay as they were put in (`batchOrder_eq_mergeSort`).  It leaves nothing out and repeats nothing
(`batchOrder_perm`), and of two requests for one file the one further down comes first
(`batchOrder_descending`).
-/

namespace CodeReview

/-! ## Sorting that keeps ties in order -/

section Ties

variable {α : Type} {le : α → α → Bool}

/-- Whether neither of two items has to come before the other. -/
def tied (le : α → α → Bool) (a b : α) : Bool :=
  le a b && le b a

/-- Sorting leaves items that are all tied as they stand. -/
theorem filter_mergeSort_of_tied (htrans : ∀ a b c, le a b = true → le b c = true → le a c = true)
    (htotal : ∀ a b, (le a b || le b a) = true) (l : List α) {p : α → Bool}
    (hp : ∀ a b, p a = true → p b = true → le a b = true) :
    (l.mergeSort le).filter p = l.filter p := by
  have hsorted : (l.filter p).Pairwise fun a b => le a b = true := by
    refine List.pairwise_of_forall_mem_list ?_
    intro a ha b hb
    exact hp a b (List.mem_filter.1 ha).2 (List.mem_filter.1 hb).2
  have hsub := (List.sublist_mergeSort htrans htotal hsorted List.filter_sublist).filter p
  rw [List.filter_filter, funext (f := fun a => p a && p a) (g := p) fun a => Bool.and_self (p a)]
    at hsub
  exact (hsub.eq_of_length ((List.mergeSort_perm l le).filter p).length_eq.symm).symm

/-- Two sorted lists that have tied items in the same order are the same. -/
theorem eq_of_sorted_of_ties (hrefl : ∀ a, le a a = true) {l₁ l₂ : List α}
    (h₁ : l₁.Pairwise fun a b => le a b = true) (h₂ : l₂.Pairwise fun a b => le a b = true)
    (hties : ∀ a, l₁.filter (tied le a) = l₂.filter (tied le a)) : l₁ = l₂ := by
  have hself : ∀ a, tied le a a = true := by simp [tied, hrefl]
  have hmem : ∀ {l l' : List α}, (∀ a, l.filter (tied le a) = l'.filter (tied le a)) →
      ∀ a ∈ l, a ∈ l' := by
    intro l l' h a ha
    have hfound : a ∈ l.filter (tied le a) := List.mem_filter.2 ⟨ha, hself a⟩
    rw [h a] at hfound
    exact (List.mem_filter.1 hfound).1
  induction l₁ generalizing l₂ with
  | nil =>
    cases l₂ with
    | nil => rfl
    | cons y ys => cases hmem (fun a => (hties a).symm) y List.mem_cons_self
  | cons x xs ih =>
    cases l₂ with
    | nil => cases hmem hties x List.mem_cons_self
    | cons y ys =>
      obtain ⟨hx, hxs⟩ := List.pairwise_cons.1 h₁
      obtain ⟨hy, hys⟩ := List.pairwise_cons.1 h₂
      -- the two heads come before each other, so they are tied and lead one and the same filter
      have hxy : le x y = true := by
        rcases List.mem_cons.1 (hmem (fun a => (hties a).symm) y List.mem_cons_self) with rfl | h
        · exact hrefl y
        · exact hx y h
      have hyx : le y x = true := by
        rcases List.mem_cons.1 (hmem hties x List.mem_cons_self) with rfl | h
        · exact hrefl x
        · exact hy x h
      have hhead := hties x
      rw [List.filter_cons_of_pos (hself x), List.filter_cons_of_pos (by simp [tied, hxy, hyx])]
        at hhead
      obtain rfl := (List.cons.inj hhead).1
      refine congrArg (x :: ·) (ih hxs hys ?_)
      intro a
      have ha := hties a
      simp only [List.filter_cons] at ha
      split at ha
      · exact (List.cons.inj ha).2
      · exact ha

end Ties

namespace Manager

/-! ## Groups -/

/-- Put a request into the group of its file. -/
def addToGroup (groups : OrderedMap Path (List ChangeRequest)) (q : ChangeRequest) :
    OrderedMap Path (List ChangeRequest) :=
  groups.update q.file fun qs => qs.getD [] ++ [q]

def groupsOf (qs : List ChangeRequest) : OrderedMap Path (List ChangeRequest) :=
  qs.foldl addToGroup ∅

theorem batchOrder_eq (qs : List ChangeRequest) :
    batchOrder qs = (groupsOf qs).values.flatMap fun qs => qs.mergeSort fun a b => b.line ≤ a.line :=
  rfl

/-- The group of a file has the requests for it in the order in which they were put in. -/
theorem find?_groupsOf (qs : List ChangeRequest) (p : Path) :
    ((groupsOf qs).find? p).getD [] = qs.filter fun q => q.file.same p := by
  have hfold : ∀ groups : OrderedMap Path (List ChangeRequest),
      ((qs.foldl addToGroup groups).find? p).getD [] =
        (groups.find? p).getD [] ++ qs.filter fun q => q.file.same p := by
    induction qs with
    | nil => simp
    | cons q qs ih =>
      intro groups
      rw [List.foldl_cons, ih, addToGroup, OrderedMap.find?_update, Path.keyed_key, Path.keyed_key]
      by_cases hq : q.file.key = p.key
      · have hsame : q.file.same p = true := Path.same_iff.2 hq
        rw [if_pos hq, groups.find?_congr (k := q.file) hq]
        simp [hsame]
      · have hother : q.file.same p = false := by simp [Path.same, hq]
        rw [if_neg hq]
        simp [hother]
  exact hfold ∅

/-- Every request of a group is for the file that the group stands under. -/
def Grouped (groups : OrderedMap Path (List ChangeRequest)) : Prop :=
  ∀ e ∈ groups.entries, ∀ q ∈ e.2, q.file.key = e.1.key

theorem grouped_addToGroup {groups : OrderedMap Path (List ChangeRequest)} (h : Grouped groups)
    (q : ChangeRequest) : Grouped (addToGroup groups q) := by
  have hentries : ∀ es : List (Path × List ChangeRequest),
      (∀ e ∈ es, ∀ q ∈ e.2, q.file.key = e.1.key) →
      ∀ e ∈ OrderedMap.updateEntries q.file (fun qs => qs.getD [] ++ [q]) es,
        ∀ q ∈ e.2, q.file.key = e.1.key := by
    intro es
    induction es with
    | nil => simp [OrderedMap.updateEntries]
    | cons e es ih =>
      intro hes
      obtain ⟨he, hrest⟩ := List.forall_mem_cons.1 hes
      simp only [OrderedMap.updateEntries]
      split
      · exact List.forall_mem_cons.2 ⟨by simp, hes⟩
      · split
        · next heq =>
          refine List.forall_mem_cons.2 ⟨?_, hrest⟩
          intro x hx
          rcases List.mem_append.1 hx with hold | hnew
          · exact he x hold
          · rw [List.mem_singleton.1 hnew]
            exact heq.symm
        · exact List.forall_mem_cons.2 ⟨he, ih hrest⟩
  exact hentries groups.entries h

theorem grouped_groupsOf (qs : List ChangeRequest) : Grouped (groupsOf qs) := by
  have hfold : ∀ groups : OrderedMap Path (List ChangeRequest), Grouped groups →
      Grouped (qs.foldl addToGroup groups) := by
    induction qs with
    | nil => exact fun _ h => h
    | cons q qs ih => exact fun groups h => ih _ (grouped_addToGroup h q)
  exact hfold ∅ fun e he => by cases he

/-- The requests for a file are found in its group and nowhere else. -/
theorem filter_values_flatten {groups : OrderedMap Path (List ChangeRequest)} (h : Grouped groups)
    (p : Path) :
    (groups.values.flatten.filter fun q => q.file.same p) = (groups.find? p).getD [] := by
  have hentries : ∀ es : List (Path × List ChangeRequest),
      es.Pairwise (fun a b => key a.1 < key b.1) → (∀ e ∈ es, ∀ q ∈ e.2, q.file.key = e.1.key) →
      ((es.map Prod.snd).flatten.filter fun q => q.file.same p) =
        (OrderedMap.valueIn p es).getD [] := by
    intro es
    induction es with
    | nil => intro _ _; rfl
    | cons e es ih =>
      intro hsorted hes
      obtain ⟨hlt, hsorted⟩ := List.pairwise_cons.1 hsorted
      obtain ⟨he, hrest⟩ := List.forall_mem_cons.1 hes
      rw [List.map_cons, List.flatten_cons, List.filter_append, ih hsorted hrest,
        OrderedMap.valueIn_cons, Path.keyed_key, Path.keyed_key]
      by_cases hp : e.1.key = p.key
      · have hall : e.2.filter (fun q => q.file.same p) = e.2 := by
          refine List.filter_eq_self.2 ?_
          intro q hq
          exact Path.same_iff.2 ((he q hq).trans hp)
        have hnone : OrderedMap.valueIn p es = none := by
          refine OrderedMap.valueIn_eq_none ?_
          intro d hd
          have hd := hlt d hd
          rwa [Path.keyed_key, hp] at hd
        rw [if_pos hp, hall, hnone]
        simp
      · have hnone : e.2.filter (fun q => q.file.same p) = [] := by
          refine List.filter_eq_nil_iff.2 ?_
          intro q hq hsame
          exact hp ((he q hq).symm.trans (Path.same_iff.1 hsame))
        rw [if_neg hp, hnone, List.nil_append]
  exact hentries groups.entries groups.sorted h

/-! ## The order -/

/-- Whether a request may come before another one in a batch: it is for an earlier file, or for the
same file and not above the other one. -/
def precedes (a b : ChangeRequest) : Bool :=
  a.file.key < b.file.key || (a.file.key = b.file.key && b.line ≤ a.line)

theorem precedes_iff {a b : ChangeRequest} : precedes a b = true ↔
    a.file.key < b.file.key ∨ a.file.key = b.file.key ∧ b.line ≤ a.line := by
  simp [precedes]

theorem precedes_trans (a b c : ChangeRequest) (hab : precedes a b = true)
    (hbc : precedes b c = true) : precedes a c = true := by
  rw [precedes_iff] at *
  rcases hab with hab | ⟨hab, hline⟩
  · rcases hbc with hbc | ⟨hbc, -⟩
    · exact Or.inl (List.lt_trans hab hbc)
    · exact Or.inl (hbc ▸ hab)
  · rcases hbc with hbc | ⟨hbc, hline'⟩
    · exact Or.inl (hab ▸ hbc)
    · exact Or.inr ⟨hab.trans hbc, Nat.le_trans hline' hline⟩

theorem precedes_total (a b : ChangeRequest) : (precedes a b || precedes b a) = true := by
  rw [Bool.or_eq_true, precedes_iff, precedes_iff]
  by_cases hlt : a.file.key < b.file.key
  · exact Or.inl (Or.inl hlt)
  · by_cases heq : b.file.key = a.file.key
    · rcases Nat.le_total b.line a.line with hline | hline
      · exact Or.inl (Or.inr ⟨heq.symm, hline⟩)
      · exact Or.inr (Or.inr ⟨heq, hline⟩)
    · exact Or.inr (Or.inl (key_lt_of_not_lt hlt heq))

theorem tied_precedes_iff {a b : ChangeRequest} :
    tied precedes a b = true ↔ a.file.key = b.file.key ∧ a.line = b.line := by
  rw [tied, Bool.and_eq_true, precedes_iff, precedes_iff]
  constructor
  · rintro ⟨hab | ⟨hab, hline⟩, hba | ⟨hba, hline'⟩⟩
    · exact absurd (List.lt_trans hab hba) (key_lt_irrefl _)
    · exact absurd (hba ▸ hab) (key_lt_irrefl _)
    · exact absurd (hab ▸ hba) (key_lt_irrefl _)
    · exact ⟨hab, Nat.le_antisymm hline' hline⟩
  · rintro ⟨hkey, hline⟩
    exact ⟨Or.inr ⟨hkey, Nat.le_of_eq hline.symm⟩, Or.inr ⟨hkey.symm, Nat.le_of_eq hline⟩⟩

/-- The groups stand in the order of their files, and each is sorted. -/
theorem batchOrder_sorted (qs : List ChangeRequest) :
    (batchOrder qs).Pairwise fun a b => precedes a b = true := by
  have hgrouped := grouped_groupsOf qs
  rw [batchOrder_eq, OrderedMap.values, List.flatMap_map, List.pairwise_flatMap]
  refine ⟨?_, (groupsOf qs).sorted.imp_of_mem ?_⟩
  · intro e he
    have hlines : (e.2.mergeSort fun a b => b.line ≤ a.line).Pairwise fun a b => b.line ≤ a.line := by
      refine (List.pairwise_mergeSort ?_ ?_ e.2).imp (by simp)
      · simp only [decide_eq_true_eq]
        omega
      · simp only [Bool.or_eq_true, decide_eq_true_eq]
        omega
    refine hlines.imp_of_mem ?_
    intro a b ha hb hline
    have hkeys : a.file.key = b.file.key :=
      (hgrouped e he a (List.mem_mergeSort.1 ha)).trans
        (hgrouped e he b (List.mem_mergeSort.1 hb)).symm
    exact precedes_iff.2 (Or.inr ⟨hkeys, hline⟩)
  · intro d e hd he hlt a ha b hb
    rw [Path.keyed_key, Path.keyed_key, ← hgrouped d hd a (List.mem_mergeSort.1 ha),
      ← hgrouped e he b (List.mem_mergeSort.1 hb)] at hlt
    exact precedes_iff.2 (Or.inl hlt)

/-- Requests for one line of one file stay as they were put in. -/
theorem filter_batchOrder (qs : List ChangeRequest) (a : ChangeRequest) :
    (batchOrder qs).filter (tied precedes a) = qs.filter (tied precedes a) := by
  have hlines : ∀ group : List ChangeRequest,
      (group.mergeSort fun x y => y.line ≤ x.line).filter (tied precedes a) =
        group.filter (tied precedes a) := by
    intro group
    refine filter_mergeSort_of_tied ?_ ?_ group ?_
    · simp only [decide_eq_true_eq]
      omega
    · simp only [Bool.or_eq_true, decide_eq_true_eq]
      omega
    · intro x y hx hy
      have hxy := (tied_precedes_iff.1 hx).2.symm.trans (tied_precedes_iff.1 hy).2
      simp [hxy]
  have hfile : ∀ l : List ChangeRequest, l.filter (tied precedes a) =
      (l.filter fun q => q.file.same a.file).filter (tied precedes a) := by
    intro l
    rw [List.filter_filter]
    refine List.filter_congr ?_
    intro q _
    rw [Bool.eq_iff_iff, Bool.and_eq_true, Path.same_iff, tied_precedes_iff]
    exact ⟨fun h => ⟨h, h.1.symm⟩, fun h => h.1⟩
  calc (batchOrder qs).filter (tied precedes a)
      = (groupsOf qs).values.flatten.filter (tied precedes a) := by
        rw [batchOrder_eq, List.filter_flatMap, List.filter_flatten, ← List.flatMap_def]
        exact congrArg (List.flatMap · _) (funext hlines)
    _ = qs.filter (tied precedes a) := by
        rw [hfile, filter_values_flatten (grouped_groupsOf qs), find?_groupsOf, ← hfile]

/-- The order of a batch is that of its requests, sorted by file and from the bottom of a file
upwards. -/
theorem batchOrder_eq_mergeSort (qs : List ChangeRequest) :
    batchOrder qs = qs.mergeSort precedes := by
  have hrefl : ∀ a, precedes a a = true := by simp [precedes]
  refine eq_of_sorted_of_ties hrefl (batchOrder_sorted qs)
    (List.pairwise_mergeSort precedes_trans precedes_total qs) ?_
  intro a
  rw [filter_batchOrder, filter_mergeSort_of_tied precedes_trans precedes_total]
  intro x y hx hy
  obtain ⟨hx, hxline⟩ := tied_precedes_iff.1 hx
  obtain ⟨hy, hyline⟩ := tied_precedes_iff.1 hy
  exact precedes_iff.2 (Or.inr ⟨hx.symm.trans hy, by omega⟩)

/-- The order of a batch has each of its requests once. -/
theorem batchOrder_perm (qs : List ChangeRequest) : (batchOrder qs).Perm qs := by
  rw [batchOrder_eq_mergeSort]
  exact List.mergeSort_perm qs precedes

/-- Of two requests of a batch for one file, the one further down comes first. -/
theorem batchOrder_descending (qs : List ChangeRequest) :
    (batchOrder qs).Pairwise fun a b => a.file.key = b.file.key → b.line ≤ a.line := by
  refine (batchOrder_sorted qs).imp ?_
  intro a b hab hkey
  rcases precedes_iff.1 hab with hlt | ⟨-, hline⟩
  · exact absurd (hkey ▸ hlt) (key_lt_irrefl _)
  · exact hline

end Manager

end CodeReview
