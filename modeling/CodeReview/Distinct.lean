/-!
# Lists without repetition

The first of several equal items stays and the others go, where items are equal when a view of them
is.
-/

namespace CodeReview

variable {α β : Type} [DecidableEq β]

/-- The items whose view no earlier item has, in order. -/
def distinctBy (view : α → β) : List α → List α
  | [] => []
  | a :: as => a :: (distinctBy view as).filter fun b => view b ≠ view a

/-- The items that no earlier item equals, in order. -/
def distinct (as : List β) : List β :=
  distinctBy id as

theorem mem_of_mem_distinctBy {view : α → β} {as : List α} {a : α} (h : a ∈ distinctBy view as) :
    a ∈ as := by
  induction as with
  | nil => exact h
  | cons b as ih =>
    obtain rfl | h := List.mem_cons.1 h
    · exact List.mem_cons_self
    · exact List.mem_cons_of_mem b (ih (List.mem_filter.1 h).1)

/-- No view occurs twice. -/
theorem nodup_map_distinctBy (view : α → β) (as : List α) :
    ((distinctBy view as).map view).Nodup := by
  induction as with
  | nil => exact List.nodup_nil
  | cons a as ih =>
    simp only [distinctBy, List.map_cons, List.nodup_cons]
    refine ⟨fun h => ?_, ?_⟩
    · obtain ⟨b, hb, e⟩ := List.mem_map.1 h
      simp [e] at hb
    · exact List.Nodup.sublist (List.Sublist.map view List.filter_sublist) ih

theorem distinct_cons (a : β) (as : List β) :
    distinct (a :: as) = a :: (distinct as).filter fun b => b ≠ a :=
  rfl

/-- One more item is the last one, or one of the others. -/
theorem distinct_concat (as : List β) (a : β) :
    distinct (as ++ [a]) = if a ∈ as then distinct as else distinct as ++ [a] := by
  induction as with
  | nil => rfl
  | cons b as ih =>
    rw [List.cons_append, distinct_cons, ih, distinct_cons]
    by_cases ha : a ∈ as
    · rw [if_pos ha, if_pos (List.mem_cons_of_mem b ha)]
    · rw [if_neg ha, List.filter_append]
      by_cases hab : a = b <;> simp [hab, ha]

/-- What has no repetition stays as it is. -/
theorem distinct_eq_self {as : List β} (h : as.Nodup) : distinct as = as := by
  induction as with
  | nil => rfl
  | cons a as ih =>
    obtain ⟨ha, has⟩ := List.nodup_cons.1 h
    rw [distinct_cons, ih has, List.filter_eq_self.2]
    intro b hb
    have hne : b ≠ a := fun hba => ha (hba ▸ hb)
    simpa using hne

theorem map_distinctBy (view : α → β) (as : List α) :
    (distinctBy view as).map view = distinct (as.map view) := by
  induction as with
  | nil => rfl
  | cons a as ih =>
    rw [distinctBy, List.map_cons, List.map_cons, distinct_cons, ← ih, List.filter_map]
    rfl

theorem distinct_filter (p : β → Bool) (as : List β) :
    distinct (as.filter p) = (distinct as).filter p := by
  induction as with
  | nil => rfl
  | cons a as ih =>
    cases ha : p a with
    | true =>
      rw [List.filter_cons_of_pos ha, distinct_cons, distinct_cons, ih, List.filter_cons_of_pos ha,
        List.filter_filter, List.filter_filter]
      simp only [Bool.and_comm]
    | false =>
      have hna : ¬ p a = true := by simp [ha]
      rw [List.filter_cons_of_neg hna, distinct_cons, ih, List.filter_cons_of_neg hna,
        List.filter_filter]
      refine List.filter_congr ?_
      intro b _
      by_cases hb : b = a
      · simp [hb, ha]
      · simp [hb]

/-- Keeping the items that no earlier item equals drops all later duplicates. -/
theorem distinct_eq_eraseDups (as : List β) : distinct as = as.eraseDups := by
  induction hlength : as.length using Nat.strongRecOn generalizing as with
  | ind n ih =>
    cases as with
    | nil => rfl
    | cons a as =>
      have hshorter : (as.filter fun b => !b == a).length < n := by
        have hle := List.length_filter_le (fun b => !b == a) as
        rw [List.length_cons] at hlength
        omega
      rw [distinct_cons, List.eraseDups_cons, ← ih _ hshorter _ rfl, distinct_filter]
      congr 1
      refine List.filter_congr ?_
      intro b _
      by_cases hb : b = a <;> simp [hb]

theorem mem_distinct {a : β} {as : List β} : a ∈ distinct as ↔ a ∈ as := by
  rw [distinct_eq_eraseDups]
  exact List.mem_eraseDups

end CodeReview
