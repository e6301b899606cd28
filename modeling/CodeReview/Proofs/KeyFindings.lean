import CodeReview.Proofs.TotalOrder
import CodeReview.Statistics
import Mathlib.Data.List.FinRange
import Mathlib.Data.List.Perm.Basic

/-!
# Key findings

Issues are ranked by their severity, then by their confidence in the total order of floating-point
numbers, then by their position (`Precedes`).  As no two positions are tied, there is one ranking of a
list of issues (`IsRanking.eq`), and the key findings are its first issues (`topIssues_ranking`): the
sort compares severities and confidences only, but it leaves ties in their order, which is to sort the
positions by all three (`ranking_isRanking`).
-/

namespace CodeReview

theorem Severity.rank_injective : Function.Injective Severity.rank := by
  intro s t h
  cases s <;> cases t <;> first | rfl | cases h

namespace Statistics

variable {issues : List Issue} {i j k : Fin issues.length}

/-! ## The order of positions -/

/-- Whether the issue at one position comes before the one at another: it is more severe, or as severe
and surer, or neither and it stands first. -/
inductive Precedes (issues : List Issue) (i j : Fin issues.length) : Prop
  | severity (h : (issues.get j).severity.rank < (issues.get i).severity.rank)
  | confidence (hseverity : (issues.get i).severity = (issues.get j).severity)
      (h : (issues.get j).confidence.Before (issues.get i).confidence)
  | position (hseverity : (issues.get i).severity = (issues.get j).severity)
      (hconfidence : (issues.get i).confidence = (issues.get j).confidence) (h : i < j)

theorem Precedes.asymm (h : Precedes issues i j) : ¬ Precedes issues j i := by
  intro h'
  cases h with
  | severity h =>
    cases h' with
    | severity h' => omega
    | confidence hseverity _ => rw [hseverity] at h; omega
    | position hseverity _ _ => rw [hseverity] at h; omega
  | confidence hseverity h =>
    have hkey := h.orderKey_lt
    cases h' with
    | severity h' => rw [hseverity] at h'; omega
    | confidence _ h' =>
      have hkey' := h'.orderKey_lt
      omega
    | position _ hconfidence _ => rw [hconfidence] at hkey; omega
  | position hseverity hconfidence h =>
    cases h' with
    | severity h' => rw [hseverity] at h'; omega
    | confidence _ h' =>
      have hkey' := h'.orderKey_lt
      rw [hconfidence] at hkey'
      omega
    | position _ _ h' => omega

/-! ## The ranking -/

/-- The positions of a list of issues in their order. -/
structure IsRanking (issues : List Issue) (order : List (Fin issues.length)) : Prop where
  perm : order.Perm (List.finRange issues.length)
  sorted : order.Pairwise (Precedes issues)

theorem IsRanking.eq {order other : List (Fin issues.length)} (h : IsRanking issues order)
    (h' : IsRanking issues other) : other = order :=
  List.Perm.eq_of_pairwise (fun _ _ _ _ hij hji => absurd hji hij.asymm) h'.sorted h.sorted
    (h'.perm.trans h.perm.symm)

theorem atLeast_iff {a b : Issue} : atLeast a b = true ↔ b.severity.rank < a.severity.rank ∨
    b.severity.rank = a.severity.rank ∧ b.confidence.orderKey ≤ a.confidence.orderKey := by
  simp [atLeast]

theorem atLeast_trans (a b c : Issue) (hab : atLeast a b = true) (hbc : atLeast b c = true) :
    atLeast a c = true := by
  rw [atLeast_iff] at *
  omega

theorem atLeast_total (a b : Issue) : (atLeast a b || atLeast b a) = true := by
  rw [Bool.or_eq_true, atLeast_iff, atLeast_iff]
  omega

/-- The comparison of positions by which a sort that keeps ties in order sorts them. -/
def standsBefore (issues : List Issue) (i j : Fin issues.length) : Bool :=
  List.zipIdxLE atLeast (issues.get i, i.val) (issues.get j, j.val)

theorem standsBefore_trans (i j k : Fin issues.length) (hij : standsBefore issues i j = true)
    (hjk : standsBefore issues j k = true) : standsBefore issues i k = true :=
  List.zipIdxLE_trans atLeast_trans _ _ _ hij hjk

theorem standsBefore_total (i j : Fin issues.length) :
    (standsBefore issues i j || standsBefore issues j i) = true :=
  List.zipIdxLE_total atLeast_total _ _

theorem precedes_of_standsBefore (h : standsBefore issues i j = true) (hne : i ≠ j) :
    Precedes issues i j := by
  have hval : i.val ≠ j.val := fun h => hne (Fin.ext h)
  unfold standsBefore List.zipIdxLE at h
  split at h
  · next hij =>
    rcases atLeast_iff.1 hij with hrank | ⟨hrank, hkey⟩
    · exact .severity hrank
    · have hseverity := Severity.rank_injective hrank.symm
      rcases hkey.lt_or_eq with hlt | heq
      · exact .confidence hseverity (Single.before_of_orderKey_lt hlt)
      · rw [if_pos (atLeast_iff.2 (Or.inr ⟨hrank.symm, heq.ge⟩)), decide_eq_true_iff] at h
        exact .position hseverity (Single.orderKey_injective heq.symm)
          (Fin.lt_def.2 (lt_of_le_of_ne h hval))
  · cases h

theorem precedes_iff_standsBefore : Precedes issues i j ↔ i ≠ j ∧ standsBefore issues i j = true := by
  refine ⟨fun h => ?_, fun h => precedes_of_standsBefore h.2 h.1⟩
  have hne : i ≠ j := by
    rintro rfl
    exact h.asymm h
  refine ⟨hne, ?_⟩
  by_contra hnot
  have hother := standsBefore_total i j
  rw [Bool.or_eq_true, or_iff_right hnot] at hother
  exact h.asymm (precedes_of_standsBefore hother hne.symm)

instance (issues : List Issue) (i j : Fin issues.length) : Decidable (Precedes issues i j) :=
  decidable_of_iff _ precedes_iff_standsBefore.symm

/-- The positions of a list of issues, sorted. -/
def ranking (issues : List Issue) : List (Fin issues.length) :=
  (List.finRange issues.length).mergeSort (standsBefore issues)

theorem ranking_isRanking (issues : List Issue) : IsRanking issues (ranking issues) := by
  have hperm : (ranking issues).Perm (List.finRange issues.length) := List.mergeSort_perm _ _
  have hnodup : (ranking issues).Nodup := hperm.nodup_iff.2 (List.nodup_finRange _)
  have hsorted : (ranking issues).Pairwise fun i j => standsBefore issues i j = true :=
    List.pairwise_mergeSort standsBefore_trans standsBefore_total _
  exact ⟨hperm, (hsorted.and hnodup).imp fun h => precedes_of_standsBefore h.1 h.2⟩

theorem zipIdx_eq_map_finRange {α : Type} (l : List α) :
    l.zipIdx = (List.finRange l.length).map fun i => (l.get i, i.val) := by
  apply List.ext_getElem <;> simp

/-- To sort issues and leave ties in their order is to sort their positions. -/
theorem mergeSort_eq_map_ranking (issues : List Issue) :
    issues.mergeSort atLeast = (ranking issues).map issues.get := by
  have hpairs : (ranking issues).map (fun i => (issues.get i, i.val)) =
      issues.zipIdx.mergeSort (List.zipIdxLE atLeast) := by
    rw [zipIdx_eq_map_finRange]
    exact List.map_mergeSort fun _ _ _ _ => rfl
  rw [← List.mergeSort_zipIdx, ← hpairs, List.map_map]
  rfl

/-! ## The first issues -/

/-- The positions of at most `limit` issues, none of which comes after one that was left out. -/
structure IsSelection (issues : List Issue) (limit : Nat) (picked : List (Fin issues.length)) :
    Prop where
  length : picked.length = min limit issues.length
  nodup : picked.Nodup
  sorted : picked.Pairwise (Precedes issues)
  rest : ∀ i ∈ picked, ∀ j ∉ picked, Precedes issues i j

theorem IsRanking.isSelection {order : List (Fin issues.length)} (h : IsRanking issues order)
    (limit : Nat) : IsSelection issues limit (order.take limit) := by
  have hnodup : order.Nodup := h.perm.nodup_iff.2 (List.nodup_finRange _)
  have hsplit := h.sorted
  rw [← List.take_append_drop limit order, List.pairwise_append] at hsplit
  refine ⟨?_, hnodup.sublist (List.take_sublist _ _), hsplit.1, ?_⟩
  · rw [List.length_take, h.perm.length_eq, List.length_finRange]
  · intro i hi j hj
    have hmem : j ∈ order := h.perm.mem_iff.2 (List.mem_finRange j)
    rw [← List.take_append_drop limit order, List.mem_append] at hmem
    exact hsplit.2.2 i hi j (hmem.resolve_left hj)

/-- There is one ranking of issues, and for every limit the key findings are its first issues: as many
as the limit allows, in their order, and before all that are left out.  A smaller limit cuts the list
of a larger one short. -/
theorem topIssues_ranking (issues : List Issue) :
    ∃ order, IsRanking issues order ∧ (∀ other, IsRanking issues other → other = order) ∧
      ∀ limit, topIssues issues limit = (order.take limit).map issues.get ∧
        IsSelection issues limit (order.take limit) ∧
        ∀ more, topIssues issues limit <+: topIssues issues (limit + more) := by
  have hranking := ranking_isRanking issues
  refine ⟨ranking issues, hranking, fun _ hother => hranking.eq hother, fun limit => ?_⟩
  refine ⟨?_, hranking.isSelection limit, fun more => ?_⟩
  · rw [topIssues, mergeSort_eq_map_ranking, List.map_take]
  · exact List.take_prefix_take_left (Nat.le_add_right limit more)

/-- Issues with both zeros, with what is no number and with an infinity for their confidences. -/
def oddIssues : List Issue :=
  [(.high, 0), (.high, 0x7fc00000), (.critical, 0x80000000), (.high, 0x80000000), (.high, 0),
    (.low, 0x7f800000)].map fun (severity, bits) =>
      { description := "", severity, category := .style, confidence := ⟨bits⟩ }

def oddRanking : List (Fin oddIssues.length) :=
  ([2, 1, 0, 4, 3, 5] : List (Fin 6))

theorem topIssues_ranking_of_oddIssues :
    IsRanking oddIssues oddRanking ∧
      topIssues oddIssues 4 = (oddRanking.take 4).map oddIssues.get := by
  have hranking : IsRanking oddIssues oddRanking := ⟨by decide, by decide⟩
  obtain ⟨order, -, honly, hpicks⟩ := topIssues_ranking oddIssues
  obtain rfl := honly _ hranking
  exact ⟨hranking, (hpicks 4).1⟩

end Statistics

end CodeReview
