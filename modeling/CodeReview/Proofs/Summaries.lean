import CodeReview.Proofs.FileByFile
import CodeReview.Proofs.KeyFindings
import CodeReview.Proofs.Lookup
import CodeReview.Proofs.Quotients

/-!
# Summaries

What the counts of a summary say.  A tally lists each key that occurs, with the number of times that it
does (`Counts`), and by that it does not depend on the order of the keys and adds up when lists are put
together.  The summary of several files counts their issues in path order, and its densities are
quotients of these counts by numbers of lines (`IsDensity`).
-/

namespace CodeReview

theorem Category.rank_injective : Function.Injective Category.rank := by
  intro c d h
  cases c <;> cases d <;> first | rfl | cases h

theorem Severity.key_injective : Function.Injective (key : Severity → List (List Nat)) :=
  fun _ _ h => Severity.rank_injective (List.singleton_inj.1 (List.singleton_inj.1 h))

theorem Category.key_injective : Function.Injective (key : Category → List (List Nat)) :=
  fun _ _ h => Category.rank_injective (List.singleton_inj.1 (List.singleton_inj.1 h))

theorem key_text_injective : Function.Injective (key : String → List (List Nat)) :=
  fun _ _ h => key_text_inj.1 h

/-- The values at the other keys add up to what they did before. -/
theorem OrderedMap.sum_updateEntries {κ : Type} [Keyed κ] (k : κ) (f : Option Nat → Nat)
    {es : List (κ × Nat)} (h : es.Pairwise fun a b => key a.1 < key b.1) :
    ((updateEntries k f es).map Prod.snd).sum + (valueIn k es).getD 0 =
      (es.map Prod.snd).sum + f (valueIn k es) := by
  induction es with
  | nil => simp [updateEntries, valueIn]
  | cons e es ih =>
    obtain ⟨he, hes⟩ := List.pairwise_cons.1 h
    simp only [updateEntries]
    split
    · next hlt =>
      have hnone : valueIn k (e :: es) = none := by
        refine valueIn_eq_none fun x hx => ?_
        rcases List.mem_cons.1 hx with rfl | hx
        · exact hlt
        · exact List.lt_trans hlt (he x hx)
      simp [hnone, Nat.add_comm]
    · rw [valueIn_cons]
      split
      · simp only [List.map_cons, List.sum_cons, Option.getD_some]
        omega
      · have hsum := ih hes
        simp only [List.map_cons, List.sum_cons]
        omega

namespace Statistics

/-! ## Tallies -/

section Tally

variable {κ : Type} [Keyed κ]

theorem tally_concat (ks : List κ) (k : κ) :
    tally (ks ++ [k]) = (tally ks).update k fun n => n.getD 0 + 1 := by
  rw [tally, List.foldl_append]
  rfl

theorem sum_tally (ks : List κ) : (tally ks).values.sum = ks.length := by
  induction ks using List.reverseRecOn with
  | nil => rfl
  | append_singleton ks l ih =>
    have hsum := OrderedMap.sum_updateEntries l (fun n => n.getD 0 + 1) (tally ks).sorted
    rw [tally_concat, List.length_append, List.length_singleton, ← ih]
    simp only [OrderedMap.values, OrderedMap.update]
    omega

variable [DecidableEq κ] {ks ls : List κ}

/-- A map that lists what occurs in a list, each with the number of times that it does. -/
structure Counts (m : OrderedMap κ Nat) (ks : List κ) : Prop where
  nodup : m.keys.Nodup
  mem_keys : ∀ k, k ∈ m.keys ↔ k ∈ ks
  find? : ∀ k n, m.find? k = some n ↔ n = ks.count k ∧ n ≠ 0
  sum : m.values.sum = ks.length

/-- A map with the keys of two maps, where the values at a key add up. -/
structure AddsUp (m m₁ m₂ : OrderedMap κ Nat) : Prop where
  mem_keys : ∀ k, k ∈ m.keys ↔ k ∈ m₁.keys ∨ k ∈ m₂.keys
  value : ∀ k, (m.find? k).getD 0 = (m₁.find? k).getD 0 + (m₂.find? k).getD 0

theorem find?_tally (hinj : Function.Injective (key : κ → List (List Nat))) (ks : List κ) (k : κ) :
    (tally ks).find? k = if k ∈ ks then some (ks.count k) else none := by
  induction ks using List.reverseRecOn with
  | nil => rfl
  | append_singleton ks l ih =>
    have hcount : ((tally ks).find? k).getD 0 = ks.count k := by
      rw [ih]
      split
      · rfl
      · next h => exact (List.count_eq_zero.2 h).symm
    rw [tally_concat, OrderedMap.find?_update]
    by_cases hlk : l = k
    · subst hlk
      simp [hcount]
    · rw [if_neg (fun h => hlk (hinj h)), ih]
      simp [hlk, Ne.symm hlk]

theorem counts_tally (hinj : Function.Injective (key : κ → List (List Nat))) (ks : List κ) :
    Counts (tally ks) ks where
  nodup := OrderedMap.nodup_keys _
  mem_keys k := by
    rw [OrderedMap.mem_keys_iff hinj, OrderedMap.contains, find?_tally hinj]
    split <;> simp_all
  find? k n := by
    rw [find?_tally hinj]
    split
    · next h =>
      have hpos := List.count_pos_iff.2 h
      simp only [Option.some.injEq]
      omega
    · next h => simp [List.count_eq_zero.2 h]
  sum := sum_tally ks

theorem Counts.getD_find? {m : OrderedMap κ Nat} (h : Counts m ks) (k : κ) :
    (m.find? k).getD 0 = ks.count k := by
  cases hfind : m.find? k with
  | some n => exact ((h.find? k n).1 hfind).1
  | none =>
    by_contra hne
    have hsome := (h.find? k (ks.count k)).2 ⟨rfl, fun hzero => hne hzero.symm⟩
    rw [hfind] at hsome
    cases hsome

theorem Counts.addsUp {m m₁ m₂ : OrderedMap κ Nat} (h : Counts m (ks ++ ls)) (h₁ : Counts m₁ ks)
    (h₂ : Counts m₂ ls) : AddsUp m m₁ m₂ where
  mem_keys k := by rw [h.mem_keys, h₁.mem_keys, h₂.mem_keys, List.mem_append]
  value k := by rw [h.getD_find?, h₁.getD_find?, h₂.getD_find?, List.count_append]

/-- Two counts of different keys commute. -/
theorem tally_perm (hinj : Function.Injective (key : κ → List (List Nat))) (h : ks.Perm ls) :
    tally ks = tally ls := by
  refine h.foldl_eq' ?_ _
  intro k _ l _ m
  by_cases hkl : k = l
  · rw [hkl]
  · simp only [OrderedMap.update]
    congr 1
    exact OrderedMap.updateEntries_comm (fun hkey => hkl (hinj hkey).symm) _ _ _

end Tally

/-! ## The counts of issues -/

/-- The three counts of a list of issues. -/
structure CountsIssues (s : Statistics) (issues : List Issue) : Prop where
  severity : Counts s.bySeverity (issues.map Issue.severity)
  category : Counts s.byCategory (issues.map Issue.category)
  step : Counts s.byStep (issues.map Issue.sourceStep)
  total : s.totalIssues = issues.length
  sums : s.bySeverity.values.sum = s.totalIssues ∧ s.byCategory.values.sum = s.totalIssues ∧
    s.byStep.values.sum = s.totalIssues

structure SameCounts (s t : Statistics) : Prop where
  severity : s.bySeverity = t.bySeverity
  category : s.byCategory = t.byCategory
  step : s.byStep = t.byStep

structure CountsAddUp (s t u : Statistics) : Prop where
  severity : AddsUp s.bySeverity t.bySeverity u.bySeverity
  category : AddsUp s.byCategory t.byCategory u.byCategory
  step : AddsUp s.byStep t.byStep u.byStep

theorem countsIssues_ofIssues (issues : List Issue) (limit : Nat) :
    CountsIssues (ofIssues issues limit) issues where
  severity := counts_tally Severity.key_injective _
  category := counts_tally Category.key_injective _
  step := counts_tally key_text_injective _
  total := rfl
  sums := by
    refine ⟨?_, ?_, ?_⟩ <;> exact (sum_tally _).trans (List.length_map _)

theorem sameCounts_of_perm {issues issues' : List Issue} (h : issues.Perm issues')
    (limit limit' : Nat) : SameCounts (ofIssues issues limit) (ofIssues issues' limit') where
  severity := tally_perm Severity.key_injective (h.map _)
  category := tally_perm Category.key_injective (h.map _)
  step := tally_perm key_text_injective (h.map _)

theorem CountsIssues.addUp {s t u : Statistics} {issues more : List Issue}
    (hs : CountsIssues s (issues ++ more)) (ht : CountsIssues t issues)
    (hu : CountsIssues u more) : CountsAddUp s t u where
  severity := (List.map_append ▸ hs.severity).addsUp ht.severity hu.severity
  category := (List.map_append ▸ hs.category).addsUp ht.category hu.category
  step := (List.map_append ▸ hs.step).addsUp ht.step hu.step

/-! ## Several files -/

/-- How many issues there are per line: nothing without lines, and otherwise the quotient, as near as
numbers come to it that are rounded to 53 bits. -/
structure IsDensity (x : Double) (issues lines : Nat) : Prop where
  empty : lines = 0 → x = Double.zero
  divided : lines ≠ 0 → x = (Double.ofNat issues).div (Double.ofNat lines)
  rounded : lines ≠ 0 → issues < 2 ^ 53 → lines < 2 ^ 53 → x = Double.ofQuotient false issues lines
  near : lines ≠ 0 → issues < 2 ^ 64 → lines < 2 ^ 64 → x.Near (issues / lines) (1 / 2 ^ 51)

theorem isDensity_density (issues lines : Nat) : IsDensity (density issues lines) issues lines := by
  have hdivided : lines ≠ 0 →
      density issues lines = (Double.ofNat issues).div (Double.ofNat lines) := fun h => if_neg h
  refine ⟨fun h => if_pos h, hdivided, fun h hissues hlines => ?_, fun h hissues hlines => ?_⟩
  · rw [hdivided h, Double.ofNat_div_ofNat hissues hlines h]
  · rw [hdivided h]
    exact Double.near_ofNat_div_ofNat hissues hlines h

/-- The issues of all files, in path order. -/
def issuesInOrder (r : DirectoryReport) : List Issue :=
  r.files.values.flatMap fun f => f.report.issues

/-- The summary of the files of a report. -/
structure Summarizes (s : Statistics) (r : DirectoryReport) (limit : Nat) : Prop where
  counts : SameCounts s (ofIssues (issuesInOrder r) limit)
  average : s.averageConfidence = (ofIssues (issuesInOrder r) limit).averageConfidence
  findings : s.keyFindings = (ofIssues (issuesInOrder r) limit).keyFindings
  total : s.totalIssues = r.totalIssues
  paths : s.densityByFile.keys = r.files.keys
  density : ∀ p f, r.files.find? p = some f →
    ∃ x, s.densityByFile.find? p = some x ∧ IsDensity x f.report.issues.length f.lineCount
  overall : ∃ x, s.overallDensity = some x ∧
    IsDensity x r.totalIssues (r.files.values.map FileReport.lineCount).sum

theorem map_allIssues (r : DirectoryReport) : r.allIssues.map Prod.snd = issuesInOrder r := by
  rw [issuesInOrder, DirectoryReport.allIssues, OrderedMap.values, List.map_flatMap, List.flatMap_map]
  simp [Function.comp_def]

/-- The paths of a report are in order as they stand. -/
theorem entries_densityByFile (r : DirectoryReport) (limit : Nat) :
    (ofDirectory r limit).densityByFile.entries = r.files.entries.map fun e =>
      (e.1, Statistics.density e.2.report.issues.length e.2.lineCount) :=
  OrderedMap.entries_ofList (List.pairwise_map.2 r.files.sorted)

theorem find?_densityByFile (r : DirectoryReport) (limit : Nat) (p : Path) :
    (ofDirectory r limit).densityByFile.find? p = (r.files.find? p).map fun f =>
      Statistics.density f.report.issues.length f.lineCount := by
  rw [OrderedMap.find?_eq_valueIn, OrderedMap.find?_eq_valueIn, entries_densityByFile,
    OrderedMap.valueIn, OrderedMap.valueIn, List.find?_map, Option.map_map, Option.map_map]
  rfl

theorem summarizes_ofDirectory (r : DirectoryReport) (limit : Nat) :
    Summarizes (ofDirectory r limit) r limit := by
  have hissues := map_allIssues r
  have htotal : (r.allIssues.map Prod.snd).length = r.totalIssues := by
    rw [List.length_map, DirectoryReport.length_allIssues]
  refine ⟨?_, ?_, ?_, htotal, ?_, ?_, ?_⟩
  · rw [← hissues]
    exact ⟨rfl, rfl, rfl⟩
  · rw [← hissues]
    rfl
  · rw [← hissues]
    rfl
  · rw [OrderedMap.keys, entries_densityByFile, List.map_map]
    rfl
  · intro p f hf
    rw [find?_densityByFile, hf]
    exact ⟨_, rfl, isDensity_density _ _⟩
  · have hlines : r.files.values.foldr (fun f n => f.lineCount + n) 0 =
        (r.files.values.map FileReport.lineCount).sum := by
      rw [List.sum, List.foldr_map]
    refine ⟨_, rfl, ?_⟩
    rw [← htotal, ← hlines]
    exact isDensity_density _ _

/-- A summary counts its issues by severity, category and step, whatever their order is, and counts of
lists that are put together add up.  The summary of a report on files is that of their issues in path
order, with the number of issues per line for each file and for all of them. -/
theorem summaries_count_issues :
    (∀ issues limit, CountsIssues (ofIssues issues limit) issues) ∧
    (∀ issues issues' limit limit', issues.Perm issues' →
      SameCounts (ofIssues issues limit) (ofIssues issues' limit')) ∧
    (∀ issues more limit, CountsAddUp (ofIssues (issues ++ more) limit) (ofIssues issues limit)
      (ofIssues more limit)) ∧
    (∀ r limit, Summarizes (ofDirectory r limit) r limit) := by
  refine ⟨countsIssues_ofIssues, ?_, ?_, summarizes_ofDirectory⟩
  · exact fun _ _ limit limit' h => sameCounts_of_perm h limit limit'
  · intro issues more limit
    exact (countsIssues_ofIssues _ limit).addUp (countsIssues_ofIssues issues limit)
      (countsIssues_ofIssues more limit)

/-- Issues of two steps, with one severity twice. -/
def threeIssues : List Issue :=
  [(.high, "find"), (.low, "wait"), (.high, "wait")].map fun (severity, sourceStep) =>
    { description := "", severity, category := .style, sourceStep }

/-- An empty file, and one with three issues on four lines. -/
def sparseReport : DirectoryReport where
  files := OrderedMap.ofList [(⟨"b"⟩, ⟨⟨"b"⟩, 4, ⟨threeIssues, [], [], false⟩⟩),
    (⟨"a"⟩, ⟨⟨"a"⟩, 0, ⟨[], [], [], false⟩⟩)]
  failures := ∅

theorem summaries_count_issues_of_sparseReport :
    SameCounts (ofIssues threeIssues.reverse 0) (ofIssues threeIssues 2) ∧
      (ofIssues threeIssues 2).bySeverity.find? .high = some 2 ∧
      (ofDirectory sparseReport 2).overallDensity = some (Double.ofQuotient false 3 4) := by
  obtain ⟨hcounts, hperm, -, hsummary⟩ := summaries_count_issues
  refine ⟨hperm _ _ 0 2 (List.reverse_perm _), ?_, ?_⟩
  · exact ((hcounts threeIssues 2).severity.find? .high 2).2 (by decide)
  · obtain ⟨x, hx, hdensity⟩ := (hsummary sparseReport 2).overall
    rw [hx, hdensity.rounded (by decide) (by decide) (by decide)]
    rfl

end Statistics

end CodeReview
