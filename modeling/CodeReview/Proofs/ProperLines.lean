import CodeReview.Proofs.Lines
import Mathlib.Data.List.Induction

/-!
# Proper lines

A text has one decomposition into lines (`Proper.split_join`), which can be told from the lines alone:
no line has a line feed in it, a carriage return directly before a line feed belongs to the terminator,
and only the last line may be without terminator, in which case it is not empty.  What is put together
from proper lines is therefore split into these lines again.

Whether a text ends in a line feed is told by its last line as well (`getLast?_join_concat_iff`), here
also where that line is not proper.
-/

namespace CodeReview

namespace Line

variable {c : Char} {cs : List Char} {l : Line} {ks ls : List Line}

/-- A line that splitting can give. -/
structure IsProper (l : Line) : Prop where
  noFeed : '\n' ∉ l.text
  noReturn : l.eol = .lf → l.text.getLast? ≠ some '\r'
  nonempty : l.eol = .none → l.text ≠ []

/-- Lines that splitting can give, in their order. -/
def Proper : List Line → Prop
  | [] => True
  | l :: ls => l.IsProper ∧ (ls ≠ [] → l.IsTerminated) ∧ Proper ls

/-! ## Splitting gives proper lines -/

theorem isProper_blank {eol : Eol} (h : eol ≠ .none) : IsProper ⟨[], eol⟩ :=
  ⟨List.not_mem_nil, (fun _ hlast => by cases hlast), fun hnone => absurd hnone h⟩

theorem isProper_prepend (hc : c ≠ '\n') (h : l.IsProper) (hcr : ¬ (c = '\r' ∧ l = ⟨[], .lf⟩)) :
    IsProper ⟨c :: l.text, l.eol⟩ := by
  refine ⟨?_, ?_, fun _ => List.cons_ne_nil _ _⟩
  · intro hmem
    rcases List.mem_cons.1 hmem with hfeed | hfeed
    · exact hc hfeed.symm
    · exact h.noFeed hfeed
  · intro hlf
    obtain ⟨text, eol⟩ := l
    cases text with
    | nil =>
      intro hlast
      obtain rfl := Option.some.inj hlast
      exact hcr ⟨rfl, congrArg (Line.mk []) hlf⟩
    | cons d text =>
      rw [List.getLast?_cons_cons]
      exact h.noReturn hlf

theorem proper_prepend (hc : c ≠ '\n') (h : Proper ls) : Proper (prepend c ls) := by
  cases ls with
  | nil =>
    refine ⟨⟨?_, (fun hlf => by cases hlf), fun _ => List.cons_ne_nil _ _⟩,
      fun hne => absurd rfl hne, trivial⟩
    simpa using Ne.symm hc
  | cons l ls =>
    obtain ⟨hl, hfollowed, hls⟩ := h
    rw [prepend]
    by_cases hcr : c = '\r' ∧ l = ⟨[], .lf⟩
    · rw [if_pos hcr]
      have hcrlf : Eol.crlf ≠ .none := by decide
      exact ⟨isProper_blank hcrlf, fun _ => hcrlf, hls⟩
    · rw [if_neg hcr]
      exact ⟨isProper_prepend hc hl hcr, hfollowed, hls⟩

theorem proper_split (cs : List Char) : Proper (split cs) := by
  induction cs with
  | nil => trivial
  | cons c cs ih =>
    rw [split_cons]
    split
    · have hlf : Eol.lf ≠ .none := by decide
      exact ⟨isProper_blank hlf, fun _ => hlf, ih⟩
    · next hc => exact proper_prepend hc ih

/-! ## Proper lines are the lines of their text -/

/-- A proper line is the only line of its text. -/
theorem IsProper.split_chars (h : l.IsProper) : split l.chars = [l] := by
  obtain ⟨text, eol⟩ := l
  induction text with
  | nil =>
    cases eol with
    | none => exact absurd rfl (h.nonempty rfl)
    | lf => rfl
    | crlf => rfl
  | cons c text ih =>
    have hc : c ≠ '\n' := fun hfeed => h.noFeed (hfeed ▸ List.mem_cons_self)
    have hchars : chars ⟨c :: text, eol⟩ = c :: chars ⟨text, eol⟩ := rfl
    rw [hchars, split_cons, if_neg hc]
    by_cases hopen : text = [] ∧ eol = .none
    · obtain ⟨rfl, rfl⟩ := hopen
      rfl
    · have htail : IsProper ⟨text, eol⟩ := by
        refine ⟨fun hfeed => h.noFeed (List.mem_cons_of_mem c hfeed), ?_, ?_⟩
        · intro hlf hlast
          refine h.noReturn hlf ?_
          cases text with
          | nil => cases hlast
          | cons d text => rwa [List.getLast?_cons_cons]
        · exact fun hnone htext => hopen ⟨htext, hnone⟩
      have hcr : ¬ (c = '\r' ∧ (⟨text, eol⟩ : Line) = ⟨[], .lf⟩) := by
        rintro ⟨rfl, hlf⟩
        cases hlf
        exact h.noReturn rfl rfl
      rw [ih htail, prepend, if_neg hcr]

theorem Proper.split_join (h : Proper ls) : split (join ls) = ls := by
  induction ls with
  | nil => rfl
  | cons l ls ih =>
    obtain ⟨hl, hfollowed, hls⟩ := h
    rw [join_cons]
    by_cases hne : ls = []
    · subst hne
      rw [show join [] = [] from rfl, List.append_nil]
      exact hl.split_chars
    · rw [split_append (getLast?_chars (hfollowed hne)), hl.split_chars, ih hls]
      rfl

/-! ## Proper lines behind each other -/

theorem proper_append_iff : Proper (ks ++ ls) ↔
    Proper ks ∧ (ls ≠ [] → ∀ k ∈ ks, k.IsTerminated) ∧ Proper ls := by
  induction ks with
  | nil => simp [Proper]
  | cons k ks ih =>
    simp only [List.cons_append, Proper, ih, List.forall_mem_cons, ne_eq, List.append_eq_nil_iff]
    constructor
    · rintro ⟨hk, hfollowed, hks, hterm, hls⟩
      exact ⟨⟨hk, fun hne => hfollowed fun h => hne h.1, hks⟩,
        fun hne => ⟨hfollowed fun h => hne h.2, hterm hne⟩, hls⟩
    · rintro ⟨⟨hk, hfollowed, hks⟩, hterm, hls⟩
      refine ⟨hk, ?_, hks, fun hne => (hterm hne).2, hls⟩
      intro hne
      by_cases hnil : ks = []
      · exact (hterm fun h => hne ⟨hnil, h⟩).1
      · exact hfollowed hnil

theorem Proper.isProper (h : Proper ls) : ∀ l ∈ ls, l.IsProper := by
  induction ls with
  | nil => exact fun l hl => by cases hl
  | cons l ls ih => exact List.forall_mem_cons.2 ⟨h.1, ih h.2.2⟩

theorem proper_of_terminated (h : ∀ l ∈ ls, l.IsProper ∧ l.IsTerminated) : Proper ls := by
  induction ls with
  | nil => trivial
  | cons l ls ih =>
    obtain ⟨hl, hls⟩ := List.forall_mem_cons.1 h
    exact ⟨hl.1, fun _ => hl.2, ih hls⟩

/-! ## The end of a text -/

theorem getLast?_join_concat (ks : List Line) (l : Line) :
    (join (ks ++ [l])).getLast? = l.chars.getLast?.or (join ks).getLast? := by
  rw [join_append, List.getLast?_append]
  exact congrArg (fun cs => (List.getLast? cs).or _) (List.append_nil l.chars)

theorem getLast?_join_of_terminated (hls : ∀ l ∈ ls, l.IsTerminated) (hne : ls ≠ []) :
    (join ls).getLast? = some '\n' := by
  cases ls using List.reverseRecOn with
  | nil => exact absurd rfl hne
  | append_singleton ks l =>
    rw [getLast?_join_concat, getLast?_chars (hls l (by simp))]
    rfl

/-- A text of terminated lines and a last one ends in a line feed if the last line is terminated, or
if it is blank and follows another one. -/
theorem getLast?_join_concat_iff (hks : ∀ k ∈ ks, k.IsTerminated) (hl : '\n' ∉ l.text) :
    (join (ks ++ [l])).getLast? = some '\n' ↔ l.IsTerminated ∨ l.text = [] ∧ ks ≠ [] := by
  by_cases hterm : l.IsTerminated
  · simp [getLast?_join_concat, getLast?_chars hterm, hterm]
  · have hchars : l.chars = l.text := by
      have hnone : l.eol = .none := Decidable.not_not.1 hterm
      rw [chars, hnone]
      exact List.append_nil l.text
    rw [getLast?_join_concat, hchars]
    cases htext : l.text.getLast? with
    | some c =>
      have hmem := List.mem_of_getLast? htext
      have hc : c ≠ '\n' := fun hfeed => hl (hfeed ▸ hmem)
      have hne : l.text ≠ [] := List.ne_nil_of_mem hmem
      simp [hterm, hc, hne]
    | none =>
      rw [List.getLast?_eq_none_iff] at htext
      by_cases hnil : ks = []
      · simp [hterm, hnil, join]
      · simp [getLast?_join_of_terminated hks hnil, htext, hnil]

/-- A text ends in a line feed exactly if its last line is terminated. -/
theorem getLast?_eq_feed_iff :
    cs.getLast? = some '\n' ↔ ∃ l, (split cs).getLast? = some l ∧ l.IsTerminated := by
  have hproper := proper_split cs
  rw [← join_split cs, (proper_split cs).split_join]
  generalize split cs = ls at hproper ⊢
  cases ls using List.reverseRecOn with
  | nil => simp [join]
  | append_singleton ks l =>
    obtain ⟨-, hks, hl, -⟩ := proper_append_iff.1 hproper
    rw [getLast?_join_concat_iff (hks (List.cons_ne_nil _ _)) hl.noFeed, List.getLast?_concat]
    constructor
    · rintro (hterm | ⟨hblank, -⟩)
      · exact ⟨l, rfl, hterm⟩
      · exact ⟨l, rfl, fun hnone => hl.nonempty hnone hblank⟩
    · rintro ⟨_, ⟨⟩, hterm⟩
      exact Or.inl hterm

end Line

end CodeReview
