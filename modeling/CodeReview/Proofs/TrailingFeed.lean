import CodeReview.Proofs.BlockEdits

/-!
# The line feed at the end of a text

An edit that leaves anything keeps the line feed that ends a text, and hardly ever adds one.  Text
below the block ends the new text as it ended the old one (`Parts.feed_iff_of_back`), and so does a
terminated last line of the block (`Parts.feed_of_terminated`).  Where the block ends an unterminated
text, what is left last is put down without terminator (`Parts.exists_open_end`).  If that line is
blank, there is nothing of it in the text, which now ends in the line feed of the line above
(`replaceBlock_feed_iff`).
-/

namespace CodeReview

namespace Line

variable {t : List Char} {ks ls : List Line}

/-- A text of terminated lines and an unterminated last one ends in a line feed if that is blank. -/
theorem getLast?_join_open_iff (hks : ∀ k ∈ ks, k.IsTerminated) (ht : '\n' ∉ t)
    (hne : join (ks ++ [⟨t, .none⟩]) ≠ []) :
    (join (ks ++ [⟨t, .none⟩])).getLast? = some '\n' ↔ t = [] := by
  rw [getLast?_join_concat_iff hks ht]
  constructor
  · rintro (hterm | ⟨hblank, -⟩)
    · exact absurd rfl hterm
    · exact hblank
  · rintro rfl
    refine Or.inr ⟨rfl, ?_⟩
    rintro rfl
    exact hne rfl

end Line

namespace Edit

variable {content expected suggested new : String} {n : Nat} {q : ChangeRequest}
  {front back : List Line}

theorem unterminateLast_concat (ks : List Line) (l : Line) :
    unterminateLast (ks ++ [l]) = ks ++ [⟨l.text, .none⟩] := by
  induction ks with
  | nil => rfl
  | cons k ks ih =>
    cases ks with
    | nil => rfl
    | cons j ks => exact congrArg (k :: ·) ih

theorem Parts.linesOf_above (h : Parts content q front back) :
    (linesOf content).take (q.line - 1) = front.map fun l => String.ofList l.text := by
  rw [linesOf_eq_map_split, ← List.map_take, h.above]

/-! ## The end of the text stays -/

/-- Text below the block ends the new text as it ended the old one. -/
theorem Parts.feed_iff_of_back (h : Parts content q front back) (hback : back ≠ [])
    (hok : replaceBlock content q.line q.expected q.suggested = .ok new) :
    new.toList.getLast? = some '\n' ↔ content.toList.getLast? = some '\n' := by
  have hterm : ∀ l ∈ front ++ q.target content, l.IsTerminated :=
    Line.terminated_of_followed h.split hback
  have hjoin : Line.join back ≠ [] := by
    intro hnil
    have hlines := Line.split_join_of_suffix h.split hterm
    rw [hnil] at hlines
    exact hback hlines.symm
  have hcontent := Line.join_split content.toList
  rw [h.split, Line.join_append] at hcontent
  rw [h.toList_eq hok, if_neg fun hcut => hback hcut.2.1, ← hcontent, Line.join_append,
    List.getLast?_append_of_ne_nil _ hjoin, List.getLast?_append_of_ne_nil _ hjoin]

/-- Nothing but an empty text is without line feed at its end if the last replaced line had one. -/
theorem Parts.feed_of_terminated (h : Parts content q front [])
    (hterm : eolOf (q.target content).getLast? ≠ .none)
    (hok : replaceBlock content q.line q.expected q.suggested = .ok new) (hne : new ≠ "") :
    new.toList.getLast? = some '\n' := by
  have hlines : new.toList = Line.join (front ++ inserted content q) := by
    rw [h.toList_eq hok, if_neg fun hcut => hterm hcut.2.2, List.append_nil]
  rw [hlines]
  refine Line.getLast?_join_of_terminated ?_ ?_
  · rw [List.forall_mem_append]
    exact ⟨h.front_terminated, terminated_terminate (innerEol_ne_none _ _) hterm⟩
  · intro hnil
    rw [hnil] at hlines
    exact hne (String.toList_eq_nil_iff.1 hlines)

theorem Parts.content_feed_iff (h : Parts content q front []) :
    content.toList.getLast? = some '\n' ↔ eolOf (q.target content).getLast? ≠ .none := by
  rw [Line.getLast?_eq_feed_iff, h.split, List.append_nil,
    List.getLast?_append_of_ne_nil _ h.nonempty]
  cases (q.target content).getLast? with
  | none => simp [eolOf]
  | some l => simp [eolOf, Line.IsTerminated]

/-! ## The end of an unterminated text -/

/-- Where the end of an unterminated text is replaced, the last line of what is left is put down
without terminator, behind terminated ones. -/
theorem Parts.exists_open_end (h : Parts content q front [])
    (hopen : eolOf (q.target content).getLast? = .none)
    (hok : replaceBlock content q.line q.expected q.suggested = .ok new) (hne : new ≠ "") :
    ∃ ks t, (∀ k ∈ ks, k.IsTerminated) ∧ '\n' ∉ t ∧
      new.toList = Line.join (ks ++ [⟨t, .none⟩]) ∧
      ((linesOf content).take (q.line - 1) ++ linesOf q.suggested).getLast? =
        some (String.ofList t) := by
  have hnew := h.toList_eq hok
  have hproper := Line.proper_split content.toList
  rw [h.split, Line.proper_append_iff, Line.proper_append_iff] at hproper
  have hfeed : ∀ l ∈ front, '\n' ∉ l.text := fun l hl => (hproper.1.1.isProper l hl).noFeed
  rw [h.linesOf_above, linesOf_eq]
  unfold inserted at hnew
  cases hs : snippetLines q.suggested using List.reverseRecOn with
  | nil =>
    -- lines are deleted: the last line above them loses its terminator
    rw [hs, if_pos ⟨rfl, rfl, hopen⟩] at hnew
    cases front using List.reverseRecOn with
    | nil => exact absurd (String.toList_eq_nil_iff.1 hnew) hne
    | append_singleton ks k =>
      rw [unterminateLast_concat] at hnew
      refine ⟨ks, k.text, ?_, hfeed k (by simp), hnew, by simp⟩
      exact fun l hl => h.front_terminated l (List.mem_append_left _ hl)
  | append_singleton us t =>
    rw [hs, hopen, terminate_concat, if_neg (by simp), List.append_nil, ← List.append_assoc] at hnew
    have ht : t ∈ snippetLines q.suggested := by simp [hs]
    refine ⟨_, t, ?_, noFeed_of_mem_snippetLines ht, hnew, by simp⟩
    rw [List.forall_mem_append, List.forall_mem_map]
    exact ⟨h.front_terminated, fun _ _ => innerEol_ne_none _ _⟩

theorem Parts.feed_iff (h : Parts content q front back)
    (hok : replaceBlock content q.line q.expected q.suggested = .ok new) (hne : new ≠ "") :
    new.toList.getLast? = some '\n' ↔ content.toList.getLast? = some '\n' ∨
      back = [] ∧ ((linesOf content).take (q.line - 1) ++ linesOf q.suggested).getLast? =
        some "" := by
  by_cases hback : back = []
  · subst hback
    rw [h.content_feed_iff]
    by_cases hopen : eolOf (q.target content).getLast? = .none
    · obtain ⟨ks, t, hks, ht, hnew, hlast⟩ := h.exists_open_end hopen hok hne
      have hjoin : Line.join (ks ++ [⟨t, .none⟩]) ≠ [] := by
        rw [← hnew]
        exact fun hnil => hne (String.toList_eq_nil_iff.1 hnil)
      rw [hnew, Line.getLast?_join_open_iff hks ht hjoin, hlast]
      simp [hopen]
    · exact iff_of_true (h.feed_of_terminated hopen hok hne) (Or.inl hopen)
  · rw [h.feed_iff_of_back hback hok]
    simp [hback]

/-! ## The line feed at the end -/

/-- A text that an edit leaves ends in a line feed if the text before did, or if the block ended it
and the line that is left last is blank. -/
theorem replaceBlock_feed_iff (hok : replaceBlock content n expected suggested = .ok new)
    (hne : new ≠ "") :
    new.toList.getLast? = some '\n' ↔ content.toList.getLast? = some '\n' ∨
      n - 1 + (linesOf expected).length = (linesOf content).length ∧
        ((linesOf content).take (n - 1) ++ linesOf suggested).getLast? = some "" := by
  have hfits := (replaceBlock_isOk content ⟨⟨""⟩, n, expected, suggested⟩).1 ⟨new, hok⟩
  obtain ⟨front, back, h⟩ := parts_of_fits hfits
  rw [h.feed_iff hok hne, ← h.reaches_end_iff]

/-- The last line of an unterminated text is deleted, and the one above it is not blank. -/
theorem replaceBlock_feed_iff_of_deletion :
    replaceBlock "a\r\nb" 2 "b" "" = .ok "a" ∧
      ("a".toList.getLast? = some '\n' ↔ "a\r\nb".toList.getLast? = some '\n' ∨
        2 - 1 + (linesOf "b").length = (linesOf "a\r\nb").length ∧
          ((linesOf "a\r\nb").take (2 - 1) ++ linesOf "").getLast? = some "") := by
  have hok : replaceBlock "a\r\nb" 2 "b" "" = .ok "a" := by decide
  exact ⟨hok, replaceBlock_feed_iff hok (by decide)⟩

/-- An unterminated text ends in a line feed after its last line was deleted, because the line above
it is blank, and after it was replaced by lines of which the last is blank. -/
theorem replaceBlock_adds_feed :
    replaceBlock "a\n\nb" 3 "b" "" = .ok "a\n" ∧ replaceBlock "a" 1 "a" "x\n\n" = .ok "x\n" ∧
      ¬ ∀ content n expected suggested new, replaceBlock content n expected suggested = .ok new →
        new ≠ "" → (new.toList.getLast? = some '\n' ↔ content.toList.getLast? = some '\n') := by
  have hdeleted : replaceBlock "a\n\nb" 3 "b" "" = .ok "a\n" := by decide
  refine ⟨hdeleted, by decide, fun hall => ?_⟩
  have hfeed := (hall _ _ _ _ _ hdeleted (by decide)).1 (by decide)
  exact absurd hfeed (by decide)

end Edit

end CodeReview
