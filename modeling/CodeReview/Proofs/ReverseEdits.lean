import CodeReview.Proofs.BlockEdits

/-!
# Edits that are taken back

Where all lines of a text end in the same way (`Uniform`), so do all lines after an edit
(`Parts.split_of_uniform`), and a line is told by what stands in it.  The suggested lines then stand
where the expected ones stood, and the edit that asks for the expected lines in their place puts back
the very same lines (`replaceBlock_reverts`).
-/

namespace CodeReview

namespace Edit

variable {content expected suggested new : String} {n : Nat} {eol : Eol} {q : ChangeRequest}
  {front back block ls : List Line} {ts : List (List Char)}

/-! ## Lines with one terminator -/

/-- Whether lines all have one terminator. -/
def Uniform (eol : Eol) (ls : List Line) : Prop :=
  ∀ l ∈ ls, l.eol = eol

theorem Uniform.terminated (h : Uniform eol ls) (heol : eol ≠ .none) :
    ∀ l ∈ ls, l.IsTerminated :=
  fun l hl hnone => heol ((h l hl).symm.trans hnone)

theorem uniform_map (eol : Eol) (ts : List (List Char)) : Uniform eol (ts.map (Line.mk · eol)) :=
  List.forall_mem_map.2 fun _ _ => rfl

/-- Lines with one terminator are told by their texts. -/
theorem Uniform.map_text (h : Uniform eol ls) : (ls.map Line.text).map (Line.mk · eol) = ls := by
  have hsame : ∀ l ∈ ls, (⟨l.text, eol⟩ : Line) = id l := by
    intro l hl
    rw [← h l hl]
    rfl
  exact (List.map_map ..).trans ((List.map_congr_left hsame).trans (List.map_id ls))

theorem insertion_of_uniform (h : Uniform eol block) (hne : block ≠ [])
    (ts : List (List Char)) : insertion block ts = ts.map (Line.mk · eol) := by
  have hfirst : eolOf block.head? = eol := by
    rw [List.head?_eq_some_head hne]
    exact h _ (List.head_mem hne)
  have hlast : eolOf block.getLast? = eol := by
    rw [List.getLast?_eq_some_getLast hne]
    exact h _ (List.getLast_mem hne)
  rw [insertion, hfirst, hlast]
  cases ts using List.reverseRecOn with
  | nil => rfl
  | append_singleton ts t => rw [terminate_concat, List.map_append, List.map_singleton]

/-! ## The edit and its reverse -/

/-- The lines above a block, those of it and those below it. -/
theorem Parts.uniform (h : Parts content q front back)
    (huniform : Uniform eol (Line.split content.toList)) :
    Uniform eol front ∧ Uniform eol (q.target content) ∧ Uniform eol back := by
  rw [h.split, Uniform, List.forall_mem_append, List.forall_mem_append] at huniform
  exact ⟨huniform.1.1, huniform.1.2, huniform.2⟩

theorem Parts.terminated_of_uniform (h : Parts content q front back)
    (huniform : Uniform eol (Line.split content.toList)) (heol : eol ≠ .none) :
    ∀ l ∈ front ++ q.target content, l.IsTerminated := by
  obtain ⟨hfront, hblock, -⟩ := h.uniform huniform
  exact List.forall_mem_append.2 ⟨hfront.terminated heol, hblock.terminated heol⟩

/-- The lines of a text with one terminator after an edit. -/
theorem Parts.split_of_uniform (h : Parts content q front back)
    (huniform : Uniform eol (Line.split content.toList)) (heol : eol ≠ .none)
    (hclean : eol = .lf → ∀ t ∈ snippetLines q.suggested, t.getLast? ≠ some '\r')
    (hok : replaceBlock content q.line q.expected q.suggested = .ok new) :
    Line.split new.toList =
      front ++ (snippetLines q.suggested).map (Line.mk · eol) ++ back := by
  obtain ⟨hfront, hblock, hback⟩ := h.uniform huniform
  have hnew : new.toList =
      Line.join (front ++ (snippetLines q.suggested).map (Line.mk · eol) ++ back) := by
    have hedit := h.edit (h.terminated_of_uniform huniform heol)
    obtain rfl := Except.ok.inj (hedit.symm.trans hok)
    rw [insertion_of_uniform hblock h.nonempty, String.toList_ofList, Line.join_append,
      Line.join_append]
  have hproper := (Line.proper_split content.toList).isProper
  rw [h.split, List.forall_mem_append, List.forall_mem_append] at hproper
  have hinserted : ∀ t ∈ snippetLines q.suggested, Line.IsProper ⟨t, eol⟩ := fun t ht =>
    ⟨noFeed_of_mem_snippetLines ht, fun hlf => hclean hlf t ht, fun hnone => absurd hnone heol⟩
  rw [hnew]
  refine (Line.proper_of_terminated ?_).split_join
  rw [List.forall_mem_append, List.forall_mem_append, List.forall_mem_map]
  exact ⟨⟨fun l hl => ⟨hproper.1.1 l hl, hfront.terminated heol l hl⟩,
    fun t ht => ⟨hinserted t ht, heol⟩⟩,
    fun l hl => ⟨hproper.2 l hl, hback.terminated heol l hl⟩⟩

/-- Where the suggested lines stand in the place of the expected ones, the reverse edit puts these back
there. -/
theorem Parts.revert (h : Parts content q front back)
    (huniform : Uniform eol (Line.split content.toList)) (heol : eol ≠ .none)
    (hne : snippetLines q.suggested ≠ [])
    (hsplit : Line.split new.toList =
      front ++ (snippetLines q.suggested).map (Line.mk · eol) ++ back) :
    replaceBlock new q.line q.suggested q.expected = .ok content := by
  obtain ⟨-, hblock, -⟩ := h.uniform huniform
  let inserted := (snippetLines q.suggested).map (Line.mk · eol)
  have hinserted : Uniform eol inserted := uniform_map eol _
  have hnonempty : inserted ≠ [] := mt List.map_eq_nil_iff.1 hne
  have htexts : inserted.map Line.text = snippetLines q.suggested := by
    rw [List.map_map]
    exact List.map_id' _
  have hrestored : (snippetLines q.expected).map (Line.mk · eol) = q.target content := by
    have hexpected : (q.target content).map Line.text = snippetLines q.expected := h.block
    rw [← hexpected]
    exact hblock.map_text
  rw [← Line.split_join_of_suffix h.split (h.terminated_of_uniform huniform heol)] at hsplit
  have hreverse := replaceBlock_of_parts (q := ⟨q.file, q.line, q.suggested, q.expected⟩) hsplit
    h.line hnonempty htexts (hinserted.terminated heol)
  rw [insertion_of_uniform hinserted hnonempty, hrestored, ← Line.join_append,
    ← Line.join_append, ← h.split, Line.join_split, String.ofList_toList] at hreverse
  exact hreverse

/-- An edit of a text whose lines all end in the same way leaves such a text, and the reverse edit gives
the text as it was, character by character, however the snippets end their lines and however many lines
they have. -/
theorem replaceBlock_reverts (heol : eol ≠ .none)
    (huniform : ∀ l ∈ Line.split content.toList, l.eol = eol) (hne : linesOf suggested ≠ [])
    (hclean : eol = .lf → ∀ l ∈ linesOf suggested, l.toList.getLast? ≠ some '\r')
    (hok : replaceBlock content n expected suggested = .ok new) :
    (∀ l ∈ Line.split new.toList, l.eol = eol) ∧
      replaceBlock new n suggested expected = .ok content := by
  let q : ChangeRequest := ⟨⟨""⟩, n, expected, suggested⟩
  obtain ⟨front, back, h⟩ := parts_of_fits ((replaceBlock_isOk content q).1 ⟨new, hok⟩)
  have hsplit : Line.split new.toList =
      front ++ (snippetLines suggested).map (Line.mk · eol) ++ back := by
    refine h.split_of_uniform huniform heol (fun hlf => ?_) hok
    have hlines := hclean hlf
    rw [linesOf_eq, List.forall_mem_map] at hlines
    simpa using hlines
  refine ⟨?_, h.revert huniform heol (mt linesOf_eq_nil.2 hne) hsplit⟩
  obtain ⟨hfront, -, hback⟩ := h.uniform huniform
  rw [hsplit, List.forall_mem_append, List.forall_mem_append]
  exact ⟨⟨hfront, uniform_map eol _⟩, hback⟩

/-- Two of three lines are replaced by one that ends in a carriage return of its own, in a text that
ends its lines with a carriage return and a line feed; the snippets do not. -/
theorem replaceBlock_reverts_of_stray_return :
    replaceBlock "a\r\nb\r\nc\r\n" 2 "b\nc" "x\r" = .ok "a\r\nx\r\r\n" ∧
      (∀ l ∈ Line.split "a\r\nx\r\r\n".toList, l.eol = .crlf) ∧
      replaceBlock "a\r\nx\r\r\n" 2 "x\r" "b\nc" = .ok "a\r\nb\r\nc\r\n" := by
  have hok : replaceBlock "a\r\nb\r\nc\r\n" 2 "b\nc" "x\r" = .ok "a\r\nx\r\r\n" := by decide
  exact ⟨hok, replaceBlock_reverts (by decide) (by decide) (by decide) nofun hok⟩

end Edit

end CodeReview
