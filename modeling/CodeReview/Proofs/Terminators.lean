import CodeReview.Proofs.TrailingFeed

/-!
# The terminators of new lines

Which terminators an edit writes behind the suggested lines (`replaceBlock_terminators`): behind all
but the last one that of the first replaced line, and behind the last one that of the last replaced
line, which may be another one.  A text can thus get a line whose terminator is not that of the first
replaced line although that line has one (`replaceBlock_mixes_terminators`).  Only where the first
replaced line has none, which means that it ends the text, does it matter what the rest of the text
uses.
-/

namespace CodeReview

namespace Line

variable {cs : List Char} {ls : List Line}

theorem exists_crlf_prepend {c : Char} (h : ∃ l ∈ ls, l.eol = .crlf) :
    ∃ l ∈ prepend c ls, l.eol = .crlf := by
  obtain ⟨l, hl, hcrlf⟩ := h
  cases ls with
  | nil => cases hl
  | cons k ks =>
    rw [prepend]
    rcases List.mem_cons.1 hl with rfl | hl
    · have hne : l ≠ ⟨[], .lf⟩ := fun hlf => by rw [hlf] at hcrlf; cases hcrlf
      refine ⟨⟨c :: l.text, l.eol⟩, ?_, hcrlf⟩
      rw [if_neg fun h => hne h.2]
      exact List.mem_cons_self
    · exact ⟨l, List.mem_cons_of_mem _ hl, hcrlf⟩

/-- A text has a line that ends in a carriage return and a line feed exactly if the one stands before
the other somewhere. -/
theorem exists_crlf_iff : (∃ l ∈ split cs, l.eol = .crlf) ↔ ['\r', '\n'] <:+: cs := by
  constructor
  · rintro ⟨l, hl, hcrlf⟩
    obtain ⟨front, back, hsplit⟩ := List.append_of_mem hl
    have hjoin := join_split cs
    rw [hsplit, join_append, join_cons, chars, hcrlf] at hjoin
    refine ⟨join front ++ l.text, join back, ?_⟩
    rw [← hjoin]
    simp [Eol.chars]
  · intro hinfix
    induction cs with
    | nil => simp at hinfix
    | cons c cs ih =>
      rcases List.infix_cons_iff.1 hinfix with hfirst | hlater
      · obtain ⟨rest, hrest⟩ := hfirst
        obtain ⟨rfl, rfl⟩ := List.cons.inj hrest
        have hmem : ⟨[], .crlf⟩ ∈ split ('\r' :: '\n' :: rest) := by
          rw [split_cons, if_neg (by decide), split_cons, if_pos rfl]
          exact List.mem_cons_self
        exact ⟨_, hmem, rfl⟩
      · rw [split_cons]
        split
        · obtain ⟨l, hl, hcrlf⟩ := ih hlater
          exact ⟨l, List.mem_cons_of_mem _ hl, hcrlf⟩
        · exact exists_crlf_prepend (ih hlater)

end Line

namespace Edit

variable {content expected suggested new : String} {n : Nat} {q : ChangeRequest}
  {front back : List Line}

/-! ## The ends of a block -/

theorem Parts.head?_block (h : Parts content q front back) :
    (q.target content).head? = (Line.split content.toList)[q.line - 1]? := by
  have hpos := List.length_pos_iff.2 h.nonempty
  have hlength := h.length
  rw [ChangeRequest.target, List.head?_take, if_neg (by omega), List.head?_drop]

theorem Parts.getLast?_block (h : Parts content q front back) :
    (q.target content).getLast? =
      (Line.split content.toList)[q.line - 1 + (q.block.length - 1)]? := by
  have hpos := List.length_pos_iff.2 h.nonempty
  have hlength := h.length
  rw [List.getLast?_eq_getElem?, hlength, ChangeRequest.target, List.getElem?_take,
    if_pos (by omega), List.getElem?_drop]

/-- The last line of a block is unterminated only at the end of an unterminated text. -/
theorem Parts.eolOf_block_eq_none_iff (h : Parts content q front back) :
    eolOf (q.target content).getLast? = .none ↔
      q.line - 1 + (linesOf q.expected).length = (linesOf content).length ∧
        content.toList.getLast? ≠ some '\n' := by
  rw [h.reaches_end_iff]
  by_cases hback : back = []
  · subst hback
    rw [ne_eq, h.content_feed_iff, not_not, and_iff_right rfl]
  · exact iff_of_false (h.eolOf_block hback) fun hend => hback hend.1

/-! ## New lines -/

theorem eol_of_mem_dropLast_terminate {eol last : Eol} {ts : List (List Char)} {l : Line}
    (h : l ∈ (terminate eol last ts).dropLast) : l.eol = eol := by
  cases ts using List.reverseRecOn with
  | nil => cases h
  | append_singleton ts t =>
    rw [terminate_concat, List.dropLast_concat] at h
    obtain ⟨_, -, rfl⟩ := List.mem_map.1 h
    rfl

theorem getLast?_terminate (eol last : Eol) (ts : List (List Char)) :
    (terminate eol last ts).getLast? = ts.getLast?.map (Line.mk · last) := by
  cases ts using List.reverseRecOn with
  | nil => rfl
  | append_singleton ts t => rw [terminate_concat, List.getLast?_concat, List.getLast?_concat]; rfl

theorem getLast?_inserted (content : String) (hne : linesOf q.suggested ≠ []) :
    ∃ t, (inserted content q).getLast? = some ⟨t, eolOf (q.target content).getLast?⟩ := by
  have hsnippet : snippetLines q.suggested ≠ [] := mt linesOf_eq_nil.2 hne
  refine ⟨(snippetLines q.suggested).getLast hsnippet, ?_⟩
  rw [inserted, getLast?_terminate, List.getLast?_eq_some_getLast hsnippet]
  rfl

/-- The lines that an edit writes between the text above a block and the text below it. -/
structure Written (content : String) (n : Nat) (expected suggested new : String) (ls : List Line) :
    Prop where
  lines : ls.map (fun l => String.ofList l.text) = linesOf suggested
  text : new.toList = Line.join ((Line.split content.toList).take (n - 1)) ++ Line.join ls ++
    Line.join ((Line.split content.toList).drop (n - 1 + (linesOf expected).length))

theorem Parts.written (h : Parts content q front back) (hne : linesOf q.suggested ≠ [])
    (hok : replaceBlock content q.line q.expected q.suggested = .ok new) :
    Written content q.line q.expected q.suggested new (inserted content q) := by
  constructor
  · rw [linesOf_eq, ← map_text_inserted content q, List.map_map]
    rfl
  · have hlength : (linesOf q.expected).length = q.block.length := length_linesOf _
    rw [h.toList_eq hok, if_neg fun hcut => hne (linesOf_eq_nil.2 hcut.1), hlength, h.above, h.below,
      Line.join_append, Line.join_append]

theorem Parts.innerEol_of_terminated (h : Parts content q front back) {first : Line}
    (hfirst : (Line.split content.toList)[q.line - 1]? = some first) (hterm : first.IsTerminated) :
    innerEol (Line.split content.toList) (q.target content) = first.eol := by
  rw [innerEol, h.head?_block, hfirst]
  exact if_neg hterm

theorem Parts.innerEol_of_unterminated (h : Parts content q front back) {first : Line}
    (hfirst : (Line.split content.toList)[q.line - 1]? = some first)
    (hopen : ¬ first.IsTerminated) :
    let eol := innerEol (Line.split content.toList) (q.target content)
    (['\r', '\n'] <:+: content.toList → eol = .crlf) ∧
      (¬ ['\r', '\n'] <:+: content.toList → eol = .lf) := by
  have hprevailing : innerEol (Line.split content.toList) (q.target content) =
      prevailingEol (Line.split content.toList) := by
    rw [innerEol, h.head?_block, hfirst]
    exact if_pos (Decidable.not_not.1 hopen)
  have hany : ((Line.split content.toList).any fun l => l.eol = .crlf) = true ↔
      ['\r', '\n'] <:+: content.toList := by
    rw [← Line.exists_crlf_iff]
    simp
  rw [hprevailing, prevailingEol, ← hany]
  exact ⟨fun hcrlf => if_pos hcrlf, fun hcrlf => if_neg hcrlf⟩

/-- Whether new lines end as the first replaced line does, except for the last one at the end of an
unterminated text. -/
structure EndAsFirst (content : String) (n : Nat) (expected : String) (first : Line)
    (ls : List Line) : Prop where
  inner : ∀ l ∈ ls.dropLast, l.eol = first.eol
  last : ∀ l, ls.getLast? = some l → l.eol = first.eol ∨
    l.eol = .none ∧ n - 1 + (linesOf expected).length = (linesOf content).length ∧
      content.toList.getLast? ≠ some '\n'

/-- The suggested lines are written with the terminator of the first replaced line behind all but the
last, and that of the last replaced line behind the last.  So they end as the first replaced line does
if the last one ends so too, or is unterminated at the end of the text, and otherwise they do not.
Where the first replaced line is unterminated, all but the last get a carriage return and a line feed
if the text has these two anywhere, and otherwise a line feed. -/
theorem replaceBlock_terminators (hok : replaceBlock content n expected suggested = .ok new)
    (hne : linesOf suggested ≠ []) :
    ∃ first last ls, (Line.split content.toList)[n - 1]? = some first ∧
      (Line.split content.toList)[n - 1 + ((linesOf expected).length - 1)]? = some last ∧
      Written content n expected suggested new ls ∧
      (∀ l, ls.getLast? = some l → l.eol = last.eol) ∧
      (first.IsTerminated → (∀ l ∈ ls.dropLast, l.eol = first.eol) ∧
        (EndAsFirst content n expected first ls ↔
          last.eol = first.eol ∨ last.eol = .none)) ∧
      (¬ first.IsTerminated → ∀ l ∈ ls.dropLast,
        (['\r', '\n'] <:+: content.toList → l.eol = .crlf) ∧
          (¬ ['\r', '\n'] <:+: content.toList → l.eol = .lf)) := by
  let q : ChangeRequest := ⟨⟨""⟩, n, expected, suggested⟩
  obtain ⟨front, back, h⟩ := parts_of_fits ((replaceBlock_isOk content q).1 ⟨new, hok⟩)
  have hlength : (linesOf expected).length = q.block.length := length_linesOf _
  have hfirst := List.head?_eq_some_head h.nonempty
  have hlast := List.getLast?_eq_some_getLast h.nonempty
  have hopen := h.eolOf_block_eq_none_iff
  obtain ⟨t, hend⟩ := getLast?_inserted (q := q) content hne
  rw [hlast] at hend hopen
  rw [h.head?_block] at hfirst
  rw [h.getLast?_block, ← hlength] at hlast
  generalize (q.target content).head h.nonempty = first at *
  generalize (q.target content).getLast h.nonempty = last at *
  have hfinal : ∀ l, (inserted content q).getLast? = some l → l.eol = last.eol := fun l hl => by
    rw [← Option.some.inj (hend.symm.trans hl)]
    rfl
  refine ⟨first, last, inserted content q, hfirst, hlast, h.written hne hok, hfinal,
    fun hterm => ?_, fun hunterm l hl => ?_⟩
  · have hinner : ∀ l ∈ (inserted content q).dropLast, l.eol = first.eol := fun l hl =>
      (eol_of_mem_dropLast_terminate hl).trans (h.innerEol_of_terminated hfirst hterm)
    refine ⟨hinner, fun hends => ?_, fun hsame => ⟨hinner, fun l hl => ?_⟩⟩
    · exact (hends.last _ hend).imp id And.left
    · rw [hfinal l hl]
      exact hsame.imp id fun hnone => ⟨hnone, hopen.1 hnone⟩
  · rw [eol_of_mem_dropLast_terminate hl]
    exact h.innerEol_of_unterminated hfirst hunterm

/-- Two lines that end in different ways are replaced by two others. -/
theorem replaceBlock_terminators_of_mixed :
    replaceBlock "a\r\nb\nc" 1 "a\nb" "x\ny" = .ok "x\r\ny\nc" ∧
      linesOf "x\ny" ≠ [] ∧
      ∃ ls, Written "a\r\nb\nc" 1 "a\nb" "x\ny" "x\r\ny\nc" ls ∧
        (∀ l ∈ ls.dropLast, l.eol = .crlf) ∧ ∀ l, ls.getLast? = some l → l.eol = .lf := by
  have hok : replaceBlock "a\r\nb\nc" 1 "a\nb" "x\ny" = .ok "x\r\ny\nc" := by decide
  have hne : linesOf "x\ny" ≠ [] := by decide
  obtain ⟨first, last, ls, hfirst, hlast, hwritten, hend, hinner, -⟩ :=
    replaceBlock_terminators hok hne
  cases hfirst
  cases hlast
  exact ⟨hok, hne, ls, hwritten, (hinner nofun).1, hend⟩

/-- A line feed alone ends the line that takes the place of two, of which the first one ended in a
carriage return and a line feed. -/
theorem replaceBlock_mixes_terminators :
    replaceBlock "a\r\nb\n" 1 "a\nb" "x" = .ok "x\n" ∧
      ¬ ∀ content n expected suggested new, replaceBlock content n expected suggested = .ok new →
        linesOf suggested ≠ [] → ∀ first, (Line.split content.toList)[n - 1]? = some first →
        first.IsTerminated → ∃ ls, Written content n expected suggested new ls ∧
          EndAsFirst content n expected first ls := by
  have hok : replaceBlock "a\r\nb\n" 1 "a\nb" "x" = .ok "x\n" := by decide
  refine ⟨hok, fun hall => ?_⟩
  obtain ⟨ls, hwritten, hends⟩ := hall _ _ _ _ _ hok (by decide) ⟨['a'], .crlf⟩ rfl nofun
  obtain ⟨⟨text, eol⟩, rfl, htext⟩ := List.map_eq_singleton_iff.1 hwritten.lines
  obtain rfl : text = ['x'] := String.ofList_injective htext
  have hjoin := hwritten.text
  cases eol with
  | none => exact absurd hjoin (by decide)
  | lf => exact absurd (hends.last _ rfl) (by decide)
  | crlf => exact absurd hjoin (by decide)

end Edit

end CodeReview
