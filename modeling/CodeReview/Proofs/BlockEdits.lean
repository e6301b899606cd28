import CodeReview.Proofs.Edits
import CodeReview.Proofs.ProperLines

/-!
# Edits of one block

An edit is made exactly where its expected lines stand (`Stands`); elsewhere it is refused, for one
reason (`Refused`).  Where it is made, the new lines stand between those above and those below the
block (`Parts.toList_eq`).  Put together they are proper again, so they are the lines of the new text
(`Parts.split_eq`), except where the end of an unterminated text is replaced by nothing or by lines of
which the last is blank (`EndsClean`).
-/

namespace CodeReview

namespace Edit

variable {content expected suggested new : String} {n : Nat} {front block back : List Line}

/-! ## Lines without their terminators -/

theorem linesOf_eq (text : String) : linesOf text = (snippetLines text).map String.ofList :=
  rfl

theorem snippetLines_eq (text : String) :
    snippetLines text = (Line.split text.toList).map Line.text :=
  Line.texts_eq text.toList

theorem length_linesOf (text : String) : (linesOf text).length = (snippetLines text).length := by
  rw [linesOf_eq, List.length_map]

theorem linesOf_eq_nil {text : String} : linesOf text = [] ↔ snippetLines text = [] := by
  rw [linesOf_eq, List.map_eq_nil_iff]

theorem getElem?_linesOf (text : String) (i : Nat) :
    (linesOf text)[i]? = ((Line.split text.toList)[i]?.map Line.text).map String.ofList := by
  rw [linesOf_eq, snippetLines_eq, List.getElem?_map, List.getElem?_map]

theorem getLast?_linesOf (text : String) :
    (linesOf text).getLast? = (snippetLines text).getLast?.map String.ofList := by
  rw [linesOf_eq, List.getLast?_map]

theorem noFeed_of_mem_snippetLines {text : String} {t : List Char} (h : t ∈ snippetLines text) :
    '\n' ∉ t := by
  rw [snippetLines_eq] at h
  obtain ⟨l, hl, rfl⟩ := List.mem_map.1 h
  exact ((Line.proper_split _).isProper l hl).noFeed

/-! ## Where an edit is made -/

/-- Whether the expected lines stand in a text at a line, counted from one. -/
structure Stands (content : String) (n : Nat) (expected : String) : Prop where
  line : 1 ≤ n
  nonempty : linesOf expected ≠ []
  inside : n - 1 + (linesOf expected).length ≤ (linesOf content).length
  same : ((linesOf content).drop (n - 1)).take (linesOf expected).length = linesOf expected

/-- Why an edit is not made: the block does not lie inside the text, or it does and a line of it, the
first one of several, is not the expected one. -/
inductive Refused (content : String) (n : Nat) (expected : String) : EditError → Prop
  | outOfRange (h : n = 0 ∨ linesOf expected = [] ∨
      (linesOf content).length < n - 1 + (linesOf expected).length) :
      Refused content n expected
        (.outOfRange n (linesOf expected).length (linesOf content).length)
  | mismatch {i : Nat} {want found : String} (hline : 1 ≤ n) (hnonempty : linesOf expected ≠ [])
      (hinside : n - 1 + (linesOf expected).length ≤ (linesOf content).length)
      (hwant : (linesOf expected)[i]? = some want)
      (hfound : (linesOf content)[n - 1 + i]? = some found) (hother : found ≠ want)
      (hfirst : ∀ k < i, (linesOf content)[n - 1 + k]? = (linesOf expected)[k]?) :
      Refused content n expected (.mismatch (n + i) want found)

theorem stands_iff_fits (q : ChangeRequest) :
    Stands content q.line q.expected ↔ q.fits content = true := by
  have hlength : (linesOf q.expected).length = q.block.length := length_linesOf _
  have hnil : linesOf q.expected = [] ↔ q.block = [] := linesOf_eq_nil
  have hsame : ((linesOf content).drop (q.line - 1)).take (linesOf q.expected).length =
      linesOf q.expected ↔ (q.target content).map Line.text = q.block := by
    rw [hlength, linesOf_eq, linesOf_eq, ← List.map_drop, ← List.map_take,
      List.map_inj_right fun _ _ => String.ofList_injective, ChangeRequest.target, List.map_take,
      List.map_drop, snippetLines_eq content]
    rfl
  rw [ChangeRequest.fits_iff, ← hsame, ne_eq, ← hnil]
  refine ⟨fun h => ⟨h.line, h.nonempty, h.same⟩, ?_⟩
  rintro ⟨hline, hne, hmatch⟩
  have hcount := congrArg List.length hmatch
  have hpos := List.length_pos_iff.2 hne
  rw [List.length_take, List.length_drop] at hcount
  exact ⟨hline, hne, by omega, hmatch⟩

theorem replaceBlock_isOk_iff :
    (∃ new, replaceBlock content n expected suggested = .ok new) ↔ Stands content n expected :=
  (replaceBlock_isOk content ⟨⟨""⟩, n, expected, suggested⟩).trans
    (stands_iff_fits ⟨⟨""⟩, n, expected, suggested⟩).symm

/-! ## Why an edit is refused -/

theorem firstMismatch_eq_some {wants : List (List Char)} {ls : List Line} {e : EditError} :
    firstMismatch n wants ls = some e ↔ ∃ i want l, wants[i]? = some want ∧ ls[i]? = some l ∧
      l.text ≠ want ∧ (∀ k < i, ls[k]?.map Line.text = wants[k]?) ∧
      e = .mismatch (n + i) (String.ofList want) (String.ofList l.text) := by
  induction wants generalizing n ls with
  | nil => simp [firstMismatch]
  | cons want wants ih =>
    cases ls with
    | nil => simp [firstMismatch]
    | cons l ls =>
      rw [firstMismatch]
      by_cases hl : l.text = want
      · rw [if_pos hl, ih]
        constructor
        · rintro ⟨i, want', l', hwant, hfound, hother, hfirst, rfl⟩
          refine ⟨i + 1, want', l', hwant, hfound, hother, ?_, ?_⟩
          · intro k hk
            cases k with
            | zero => exact congrArg some hl
            | succ k => exact hfirst k (Nat.lt_of_succ_lt_succ hk)
          · rw [Nat.add_assoc, Nat.add_comm 1 i]
        · rintro ⟨i, want', l', hwant, hfound, hother, hfirst, rfl⟩
          cases i with
          | zero =>
            cases hwant
            cases hfound
            exact absurd hl hother
          | succ i =>
            refine ⟨i, want', l', hwant, hfound, hother, ?_, ?_⟩
            · exact fun k hk => hfirst (k + 1) (Nat.succ_lt_succ hk)
            · rw [Nat.add_assoc, Nat.add_comm 1 i]
      · rw [if_neg hl]
        constructor
        · intro he
          refine ⟨0, want, l, rfl, rfl, hl, fun k hk => absurd hk (Nat.not_lt_zero k), ?_⟩
          exact (Option.some.inj he).symm
        · rintro ⟨i, want', l', hwant, hfound, hother, hfirst, rfl⟩
          cases i with
          | zero =>
            cases hwant
            cases hfound
            rfl
          | succ i => exact absurd (Option.some.inj (hfirst 0 (Nat.succ_pos i))) hl

/-- Inside a text, the first line that is not the expected one is why an edit is refused. -/
theorem firstMismatch_eq_some_iff_refused {e : EditError} (hline : 1 ≤ n)
    (hnonempty : linesOf expected ≠ [])
    (hinside : n - 1 + (linesOf expected).length ≤ (linesOf content).length) :
    firstMismatch n (snippetLines expected) ((Line.split content.toList).drop (n - 1)) = some e ↔
      Refused content n expected e := by
  rw [firstMismatch_eq_some]
  constructor
  · rintro ⟨i, want, l, hwant, hfound, hother, hfirst, rfl⟩
    rw [List.getElem?_drop] at hfound
    refine .mismatch hline hnonempty hinside ?_ ?_ ?_ ?_
    · rw [linesOf_eq, List.getElem?_map, hwant]
      rfl
    · rw [getElem?_linesOf, hfound]
      rfl
    · exact fun h => hother (String.ofList_injective h)
    · intro k hk
      have hsame := hfirst k hk
      rw [List.getElem?_drop] at hsame
      rw [getElem?_linesOf, hsame, linesOf_eq, List.getElem?_map]
  · intro hrefused
    cases hrefused with
    | outOfRange hout =>
      rcases hout with hzero | hempty | hshort
      · omega
      · exact absurd hempty hnonempty
      · omega
    | @mismatch i want found _ _ _ hwant hfound hother hfirst =>
      rw [linesOf_eq, List.getElem?_map, Option.map_eq_some_iff] at hwant
      obtain ⟨want, hwant, rfl⟩ := hwant
      rw [getElem?_linesOf, Option.map_map, Option.map_eq_some_iff] at hfound
      obtain ⟨l, hfound, rfl⟩ := hfound
      refine ⟨i, want, l, hwant, ?_, fun h => hother (congrArg String.ofList h), ?_, rfl⟩
      · rwa [List.getElem?_drop]
      · intro k hk
        have hsame := hfirst k hk
        rw [getElem?_linesOf, linesOf_eq, List.getElem?_map] at hsame
        rw [List.getElem?_drop]
        exact Option.map_injective (fun _ _ => String.ofList_injective) hsame

theorem replaceBlock_eq_error_iff {e : EditError} :
    replaceBlock content n expected suggested = .error e ↔ Refused content n expected e := by
  have hlocate : replaceBlock content n expected suggested = .error e ↔
      locate (Line.split content.toList) n (snippetLines expected) = .error e := by
    simp only [replaceBlock]
    cases locate (Line.split content.toList) n (snippetLines expected) <;> simp
  have htotal : (linesOf content).length = (Line.split content.toList).length := by
    rw [linesOf_eq_map_split, List.length_map]
  rw [hlocate, locate]
  by_cases hout : n = 0 ∨ snippetLines expected = [] ∨
      (Line.split content.toList).length < n - 1 + (snippetLines expected).length
  · rw [if_pos hout, ← length_linesOf, ← htotal]
    rw [← linesOf_eq_nil, ← length_linesOf, ← htotal] at hout
    constructor
    · rintro ⟨⟩
      exact .outOfRange hout
    · intro hrefused
      cases hrefused with
      | outOfRange _ => rfl
      | mismatch hline hnonempty hinside =>
        rcases hout with hzero | hempty | hshort
        · omega
        · exact absurd hempty hnonempty
        · omega
  · rw [if_neg hout]
    rw [← linesOf_eq_nil, ← length_linesOf, ← htotal, not_or, not_or] at hout
    obtain ⟨hzero, hnonempty, hshort⟩ := hout
    rw [← firstMismatch_eq_some_iff_refused (Nat.pos_of_ne_zero hzero) hnonempty
      (Nat.le_of_not_lt hshort)]
    cases firstMismatch n (snippetLines expected) ((Line.split content.toList).drop (n - 1)) <;>
      simp

/-! ## New lines -/

variable {eol last : Eol} {t : List Char} {ts : List (List Char)} {ls : List Line}

theorem terminate_concat (eol last : Eol) (ts : List (List Char)) (t : List Char) :
    terminate eol last (ts ++ [t]) = ts.map (Line.mk · eol) ++ [⟨t, last⟩] := by
  induction ts with
  | nil => rfl
  | cons u ts ih =>
    cases ts with
    | nil => rfl
    | cons v ts => exact congrArg (⟨u, eol⟩ :: ·) ih

theorem map_text_terminate (eol last : Eol) (ts : List (List Char)) :
    (terminate eol last ts).map Line.text = ts := by
  cases ts using List.reverseRecOn with
  | nil => rfl
  | append_singleton ts t =>
    rw [terminate_concat, List.map_append, List.map_map]
    exact congrArg (· ++ [t]) (List.map_id' ts)

theorem terminated_terminate (heol : eol ≠ .none) (hlast : last ≠ .none) :
    ∀ l ∈ terminate eol last ts, l.IsTerminated := by
  cases ts using List.reverseRecOn with
  | nil => exact nofun
  | append_singleton ts t =>
    simp only [terminate_concat, List.forall_mem_append, List.forall_mem_map,
      List.forall_mem_singleton]
    exact ⟨fun _ _ => heol, hlast⟩

/-- New lines without carriage return at their end are proper, if the last one is not left blank and
unterminated. -/
theorem proper_terminate (heol : eol ≠ .none)
    (hclean : ∀ t ∈ ts, '\n' ∉ t ∧ t.getLast? ≠ some '\r')
    (hlast : last = .none → ts.getLast? ≠ some []) : Line.Proper (terminate eol last ts) := by
  cases ts using List.reverseRecOn with
  | nil => trivial
  | append_singleton ts t =>
    obtain ⟨hts, ht⟩ := List.forall_mem_append.1 hclean
    obtain ⟨hfeed, hreturn⟩ := ht t List.mem_cons_self
    rw [terminate_concat, Line.proper_append_iff]
    have hinner : ∀ l ∈ ts.map (Line.mk · eol), l.IsProper ∧ l.IsTerminated := by
      rw [List.forall_mem_map]
      intro u hu
      exact ⟨⟨(hts u hu).1, fun _ => (hts u hu).2, fun hnone => absurd hnone heol⟩, heol⟩
    have hend : Line.IsProper ⟨t, last⟩ := by
      refine ⟨hfeed, fun _ => hreturn, fun hnone ht => hlast hnone ?_⟩
      rw [List.getLast?_concat]
      exact congrArg some ht
    exact ⟨Line.proper_of_terminated hinner, fun _ l hl => (hinner l hl).2, hend,
      fun hne => absurd rfl hne, trivial⟩

theorem innerEol_ne_none (ls block : List Line) : innerEol ls block ≠ .none := by
  unfold innerEol prevailingEol
  split
  · split <;> exact nofun
  · assumption

/-! ## What an edit makes of a text -/

variable {q : ChangeRequest}

/-- The lines that take the place of the block of a request. -/
def inserted (content : String) (q : ChangeRequest) : List Line :=
  terminate (innerEol (Line.split content.toList) (q.target content))
    (eolOf (q.target content).getLast?) (snippetLines q.suggested)

theorem map_text_inserted (content : String) (q : ChangeRequest) :
    (inserted content q).map Line.text = snippetLines q.suggested :=
  map_text_terminate _ _ _

theorem Parts.toList_eq (h : Parts content q front back)
    (hok : replaceBlock content q.line q.expected q.suggested = .ok new) :
    new.toList = Line.join
      (if snippetLines q.suggested = [] ∧ back = [] ∧ eolOf (q.target content).getLast? = .none
        then unterminateLast front else front ++ inserted content q ++ back) := by
  rw [inserted, h.split, ← splice_parts h.nonempty]
  simp only [replaceBlock] at hok
  split at hok
  · cases hok
  · obtain rfl := Except.ok.inj hok
    rw [String.toList_ofList, ← h.split, h.length, h.line]
    rfl

/-- The last line of a block that other lines follow is terminated. -/
theorem Parts.eolOf_block (h : Parts content q front back) (hback : back ≠ []) :
    eolOf (q.target content).getLast? ≠ .none :=
  eolOf_getLast? h.nonempty fun l hl =>
    Line.terminated_of_followed h.split hback l (List.mem_append_right _ hl)

theorem Parts.front_terminated (h : Parts content q front back) :
    ∀ l ∈ front, l.IsTerminated := by
  have hsplit := h.split
  rw [List.append_assoc] at hsplit
  exact Line.terminated_of_followed hsplit fun hnil =>
    h.nonempty (List.append_eq_nil_iff.1 hnil).1

/-- Whether the new text ends in a line that can be told: the text ends in a line feed, its last line
is not replaced, or it is replaced by lines of which the last is not blank. -/
def EndsClean (content : String) (n : Nat) (expected suggested : String) : Prop :=
  content.toList.getLast? = some '\n' ∨
    n - 1 + (linesOf expected).length < (linesOf content).length ∨
    ∃ l, (linesOf suggested).getLast? = some l ∧ l ≠ ""

/-- A block reaches the end of a text if no lines are below it. -/
theorem Parts.reaches_end_iff (h : Parts content q front back) :
    q.line - 1 + (linesOf q.expected).length = (linesOf content).length ↔ back = [] := by
  have hblock : (linesOf q.expected).length = q.block.length := length_linesOf _
  rw [hblock, linesOf_eq_map_split, List.length_map, h.total, ← List.length_eq_zero_iff]
  omega

theorem Parts.endsClean_cases (h : Parts content q front back)
    (hend : EndsClean content q.line q.expected q.suggested) :
    eolOf (q.target content).getLast? ≠ .none ∨
      ∃ t, (snippetLines q.suggested).getLast? = some t ∧ t ≠ [] := by
  rcases hend with hfeed | hinside | hlast
  · refine Or.inl (eolOf_getLast? h.nonempty fun l hl => ?_)
    refine Line.terminated_of_newline hfeed l ?_
    rw [h.split]
    exact List.mem_append_left _ (List.mem_append_right _ hl)
  · exact Or.inl (h.eolOf_block fun hback => Nat.ne_of_lt hinside (h.reaches_end_iff.2 hback))
  · obtain ⟨l, hl, hne⟩ := hlast
    rw [getLast?_linesOf, Option.map_eq_some_iff] at hl
    obtain ⟨t, ht, rfl⟩ := hl
    exact Or.inr ⟨t, ht, fun hnil => hne (congrArg String.ofList hnil)⟩

/-- The lines of a text after an edit whose end can be told. -/
theorem Parts.split_eq (h : Parts content q front back)
    (hok : replaceBlock content q.line q.expected q.suggested = .ok new)
    (hclean : ∀ t ∈ snippetLines q.suggested, t.getLast? ≠ some '\r')
    (hend : EndsClean content q.line q.expected q.suggested) :
    Line.split new.toList = front ++ inserted content q ++ back := by
  have hcases := h.endsClean_cases hend
  have hkept : ¬ (snippetLines q.suggested = [] ∧ back = [] ∧
      eolOf (q.target content).getLast? = .none) := by
    rintro ⟨hnone, -, heol⟩
    rcases hcases with hterm | ⟨t, ht, -⟩
    · exact hterm heol
    · rw [hnone] at ht
      cases ht
  have hsuggested : ∀ t ∈ snippetLines q.suggested, '\n' ∉ t ∧ t.getLast? ≠ some '\r' :=
    fun t ht => ⟨noFeed_of_mem_snippetLines ht, hclean t ht⟩
  have hlast : eolOf (q.target content).getLast? = .none →
      (snippetLines q.suggested).getLast? ≠ some [] := by
    intro heol hblank
    rcases hcases with hterm | ⟨t, ht, hne⟩
    · exact hterm heol
    · rw [hblank] at ht
      exact hne (Option.some.inj ht).symm
  have hproper := Line.proper_split content.toList
  rw [h.split, Line.proper_append_iff, Line.proper_append_iff] at hproper
  obtain ⟨⟨hfront, -, -⟩, -, hback⟩ := hproper
  rw [h.toList_eq hok, if_neg hkept]
  refine Line.Proper.split_join ?_
  rw [Line.proper_append_iff, Line.proper_append_iff]
  refine ⟨⟨hfront, fun _ => h.front_terminated, ?_⟩, ?_, hback⟩
  · exact proper_terminate (innerEol_ne_none _ _) hsuggested hlast
  · intro hne
    rw [List.forall_mem_append]
    exact ⟨h.front_terminated,
      terminated_terminate (innerEol_ne_none _ _) (h.eolOf_block hne)⟩

/-- What an edit makes of a text: the characters above and below the block are kept, and the lines of
the block are replaced by the suggested ones. -/
structure Spliced (content : String) (n : Nat) (expected suggested new : String) : Prop where
  kept : ∃ middle, new.toList = Line.join ((Line.split content.toList).take (n - 1)) ++ middle ++
    Line.join ((Line.split content.toList).drop (n - 1 + (linesOf expected).length))
  lines : linesOf new = (linesOf content).take (n - 1) ++ linesOf suggested ++
    (linesOf content).drop (n - 1 + (linesOf expected).length)

theorem spliced_of_ok (hok : replaceBlock content q.line q.expected q.suggested = .ok new)
    (hclean : ∀ l ∈ linesOf q.suggested, l.toList.getLast? ≠ some '\r')
    (hend : EndsClean content q.line q.expected q.suggested) :
    Spliced content q.line q.expected q.suggested new := by
  obtain ⟨front, back, h⟩ := parts_of_fits ((replaceBlock_isOk content q).1 ⟨new, hok⟩)
  have hsplit : Line.split new.toList = front ++ inserted content q ++ back := by
    refine h.split_eq hok ?_ hend
    rw [linesOf_eq, List.forall_mem_map] at hclean
    simpa using hclean
  have hlength : (linesOf q.expected).length = q.block.length := length_linesOf _
  constructor
  · refine ⟨Line.join (inserted content q), ?_⟩
    rw [hlength, h.above, h.below, ← Line.join_append, ← Line.join_append, ← hsplit,
      Line.join_split]
  · have hnew : (inserted content q).map (fun l => String.ofList l.text) = linesOf q.suggested := by
      rw [linesOf_eq, ← map_text_inserted content q, List.map_map]
      rfl
    rw [hlength, linesOf_eq_map_split new, hsplit, linesOf_eq_map_split content, ← List.map_take,
      ← List.map_drop, h.above, h.below, List.map_append, List.map_append, hnew]

/-- An edit is made exactly where its expected lines stand, and refused for the one reason there is
elsewhere.  What is made of the text is what was to be made of it, whatever terminators the lines
have: the text above and below the block is kept, and the lines are those above it, the suggested ones
and those below it. -/
theorem replaceBlock_splices (content : String) (n : Nat) (expected suggested : String) :
    ((∃ new, replaceBlock content n expected suggested = .ok new) ↔ Stands content n expected) ∧
      (∀ e, replaceBlock content n expected suggested = .error e ↔ Refused content n expected e) ∧
      ∀ new, replaceBlock content n expected suggested = .ok new →
        (∀ l ∈ linesOf suggested, l.toList.getLast? ≠ some '\r') →
        EndsClean content n expected suggested → Spliced content n expected suggested new :=
  ⟨replaceBlock_isOk_iff, fun _ => replaceBlock_eq_error_iff,
    fun _ => spliced_of_ok (q := ⟨⟨""⟩, n, expected, suggested⟩)⟩

/-- A text that ends its lines in two ways, and of which the last, unterminated line is replaced by
three. -/
theorem replaceBlock_splices_of_mixed :
    replaceBlock "a\r\nb\nc" 2 "b\nc" "x\n\nz" = .ok "a\r\nx\n\nz" ∧
      Spliced "a\r\nb\nc" 2 "b\nc" "x\n\nz" "a\r\nx\n\nz" := by
  have hok : replaceBlock "a\r\nb\nc" 2 "b\nc" "x\n\nz" = .ok "a\r\nx\n\nz" := by decide
  refine ⟨hok, (replaceBlock_splices "a\r\nb\nc" 2 "b\nc" "x\n\nz").2.2 _ hok ?_ ?_⟩
  · decide
  · exact Or.inr (Or.inr ⟨"z", by decide, by decide⟩)

end Edit

end CodeReview
