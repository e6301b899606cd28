import CodeReview.Change.Request
import CodeReview.Proofs.Lines
import Mathlib.Data.List.Basic
import Mathlib.Data.List.Pairwise

/-!
# Several edits of one text at once

A request fits a text if its expected lines stand at its line.  `Edit.replaceAll` puts in the place of
every block that a request fits the text that `Edit.replaceBlock` would put there on its own, all at
once and by the lines of the text as it is.  Made one after another from the bottom upwards, edits of
disjoint blocks come to the same (`replaceBlock_replaceAll`): an edit leaves all lines above its block
as they are, so the blocks above still stand where they stood, and a request that did not fit still
does not (`replaceBlock_replaceAll_of_not_fits`).
-/

namespace CodeReview

namespace ChangeRequest

/-- The lines that a request expects. -/
def block (q : ChangeRequest) : List (List Char) :=
  Edit.snippetLines q.expected

/-- Whether a line number is one of those that a request is to replace. -/
def covers (q : ChangeRequest) (i : Nat) : Bool :=
  decide (q.line ≤ i) && decide (i < q.line + q.block.length)

/-- The lines of a text that a request is about. -/
def target (q : ChangeRequest) (content : String) : List Line :=
  ((Line.split content.toList).drop (q.line - 1)).take q.block.length

/-- Whether the lines that a request expects stand in a text at its line. -/
def fits (q : ChangeRequest) (content : String) : Bool :=
  decide (0 < q.line) && decide (q.block ≠ []) &&
    decide ((q.target content).map Line.text = q.block)

theorem fits_iff {q : ChangeRequest} {content : String} :
    q.fits content = true ↔
      0 < q.line ∧ q.block ≠ [] ∧ (q.target content).map Line.text = q.block := by
  simp [fits, and_assoc]

theorem covers_iff {q : ChangeRequest} {i : Nat} :
    q.covers i = true ↔ q.line ≤ i ∧ i < q.line + q.block.length := by
  simp [covers]

theorem not_covers_iff {q : ChangeRequest} {i : Nat} :
    q.covers i = false ↔ i < q.line ∨ q.line + q.block.length ≤ i := by
  rw [← Bool.not_eq_true, covers_iff]
  omega

/-- Two requests that are to replace no line in common. -/
def Apart (p q : ChangeRequest) : Prop :=
  ∀ i, p.covers i = true → q.covers i = false

theorem Apart.symm {p q : ChangeRequest} (h : p.Apart q) : q.Apart p := by
  intro i hq
  cases hp : p.covers i with
  | false => rfl
  | true =>
    rw [h i hp] at hq
    cases hq

instance : Std.Symm Apart :=
  ⟨fun _ _ h => h.symm⟩

/-- A request that does not begin below another one, and has no line in common with its block, ends
above it. -/
theorem Apart.below {p q : ChangeRequest} (h : p.Apart q) (hline : q.line ≤ p.line)
    (hne : p.block ≠ []) : q.line + q.block.length ≤ p.line := by
  have hpos := List.length_pos_iff.2 hne
  have hcover := h p.line (covers_iff.2 ⟨Nat.le_refl _, by omega⟩)
  rcases not_covers_iff.1 hcover with habove | hbelow
  · omega
  · exact hbelow

end ChangeRequest

namespace Edit

/-! ## Where an edit is made -/

theorem firstMismatch_eq_none {n : Nat} {wants : List (List Char)} {ls : List Line}
    (hlen : wants.length ≤ ls.length) :
    firstMismatch n wants ls = none ↔ (ls.take wants.length).map Line.text = wants := by
  induction wants generalizing n ls with
  | nil => simp [firstMismatch]
  | cons want wants ih =>
    cases ls with
    | nil => cases hlen
    | cons l ls =>
      have hrest : firstMismatch (n + 1) wants ls = none ↔
          (ls.take wants.length).map Line.text = wants := ih (Nat.le_of_succ_le_succ hlen)
      simp only [firstMismatch, List.length_cons, List.take_succ_cons, List.map_cons,
        List.cons.injEq]
      by_cases hl : l.text = want
      · rw [if_pos hl, hrest]
        exact (and_iff_right hl).symm
      · rw [if_neg hl]
        simp [hl]

/-- Expected lines are found where they stand. -/
theorem locate_eq_ok {ls : List Line} {n : Nat} {wants : List (List Char)} :
    locate ls n wants = .ok () ↔
      0 < n ∧ wants ≠ [] ∧ ((ls.drop (n - 1)).take wants.length).map Line.text = wants := by
  unfold locate
  by_cases hout : n = 0 ∨ wants = [] ∨ ls.length < n - 1 + wants.length
  · rw [if_pos hout]
    refine ⟨(fun h => by cases h), ?_⟩
    rintro ⟨hn, hne, hmatch⟩
    rcases hout with hzero | hnil | hshort
    · omega
    · exact absurd hnil hne
    · have hlen := congrArg List.length hmatch
      simp only [List.length_map, List.length_take, List.length_drop] at hlen
      have hpos := List.length_pos_iff.2 hne
      omega
  · rw [if_neg hout]
    have hn : 0 < n := Nat.pos_of_ne_zero fun h => hout (Or.inl h)
    have hne : wants ≠ [] := fun h => hout (Or.inr (Or.inl h))
    have hlen : wants.length ≤ (ls.drop (n - 1)).length := by
      rw [List.length_drop]
      have hfit : ¬ ls.length < n - 1 + wants.length := fun h => hout (Or.inr (Or.inr h))
      omega
    rw [← firstMismatch_eq_none (n := n) hlen]
    cases firstMismatch n wants (ls.drop (n - 1)) with
    | none => exact ⟨fun _ => ⟨hn, hne, rfl⟩, fun _ => rfl⟩
    | some e => simp

/-- An edit is made exactly where its request fits. -/
theorem replaceBlock_isOk (content : String) (q : ChangeRequest) :
    (∃ new, replaceBlock content q.line q.expected q.suggested = .ok new) ↔
      q.fits content = true := by
  rw [ChangeRequest.fits_iff]
  refine Iff.trans ?_ (show locate (Line.split content.toList) q.line q.block = .ok () ↔ _ from
    locate_eq_ok)
  simp only [replaceBlock]
  rw [show snippetLines q.expected = q.block from rfl]
  cases locate (Line.split content.toList) q.line q.block with
  | error e => simp
  | ok _ => simp

/-! ## What an edit puts in -/

/-- The lines that take the place of a block. -/
def insertion (block : List Line) (new : List (List Char)) : List Line :=
  terminate (eolOf block.head?) (eolOf block.getLast?) new

theorem eolOf_getLast? {ls : List Line} (hne : ls ≠ []) (hterm : ∀ l ∈ ls, l.IsTerminated) :
    eolOf ls.getLast? ≠ .none := by
  rw [List.getLast?_eq_some_getLast hne]
  exact hterm _ (List.getLast_mem hne)

/-- The terminator of new lines in front of others: that of the first replaced line, if it has one. -/
def innerEol (ls block : List Line) : Eol :=
  if eolOf block.head? = .none then prevailingEol ls else eolOf block.head?

/-- What becomes of lines of which a block is replaced. -/
theorem splice_parts {front block back : List Line} (hne : block ≠ []) (new : List (List Char)) :
    splice (front ++ block ++ back) front.length block.length new =
      if new = [] ∧ back = [] ∧ eolOf block.getLast? = .none then unterminateLast front
      else front ++
        terminate (innerEol (front ++ block ++ back) block) (eolOf block.getLast?) new ++ back := by
  have hbefore : (front ++ block ++ back).take front.length = front := by simp
  have hblock : ((front ++ block ++ back).drop front.length).take block.length = block := by simp
  have hafter : (front ++ block ++ back).drop (front.length + block.length) = back := by
    rw [← List.length_append, List.drop_left]
  unfold splice
  simp only [hbefore, hblock, hafter]
  by_cases hcut : new = [] ∧ back = []
  · obtain ⟨rfl, rfl⟩ := hcut
    simp only [List.append_nil, List.getLast?_append_of_ne_nil _ hne, terminate]
  · have hkept : ∀ eol : Eol, ¬ (new = [] ∧ back = [] ∧ eol = .none) :=
      fun _ h => hcut ⟨h.1, h.2.1⟩
    rw [if_neg (hkept _), if_neg (hkept _)]
    rfl

/-- Terminated lines are replaced by their insertion, and nothing else changes. -/
theorem splice_eq {front block back : List Line} (hne : block ≠ [])
    (hterm : ∀ l ∈ block, l.IsTerminated) (new : List (List Char)) :
    splice (front ++ block ++ back) front.length block.length new =
      front ++ insertion block new ++ back := by
  have hfirst : eolOf block.head? ≠ .none := by
    rw [List.head?_eq_some_head hne]
    exact hterm _ (List.head_mem hne)
  rw [splice_parts hne, if_neg fun h => eolOf_getLast? hne hterm h.2.2, innerEol, if_neg hfirst]
  rfl

/-- What an edit makes of a text that begins with certain lines, where the block stands behind them
and all of them are terminated. -/
theorem replaceBlock_of_parts {content : String} {q : ChangeRequest} {front block : List Line}
    {v : List Char} (hsplit : Line.split content.toList = front ++ block ++ Line.split v)
    (hline : q.line = front.length + 1) (hne : block ≠ []) (hblock : block.map Line.text = q.block)
    (hterm : ∀ l ∈ block, l.IsTerminated) :
    replaceBlock content q.line q.expected q.suggested = .ok (String.ofList
      (Line.join front ++ Line.join (insertion block (snippetLines q.suggested)) ++ v)) := by
  have hlen : block.length = q.block.length := by
    rw [← hblock, List.length_map]
  have hlocate : locate (Line.split content.toList) q.line q.block = .ok () := by
    refine locate_eq_ok.2 ⟨by omega, ?_, ?_⟩
    · intro hnil
      rw [hnil] at hblock
      exact hne (List.map_eq_nil_iff.1 hblock)
    · rw [hsplit, hline, ← hlen, Nat.add_sub_cancel, List.append_assoc, List.drop_left,
        List.take_left, hblock]
  simp only [replaceBlock]
  rw [show snippetLines q.expected = q.block from rfl, hlocate]
  simp only
  rw [← hlen, hsplit, hline, Nat.add_sub_cancel, splice_eq hne hterm, Line.join_append,
    Line.join_append, Line.join_split]

/-! ## Replacing all blocks at once -/

/-- The text that an edit alone would put in the place of its block: what the edited text has between
the lines above the block and those below it. -/
def placed (content : String) (q : ChangeRequest) : List Char :=
  let ls := Line.split content.toList
  let above := Line.join (ls.take (q.line - 1))
  let below := Line.join (ls.drop (q.line - 1 + q.block.length))
  match replaceBlock content q.line q.expected q.suggested with
  | .ok new => (new.toList.drop above.length).take (new.length - above.length - below.length)
  | .error _ => []

/-- What becomes of a line: the first line of a block that a request fits becomes the text that is put
there, its other lines go, and any other line stays. -/
def piece (content : String) (qs : List ChangeRequest) (i : Nat) (l : Line) : List Char :=
  match qs.find? fun q => q.fits content && q.covers i with
  | some q => if q.line = i then placed content q else []
  | none => l.chars

/-- What becomes of lines that are numbered from `i`. -/
def pieces (content : String) (qs : List ChangeRequest) (i : Nat) : List Line → List Char
  | [] => []
  | l :: ls => piece content qs i l ++ pieces content qs (i + 1) ls

/-- A text with all blocks that requests fit replaced at once. -/
def replaceAll (content : String) (qs : List ChangeRequest) : String :=
  String.ofList (pieces content qs 1 (Line.split content.toList))

variable {content : String} {qs : List ChangeRequest} {q : ChangeRequest}

theorem pieces_append (i : Nat) (ks ls : List Line) :
    pieces content qs i (ks ++ ls) =
      pieces content qs i ks ++ pieces content qs (i + ks.length) ls := by
  induction ks generalizing i with
  | nil => rfl
  | cons k ks ih =>
    simp only [List.cons_append, pieces, ih, List.append_assoc, List.length_cons]
    rw [Nat.add_right_comm i 1 ks.length, Nat.add_assoc i ks.length 1]

/-- Lines that no fitting request covers stay. -/
theorem pieces_of_uncovered {i : Nat} {ls : List Line}
    (h : ∀ q ∈ qs, q.fits content = true → ∀ j, i ≤ j → j < i + ls.length → q.covers j = false) :
    pieces content qs i ls = Line.join ls := by
  induction ls generalizing i with
  | nil => rfl
  | cons l ls ih =>
    have hnone : qs.find? (fun q => q.fits content && q.covers i) = none := by
      rw [List.find?_eq_none]
      intro q hq hboth
      rw [Bool.and_eq_true] at hboth
      have hcover := h q hq hboth.1 i (Nat.le_refl i) (by simp)
      rw [hboth.2] at hcover
      cases hcover
    have hrest := ih (i := i + 1) fun q hq hfits j hi hj =>
      h q hq hfits j (by omega) (by simp only [List.length_cons]; omega)
    rw [pieces, piece, hnone, hrest]
    rfl

/-- A request changes nothing of lines that it does not cover. -/
theorem pieces_cons_of_uncovered {i : Nat} {ls : List Line}
    (h : ∀ j, i ≤ j → j < i + ls.length → (q.fits content && q.covers j) = false) :
    pieces content (q :: qs) i ls = pieces content qs i ls := by
  induction ls generalizing i with
  | nil => rfl
  | cons l ls ih =>
    have hrest := ih (i := i + 1) fun j hi hj =>
      h j (by omega) (by simp only [List.length_cons]; omega)
    rw [pieces, pieces, piece, piece, hrest, List.find?_cons, h i (Nat.le_refl i) (by simp)]

/-- Lines inside the block of a request go. -/
theorem pieces_inside {i : Nat} {ls : List Line} (hfits : q.fits content = true)
    (hline : q.line < i) (hlen : i + ls.length ≤ q.line + q.block.length) :
    pieces content (q :: qs) i ls = [] := by
  induction ls generalizing i with
  | nil => rfl
  | cons l ls ih =>
    simp only [List.length_cons] at hlen
    have hcovers : (q.fits content && q.covers i) = true := by
      rw [hfits, ChangeRequest.covers_iff.2 ⟨by omega, by omega⟩]
      rfl
    rw [pieces, piece, List.find?_cons, hcovers]
    simp only
    rw [if_neg (by omega), ih (by omega) (by omega)]
    rfl

/-- The block of a request becomes the text that it puts there. -/
theorem pieces_block {ls : List Line} (hfits : q.fits content = true) (hne : ls ≠ [])
    (hlen : ls.length = q.block.length) :
    pieces content (q :: qs) q.line ls = placed content q := by
  cases ls with
  | nil => exact absurd rfl hne
  | cons l ls =>
    simp only [List.length_cons] at hlen
    have hcovers : (q.fits content && q.covers q.line) = true := by
      rw [hfits, ChangeRequest.covers_iff.2 ⟨Nat.le_refl _, by omega⟩]
      rfl
    rw [pieces, piece, List.find?_cons, hcovers]
    simp only [if_true]
    rw [pieces_inside hfits (Nat.lt_succ_self _) (by omega), List.append_nil]

/-! ## One edit after others below it -/

/-- The lines above the block of a request and those below it, in a text that the request fits. -/
structure Parts (content : String) (q : ChangeRequest) (front back : List Line) : Prop where
  split : Line.split content.toList = front ++ q.target content ++ back
  above : (Line.split content.toList).take (q.line - 1) = front
  throughBlock : (Line.split content.toList).take (q.line - 1 + q.block.length) =
    front ++ q.target content
  below : (Line.split content.toList).drop (q.line - 1 + q.block.length) = back
  line : q.line = front.length + 1
  nonempty : q.target content ≠ []
  length : (q.target content).length = q.block.length
  block : (q.target content).map Line.text = q.block

theorem parts_of_fits (hfits : q.fits content = true) : ∃ front back, Parts content q front back := by
  obtain ⟨hline, hne, htarget⟩ := ChangeRequest.fits_iff.1 hfits
  have hlen : (q.target content).length = q.block.length := by
    rw [← htarget, List.length_map]
  have hpos := List.length_pos_iff.2 hne
  have hdrop : (q.target content).length ≤ (Line.split content.toList).length - (q.line - 1) := by
    unfold ChangeRequest.target
    rw [List.length_take, List.length_drop]
    omega
  refine ⟨_, _, ?_, rfl, ?_, rfl, ?_, ?_, hlen, htarget⟩
  · unfold ChangeRequest.target
    rw [List.append_assoc, ← List.drop_drop, List.take_append_drop, List.take_append_drop]
  · exact List.take_add
  · rw [List.length_take]
    omega
  · exact List.length_pos_iff.1 (by omega)

theorem Parts.total {front back : List Line} (h : Parts content q front back) :
    (Line.split content.toList).length = q.line - 1 + q.block.length + back.length := by
  have hline := h.line
  rw [h.split, List.length_append, List.length_append, h.length]
  omega

/-- An edit puts an insertion in the place of a block of terminated lines. -/
theorem Parts.edit {front back : List Line} (h : Parts content q front back)
    (hterm : ∀ l ∈ front ++ q.target content, l.IsTerminated) :
    replaceBlock content q.line q.expected q.suggested = .ok (String.ofList (Line.join front ++
      Line.join (insertion (q.target content) (snippetLines q.suggested)) ++ Line.join back)) := by
  have hback : Line.split (Line.join back) = back := Line.split_join_of_suffix h.split hterm
  exact replaceBlock_of_parts (by rw [hback, ← h.split]) h.line h.nonempty h.block fun l hl =>
    hterm l (List.mem_append_right _ hl)

theorem Parts.placed_eq {front back : List Line} (h : Parts content q front back)
    (hterm : ∀ l ∈ front ++ q.target content, l.IsTerminated) :
    placed content q = Line.join (insertion (q.target content) (snippetLines q.suggested)) := by
  unfold placed
  simp only [h.above, h.below, h.edit hterm, String.toList_ofList, String.length_ofList]
  generalize Line.join (insertion (q.target content) (snippetLines q.suggested)) = new
  rw [List.append_assoc, List.drop_left, List.length_append, List.length_append,
    Nat.add_sub_cancel_left, Nat.add_sub_cancel, List.take_left]

/-- An edit alone leaves the text above and below a block of terminated lines as it is. -/
theorem replaceBlock_eq_placed (hfits : q.fits content = true)
    (hterm : ∀ l ∈ (Line.split content.toList).take (q.line - 1 + q.block.length), l.IsTerminated) :
    replaceBlock content q.line q.expected q.suggested = .ok (String.ofList
      (Line.join ((Line.split content.toList).take (q.line - 1)) ++ placed content q ++
        Line.join ((Line.split content.toList).drop (q.line - 1 + q.block.length)))) := by
  obtain ⟨front, back, hparts⟩ := parts_of_fits hfits
  rw [hparts.throughBlock] at hterm
  rw [hparts.edit hterm, hparts.placed_eq hterm, hparts.above, hparts.below]

@[simp] theorem replaceAll_toList (content : String) (qs : List ChangeRequest) :
    (replaceAll content qs).toList = pieces content qs 1 (Line.split content.toList) := by
  simp [replaceAll]

/-- Without a fitting request a text stays as it is. -/
theorem replaceAll_of_none_fits (h : ∀ q ∈ qs, q.fits content = false) :
    replaceAll content qs = content := by
  unfold replaceAll
  rw [pieces_of_uncovered fun q hq hfits => ?_, Line.join_split, String.ofList_toList]
  rw [h q hq] at hfits
  cases hfits

theorem replaceAll_cons_of_not_fits (h : q.fits content = false) :
    replaceAll content (q :: qs) = replaceAll content qs := by
  unfold replaceAll
  rw [pieces_cons_of_uncovered fun j _ _ => ?_]
  rw [h]
  rfl

/-- A text after edits below its first `k` lines. -/
theorem replaceAll_below {k : Nat} (hk : k ≤ (Line.split content.toList).length)
    (hbelow : ∀ q ∈ qs, q.fits content = true → k < q.line) :
    (replaceAll content qs).toList = Line.join ((Line.split content.toList).take k) ++
      pieces content qs (1 + k) ((Line.split content.toList).drop k) := by
  have hlen : ((Line.split content.toList).take k).length = k := by
    rw [List.length_take]
    omega
  have hparts : pieces content qs 1 (Line.split content.toList) =
      pieces content qs 1 ((Line.split content.toList).take k) ++
        pieces content qs (1 + k) ((Line.split content.toList).drop k) := by
    conv_lhs => rw [← List.take_append_drop k (Line.split content.toList), pieces_append, hlen]
  rw [replaceAll_toList, hparts, pieces_of_uncovered fun q hq hfits j _ hj => ?_]
  have hline := hbelow q hq hfits
  exact ChangeRequest.not_covers_iff.2 (by omega)

/-- A text with a block and others below it replaced. -/
theorem Parts.replaceAll_cons {front back : List Line} (h : Parts content q front back)
    (hfits : q.fits content = true)
    (hbelow : ∀ p ∈ qs, p.fits content = true → q.line + q.block.length ≤ p.line) :
    replaceAll content (q :: qs) = String.ofList (Line.join front ++ placed content q ++
      pieces content qs (1 + (q.line - 1 + q.block.length)) back) := by
  have hline := h.line
  have hlen := h.length
  have hfront : pieces content (q :: qs) 1 front = Line.join front := by
    refine pieces_of_uncovered fun p hp hpfits j hj hjlt => ChangeRequest.not_covers_iff.2 ?_
    rcases List.mem_cons.1 hp with rfl | hp
    · omega
    · have hp := hbelow p hp hpfits
      omega
  have hback : pieces content (q :: qs) (1 + (q.line - 1 + q.block.length)) back =
      pieces content qs (1 + (q.line - 1 + q.block.length)) back := by
    apply pieces_cons_of_uncovered
    intro j hj _
    rw [hfits, Bool.true_and]
    exact ChangeRequest.not_covers_iff.2 (by omega)
  have hstart : 1 + front.length = q.line := by omega
  have hcount : (front ++ q.target content).length = q.line - 1 + q.block.length := by
    rw [List.length_append]
    omega
  unfold replaceAll
  rw [h.split, pieces_append, pieces_append, hfront, hstart, hcount,
    pieces_block hfits h.nonempty hlen, hback]

/-- An edit that is made after edits below its block puts in what it would put in on its own. -/
theorem replaceBlock_replaceAll (hfits : q.fits content = true)
    (hterm : ∀ l ∈ (Line.split content.toList).take (q.line - 1 + q.block.length), l.IsTerminated)
    (hbelow : ∀ p ∈ qs, p.fits content = true → q.line + q.block.length ≤ p.line) :
    replaceBlock (replaceAll content qs) q.line q.expected q.suggested =
      .ok (replaceAll content (q :: qs)) := by
  obtain ⟨front, back, hparts⟩ := parts_of_fits hfits
  rw [hparts.throughBlock] at hterm
  have hline := hparts.line
  -- the text before this edit: the lines down to the end of the block, and edited ones below them
  have hk : q.line - 1 + q.block.length ≤ (Line.split content.toList).length := by
    rw [hparts.total]
    omega
  have htext := replaceAll_below hk fun p hp hpfits => by
    have hp := hbelow p hp hpfits
    omega
  rw [hparts.throughBlock, hparts.below] at htext
  rw [hparts.replaceAll_cons hfits hbelow, hparts.placed_eq hterm]
  generalize pieces content qs (1 + (q.line - 1 + q.block.length)) back = v at htext ⊢
  have hlines : Line.split (replaceAll content qs).toList =
      front ++ q.target content ++ Line.split v := by
    rw [htext, Line.split_append_of_prefix hparts.split hterm]
  exact replaceBlock_of_parts hlines hline hparts.nonempty hparts.block fun l hl =>
    hterm l (List.mem_append_right _ hl)

/-- The lines that a request is about stand where they stood after edits below them. -/
theorem target_replaceAll (hline : 0 < q.line)
    (hk : q.line - 1 + q.block.length < (Line.split content.toList).length)
    (hbelow : ∀ p ∈ qs, p.fits content = true → q.line + q.block.length ≤ p.line) :
    q.target (replaceAll content qs) = q.target content := by
  have htext := replaceAll_below (Nat.le_of_lt hk) fun p hp hpfits => by
    have hp := hbelow p hp hpfits
    omega
  have hwhole := (List.take_append_drop (q.line - 1 + q.block.length)
    (Line.split content.toList)).symm
  have hterm := Line.terminated_of_followed hwhole (by simpa using hk)
  unfold ChangeRequest.target
  rw [htext, Line.split_append_of_prefix hwhole hterm, List.drop_append_of_le_length,
    List.take_append_of_le_length, List.drop_take, Nat.add_sub_cancel_left, List.take_take,
    Nat.min_self]
  · rw [List.length_drop, List.length_take]
    omega
  · rw [List.length_take]
    omega

/-- A request that does not fit is refused after edits below its block as well. -/
theorem replaceBlock_replaceAll_of_not_fits (hfits : q.fits content = false)
    (hbelow : ∀ p ∈ qs, p.fits content = true → q.line + q.block.length ≤ p.line) :
    ∃ e, replaceBlock (replaceAll content qs) q.line q.expected q.suggested = .error e := by
  cases hedit : replaceBlock (replaceAll content qs) q.line q.expected q.suggested with
  | error e => exact ⟨e, rfl⟩
  | ok new =>
    have hnow := (replaceBlock_isOk (replaceAll content qs) q).1 ⟨new, hedit⟩
    obtain ⟨hline, hne, htarget⟩ := ChangeRequest.fits_iff.1 hnow
    -- if nothing below was edited the text is the same; otherwise the block has lines below it
    by_cases hnone : ∀ p ∈ qs, p.fits content = false
    · rw [replaceAll_of_none_fits hnone, hfits] at hnow
      cases hnow
    · simp only [not_forall, Bool.not_eq_false] at hnone
      obtain ⟨p, hp, hpfits⟩ := hnone
      obtain ⟨front, back, hparts⟩ := parts_of_fits hpfits
      have hk : q.line - 1 + q.block.length < (Line.split content.toList).length := by
        have hpbelow := hbelow p hp hpfits
        have hpos := List.length_pos_iff.2 hparts.nonempty
        have hlen := hparts.length
        rw [hparts.total]
        omega
      rw [target_replaceAll hline hk hbelow] at htarget
      rw [ChangeRequest.fits_iff.2 ⟨hline, hne, htarget⟩] at hfits
      cases hfits

/-! ## The order of requests -/

/-- Where two items of a list cannot both be looked for, their order does not matter. -/
theorem find?_of_perm {α : Type} {f : α → Bool} {xs ys : List α} (hperm : xs.Perm ys)
    (hone : ∀ x ∈ xs, ∀ y ∈ xs, f x = true → f y = true → x = y) : xs.find? f = ys.find? f := by
  cases hx : xs.find? f with
  | none =>
    rw [List.find?_eq_none] at hx
    symm
    rw [List.find?_eq_none]
    exact fun y hy => hx y (hperm.mem_iff.2 hy)
  | some x =>
    cases hy : ys.find? f with
    | none =>
      rw [List.find?_eq_none] at hy
      exact absurd (List.find?_some hx) (hy x (hperm.mem_iff.1 (List.mem_of_find?_eq_some hx)))
    | some y =>
      rw [hone x (List.mem_of_find?_eq_some hx) y
        (hperm.mem_iff.2 (List.mem_of_find?_eq_some hy)) (List.find?_some hx) (List.find?_some hy)]

/-- The order of requests with disjoint blocks does not matter. -/
theorem replaceAll_perm {ps : List ChangeRequest} (hperm : qs.Perm ps)
    (hapart : qs.Pairwise ChangeRequest.Apart) : replaceAll content qs = replaceAll content ps := by
  have hfind : ∀ i, qs.find? (fun q => q.fits content && q.covers i) =
      ps.find? fun q => q.fits content && q.covers i := by
    intro i
    refine find?_of_perm hperm fun x hx y hy hfx hfy => ?_
    by_contra hne
    rw [Bool.and_eq_true] at hfx hfy
    have hxy := hapart.forall hx hy hne i hfx.2
    rw [hfy.2] at hxy
    cases hxy
  have hpieces : ∀ i ls, pieces content qs i ls = pieces content ps i ls := by
    intro i ls
    induction ls generalizing i with
    | nil => rfl
    | cons l ls ih => rw [pieces, pieces, piece, piece, hfind, ih]
  unfold replaceAll
  rw [hpieces]

/-! ## The end of a text -/

/-- A text is empty, ends in a line feed, or no request that fits it covers its last line. -/
def EndsWell (content : String) (qs : List ChangeRequest) : Prop :=
  content = "" ∨ content.toList.getLast? = some '\n' ∨
    ∀ q ∈ qs, q.fits content = true → q.covers (lineCount content) = false

/-- Then all lines down to the end of a block that a request fits are terminated. -/
theorem EndsWell.terminated (h : EndsWell content qs) (hq : q ∈ qs) (hfits : q.fits content = true) :
    ∀ l ∈ (Line.split content.toList).take (q.line - 1 + q.block.length), l.IsTerminated := by
  rcases h with rfl | hnewline | hlast
  · intro l hl
    simp at hl
  · exact fun l hl => Line.terminated_of_newline hnewline l (List.mem_of_mem_take hl)
  · obtain ⟨front, back, hparts⟩ := parts_of_fits hfits
    have hpos := List.length_pos_iff.2 hparts.nonempty
    have hline := hparts.line
    have hlen := hparts.length
    have hcover := hlast q hq hfits
    have htotal : lineCount content = q.line - 1 + q.block.length + back.length :=
      (lineCount_eq content).trans hparts.total
    have hback : back ≠ [] := by
      rintro rfl
      rw [List.length_nil] at htotal
      rw [ChangeRequest.covers_iff.2 (by omega)] at hcover
      cases hcover
    rw [hparts.throughBlock]
    exact Line.terminated_of_followed hparts.split hback

end Edit

end CodeReview
