import CodeReview.Text.Line

/-!
# Splitting texts into lines

Splitting takes a text apart character by character (`split_cons`): a line feed is a line, and any
other character is put in front of the first line of what follows, where a carriage return in front of
a lone line feed becomes part of that terminator.  It loses nothing (`join_split`), and dropping the
terminators of the pieces leaves the texts of the lines (`texts_eq`).

Only the last line of a text can be without terminator, so the lines in front of any other line are
terminated (`terminated_of_followed`).  Terminated lines split off: whatever follows them, the text
begins with exactly these lines (`split_append_of_prefix`).  An edit therefore leaves the lines above
it as they are.
-/

namespace CodeReview

namespace Line

variable {l : Line}

/-! ## Pieces -/

theorem strip?_append (ending text : List Char) : strip? ending (text ++ ending) = some text := by
  rw [strip?, if_pos (List.isSuffixOf_iff_suffix.2 (List.suffix_append text ending)),
    List.length_append, Nat.add_sub_cancel, List.take_left]

theorem strip?_eq_none {ending cs : List Char} (h : ¬ ending <:+ cs) : strip? ending cs = none :=
  if_neg fun hsuffix => h (List.isSuffixOf_iff_suffix.1 hsuffix)

theorem eq_append_of_strip? {ending cs text : List Char} (h : strip? ending cs = some text) :
    cs = text ++ ending := by
  unfold strip? at h
  split at h
  · next hsuffix =>
    obtain ⟨front, rfl⟩ := List.isSuffixOf_iff_suffix.1 hsuffix
    rw [List.length_append, Nat.add_sub_cancel, List.take_left] at h
    rw [Option.some.inj h]
  · cases h

theorem strip?_singleton_eq_none {c : Char} {cs : List Char} (h : cs.getLast? ≠ some c) :
    strip? [c] cs = none :=
  strip?_eq_none fun hsuffix => h (List.singleton_suffix_iff_getLast?_eq_some.1 hsuffix)

/-- A line that a piece can be: its terminator has all of the piece that can belong to it. -/
structure IsWhole (l : Line) : Prop where
  noReturn : l.eol = .lf → l.text.getLast? ≠ some '\r'
  noFeed : l.eol = .none → l.text.getLast? ≠ some '\n'

theorem chars_ofPiece (piece : List Char) : (ofPiece piece).chars = piece := by
  unfold ofPiece
  split
  · next h => exact (eq_append_of_strip? h).symm
  · split
    · next h => exact (eq_append_of_strip? h).symm
    · exact List.append_nil piece

theorem isWhole_ofPiece (piece : List Char) : (ofPiece piece).IsWhole := by
  unfold ofPiece
  split
  · exact ⟨nofun, nofun⟩
  · next hcrlf =>
    split
    · next text hlf =>
      refine ⟨fun _ hreturn => ?_, nofun⟩
      obtain ⟨front, rfl⟩ := List.getLast?_eq_some_iff.1 hreturn
      rw [eq_append_of_strip? hlf, List.append_assoc] at hcrlf
      cases (strip?_append Eol.crlf.chars front).symm.trans hcrlf
    · next hlf =>
      refine ⟨nofun, fun _ hfeed => ?_⟩
      obtain ⟨front, rfl⟩ := List.getLast?_eq_some_iff.1 hfeed
      cases (strip?_append Eol.lf.chars front).symm.trans hlf

/-- There is one line that a piece can be. -/
theorem IsWhole.ofPiece_chars (h : l.IsWhole) : ofPiece l.chars = l := by
  obtain ⟨text, eol⟩ := l
  unfold ofPiece
  cases eol with
  | crlf => rw [chars, strip?_append]
  | lf =>
    have hcrlf : strip? Eol.crlf.chars (text ++ Eol.lf.chars) = none := by
      refine strip?_eq_none ?_
      rintro ⟨front, hfront⟩
      have hreturn : front ++ ['\r'] = text :=
        List.append_cancel_right ((List.append_assoc ..).trans hfront)
      exact h.noReturn rfl (hreturn ▸ List.getLast?_concat)
    rw [chars, hcrlf, strip?_append]
  | none =>
    have hfeed : ¬ Eol.lf.chars <:+ text :=
      fun hsuffix => h.noFeed rfl (List.singleton_suffix_iff_getLast?_eq_some.1 hsuffix)
    have hcrlf : ¬ Eol.crlf.chars <:+ text :=
      fun hsuffix => hfeed ((List.suffix_cons '\r' ['\n']).trans hsuffix)
    rw [chars, Eol.chars, List.append_nil, strip?_eq_none hcrlf, strip?_eq_none hfeed]

theorem IsWhole.bare_chars (h : l.IsWhole) : bare l.chars = l.text := by
  obtain ⟨text, eol⟩ := l
  unfold bare chars
  cases eol with
  | crlf =>
    have hends : text ++ Eol.crlf.chars = (text ++ ['\r']) ++ ['\n'] :=
      (List.append_assoc text ['\r'] ['\n']).symm
    rw [hends, strip?_append]
    simp only [strip?_append, Option.getD_some]
  | lf =>
    rw [Eol.chars, strip?_append]
    simp only [strip?_singleton_eq_none (h.noReturn rfl), Option.getD_none]
  | none => rw [Eol.chars, List.append_nil, strip?_singleton_eq_none (h.noFeed rfl)]

/-- Dropping the terminator of a piece leaves the text of its line. -/
theorem bare_eq (piece : List Char) : bare piece = (ofPiece piece).text := by
  rw [← (isWhole_ofPiece piece).bare_chars, chars_ofPiece]

/-- Both ways of splitting agree. -/
theorem texts_eq (cs : List Char) : texts cs = (split cs).map text := by
  rw [texts, split, List.map_map]
  exact List.map_congr_left fun piece _ => bare_eq piece

/-! ## Character by character -/

/-- Put one character in front of a text given by its lines.  A carriage return in front of a lone
line feed becomes part of that terminator. -/
def prepend (c : Char) : List Line → List Line
  | [] => [⟨[c], .none⟩]
  | l :: ls =>
    (if c = '\r' ∧ l = ⟨[], .lf⟩ then ⟨[], .crlf⟩ else ⟨c :: l.text, l.eol⟩) :: ls

theorem ofPiece_cons {c : Char} (hc : c ≠ '\n') (piece : List Char) : ofPiece (c :: piece) =
    if c = '\r' ∧ ofPiece piece = ⟨[], .lf⟩ then ⟨[], .crlf⟩
    else ⟨c :: (ofPiece piece).text, (ofPiece piece).eol⟩ := by
  have hwhole := isWhole_ofPiece piece
  have hchars : c :: piece = c :: (ofPiece piece).chars := by rw [chars_ofPiece]
  rw [hchars]
  generalize ofPiece piece = l at hwhole ⊢
  split
  · next h =>
    obtain ⟨rfl, rfl⟩ := h
    rfl
  · next hcr =>
    obtain ⟨text, eol⟩ := l
    have hnext : IsWhole ⟨c :: text, eol⟩ := by
      refine ⟨fun hlf hlast => ?_, fun hnone hlast => ?_⟩
      · cases text with
        | nil => exact hcr ⟨Option.some.inj hlast, congrArg (Line.mk []) hlf⟩
        | cons d text => exact hwhole.noReturn hlf (List.getLast?_cons_cons.symm.trans hlast)
      · cases text with
        | nil => exact hc (Option.some.inj hlast)
        | cons d text => exact hwhole.noFeed hnone (List.getLast?_cons_cons.symm.trans hlast)
    exact hnext.ofPiece_chars

@[simp] theorem split_nil : split [] = [] :=
  rfl

theorem split_cons (c : Char) (cs : List Char) :
    split (c :: cs) = if c = '\n' then ⟨[], .lf⟩ :: split cs else prepend c (split cs) := by
  rw [split, split, cut]
  split
  · next h =>
    subst h
    rfl
  · next hc =>
    cases cut cs with
    | nil =>
      have hone : ofPiece [c] = ⟨[c], .none⟩ :=
        (ofPiece_cons hc []).trans (if_neg fun h => absurd h.2 (by decide))
      exact congrArg (· :: []) hone
    | cons piece pieces => exact congrArg (· :: pieces.map ofPiece) (ofPiece_cons hc piece)

theorem join_prepend (c : Char) (ls : List Line) : join (prepend c ls) = c :: join ls := by
  cases ls with
  | nil => simp [prepend, join, chars, Eol.chars]
  | cons l ls =>
    simp only [prepend, join, List.flatMap_cons]
    split
    · next h => simp [chars, Eol.chars, h.1, h.2]
    · simp [chars]

/-- Splitting loses nothing: the lines put together are the text. -/
@[simp] theorem join_split (cs : List Char) : join (split cs) = cs := by
  induction cs with
  | nil => rfl
  | cons c cs ih =>
    rw [split_cons]
    split
    · next h =>
      simp only [join, List.flatMap_cons, chars, Eol.chars, List.nil_append, List.cons_append, h]
      exact congrArg _ ih
    · rw [join_prepend, ih]

/-! ## Lines and texts -/

def IsTerminated (l : Line) : Prop :=
  l.eol ≠ .none

theorem prepend_eq_cons (c : Char) (ls : List Line) : ∃ l ls', prepend c ls = l :: ls' := by
  cases ls with
  | nil => exact ⟨_, _, rfl⟩
  | cons l ls => exact ⟨_, _, rfl⟩

theorem split_eq_nil {cs : List Char} : split cs = [] ↔ cs = [] := by
  cases cs with
  | nil => exact ⟨fun _ => rfl, fun _ => rfl⟩
  | cons c cs =>
    simp only [split_cons, reduceCtorEq, iff_false]
    split
    · exact List.cons_ne_nil _ _
    · obtain ⟨l, ls, h⟩ := prepend_eq_cons c (split cs)
      rw [h]
      exact List.cons_ne_nil _ _

theorem prepend_append (c : Char) {ls : List Line} (h : ls ≠ []) (ks : List Line) :
    prepend c (ls ++ ks) = prepend c ls ++ ks := by
  cases ls with
  | nil => exact absurd rfl h
  | cons l ls => rfl

/-- A text that ends in a line feed splits off. -/
theorem split_append {u : List Char} (h : u.getLast? = some '\n') (v : List Char) :
    split (u ++ v) = split u ++ split v := by
  induction u with
  | nil => cases h
  | cons c u ih =>
    by_cases hc : c = '\n'
    · cases u with
      | nil => simp [split_cons, hc]
      | cons d u =>
        rw [List.getLast?_cons_cons] at h
        have hrest := ih h
        rw [List.cons_append] at hrest
        rw [List.cons_append, List.cons_append, split_cons, if_pos hc, hrest, split_cons c, if_pos hc]
        rfl
    · cases u with
      | nil => simp [hc] at h
      | cons d u =>
        rw [List.getLast?_cons_cons] at h
        have hne : split (d :: u) ≠ [] := fun e => List.cons_ne_nil d u (split_eq_nil.1 e)
        rw [List.cons_append, split_cons c, if_neg hc, ih h, prepend_append c hne, split_cons c,
          if_neg hc]

/-! ## The first line -/

/-- The first line of a text, and what follows it: the rest splits into the other lines, a terminated
line is a text of its own, and one without terminator is the last. -/
theorem split_eq_cons {cs : List Char} {l : Line} {ls : List Line} (h : split cs = l :: ls) :
    split (join ls) = ls ∧ (l.IsTerminated → split l.chars = [l]) ∧ (¬ l.IsTerminated → ls = []) := by
  induction cs generalizing l ls with
  | nil => cases h
  | cons c cs ih =>
    by_cases hc : c = '\n'
    · rw [split_cons, if_pos hc] at h
      obtain ⟨rfl, rfl⟩ := List.cons.inj h
      refine ⟨by rw [join_split], fun _ => rfl, fun hopen => absurd ?_ hopen⟩
      exact fun e => by cases e
    · rw [split_cons, if_neg hc] at h
      cases hrest : split cs with
      | nil =>
        rw [hrest] at h
        obtain ⟨rfl, rfl⟩ := List.cons.inj h
        exact ⟨rfl, fun hterm => absurd rfl hterm, fun _ => rfl⟩
      | cons k ks =>
        rw [hrest] at h
        obtain ⟨hks, hone, hopen⟩ := ih hrest
        obtain ⟨hl, rfl⟩ := List.cons.inj h
        by_cases hcr : c = '\r' ∧ k = ⟨[], .lf⟩
        · rw [if_pos hcr] at hl
          subst hl
          refine ⟨hks, fun _ => rfl, fun hcrlf => absurd ?_ hcrlf⟩
          exact fun e => by cases e
        · rw [if_neg hcr] at hl
          subst hl
          refine ⟨hks, ?_, fun hnone => hopen hnone⟩
          intro hterm
          have hchars : chars ⟨c :: k.text, k.eol⟩ = c :: k.chars := rfl
          rw [hchars, split_cons, if_neg hc, hone hterm]
          simp [prepend, hcr]

theorem getLast?_chars {l : Line} (h : l.IsTerminated) : l.chars.getLast? = some '\n' := by
  obtain ⟨text, eol⟩ := l
  cases eol with
  | none => exact absurd rfl h
  | lf => simp [chars, Eol.chars]
  | crlf => simp [chars, Eol.chars]

/-! ## Lines in front -/

theorem join_cons (l : Line) (ls : List Line) : join (l :: ls) = l.chars ++ join ls :=
  rfl

theorem join_append (ks ls : List Line) : join (ks ++ ls) = join ks ++ join ls :=
  List.flatMap_append

/-- Terminated lines at the beginning of a text stay its first lines when what follows is replaced. -/
theorem split_append_of_prefix {cs : List Char} {front back : List Line}
    (h : split cs = front ++ back) (hfront : ∀ l ∈ front, l.IsTerminated) (v : List Char) :
    split (join front ++ v) = front ++ split v := by
  induction front generalizing cs with
  | nil => rfl
  | cons l front ih =>
    obtain ⟨hl, hrest⟩ := List.forall_mem_cons.1 hfront
    obtain ⟨htail, hone, -⟩ := split_eq_cons h
    rw [join_cons, List.append_assoc, split_append (getLast?_chars hl), hone hl, ih htail hrest]
    rfl

/-- The lines behind terminated lines are those of a text of their own. -/
theorem split_join_of_suffix {cs : List Char} {front back : List Line}
    (h : split cs = front ++ back) (hfront : ∀ l ∈ front, l.IsTerminated) :
    split (join back) = back := by
  have hwhole := split_append_of_prefix h hfront (join back)
  rw [← join_append, ← h, join_split, h] at hwhole
  exact (List.append_cancel_left hwhole).symm

/-- Lines that other lines follow are terminated. -/
theorem terminated_of_followed {cs : List Char} {front back : List Line}
    (h : split cs = front ++ back) (hback : back ≠ []) : ∀ l ∈ front, l.IsTerminated := by
  induction front generalizing cs with
  | nil => exact fun l hl => by cases hl
  | cons k front ih =>
    obtain ⟨htail, -, hopen⟩ := split_eq_cons h
    refine List.forall_mem_cons.2 ⟨?_, ih htail⟩
    intro hnone
    have hnil := hopen fun hterm => hterm hnone
    exact hback (List.append_eq_nil_iff.1 hnil).2

theorem terminated_of_newline {cs : List Char} (h : cs.getLast? = some '\n') :
    ∀ l ∈ split cs, l.IsTerminated := by
  induction cs with
  | nil => cases h
  | cons c cs ih =>
    by_cases hc : c = '\n'
    · rw [split_cons, if_pos hc]
      refine List.forall_mem_cons.2 ⟨(fun e => by cases e), ?_⟩
      cases cs with
      | nil => exact fun l hl => by cases hl
      | cons d cs =>
        rw [List.getLast?_cons_cons] at h
        exact ih h
    · cases cs with
      | nil => simp [hc] at h
      | cons d cs =>
        rw [List.getLast?_cons_cons] at h
        have hall := ih h
        rw [split_cons, if_neg hc]
        cases hrest : split (d :: cs) with
        | nil => exact absurd (split_eq_nil.1 hrest) (List.cons_ne_nil d cs)
        | cons k ks =>
          rw [hrest] at hall
          obtain ⟨hk, hks⟩ := List.forall_mem_cons.1 hall
          refine List.forall_mem_cons.2 ⟨?_, hks⟩
          split
          · exact fun e => by cases e
          · exact hk

end Line

theorem linesOf_eq_map_split (text : String) :
    linesOf text = (Line.split text.toList).map fun l => String.ofList l.text := by
  rw [linesOf, Line.texts_eq, List.map_map]
  rfl

theorem lineCount_eq (text : String) : lineCount text = (Line.split text.toList).length := by
  rw [lineCount, Line.texts_eq, List.length_map]

end CodeReview
