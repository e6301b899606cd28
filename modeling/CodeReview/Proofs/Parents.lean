import CodeReview.Proofs.BackupNames

/-!
# Parents of paths

The parent of a path is spelled with the first segments of the path, without the last one, and starts
where the path does, from the root or not (`IsParent`).
-/

namespace CodeReview

/-! ## Segments -/

theorem segments_cons (c : Char) (cs : List Char) :
    ∃ s ss, segments cs = s :: ss ∧
      segments (c :: cs) = if c = '/' then [] :: s :: ss else (c :: s) :: ss := by
  cases hs : segments cs with
  | nil =>
    exfalso
    cases cs with
    | nil => cases hs
    | cons d cs =>
      simp only [segments] at hs
      split at hs
      · cases hs
      · split at hs <;> cases hs
  | cons s ss => exact ⟨s, ss, rfl, by simp only [segments, hs]⟩

theorem exists_segments (cs : List Char) : ∃ s ss, segments cs = s :: ss := by
  cases cs with
  | nil => exact ⟨[], [], rfl⟩
  | cons c cs =>
    obtain ⟨s, ss, -, hs⟩ := segments_cons c cs
    rw [hs]
    split
    · exact ⟨_, _, rfl⟩
    · exact ⟨_, _, rfl⟩

theorem slash_not_mem_of_mem_segments {s cs : List Char} (h : s ∈ segments cs) : '/' ∉ s := by
  induction cs generalizing s with
  | nil => simp_all [segments]
  | cons c cs ih =>
    obtain ⟨t, ts, hrest, hs⟩ := segments_cons c cs
    rw [hrest] at ih
    rw [hs] at h
    split at h
    · rcases List.mem_cons.1 h with rfl | h
      · exact List.not_mem_nil
      · exact ih h
    · next hc =>
      rcases List.mem_cons.1 h with rfl | h
      · exact fun hmem => (List.mem_cons.1 hmem).elim (fun e => hc e.symm) (ih List.mem_cons_self)
      · exact ih (List.mem_cons_of_mem _ h)

/-- A slash cuts a text. -/
theorem segments_append_slash (cs ds : List Char) :
    segments (cs ++ '/' :: ds) = segments cs ++ segments ds := by
  induction cs with
  | nil => simp [segments]
  | cons c cs ih =>
    obtain ⟨s, ss, hrest, hs⟩ := segments_cons c cs
    rw [hs, List.cons_append, segments, ih, hrest]
    split <;> rfl

/-- Segments that were put together are cut apart again. -/
theorem segments_ofSegments {s : List Char} {ss : List (List Char)}
    (h : ∀ t ∈ s :: ss, '/' ∉ t) : segments (Path.ofSegments (s :: ss)).text.toList = s :: ss := by
  rw [Path.ofSegments, String.toList_ofList]
  induction ss generalizing s with
  | nil => simp [segments_of_not_mem (h s List.mem_cons_self)]
  | cons t ss ih =>
    rw [List.intercalate_cons_cons, List.append_assoc, List.singleton_append, segments_append_slash,
      segments_of_not_mem (h s List.mem_cons_self), ih fun u hu => h u (List.mem_cons_of_mem _ hu),
      List.singleton_append]

namespace Path

/-- Whether a path starts from the root. -/
def startsAtRoot (p : Path) : Prop :=
  p.text.toList.head? = some '/'

theorem startsAtRoot_iff {p : Path} {first : List Char} {rest : List (List Char)}
    (h : segments p.text.toList = first :: rest) : p.startsAtRoot ↔ first = [] ∧ rest ≠ [] := by
  unfold startsAtRoot
  cases hcs : p.text.toList with
  | nil =>
    rw [hcs] at h
    cases h
    simp
  | cons c cs =>
    obtain ⟨s, ss, -, hs⟩ := segments_cons c cs
    rw [hcs, hs] at h
    split at h
    · next hc =>
      cases h
      simp [hc]
    · next hc =>
      cases h
      simp [hc]

/-- Whether a path is spelled with the first segments of a way, or leads nowhere from its start. -/
def Along (p : Path) (way : List (List Char)) : Prop :=
  segments p.text.toList <+: way ∨ ∀ s ∈ segments p.text.toList, s = []

/-- What the parent of a path has in common with it. -/
structure IsParent (p dir : Path) : Prop where
  root : dir.startsAtRoot ↔ p.startsAtRoot
  way : dir.Along (segments p.text.toList).dropLast

theorem Along.parent {p dir : Path} {way : List (List Char)} (h : p.Along way)
    (hdir : p.IsParent dir) : dir.Along way := by
  rcases hdir.way with hparent | hempty
  · have hwithin := hparent.trans (List.dropLast_prefix _)
    rcases h with hway | hempty
    · exact Or.inl (hwithin.trans hway)
    · exact Or.inr fun s hs => hempty s (hwithin.subset hs)
  · exact Or.inr hempty

theorem isParent_of_parent? {p dir : Path} (h : p.parent? = some dir) : p.IsParent dir := by
  obtain ⟨first, rest, hs⟩ := exists_segments p.text.toList
  unfold parent? at h
  simp only [hs] at h
  split at h
  · -- all segments behind the first one are trivial
    next hrest =>
    split at h
    · cases h
    · next hfirst =>
      cases h
      have hroot : ¬ p.startsAtRoot := fun hp => hfirst ((startsAtRoot_iff hs).1 hp).1
      have hdir : ¬ (⟨""⟩ : Path).startsAtRoot := fun hd => by cases hd
      exact ⟨iff_of_false hdir hroot, Or.inr fun s hs => List.mem_singleton.1 hs⟩
  · next last before hrest =>
    let kept := (before.dropWhile isTrivialSegment).reverse
    have hkept : first :: kept <+: first :: before.reverse :=
      List.cons_prefix_cons.2 ⟨rfl, List.reverse_prefix.2 (List.dropWhile_suffix _)⟩
    have hway : first :: kept <+: (segments p.text.toList).dropLast := by
      have hsuffix := List.reverse_prefix.2
        (List.dropWhile_suffix isTrivialSegment (l := rest.reverse))
      rw [hrest, List.reverse_cons, List.reverse_reverse] at hsuffix
      obtain ⟨behind, hrest⟩ := hsuffix
      have hne : [last] ++ behind ≠ [] := by simp
      rw [hs, ← hrest, List.append_assoc, ← List.cons_append, List.dropLast_append_of_ne_nil hne]
      exact hkept.trans (List.prefix_append _ _)
    have hroot : p.startsAtRoot ↔ first = [] := by
      rw [startsAtRoot_iff hs, and_iff_left]
      rintro rfl
      cases hrest
    split at h
    · next hshort =>
      cases h
      have hdir : (⟨"/"⟩ : Path).startsAtRoot := rfl
      exact ⟨iff_of_true hdir (hroot.2 hshort.1), Or.inr fun s hs => by simpa [segments] using hs⟩
    · next hlong =>
      cases h
      have hmem : ∀ t ∈ first :: kept, t ∈ segments p.text.toList := fun t ht =>
        (List.dropLast_prefix _).subset (hway.subset ht)
      have hdir := segments_ofSegments fun t ht => slash_not_mem_of_mem_segments (hmem t ht)
      refine ⟨?_, Or.inl ?_⟩
      · rw [startsAtRoot_iff hdir, hroot]
        exact ⟨And.left, fun hfirst => ⟨hfirst, fun hkept => hlong ⟨hfirst, hkept⟩⟩⟩
      · rwa [hdir]

/-- The name of a file has no slash. -/
theorem slash_not_mem_fileName {p : Path} {name : List Char} (h : p.fileName? = some name) :
    '/' ∉ name := by
  have hname : ∀ {s : List Char}, segmentComponent? s = some (.name name) → s = name :=
    fun hs => (segmentComponent?_eq_name_iff.1 hs).1
  obtain ⟨first, rest, hs⟩ := exists_segments p.text.toList
  have hlast : Component.name name ∈ p.components := by
    unfold fileName? at h
    split at h
    · next hcomponents =>
      cases h
      exact List.mem_of_getLast? hcomponents
    · cases h
  unfold components at hlast
  rw [hs] at hlast
  have hmem : name ∈ CodeReview.segments p.text.toList := by
    rw [hs]
    rcases List.mem_append.1 hlast with hfirst | hrest
    · unfold leading at hfirst
      split at hfirst
      · split at hfirst <;> simp at hfirst
      · split at hfirst
        · simp at hfirst
        · exact hname (Option.mem_toList.1 hfirst) ▸ List.mem_cons_self
    · obtain ⟨s, hs, hcomponent⟩ := List.mem_filterMap.1 hrest
      exact hname hcomponent ▸ List.mem_cons_of_mem _ hs
  exact slash_not_mem_of_mem_segments hmem

end Path

/-! ## Names of backups -/

theorem slash_not_mem_hexDigits (n : Nat) : '/' ∉ hexDigits n := by
  have hdigit : ∀ d < 16, Nat.digitChar d ≠ '/' := by decide
  have hshort : ∀ d < 16, '/' ∉ Nat.toDigits 16 d := by
    intro d hd
    rw [Nat.toDigits_of_lt_base hd, List.mem_singleton]
    exact (hdigit d hd).symm
  unfold hexDigits
  induction n using Nat.strongRecOn with
  | ind n ih =>
    rcases Nat.lt_or_ge n 16 with hn | hn
    · exact hshort n hn
    · rw [← Nat.div_add_mod n 16, ← Nat.toDigits_append_toDigits (by decide)
        (Nat.div_pos hn (by decide)) (Nat.mod_lt n (by decide)), List.mem_append, not_or]
      exact ⟨ih _ (Nat.div_lt_self (by omega) (by decide)), hshort _ (Nat.mod_lt n (by decide))⟩

theorem slash_not_mem_digestOf (text : String) : '/' ∉ (digestOf text).toList := by
  rw [digestOf, String.toList_ofList]
  intro h
  obtain ⟨w, -, hw⟩ := List.mem_flatMap.1 h
  rcases List.mem_append.1 hw with hzero | hdigit
  · exact absurd (List.eq_of_mem_replicate hzero) (by decide)
  · exact slash_not_mem_hexDigits _ hdigit

/-- The name of a backup has no slash, if its stamp has none. -/
theorem slash_not_mem_backupName (file : Path) {stamp : String} (hstamp : '/' ∉ stamp.toList)
    (n : Nat) : '/' ∉ (backupName file stamp n).toList := by
  have hfile : '/' ∉ ((file.fileName?.map String.ofList).getD "file").toList := by
    cases hname : file.fileName? with
    | none => decide
    | some name => simpa using Path.slash_not_mem_fileName hname
  have hcode : '/' ∉ (digestOf file.text).toList.take 8 :=
    fun h => slash_not_mem_digestOf _ (List.mem_of_mem_take h)
  have hnumber : '/' ∉ padZeros backupDigits (decimalDigits n) := fun h =>
    absurd (isDigit_of_mem_padZeros h) (by decide)
  simp only [backupName, paddedDecimal, String.toList_append, String.toList_ofList,
    List.mem_append, hfile, hcode, hstamp, hnumber]
  decide

/-- The way to a name below a directory is the way to the directory. -/
theorem dropLast_segments_join {dir : Path} {name : String} (hname : '/' ∉ name.toList) :
    (segments (dir.join ⟨name⟩).text.toList).dropLast <+: segments dir.text.toList := by
  have hsegments : segments name.toList = [name.toList] := segments_of_not_mem hname
  unfold Path.join
  split
  · rw [hsegments]
    exact List.nil_prefix
  · split
    · next hslash =>
      obtain ⟨front, hfront⟩ := List.getLast?_eq_some_iff.1 hslash
      rw [String.toList_append, hfront, List.append_assoc, List.singleton_append,
        segments_append_slash, segments_append_slash, hsegments, List.dropLast_concat]
      exact List.prefix_append _ _
    · have hway : segments (dir.text ++ "/" ++ name).toList =
          segments dir.text.toList ++ [name.toList] := by
        rw [← hsegments, ← segments_append_slash]
        simp
      simp only [hway, List.dropLast_concat, List.prefix_rfl]

theorem startsAtRoot_join {dir : Path} {name : String} (hname : '/' ∉ name.toList) :
    (dir.join ⟨name⟩).startsAtRoot ↔ dir.startsAtRoot := by
  unfold Path.join Path.startsAtRoot
  split
  · next hdir =>
    rw [hdir]
    refine iff_of_false (fun h => hname (List.mem_of_mem_head? h)) (by simp)
  · next hdir =>
    have hne : dir.text.toList ≠ [] := fun h => hdir (by simpa using h)
    obtain ⟨c, cs, hcs⟩ := List.exists_cons_of_ne_nil hne
    split
    · simp [hcs]
    · simp [hcs]

end CodeReview
