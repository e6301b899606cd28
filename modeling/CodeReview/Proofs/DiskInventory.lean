import CodeReview.Files.Disk
import CodeReview.Proofs.Inventories

/-!
# Things on a disk

The inventory of a tree lists its files and directories by their places.  A path is followed through
directories that lie in directories all the way from the root (`walk_stands`), so what it leads to is
among the entries of the tree or above the working directory; and what a path leads to has the name
that the path ends in (`exists_way`).
-/

namespace CodeReview

theorem Place.key_injective : Function.Injective (key : Place → List (List Nat)) := by
  rintro ⟨ns⟩ ⟨ms⟩ h
  have hcodes : ns.map (List.map Char.toNat) = ms.map (List.map Char.toNat) := h
  have hinj : Function.Injective (List.map Char.toNat) :=
    List.map_injective_iff.2 fun _ _ => Char.toNat_inj.1
  rw [List.map_injective_iff.2 hinj hcodes]

theorem Place.parent_child (x : Place) (s : List Char) : (x.child s).parent = x :=
  congrArg Place.mk List.dropLast_concat

namespace Disk

variable {d : Disk} {x y : Place} {p : Path} {s : List Char} {ss : List (List Char)}

/-! ## Directories -/

/-- A directory that lies in directories all the way from the root. -/
def Stands (d : Disk) (x : Place) : Prop :=
  ∀ i, d.node? ⟨x.names.take i⟩ = some .directory

theorem node?_above_home (h : x.names <+: d.home.names) : d.node? x = some .directory := by
  rw [node?, if_pos (List.isPrefixOf_iff_prefix.2 h)]

theorem stands_of_prefix (h : x.names <+: d.home.names) : d.Stands x :=
  fun _ => node?_above_home ((List.take_prefix _ _).trans h)

theorem Stands.node? (h : d.Stands x) : d.node? x = some .directory := by
  have hall := h x.names.length
  rwa [List.take_length] at hall

theorem Stands.of_prefix (h : d.Stands x) (hy : y.names <+: x.names) : d.Stands y := by
  intro i
  rw [List.prefix_iff_eq_take.1 hy, List.take_take]
  exact h _

theorem Stands.child (h : d.Stands x) (hnode : d.node? (x.child s) = some .directory) :
    d.Stands (x.child s) := by
  intro i
  rcases Nat.lt_or_ge x.names.length i with hlt | hle
  · rwa [List.take_of_length_le (by simpa [Place.child] using Nat.succ_le_of_lt hlt)]
  · rw [Place.child, List.take_append_of_le_length hle]
    exact h i

/-- How a segment leads out of a directory. -/
inductive Enters (d : Disk) (x : Place) (s : List Char) : Place → Prop
  | stay (htrivial : isTrivialSegment s = true) : Enters d x s x
  | back (hdots : s = ['.', '.']) : Enters d x s x.parent
  | down (htrivial : isTrivialSegment s = false) (hdots : s ≠ ['.', '.'])
      (hlong : isTooLong s = false) (hnode : d.node? (x.child s) = some .directory) :
      Enters d x s (x.child s)

theorem enter_eq_ok_iff : d.enter x s = .ok y ↔ d.Enters x s y := by
  constructor
  · intro hrun
    unfold enter at hrun
    split at hrun
    · next htrivial =>
      cases hrun
      exact .stay htrivial
    · next htrivial =>
      split at hrun
      · next hdots =>
        cases hrun
        exact .back hdots
      · next hdots =>
        split at hrun
        · cases hrun
        · next hlong =>
          split at hrun
          · cases hrun
          · cases hrun
          · next hnode =>
            cases hrun
            exact .down (by simpa using htrivial) hdots (by simpa using hlong) hnode
  · intro h
    unfold enter
    cases h with
    | stay htrivial => rw [if_pos htrivial]
    | back hdots => simp [hdots, isTrivialSegment]
    | down htrivial hdots hlong hnode => simp [htrivial, hdots, hlong, hnode]

theorem Enters.stands (h : d.Enters x s y) (hx : d.Stands x) : d.Stands y := by
  cases h with
  | stay htrivial => exact hx
  | back hdots => exact hx.of_prefix (List.dropLast_prefix _)
  | down htrivial hdots hlong hnode => exact hx.child hnode

theorem walk_cons_eq_ok_iff :
    d.walk x (s :: ss) = .ok y ↔ ∃ z, d.Enters x s z ∧ d.walk z ss = .ok y := by
  simp only [← enter_eq_ok_iff, walk]
  cases d.enter x s with
  | error e => simp [bind, Except.bind]
  | ok z => simp [bind, Except.bind]

theorem walk_append_eq_ok_iff {ts : List (List Char)} {z : Place} :
    d.walk x (ss ++ ts) = .ok z ↔ ∃ y, d.walk x ss = .ok y ∧ d.walk y ts = .ok z := by
  induction ss generalizing x with
  | nil => simp [walk]
  | cons s ss ih =>
    simp only [List.cons_append, walk_cons_eq_ok_iff, ih]
    constructor
    · rintro ⟨w, hw, y, hy, hz⟩
      exact ⟨y, ⟨w, hw, hy⟩, hz⟩
    · rintro ⟨y, ⟨w, hw, hy⟩, hz⟩
      exact ⟨w, hw, y, hy, hz⟩

theorem walk_stands (h : d.Stands x) (hrun : d.walk x ss = .ok y) : d.Stands y := by
  induction ss generalizing x with
  | nil =>
    cases hrun
    exact h
  | cons s ss ih =>
    obtain ⟨z, henter, hrest⟩ := walk_cons_eq_ok_iff.1 hrun
    exact ih (henter.stands h) hrest

/-- Where a path starts from, if the working directory is `home`. -/
def start (home : Place) (p : Path) : Place :=
  if p.text.toList.head? = some '/' then Place.root else home

theorem start_stands (d : Disk) (p : Path) : d.Stands (start d.home p) := by
  unfold start
  split
  · exact stands_of_prefix (List.nil_prefix)
  · exact stands_of_prefix (List.prefix_rfl)

/-- A path that can lead somewhere: it has a character, no null character, and not too many bytes. -/
def Admits (p : Path) : Prop :=
  '\x00' ∉ p.text.toList ∧ p.text.toList ≠ [] ∧ p.text.utf8ByteSize < pathBytes

theorem approach_eq_ok_iff {last : PathEnd} : d.approach p = .ok (y, last) ↔
    Admits p ∧ d.walk (start d.home p) (splitEnd (segments p.text.toList)).1 = .ok y ∧
      last = (splitEnd (segments p.text.toList)).2 := by
  unfold approach Admits start
  simp only
  split
  · next h => simp [List.contains_iff_mem.1 h]
  · next hnull =>
    rw [List.contains_iff_mem] at hnull
    split
    · next h => simp [h]
    · next hnil =>
      split
      · next h => simp [Nat.not_lt.2 h]
      · next hbytes =>
        have hadmits : Admits p := ⟨hnull, hnil, Nat.not_le.1 hbytes⟩
        obtain ⟨way, ending⟩ := splitEnd (segments p.text.toList)
        simp only
        split
        · next e hwalk => simp [hwalk]
        · next z hwalk =>
          rw [Except.ok.injEq, Prod.mk.injEq, hwalk, Except.ok.injEq]
          exact ⟨fun h => ⟨hadmits, h.1, h.2.symm⟩, fun h => ⟨h.2.1, h.2.2.symm⟩⟩

theorem approach_stands {last : PathEnd} (h : d.approach p = .ok (y, last)) : d.Stands y :=
  walk_stands (d.start_stands p) (approach_eq_ok_iff.1 h).2.1

theorem node?_of_find {node : DiskNode} (h : d.find p = .ok (x, node)) :
    d.node? x = some node := by
  unfold find at h
  split at h
  · cases h
  · next dir happroach =>
    cases h
    exact (approach_stands happroach).node?
  · next dir n slash happroach =>
    split at h
    · cases h
    · split at h
      · cases h
      · next hnode =>
        split at h
        · cases h
        · cases h
          exact hnode
      · next hnode =>
        cases h
        exact hnode

/-! ## Paths that end in a name -/

theorem splitEnd_of_endsIn {a : List Char} (h : p.EndsIn a) :
    splitEnd (segments p.text.toList) = ((segments p.text.toList).dropLast, .name a false) := by
  obtain ⟨front, hs⟩ := List.getLast?_eq_some_iff.1 h.1
  obtain ⟨hnil, hdot⟩ := isTrivialSegment_eq_false_iff.1 h.not_trivial
  have hdots := (segmentComponent?_eq_name_iff.1 h.2).2.2
  rw [hs, splitEnd]
  simp [hnil, hdot, hdots]

theorem find_of_endsIn {a : List Char} (h : p.EndsIn a) : d.find p =
    match d.approach p with
    | .error e => .error e
    | .ok (y, _) =>
      if isTooLong a then .error (.system .nameTooLong)
      else match d.node? (y.child a) with
        | none => .error (.system .noEntry)
        | some node => .ok (y.child a, node) := by
  unfold find
  cases happroach : d.approach p with
  | error e => rfl
  | ok found =>
    obtain ⟨y, last⟩ := found
    have hlast := (approach_eq_ok_iff.1 happroach).2.2
    rw [splitEnd_of_endsIn h] at hlast
    subst hlast
    simp only
    split
    · rfl
    · split <;> simp [*]

/-- The place of what a path leads to, if there is something. -/
def place? (d : Disk) (p : Path) : Option Place :=
  (d.find p).toOption.map Prod.fst

theorem place?_eq_some_iff : d.place? p = some x ↔ ∃ node, d.find p = .ok (x, node) := by
  unfold place?
  cases d.find p with
  | error e => simp [Except.toOption]
  | ok found => simp [Except.toOption, Prod.ext_iff]

/-- A path that ends in a name leads to a place below the directory that the way before it leads to. -/
theorem exists_way {name : List Char} (hends : p.EndsIn name) (hx : d.place? p = some x) :
    ∃ y, x = y.child name ∧ isTooLong name = false ∧ (d.node? x).isSome = true ∧
      Admits p ∧ d.walk (start d.home p) (segments p.text.toList).dropLast = .ok y := by
  obtain ⟨node, hfind⟩ := place?_eq_some_iff.1 hx
  rw [find_of_endsIn hends] at hfind
  split at hfind
  · cases hfind
  · next y last happroach =>
    obtain ⟨hadmits, hwalk, -⟩ := approach_eq_ok_iff.1 happroach
    rw [splitEnd_of_endsIn hends] at hwalk
    split at hfind
    · cases hfind
    · next hlong =>
      split at hfind
      · cases hfind
      · next hnode =>
        cases hfind
        exact ⟨y, rfl, by simpa using hlong, by rw [hnode]; rfl, hadmits, hwalk⟩

theorem name_of_place? {a : List Char} (h : p.EndsIn a) (hx : d.place? p = some x) :
    x.names.getLast? = some a := by
  obtain ⟨y, rfl, -⟩ := exists_way h hx
  exact List.getLast?_concat

/-- The places of the entries, and of the directories that the working directory lies in. -/
def occupiedPlaces (d : Disk) : List Place :=
  d.nodes.keys ++ (List.range (d.home.names.length + 1)).map fun i => ⟨d.home.names.take i⟩

theorem mem_occupiedPlaces (h : (d.node? x).isSome = true) : x ∈ d.occupiedPlaces := by
  unfold node? at h
  split at h
  · next hprefix =>
    have hx := List.prefix_iff_eq_take.1 (List.isPrefixOf_iff_prefix.1 hprefix)
    refine List.mem_append_right _ (List.mem_map.2 ⟨x.names.length, ?_, ?_⟩)
    · exact List.mem_range.2 (Nat.lt_succ_of_le (List.isPrefixOf_iff_prefix.1 hprefix).length_le)
    · rw [← hx]
  · exact List.mem_append_left _ ((OrderedMap.mem_keys_iff Place.key_injective).2 h)

/-- The files and directories of a tree. -/
def inventory : Inventory Disk where
  Spot := Place
  Thing := DiskNode
  thing? := node?
  spot? := place?
  present_run p d := by
    have hhas : d.has p = (d.place? p).isSome := by
      unfold has place?
      cases d.find p <;> rfl
    rw [← hhas]
    rfl
  there h := by
    obtain ⟨node, hfind⟩ := place?_eq_some_iff.1 h
    rw [node?_of_find hfind]
    rfl
  apart {d p q a b} ha hb hne hsome hsame := by
    obtain ⟨x, hx⟩ := Option.isSome_iff_exists.1 hsome
    have hlast := name_of_place? hb (hsame ▸ hx)
    rw [name_of_place? ha hx] at hlast
    exact hne (Option.some.inj hlast)
  finite d := by
    refine ⟨d.occupiedPlaces, fun x => mem_occupiedPlaces, ?_⟩
    change d.occupiedPlaces.length ≤ d.nodes.size + d.home.names.length + 1
    simp [occupiedPlaces, OrderedMap.keys, OrderedMap.size, Nat.add_assoc]

end Disk

end CodeReview
