import CodeReview.Proofs.DiskInventory

/-!
# Trees that calls make

When directories are made, a tree grows (`Grown`): everything stays, and what is new is at places that
a path leads to whose directory is made.  Whatever calls have made a tree, everything in it lies in a
directory that lies in directories all the way from the root (`Made.rooted`).
-/

namespace CodeReview

namespace Disk

variable {d d' : Disk} {x y z : Place} {p : Path} {s : List Char}

/-! ## Making directories -/

/-- The working directory lies in directories, which need no entries. -/
theorem not_prefix_home (hz : d.node? z ≠ some .directory) :
    ¬ z.names.isPrefixOf d.home.names = true :=
  fun h => hz (node?_above_home (List.isPrefixOf_iff_prefix.1 h))

theorem node?_insert (hz : d.node? z ≠ some .directory) (node : DiskNode) (x : Place) :
    node? { d with nodes := d.nodes.insert z node } x =
      if z = x then some node else d.node? x := by
  unfold node?
  simp only [OrderedMap.find?_insert, Place.key_injective.eq_iff]
  by_cases hzx : z = x
  · subst hzx
    rw [if_neg (not_prefix_home hz), if_pos rfl, if_pos rfl]
  · rw [if_neg hzx, if_neg hzx]

theorem node?_erase (hz : d.node? z ≠ some .directory) (x : Place) :
    node? { d with nodes := d.nodes.erase z } x = if z = x then none else d.node? x := by
  unfold node?
  simp only [OrderedMap.find?_erase, Place.key_injective.eq_iff]
  by_cases hzx : z = x
  · subst hzx
    rw [if_neg (not_prefix_home hz), if_pos rfl, if_pos rfl]
  · rw [if_neg hzx, if_neg hzx]

/-- A tree that has grown by things at places that `P` admits. -/
structure Grown (P : Place → Prop) (d d' : Disk) : Prop where
  home : d'.home = d.home
  keeps : ∀ x node, d.node? x = some node → d'.node? x = some node
  new : ∀ x, (d'.node? x).isSome = true → d.node? x = none → P x

instance (P : Place → Prop) : IsPreorder Disk (Grown P) where
  refl _ := ⟨rfl, fun _ _ h => h, fun x h h' => by rw [h'] at h; cases h⟩
  trans d e f h h' := by
    refine ⟨h'.home.trans h.home, fun x node hx => h'.keeps x node (h.keeps x node hx), ?_⟩
    intro x hx hnone
    cases hmid : e.node? x with
    | none => exact h'.new x hx hmid
    | some node => exact h.new x (by rw [hmid]; rfl) hnone

theorem grown_insert {P : Place → Prop} (node : DiskNode) (hfree : d.node? z = none) (hP : P z) :
    Grown P d { d with nodes := d.nodes.insert z node } := by
  have hz : d.node? z ≠ some .directory := by
    rw [hfree]
    simp
  refine ⟨rfl, fun x there hx => ?_, fun x hx hnone => ?_⟩
  · rw [node?_insert hz, if_neg, hx]
    rintro rfl
    rw [hfree] at hx
    cases hx
  · rw [node?_insert hz] at hx
    split at hx
    · next hzx => exact hzx ▸ hP
    · rw [hnone] at hx
      cases hx

/-- A directory that is made is where the path leads to. -/
theorem makeDirectory_grown {P : Place → Prop}
    (h : ∀ y name slash, d.approach p = .ok (y, .name name slash) → P (y.child name)) :
    Grown P d (d.makeDirectory p).2 := by
  unfold makeDirectory
  cases happroach : d.approach p with
  | error e => exact refl_of (Grown P) d
  | ok found =>
    obtain ⟨y, last⟩ := found
    cases last with
    | itself => exact refl_of (Grown P) d
    | name n slash =>
      simp only
      split
      · exact refl_of (Grown P) d
      · split
        · exact refl_of (Grown P) d
        · next hfree => exact grown_insert .directory hfree (h y n slash happroach)

/-- What relates a tree to what it is when one directory is made relates it to what it is when the
directories are made that a path lies in, as far as `Q` reaches. -/
theorem makeDirectoriesWithin_related {R : Disk → Disk → Prop} [IsPreorder Disk R] {Q : Path → Prop}
    (hmake : ∀ d p, Q p → R d (d.makeDirectory p).2)
    (hparent : ∀ p dir, Q p → p.parent? = some dir → Q dir) (depth : Nat) (d : Disk) (hp : Q p) :
    R d (makeDirectoriesWithin depth d p).2 := by
  have hensure : ∀ (d : Disk) {p : Path}, Q p → R d (d.ensureDirectory p).2 := by
    intro d p hp
    have hfirst := hmake d p hp
    unfold ensureDirectory
    split
    · next hrun => rwa [hrun] at hfirst
    · next hrun =>
      rw [hrun] at hfirst
      split <;> exact hfirst
  induction depth generalizing d p with
  | zero => exact hensure d hp
  | succ depth ih =>
    have hfirst := hmake d p hp
    unfold makeDirectoriesWithin
    split
    · exact refl_of R d
    · split
      · next e hrun =>
        rw [hrun] at hfirst
        split
        · exact hfirst
        · next dir hdir =>
          have hdirs := trans_of R hfirst (ih e (hparent p dir hp hdir))
          split
          · next f hrun' =>
            rw [hrun'] at hdirs
            exact trans_of R hdirs (hensure f hp)
          · exact hdirs
      · exact hensure d hp

/-- A tree that has grown, if it had grown out of a given tree before. -/
def GrownFrom (d : Disk) (P : Place → Prop) (e e' : Disk) : Prop :=
  Grown P d e → Grown P e e'

instance (d : Disk) (P : Place → Prop) : IsPreorder Disk (GrownFrom d P) where
  refl e _ := refl_of (Grown P) e
  trans _ _ _ h h' hd := trans_of (Grown P) (h hd) (h' (trans_of (Grown P) hd (h hd)))

theorem makeDirectories_keeps (d : Disk) (p : Path) : inventory.Keeps d (d.makeDirectories p).2 := by
  refine (makeDirectoriesWithin_related (R := Grown fun _ => True) (Q := fun _ => True) ?_ ?_ _ d
    trivial).keeps
  · exact fun d p _ => makeDirectory_grown fun _ _ _ _ => trivial
  · exact fun _ _ _ _ => trivial

/-! ## Writing -/

theorem landing_eq_ok (h : d.landing p = .ok z) :
    ∃ y name, d.approach p = .ok (y, .name name false) ∧ isTooLong name = false ∧
      z = y.child name ∧ d.node? z ≠ some .directory := by
  unfold landing at h
  split at h
  · cases h
  · cases h
  · cases h
  · next y name slash happroach =>
    split at h
    · cases h
    · next hlong =>
      split at h
      · cases h
      · next hslash =>
        split at h
        · cases h
        · next hnode =>
          cases h
          simp only [Bool.not_eq_true] at hlong hslash
          subst hslash
          exact ⟨y, name, happroach, hlong, rfl, hnode⟩

/-! ## Rooted trees -/

/-- A tree in which everything lies in a directory. -/
def Rooted (d : Disk) : Prop :=
  ∀ x, (d.node? x).isSome = true → d.Stands x.parent

/-- A tree stays rooted, if its directories stay and what is new lies in one of them. -/
theorem Rooted.of_changed (h : d.Rooted)
    (hdirectories : ∀ x, d.node? x = some .directory → d'.node? x = some .directory)
    (hnew : ∀ x, (d'.node? x).isSome = true → (d.node? x).isSome = true ∨ d.Stands x.parent) :
    d'.Rooted := by
  intro x hx i
  exact hdirectories _ ((hnew x hx).elim (fun hold => h x hold i) fun hparent => hparent i)

theorem Rooted.insert (h : d.Rooted) (hy : d.Stands y) (hz : d.node? (y.child s) ≠ some .directory)
    (node : DiskNode) : Rooted { d with nodes := d.nodes.insert (y.child s) node } := by
  refine h.of_changed (fun x hx => ?_) fun x hx => ?_
  · rw [node?_insert hz, if_neg, hx]
    rintro rfl
    exact hz hx
  · rw [node?_insert hz] at hx
    split at hx
    · next hsame =>
      rw [← hsame, y.parent_child]
      exact Or.inr hy
    · exact Or.inl hx

theorem rooted_empty (home : Place) : (Disk.empty home).Rooted := by
  intro x hx
  unfold node? at hx
  split at hx
  · next hprefix =>
    refine stands_of_prefix ((List.dropLast_prefix _).trans ?_)
    exact List.isPrefixOf_iff_prefix.1 hprefix
  · cases hx

theorem Rooted.land (h : d.Rooted) (p : Path) (contents : Stored) : (d.land p contents).2.Rooted := by
  unfold Disk.land
  split
  · exact h
  · next z hland =>
    obtain ⟨y, name, happroach, -, rfl, hdirectory⟩ := landing_eq_ok hland
    exact h.insert (approach_stands happroach) hdirectory (.file contents)

theorem Rooted.put (h : d.Rooted) (p : Path) (contents : Stored) : (d.put p contents).2.Rooted := by
  unfold Disk.put
  split
  · exact h
  · exact h.land p contents

theorem Rooted.makeDirectory (h : d.Rooted) (p : Path) : (d.makeDirectory p).2.Rooted := by
  unfold Disk.makeDirectory
  cases happroach : d.approach p with
  | error e => exact h
  | ok found =>
    obtain ⟨y, last⟩ := found
    cases last with
    | itself => exact h
    | name n slash =>
      simp only
      split
      · exact h
      · split
        · exact h
        · next hfree =>
          refine h.insert (approach_stands happroach) ?_ .directory
          rw [hfree]
          simp

/-- A tree that is rooted if the other one is. -/
def StaysRooted (d d' : Disk) : Prop :=
  d.Rooted → d'.Rooted

instance : IsPreorder Disk StaysRooted where
  refl _ h := h
  trans _ _ _ h h' hd := h' (h hd)

theorem Rooted.makeDirectories (h : d.Rooted) (p : Path) : (d.makeDirectories p).2.Rooted := by
  refine makeDirectoriesWithin_related (R := StaysRooted) (Q := fun _ => True) ?_ ?_ _ d trivial h
  · exact fun d p _ hd => hd.makeDirectory p
  · exact fun _ _ _ _ => trivial

theorem Rooted.drop (h : d.Rooted) (p : Path) : (d.drop p).2.Rooted := by
  unfold Disk.drop
  split
  · exact h
  · exact h
  · split
    · exact h
    · exact h
    · next z contents hfind =>
      have hz : d.node? z ≠ some .directory := by
        rw [node?_of_find hfind]
        simp
      refine h.of_changed (fun x hx => ?_) fun x hx => ?_
      · rw [node?_erase hz, if_neg, hx]
        rintro rfl
        exact hz hx
      · rw [node?_erase hz] at hx
        split at hx
        · cases hx
        · exact Or.inl hx

/-- A tree that calls have made out of one without entries. -/
inductive Made : Disk → Prop
  | empty (home : Place) : Made (Disk.empty home)
  | put {d : Disk} (h : Made d) (p : Path) (contents : Stored) : Made (d.put p contents).2
  | land {d : Disk} (h : Made d) (p : Path) (contents : Stored) : Made (d.land p contents).2
  | makeDirectories {d : Disk} (h : Made d) (p : Path) : Made (d.makeDirectories p).2
  | drop {d : Disk} (h : Made d) (p : Path) : Made (d.drop p).2

theorem Made.rooted (h : d.Made) : d.Rooted := by
  induction h with
  | empty home => exact rooted_empty home
  | put _ p contents ih => exact ih.put p contents
  | land _ p contents ih => exact ih.land p contents
  | makeDirectories _ p ih => exact ih.makeDirectories p
  | drop _ p ih => exact ih.drop p

end Disk

end CodeReview
