import CodeReview.Proofs.DiskTrees
import CodeReview.Proofs.Parents

/-!
# Backups on a disk

On a disk a backup that is written to a path that leads to nothing can overwrite a file only if the
path leads back over something that is not there: making its directory uncovers what is there.  For all
other paths (`EndsStraight`) this cannot be, as the directories that are made for one are less deep than
it (`place?_makeDirectories`), provided that everything in the tree lies in a directory (`Rooted`).
That is so for every tree that calls have made (`Made.rooted`).
-/

namespace CodeReview

namespace Disk

variable {d d' : Disk} {x y : Place} {p : Path} {s : List Char} {ss : List (List Char)}

/-! ## Writing -/

theorem place?_of_landing {node : DiskNode} (hland : d.landing p = .ok x)
    (hnode : d.node? x = some node) : d.place? p = some x := by
  obtain ⟨y, name, happroach, hlong, rfl, hdirectory⟩ := landing_eq_ok hland
  cases node with
  | directory => exact absurd hnode hdirectory
  | file contents =>
    have hfind : d.find p = .ok (y.child name, .file contents) := by
      simp [find, happroach, hlong, hnode]
    exact place?_eq_some_iff.2 ⟨_, hfind⟩

/-- A file that is put at a path takes the place of what the path leads to, if there is something. -/
theorem put_keeps (d : Disk) (p : Path) (contents : Stored) :
    inventory.KeepsBut (d.place? p) d (d.put p contents).2 := by
  unfold put
  split
  · exact refl_of (inventory.KeepsBut _) d
  · unfold land
    split
    · exact refl_of (inventory.KeepsBut _) d
    · next z hland =>
      obtain ⟨-, -, -, -, -, hdirectory⟩ := landing_eq_ok hland
      intro x node hlost hx
      refine (node?_insert hdirectory _ x).trans ?_
      rw [if_neg, ← hx]
      · rfl
      · rintro rfl
        exact hlost (place?_of_landing hland hx)

/-! ## Ways -/

/-- Segments that never lead back. -/
def Straight (ss : List (List Char)) : Prop :=
  ['.', '.'] ∉ ss

instance (ss : List (List Char)) : Decidable (Straight ss) :=
  inferInstanceAs (Decidable (['.', '.'] ∉ ss))

theorem Straight.of_prefix {ts : List (List Char)} (h : Straight ts) (hss : ss <+: ts) :
    Straight ss :=
  fun hmem => h (hss.subset hmem)

/-- What counts of a way, if it leads down. -/
def names (ss : List (List Char)) : List (List Char) :=
  ss.filter fun s => !isTrivialSegment s

theorem Enters.mono (hkeeps : ∀ z, d.node? z = some .directory → d'.node? z = some .directory)
    (h : d.Enters x s y) : d'.Enters x s y := by
  cases h with
  | stay htrivial => exact .stay htrivial
  | back hdots => exact .back hdots
  | down htrivial hdots hlong hnode => exact .down htrivial hdots hlong (hkeeps _ hnode)

/-- Where a way leads, it leads as long as the directories stay. -/
theorem walk_mono (hkeeps : ∀ z, d.node? z = some .directory → d'.node? z = some .directory)
    (h : d.walk x ss = .ok y) : d'.walk x ss = .ok y := by
  induction ss generalizing x with
  | nil => exact h
  | cons s ss ih =>
    obtain ⟨z, henter, hrest⟩ := walk_cons_eq_ok_iff.1 h
    exact walk_cons_eq_ok_iff.2 ⟨z, henter.mono hkeeps, ih hrest⟩

/-- A straight way goes down by its names. -/
theorem walk_names (hss : Straight ss) (h : d.walk x ss = .ok y) :
    y.names = x.names ++ names ss := by
  induction ss generalizing x with
  | nil =>
    cases h
    simp [names]
  | cons s ss ih =>
    obtain ⟨hs, hss⟩ := not_or.1 (mt List.mem_cons.2 hss)
    obtain ⟨z, henter, hrest⟩ := walk_cons_eq_ok_iff.1 h
    rw [ih hss hrest]
    cases henter with
    | stay htrivial => simp [names, htrivial]
    | back hdots => exact absurd hdots.symm hs
    | down htrivial hdots hlong hnode => simp [names, htrivial, Place.child]

/-- A straight way leads to a directory from everywhere above it. -/
theorem walk_of_stands (hss : Straight ss) (h : d'.walk x ss = .ok y) (hy : d.Stands y) :
    d.walk x ss = .ok y := by
  induction ss generalizing x with
  | nil => exact h
  | cons s ss ih =>
    obtain ⟨hs, hss⟩ := not_or.1 (mt List.mem_cons.2 hss)
    obtain ⟨z, henter, hrest⟩ := walk_cons_eq_ok_iff.1 h
    refine walk_cons_eq_ok_iff.2 ⟨z, ?_, ih hss hrest⟩
    have hz : d.Stands z := hy.of_prefix (by rw [walk_names hss hrest]; exact List.prefix_append _ _)
    cases henter with
    | stay htrivial => exact .stay htrivial
    | back hdots => exact absurd hdots.symm hs
    | down htrivial hdots hlong hnode => exact .down htrivial hdots hlong hz.node?

/-- A way that leads back only over directories.  It is straight behind a first part that leads to one,
and that part is empty if it is straight from the start. -/
def EndsStraight (d : Disk) (x : Place) (ss : List (List Char)) : Prop :=
  ∃ front back y, ss = front ++ back ∧ d.walk x front = .ok y ∧ Straight back

theorem EndsStraight.of_prefix {ts : List (List Char)} (h : d.EndsStraight x ts) (hss : ss <+: ts) :
    d.EndsStraight x ss := by
  obtain ⟨front, back, y, rfl, hfront, hback⟩ := h
  rcases List.prefix_or_prefix_of_prefix hss (List.prefix_append front back) with ⟨rest, rfl⟩ | hle
  · obtain ⟨z, hz, -⟩ := walk_append_eq_ok_iff.1 hfront
    exact ⟨ss, [], z, (List.append_nil ss).symm, hz, List.not_mem_nil⟩
  · obtain ⟨between, rfl⟩ := hle
    have hbetween := (List.prefix_append_right_inj front).1 hss
    exact ⟨front, between, y, rfl, hfront, hback.of_prefix hbetween⟩

theorem splitEnd_of_name {name : List Char} {slash : Bool}
    (h : (splitEnd ss).2 = .name name slash) :
    isTrivialSegment name = false ∧ name ≠ ['.', '.'] ∧ (splitEnd ss).1 ++ [name] <+: ss := by
  unfold splitEnd at h ⊢
  split at h
  · cases h
  · next last before hback =>
    split at h
    · cases h
    · next hdots =>
      have hnil : last ≠ [] := by
        have hhead := List.head?_dropWhile_not (fun t : List Char => decide (t = [])) ss.reverse
        rw [hback] at hhead
        simpa using hhead
      have hsuffix := List.reverse_prefix.2
        (List.dropWhile_suffix (fun t : List Char => decide (t = [])) (l := ss.reverse))
      rw [hback, List.reverse_cons, List.reverse_reverse] at hsuffix
      simp only [if_neg hdots]
      cases h
      obtain ⟨hdot, hdots⟩ := not_or.1 hdots
      exact ⟨isTrivialSegment_eq_false_iff.2 ⟨hnil, hdot⟩, hdots, hsuffix⟩

/-- In a tree that has grown, a path that leads along a way leads to a place that is there already or
that is no deeper than the way. -/
theorem approach_lands {e : Disk} {P : Place → Prop} {front back : List (List Char)} {base : Place}
    {name : List Char} {slash : Bool} (hgrown : Grown P d e)
    (hfront : d.walk (start d.home p) front = .ok base) (hback : Straight back)
    (hp : p.Along (front ++ back)) (happroach : e.approach p = .ok (y, .name name slash)) :
    (y.child name).names.length ≤ base.names.length + (names back).length ∨
      d.node? (y.child name) = some .directory := by
  obtain ⟨-, hwalk, hlast⟩ := approach_eq_ok_iff.1 happroach
  obtain ⟨htrivial, hdots, hsegments⟩ := splitEnd_of_name hlast.symm
  have hmono : ∀ {ts : List (List Char)} {x z : Place},
      d.walk x ts = .ok z → e.walk x ts = .ok z :=
    walk_mono fun z => hgrown.keeps z .directory
  rw [hgrown.home] at hwalk
  generalize (splitEnd (segments p.text.toList)).1 = way at hwalk hsegments
  have hway : way ++ [name] <+: front ++ back := by
    rcases hp with hp | hempty
    · exact hsegments.trans hp
    · have hname := hempty name (hsegments.subset (List.mem_append_right _ List.mem_cons_self))
      exact absurd hname (isTrivialSegment_eq_false_iff.1 htrivial).1
  -- the name is in the first part, or behind it
  have hinside : way ++ [name] <+: front → d.node? (y.child name) = some .directory := by
    rintro ⟨rest, rfl⟩
    obtain ⟨z, hz, -⟩ := walk_append_eq_ok_iff.1 hfront
    obtain ⟨x, hx, hlast⟩ := walk_append_eq_ok_iff.1 hz
    cases (hmono hx).symm.trans hwalk
    obtain ⟨z, henter, -⟩ := walk_cons_eq_ok_iff.1 hlast
    cases henter with
    | stay h => rw [htrivial] at h; cases h
    | back h => exact absurd h hdots
    | down _ _ _ hnode => exact hnode
  rcases List.prefix_or_prefix_of_prefix hway (List.prefix_append front back) with hle | hle
  · exact Or.inr (hinside hle)
  rcases List.prefix_concat_iff.1 hle with rfl | ⟨between, rfl⟩
  · exact Or.inr (hinside List.prefix_rfl)
  refine Or.inl ?_
  obtain ⟨x, hx, hbetween⟩ := walk_append_eq_ok_iff.1 hwalk
  cases (hmono hfront).symm.trans hx
  have hwithin : between ++ [name] <+: back := by
    rwa [List.append_assoc, List.prefix_append_right_inj] at hway
  have hdown := walk_names (hback.of_prefix ((List.prefix_append _ _).trans hwithin)) hbetween
  have hlength := (hwithin.filter fun s => !isTrivialSegment s).length_le
  rw [List.filter_append, List.length_append] at hlength
  simp only [Place.child, hdown, names, List.length_append, List.length_singleton] at hlength ⊢
  simp [htrivial] at hlength
  omega

theorem start_congr {q : Path} (h : p.startsAtRoot ↔ q.startsAtRoot) (home : Place) :
    start home p = start home q := by
  have hroot : p.text.toList.head? = some '/' ↔ q.text.toList.head? = some '/' := h
  simp only [start, hroot]

theorem place?_of_way {name : List Char} (hends : p.EndsIn name) (hadmits : Admits p)
    (hwalk : d.walk (start d.home p) (segments p.text.toList).dropLast = .ok y)
    (hlong : isTooLong name = false) (hnode : (d.node? (y.child name)).isSome = true) :
    d.place? p = some (y.child name) := by
  have happroach : d.approach p = .ok (y, .name name false) := by
    rw [approach_eq_ok_iff, splitEnd_of_endsIn hends]
    exact ⟨hadmits, hwalk, rfl⟩
  obtain ⟨node, hnode⟩ := Option.isSome_iff_exists.1 hnode
  refine place?_eq_some_iff.2 ⟨node, ?_⟩
  rw [find_of_endsIn hends, happroach]
  simp [hlong, hnode]

/-! ## Nothing is uncovered -/

/-- The directories that a path along a way lies in are there already or no deeper than the way. -/
theorem makeDirectories_grown {front back : List (List Char)} {base : Place}
    (hfront : d.walk (start d.home p) front = .ok base) (hback : Straight back)
    (hp : p.Along (front ++ back)) :
    Grown (fun z => z.names.length ≤ base.names.length + (names back).length ∨
      d.node? z = some .directory) d (d.makeDirectories p).2 := by
  refine makeDirectoriesWithin_related (R := GrownFrom d _)
    (Q := fun q => start d.home q = start d.home p ∧ q.Along (front ++ back)) ?_ ?_ _ d
    ⟨rfl, hp⟩ (refl_of (Grown _) d)
  · rintro e q ⟨hstart, hq⟩ hgrown
    exact makeDirectory_grown fun y name slash =>
      approach_lands hgrown (hstart ▸ hfront) hback hq
  · rintro q r ⟨hstart, hq⟩ hr
    have hparent := Path.isParent_of_parent? hr
    exact ⟨(start_congr hparent.root d.home).trans hstart, hq.parent hparent⟩

/-- A path that leads to nothing still does when the directories that it lies in are made, if its way
leads back only over directories: what is made is less deep than it, and in a rooted tree a thing that
was there could be reached before. -/
theorem place?_makeDirectories {dir : Path} {name : List Char} (hends : p.EndsIn name)
    (hrooted : d.Rooted)
    (hway : d.EndsStraight (start d.home p) (segments p.text.toList).dropLast)
    (hfree : d.place? p = none) (hdir : p.parent? = some dir) :
    (d.makeDirectories dir).2.place? p = none := by
  obtain ⟨front, back, base, hsplit, hfront, hback⟩ := hway
  have hparent := Path.isParent_of_parent? hdir
  have hstart := start_congr hparent.root d.home
  have hgrown := makeDirectories_grown (p := dir) (hstart.symm ▸ hfront) hback
    (hsplit ▸ hparent.way)
  by_contra hsome
  obtain ⟨x, hx⟩ := Option.ne_none_iff_exists'.1 hsome
  obtain ⟨y, rfl, hlong, hnode, hadmits, hwalk⟩ := exists_way hends hx
  rw [hgrown.home, hsplit] at hwalk
  obtain ⟨z, hz, hbehind⟩ := walk_append_eq_ok_iff.1 hwalk
  cases (walk_mono (fun z => hgrown.keeps z .directory) hfront).symm.trans hz
  have hthere : (d.node? (y.child name)).isSome = true := by
    by_contra hnone
    have hnone : d.node? (y.child name) = none := by simpa using hnone
    rcases hgrown.new _ hnode hnone with hdeep | hdirectory
    · have hy := congrArg List.length (walk_names hback hbehind)
      simp only [Place.child, List.length_append, List.length_singleton] at hdeep hy
      omega
    · rw [hnone] at hdirectory
      cases hdirectory
  have hstands : d.Stands y := by
    have hy := hrooted _ hthere
    rwa [y.parent_child] at hy
  have hold : d.walk (start d.home p) (segments p.text.toList).dropLast = .ok y := by
    rw [hsplit]
    exact walk_append_eq_ok_iff.2 ⟨base, hfront, walk_of_stands hback hbehind hstands⟩
  have hback := place?_of_way hends hadmits hold hlong hthere
  rw [hfree] at hback
  cases hback

/-- A way that leads back over nothing uncovers a file. -/
example : let d := ((Disk.empty ⟨[]⟩).land ⟨"b"⟩ (.text "")).2
    d.place? ⟨"x/../b"⟩ = none ∧
      (d.makeDirectories ⟨"x/.."⟩).2.place? ⟨"x/../b"⟩ = some ⟨["b".toList]⟩ := by decide

theorem careful : inventory.Careful where
  write d p text := put_keeps d p (.text text)
  makeDirs := makeDirectories_keeps

/-- On a rooted tree nothing is uncovered by ways that lead back only over directories. -/
theorem uncovered?_eq_none {name : List Char} (hends : p.EndsIn name) (hrooted : d.Rooted)
    (hway : d.EndsStraight (start d.home p) (segments p.text.toList).dropLast)
    (hfree : d.place? p = none) : inventory.uncovered? d p = none := by
  unfold Inventory.uncovered? Inventory.prepared
  cases hdir : p.parent? with
  | none => exact hfree
  | some dir => exact place?_makeDirectories hends hrooted hway hfree hdir

/-- The paths of backups lead where their directory does, if no stamp has a slash. -/
theorem endsStraight_pathOf {store : BackupStore}
    (hdir : d.EndsStraight (start d.home store.dir) (segments store.dir.text.toList))
    (hstamp : ∀ n, '/' ∉ (store.stamp n).toList) (file : Path) (n : Nat) :
    d.EndsStraight (start d.home (store.pathOf file n))
      (segments (store.pathOf file n).text.toList).dropLast := by
  have hname := slash_not_mem_backupName file (hstamp n) n
  have hstart := start_congr (p := store.pathOf file n) (startsAtRoot_join hname) d.home
  exact hstart ▸ hdir.of_prefix (dropLast_segments_join hname)

end Disk

end CodeReview
