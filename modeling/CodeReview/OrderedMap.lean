import CodeReview.Path

/-!
# Ordered maps

A map from keys that are ordered by what they denote.  Two keys that denote the same are one key of
the map, and the spelling that came first is kept: a later insertion replaces the value only.  The
entries stand in strictly ascending order, so a map lists each denotation once.
-/

namespace CodeReview

/-- What a key denotes, as a sequence that decides identity and order. -/
class Keyed (κ : Type) where
  key : κ → List (List Nat)

instance : Keyed Path := ⟨Path.key⟩

/-- A text denotes itself; texts are ordered by their code points. -/
instance : Keyed String := ⟨fun s => [s.toList.map Char.toNat]⟩

export Keyed (key)

/-- A text is told by what it denotes. -/
theorem key_text_inj {s t : String} : key s = key t ↔ s = t := by
  refine ⟨fun h => ?_, fun h => h ▸ rfl⟩
  have hcodes : s.toList.map Char.toNat = t.toList.map Char.toNat := List.singleton_inj.1 h
  exact String.toList_inj.1 (List.map_inj_right (fun _ _ => Char.toNat_inj.1) |>.1 hcodes)

/-- Keys are totally ordered. -/
theorem key_lt_of_not_lt {k l : List (List Nat)} (h : ¬ k < l) (hne : ¬ l = k) : l < k := by
  have total : l < k ∨ l = k ∨ k < l := Std.Trichotomous.rel_or_eq_or_rel_swap
  rcases total with g | g | g
  · exact g
  · exact absurd g hne
  · exact absurd g h

theorem key_lt_irrefl (k : List (List Nat)) : ¬ k < k := by
  have irrefl : Std.Irrefl (fun a b : List (List Nat) => a < b) := inferInstance
  exact irrefl.irrefl k

/-- Entries in strictly ascending order of their keys. -/
structure OrderedMap (κ : Type) [Keyed κ] (α : Type) where
  entries : List (κ × α)
  sorted : entries.Pairwise fun a b => key a.1 < key b.1

namespace OrderedMap

variable {κ : Type} [Keyed κ] {α : Type}

/-- Change the value at a key, or add one, in a list of entries; a key that is there keeps its
spelling. -/
def updateEntries (k : κ) (f : Option α → α) : List (κ × α) → List (κ × α)
  | [] => [(k, f none)]
  | e :: es =>
    if key k < key e.1 then (k, f none) :: e :: es
    else if key e.1 = key k then (e.1, f (some e.2)) :: es
    else e :: updateEntries k f es

/-- The keys after an update are those before it and the updated one. -/
theorem key_of_mem_updateEntries {k : κ} {f : Option α → α} {es : List (κ × α)} {x : κ × α}
    (h : x ∈ updateEntries k f es) : key x.1 = key k ∨ ∃ y ∈ es, key y.1 = key x.1 := by
  induction es with
  | nil => simp_all [updateEntries]
  | cons e es ih =>
    simp only [updateEntries] at h
    split at h
    · simp only [List.mem_cons] at h
      rcases h with rfl | rfl | h
      · exact .inl rfl
      · exact .inr ⟨_, List.mem_cons_self, rfl⟩
      · exact .inr ⟨_, List.mem_cons_of_mem _ h, rfl⟩
    · split at h
      · simp only [List.mem_cons] at h
        rcases h with rfl | h
        · exact .inr ⟨e, List.mem_cons_self, rfl⟩
        · exact .inr ⟨_, List.mem_cons_of_mem _ h, rfl⟩
      · simp only [List.mem_cons] at h
        rcases h with rfl | h
        · exact .inr ⟨_, List.mem_cons_self, rfl⟩
        · rcases ih h with h | ⟨y, hy, hk⟩
          · exact .inl h
          · exact .inr ⟨y, List.mem_cons_of_mem _ hy, hk⟩

/-- An update keeps the entries in order. -/
theorem sorted_updateEntries (k : κ) (f : Option α → α) {es : List (κ × α)}
    (h : es.Pairwise fun a b => key a.1 < key b.1) :
    (updateEntries k f es).Pairwise fun a b => key a.1 < key b.1 := by
  induction es with
  | nil => simp [updateEntries]
  | cons e es ih =>
    obtain ⟨he, hes⟩ := List.pairwise_cons.1 h
    simp only [updateEntries]
    split
    · next hlt =>
      refine List.pairwise_cons.2 ⟨fun x hx => ?_, h⟩
      rcases List.mem_cons.1 hx with rfl | hx
      · exact hlt
      · exact List.lt_trans hlt (he x hx)
    · next hge =>
      split
      · exact List.pairwise_cons.2 ⟨fun x hx => he x hx, hes⟩
      · next hne =>
        refine List.pairwise_cons.2 ⟨fun x hx => ?_, ih hes⟩
        rcases key_of_mem_updateEntries hx with hk | ⟨y, hy, hk⟩
        · rw [hk]
          exact key_lt_of_not_lt hge hne
        · rw [← hk]
          exact he y hy

/-- The map without entries. -/
def empty : OrderedMap κ α :=
  ⟨[], List.Pairwise.nil⟩

instance : EmptyCollection (OrderedMap κ α) := ⟨empty⟩

instance : Inhabited (OrderedMap κ α) := ⟨empty⟩

/-- Change the value at a key, or add one. -/
def update (m : OrderedMap κ α) (k : κ) (f : Option α → α) : OrderedMap κ α :=
  ⟨updateEntries k f m.entries, sorted_updateEntries k f m.sorted⟩

/-- Put a value at a key. -/
def insert (m : OrderedMap κ α) (k : κ) (v : α) : OrderedMap κ α :=
  m.update k fun _ => v

/-- The entry at a key, with the spelling the key has in the map. -/
def findEntry? (m : OrderedMap κ α) (k : κ) : Option (κ × α) :=
  m.entries.find? fun e => key e.1 = key k

/-- The value at a key. -/
def find? (m : OrderedMap κ α) (k : κ) : Option α :=
  (m.findEntry? k).map Prod.snd

/-- Whether a key has a value. -/
def contains (m : OrderedMap κ α) (k : κ) : Bool :=
  (m.find? k).isSome

/-- Drop a key. -/
def erase (m : OrderedMap κ α) (k : κ) : OrderedMap κ α :=
  ⟨m.entries.filter fun e => key e.1 ≠ key k, m.sorted.filter _⟩

def keys (m : OrderedMap κ α) : List κ :=
  m.entries.map Prod.fst

/-- The values in ascending order of their keys. -/
def values (m : OrderedMap κ α) : List α :=
  m.entries.map Prod.snd

/-- How many keys have a value. -/
def size (m : OrderedMap κ α) : Nat :=
  m.entries.length

/-- The map of a list of entries, the later ones inserted over the earlier ones. -/
def ofList (es : List (κ × α)) : OrderedMap κ α :=
  es.foldl (fun m e => m.insert e.1 e.2) empty

/-! ## Looking keys up -/

/-- The value at a key in a list of entries. -/
def valueIn (k : κ) (es : List (κ × α)) : Option α :=
  (es.find? fun e => key e.1 = key k).map Prod.snd

theorem valueIn_cons (k : κ) (e : κ × α) (es : List (κ × α)) :
    valueIn k (e :: es) = if key e.1 = key k then some e.2 else valueIn k es := by
  unfold valueIn
  by_cases h : key e.1 = key k
  · simp [h]
  · simp [h]

theorem valueIn_eq_none {k : κ} {es : List (κ × α)} (h : ∀ e ∈ es, key k < key e.1) :
    valueIn k es = none := by
  simp only [valueIn, Option.map_eq_none_iff, List.find?_eq_none, decide_eq_true_eq]
  intro e he heq
  have hlt := h e he
  rw [heq] at hlt
  exact key_lt_irrefl _ hlt

theorem valueIn_updateEntries (k l : κ) (f : Option α → α) {es : List (κ × α)}
    (h : es.Pairwise fun a b => key a.1 < key b.1) :
    valueIn l (updateEntries k f es) =
      if key k = key l then some (f (valueIn k es)) else valueIn l es := by
  induction es with
  | nil => simp [updateEntries, valueIn]
  | cons e es ih =>
    obtain ⟨he, hes⟩ := List.pairwise_cons.1 h
    simp only [updateEntries]
    split
    · next hlt =>
      have hnone : valueIn k (e :: es) = none := by
        apply valueIn_eq_none
        intro x hx
        rcases List.mem_cons.1 hx with rfl | hx
        · exact hlt
        · exact List.lt_trans hlt (he x hx)
      rw [valueIn_cons l, hnone]
    · split
      · next heq =>
        rw [valueIn_cons, valueIn_cons k, valueIn_cons l, heq]
        simp only [if_true]
        split <;> rfl
      · next hne =>
        rw [valueIn_cons, valueIn_cons k, valueIn_cons l, ih hes, if_neg hne]
        by_cases hel : key e.1 = key l
        · rw [if_pos hel, if_pos hel, if_neg fun hkl => hne (hel.trans hkl.symm)]
        · rw [if_neg hel, if_neg hel]

theorem find?_eq_valueIn (m : OrderedMap κ α) (k : κ) : m.find? k = valueIn k m.entries :=
  rfl

/-- Spellings of one key have one value. -/
theorem find?_congr (m : OrderedMap κ α) {k l : κ} (h : key k = key l) : m.find? k = m.find? l := by
  simp only [find?, findEntry?, h]

theorem find?_update (m : OrderedMap κ α) (k l : κ) (f : Option α → α) :
    (m.update k f).find? l = if key k = key l then some (f (m.find? k)) else m.find? l :=
  valueIn_updateEntries k l f m.sorted

theorem find?_insert (m : OrderedMap κ α) (k l : κ) (v : α) :
    (m.insert k v).find? l = if key k = key l then some v else m.find? l :=
  find?_update m k l _

end OrderedMap

/-- A set of keys in ascending order, each as it was spelled first. -/
abbrev OrderedSet (κ : Type) [Keyed κ] := OrderedMap κ Unit

namespace OrderedSet

variable {κ : Type} [Keyed κ]

def ofKeys (ks : List κ) : OrderedSet κ :=
  OrderedMap.ofList (ks.map fun k => (k, ()))

end OrderedSet

/-! ## Places of names -/

/-- A name has a place just where an item of that name stands, so no two items share a name. -/
def Placed {α : Type} (name : α → String) (items : List α) (places : OrderedMap String Nat) : Prop :=
  ∀ (n : String) (i : Nat), places.find? n = some i ↔ items[i]?.map name = some n

namespace Placed

variable {α : Type} {name : α → String} {items : List α} {places : OrderedMap String Nat}

theorem empty (name : α → String) : Placed name [] ∅ :=
  fun _ _ => ⟨nofun, nofun⟩

/-- An item under a new name stands behind the others, and the places of their names stay. -/
theorem concat (h : Placed name items places) {a : α} (hnew : ¬ places.contains (name a) = true) :
    Placed name (items ++ [a]) (places.insert (name a) items.length) := by
  intro n i
  have hfree : items[i]?.map name ≠ some (name a) :=
    fun hi => hnew (Option.isSome_of_eq_some ((h (name a) i).2 hi))
  rw [OrderedMap.find?_insert]
  split
  · next hn =>
    obtain rfl := key_text_inj.1 hn
    rcases Nat.lt_trichotomy i items.length with hlt | rfl | hgt
    · simp [List.getElem?_append_left hlt, hfree, Nat.ne_of_gt hlt]
    · simp
    · have hnone : (items ++ [a])[i]? = none := List.getElem?_eq_none (by simp; omega)
      simp [hnone, Nat.ne_of_lt hgt]
  · next hn =>
    have hne : name a ≠ n := fun hsame => hn (key_text_inj.2 hsame)
    rw [h n i]
    rcases Nat.lt_trichotomy i items.length with hlt | rfl | hgt
    · rw [List.getElem?_append_left hlt]
    · simp [hne]
    · have hnone : (items ++ [a])[i]? = none := List.getElem?_eq_none (by simp; omega)
      rw [hnone, List.getElem?_eq_none (Nat.le_of_lt hgt)]

/-- Items may change as long as their names stay. -/
theorem modify (h : Placed name items places) (i : Nat) {f : α → α} (hname : ∀ a, name (f a) = name a) :
    Placed name (items.modify i f) places := by
  intro n j
  have hsame : (items.modify i f)[j]?.map name = items[j]?.map name := by
    rw [List.getElem?_modify, Option.map_eq_map, Option.map_map]
    refine Option.map_congr fun a _ => ?_
    rw [Function.comp, apply_ite name, hname, ite_self]
  rw [h n j, hsame]

end Placed

end CodeReview
