import CodeReview.OrderedMap
import Mathlib.Data.List.Induction
import Mathlib.Data.List.Nodup
import Mathlib.Data.List.Perm.Subperm

/-!
# Looking keys up in an ordered map

More laws of an ordered map through `find?`.  An erasure takes the value at a key away and leaves the
others.  A map has room for its keys only: distinct keys with a value are at most `size` many.
Insertions at different keys commute, so a map that is filled from a list of different keys
(`OrderedMap.fill`) does not depend on their order.

Looking a name up by its place finds the one item that carries it (`Placed.find?_eq`).
-/

namespace CodeReview

namespace OrderedMap

variable {κ : Type} [Keyed κ] {α : Type}

/-! ## Maps -/

theorem find?_erase (m : OrderedMap κ α) (k l : κ) :
    (m.erase k).find? l = if key k = key l then none else m.find? l := by
  simp only [find?_eq_valueIn, erase, valueIn, List.find?_filter]
  by_cases h : key k = key l
  · simp [h]
  · rw [if_neg h]
    congr 2
    funext e
    by_cases hel : key e.1 = key l
    · simp [hel, Ne.symm h]
    · simp [hel]

theorem contains_iff {m : OrderedMap κ α} {k : κ} :
    m.contains k = true ↔ ∃ l ∈ m.keys, key l = key k := by
  simp [contains, find?, findEntry?, keys]

theorem mem_values_of_find? {m : OrderedMap κ α} {k : κ} {v : α} (h : m.find? k = some v) :
    v ∈ m.values := by
  obtain ⟨e, he, rfl⟩ := Option.map_eq_some_iff.1 h
  exact List.mem_map_of_mem (List.mem_of_find?_eq_some he)

/-- A key with a value stands in the map, in one of its spellings. -/
theorem key_mem_of_contains {m : OrderedMap κ α} {k : κ} (h : m.contains k = true) :
    key k ∈ m.entries.map fun e => key e.1 := by
  obtain ⟨l, hl, hk⟩ := contains_iff.1 h
  obtain ⟨e, he, rfl⟩ := List.mem_map.1 hl
  exact hk ▸ List.mem_map_of_mem he

/-- Distinct keys with a value are at most as many as the map has entries. -/
theorem length_le_size {m : OrderedMap κ α} {ks : List κ} (hdistinct : (ks.map key).Nodup)
    (h : ∀ k ∈ ks, m.contains k = true) : ks.length ≤ m.size := by
  have hsub : ks.map key ⊆ m.entries.map fun e => key e.1 := by
    intro x hx
    obtain ⟨k, hk, rfl⟩ := List.mem_map.1 hx
    exact key_mem_of_contains (h k hk)
  have hlen := (List.subperm_of_subset hdistinct hsub).length_le
  simpa [size] using hlen

theorem mem_keys_iff (hinj : Function.Injective (key : κ → List (List Nat))) {m : OrderedMap κ α}
    {k : κ} : k ∈ m.keys ↔ m.contains k = true := by
  rw [contains_iff]
  constructor
  · exact fun h => ⟨k, h, rfl⟩
  · rintro ⟨l, hl, hkey⟩
    rwa [← hinj hkey]

theorem nodup_keys (m : OrderedMap κ α) : m.keys.Nodup := by
  refine List.pairwise_map.2 (m.sorted.imp ?_)
  rintro a b hlt heq
  exact key_lt_irrefl _ (heq ▸ hlt)

/-! ## Insertions at several keys -/

theorem updateEntries_comm {k l : κ} (hne : key k ≠ key l) (f g : Option α → α)
    (es : List (κ × α)) :
    updateEntries k f (updateEntries l g es) = updateEntries l g (updateEntries k f es) := by
  have irrefl := key_lt_irrefl
  have trans : ∀ {a b c : List (List Nat)}, a < b → b < c → a < c := List.lt_trans
  have total := @key_lt_of_not_lt
  induction es with
  | nil =>
    simp only [updateEntries]
    grind
  | cons e es ih =>
    -- each key is before the first entry, at it, or behind it
    simp only [updateEntries]
    split <;> split <;> grind [updateEntries]

theorem insert_comm (m : OrderedMap κ α) {k l : κ} (hne : key k ≠ key l) (v w : α) :
    (m.insert k v).insert l w = (m.insert l w).insert k v := by
  simp only [insert, update, updateEntries_comm hne]

theorem updateEntries_of_forall_lt {k : κ} (f : Option α → α) {es : List (κ × α)}
    (h : ∀ e ∈ es, key e.1 < key k) : updateEntries k f es = es ++ [(k, f none)] := by
  induction es with
  | nil => rfl
  | cons e es ih =>
    have hlt : key e.1 < key k := h e List.mem_cons_self
    have hnot : ¬ key k < key e.1 := fun hgt => key_lt_irrefl _ (List.lt_trans hlt hgt)
    have hne : ¬ key e.1 = key k := fun heq => key_lt_irrefl _ (heq ▸ hlt)
    rw [updateEntries, if_neg hnot, if_neg hne, ih fun x hx => h x (List.mem_cons_of_mem _ hx),
      List.cons_append]

/-- Entries in ascending order are the entries of their map. -/
theorem entries_ofList {es : List (κ × α)} (h : es.Pairwise fun a b => key a.1 < key b.1) :
    (ofList es).entries = es := by
  induction es using List.reverseRecOn with
  | nil => rfl
  | append_singleton es e ih =>
    obtain ⟨hes, -, hlast⟩ := List.pairwise_append.1 h
    have hinsert : (ofList (es ++ [e])).entries =
        updateEntries e.1 (fun _ => e.2) (ofList es).entries := by
      rw [ofList, List.foldl_append]
      rfl
    rw [hinsert, ih hes, updateEntries_of_forall_lt]
    intro x hx
    exact hlast x hx e (List.mem_singleton_self e)

/-- The values of several keys, of those that have one; of two spellings of a key the later one
counts. -/
def fill (f : κ → Option α) (ks : List κ) : OrderedMap κ α :=
  ks.foldl (fun m k => (f k).elim m fun v => m.insert k v) ∅

variable {f : κ → Option α} {ks : List κ} {k : κ}

theorem fill_concat (f : κ → Option α) (ks : List κ) (k : κ) :
    fill f (ks ++ [k]) = (f k).elim (fill f ks) fun v => (fill f ks).insert k v := by
  rw [fill, List.foldl_append, List.foldl_cons, List.foldl_nil]
  rfl

theorem contains_fill : (fill f ks).contains k = true ↔
    ∃ l ∈ ks, key l = key k ∧ (f l).isSome = true := by
  induction ks using List.reverseRecOn with
  | nil => simp [fill, contains, find?, findEntry?, EmptyCollection.emptyCollection, empty]
  | append_singleton ks l ih =>
    rw [fill_concat]
    cases hl : f l with
    | none => simp [ih, or_and_right, exists_or, hl]
    | some v =>
      rw [Option.elim_some, contains, find?_insert]
      by_cases hkey : key l = key k
      · simp only [hkey, if_true, Option.isSome_some, true_iff]
        exact ⟨l, by simp, hkey, by rw [hl]; rfl⟩
      · rw [if_neg hkey, ← contains, ih]
        simp [or_and_right, exists_or, hkey]

theorem contains_ofKeys : (OrderedSet.ofKeys ks).contains k = true ↔ ∃ l ∈ ks, key l = key k := by
  have heq : OrderedSet.ofKeys ks = fill (fun _ => some ()) ks := by
    rw [OrderedSet.ofKeys, ofList, List.foldl_map]
    rfl
  rw [heq, contains_fill]
  simp

theorem contains_fill_of_agree
    (hagree : ∀ l ∈ ks, key l = key k → (f l).isSome = (f k).isSome) :
    (fill f ks).contains k = true ↔ (∃ l ∈ ks, key l = key k) ∧ (f k).isSome = true := by
  rw [contains_fill]
  constructor
  · rintro ⟨l, hl, hkey, hsome⟩
    exact ⟨⟨l, hl, hkey⟩, hagree l hl hkey ▸ hsome⟩
  · rintro ⟨⟨l, hl, hkey⟩, hsome⟩
    exact ⟨l, hl, hkey, (hagree l hl hkey).trans hsome⟩

/-- The last spelling of a key decides its value, if all spellings agree on whether it has one. -/
theorem find?_fill {front back : List κ} (hlast : ∀ l ∈ back, key l ≠ key k)
    (hagree : ∀ l ∈ front, key l = key k → (f l).isSome = (f k).isSome) :
    (fill f (front ++ k :: back)).find? k = f k := by
  induction back using List.reverseRecOn with
  | nil =>
    rw [fill_concat]
    cases hk : f k with
    | none =>
      -- then no spelling has put a value there
      have hnone : ¬ (fill f front).contains k = true := by
        rw [contains_fill]
        rintro ⟨l, hl, hkey, hsome⟩
        rw [hagree l hl hkey, hk] at hsome
        cases hsome
      simpa [contains] using hnone
    | some v => rw [Option.elim_some, find?_insert, if_pos rfl]
  | append_singleton back l ih =>
    have hback := ih fun l' hl' => hlast l' (List.mem_append_left _ hl')
    have hl : key l ≠ key k := hlast l (by simp)
    rw [← List.cons_append, ← List.append_assoc, fill_concat]
    cases f l with
    | none => exact hback
    | some v => rw [Option.elim_some, find?_insert, if_neg hl, hback]

theorem fill_perm {ls : List κ} (hkeys : (ks.map key).Nodup) (hperm : ks.Perm ls) :
    fill f ks = fill f ls := by
  refine hperm.foldl_eq' ?_ _
  intro k hk l hl m
  by_cases hkey : key k = key l
  · rw [List.inj_on_of_nodup_map hkeys hk hl hkey]
  · cases f k <;> cases f l <;> simp [insert_comm m hkey]

end OrderedMap

/-! ## Places of names -/

namespace Placed

variable {α : Type} {name : α → String} {items : List α} {places : OrderedMap String Nat} {n : String}

theorem place_iff (h : Placed name items places) {i : Nat} :
    places.find? n = some i ↔ ∃ a, items[i]? = some a ∧ name a = n := by
  rw [h n i, Option.map_eq_some_iff]

theorem contains_iff (h : Placed name items places) :
    places.contains n = true ↔ n ∈ items.map name := by
  rw [OrderedMap.contains, Option.isSome_iff_exists]
  constructor
  · rintro ⟨i, hi⟩
    obtain ⟨a, ha, rfl⟩ := h.place_iff.1 hi
    exact List.mem_map_of_mem (List.mem_of_getElem? ha)
  · intro hn
    obtain ⟨a, ha, rfl⟩ := List.mem_map.1 hn
    obtain ⟨i, hi⟩ := List.getElem?_of_mem ha
    exact ⟨i, h.place_iff.2 ⟨a, hi, rfl⟩⟩

/-- A name has one place, so no two items share it. -/
theorem nodup (h : Placed name items places) : (items.map name).Nodup := by
  rw [List.nodup_iff_getElem?_ne_getElem?]
  intro i j hij hj heq
  rw [List.length_map] at hj
  have hplace : places.find? (name items[j]) = some j :=
    h.place_iff.2 ⟨_, List.getElem?_eq_getElem hj, rfl⟩
  rw [List.getElem?_map, List.getElem?_map, List.getElem?_eq_getElem hj] at heq
  rw [(h _ i).2 heq] at hplace
  exact absurd (Option.some.inj hplace) (Nat.ne_of_lt hij)

theorem find?_eq_some_iff (h : Placed name items places) {a : α} :
    ((places.find? n).bind fun i => items[i]?) = some a ↔ a ∈ items ∧ name a = n := by
  rw [Option.bind_eq_some_iff]
  constructor
  · rintro ⟨i, hi, ha⟩
    obtain ⟨a', ha', hn⟩ := h.place_iff.1 hi
    cases ha.symm.trans ha'
    exact ⟨List.mem_of_getElem? ha, hn⟩
  · rintro ⟨ha, hn⟩
    obtain ⟨i, hi⟩ := List.getElem?_of_mem ha
    exact ⟨i, h.place_iff.2 ⟨a, hi, hn⟩, hi⟩

/-- The item of a name is the first one that carries it. -/
theorem find?_eq (h : Placed name items places) (n : String) :
    ((places.find? n).bind fun i => items[i]?) = items.find? fun a => name a = n := by
  cases hfirst : items.find? fun a => name a = n with
  | none =>
    refine Option.eq_none_iff_forall_not_mem.2 fun a ha => ?_
    obtain ⟨hmem, hn⟩ := h.find?_eq_some_iff.1 ha
    exact List.find?_eq_none.1 hfirst a hmem (decide_eq_true hn)
  | some a =>
    have hn : name a = n := by simpa using List.find?_some hfirst
    exact h.find?_eq_some_iff.2 ⟨List.mem_of_find?_eq_some hfirst, hn⟩

/-- What is changed at the place of a name is the item that carries it. -/
theorem modify_eq_map (h : Placed name items places) {i : Nat} {a : α} (hi : items[i]? = some a)
    (f : α → α) : items.modify i f = items.map fun b => if name b = name a then f b else b := by
  refine List.ext_getElem? fun j => ?_
  rw [List.getElem?_modify, Option.map_eq_map, List.getElem?_map]
  refine Option.map_congr fun b hj => ?_
  have hsame : i = j ↔ name b = name a := by
    have hplace := h.place_iff.2 ⟨a, hi, rfl⟩
    constructor
    · rintro rfl
      cases hi.symm.trans hj
      rfl
    · intro hname
      exact Option.some.inj (hplace.symm.trans (h.place_iff.2 ⟨b, hj, hname⟩))
  simp only [hsame]

end Placed

end CodeReview
