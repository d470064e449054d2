/-
This file collects finite maps with the sorted list of their keys.
-/

import Mathlib.Data.Finmap
import Mathlib.Data.List.Sort

namespace Foundation
open List

/-- A finite map has one value for each of its keys and no order. -/
abbrev KeyMap (Key Value : Type) := Finmap fun _ : Key => Value

namespace KeyMap
variable {Key Value : Type}

section
variable [LinearOrder Key]

/-- The elements in increasing order. -/
def increasing (elements : Multiset Key) : List Key :=
  Quotient.liftOn elements (insertionSort (· ≤ ·)) fun first second same =>
    List.Perm.eq_of_pairwise' (pairwise_insertionSort (· ≤ ·) first) (pairwise_insertionSort (· ≤ ·) second)
      ((perm_insertionSort _ first).trans (same.trans (perm_insertionSort _ second).symm))

theorem coe_increasing (elements : Multiset Key) : (increasing elements : Multiset Key) = elements := by
  induction elements using Quotient.inductionOn with
  | h first => exact Quotient.sound (perm_insertionSort _ first)

/-- The order of a list does not matter to the sorted list. -/
theorem insertionSort_perm {first second : List Key} (same : first.Perm second) :
    first.insertionSort (· ≤ ·) = second.insertionSort (· ≤ ·) :=
  congrArg increasing (Quotient.sound same)

/-- The keys in increasing order. -/
def sortedKeys (entries : KeyMap Key Value) : List Key := increasing entries.keys.val

theorem mem_sortedKeys {entries : KeyMap Key Value} {key : Key} : key ∈ entries.sortedKeys ↔ key ∈ entries := by
  rw [sortedKeys, ← Multiset.mem_coe, coe_increasing, Finset.mem_val, Finmap.mem_keys]

theorem sortedKeys_nodup (entries : KeyMap Key Value) : entries.sortedKeys.Nodup := by
  rw [sortedKeys, ← Multiset.coe_nodup, coe_increasing]
  exact entries.keys.nodup

end

section
variable [DecidableEq Key]

theorem keys_insert (entries : KeyMap Key Value) (key : Key) (value : Value) :
    (entries.insert key value).keys = insert key entries.keys := by
  ext other
  rw [Finmap.mem_keys, Finmap.mem_insert, Finset.mem_insert, Finmap.mem_keys]

theorem keys_erase (entries : KeyMap Key Value) (key : Key) : (entries.erase key).keys = entries.keys.erase key := by
  ext other
  rw [Finmap.mem_keys, Finmap.mem_erase, Finset.mem_erase, Finmap.mem_keys]

theorem lookup_isNone {entries : KeyMap Key Value} {key : Key} : (entries.lookup key).isNone ↔ key ∉ entries := by
  rw [Option.isNone_iff_eq_none, Finmap.lookup_eq_none]

theorem lookup_erase (entries : KeyMap Key Value) (key other : Key) :
    (entries.erase key).lookup other = if other = key then none else entries.lookup other := by
  split
  · next same => rw [same, Finmap.lookup_erase]
  · next differ => rw [Finmap.lookup_erase_ne differ]

/-- An insertion of the stored value changes nothing. -/
theorem insert_of_lookup {entries : KeyMap Key Value} {key : Key} {value : Value}
    (stored : entries.lookup key = some value) : entries.insert key value = entries := by
  refine Finmap.ext_lookup fun other => ?_
  by_cases same : other = key
  · rw [same, Finmap.lookup_insert, stored]
  · rw [Finmap.lookup_insert_of_ne _ same]

/-- A loop that rewrites the value of each of its keys does so once for each of them. -/
theorem lookup_foldl_insert (value : Key → Option Value → Value) {keys : List Key} (distinct : keys.Nodup)
    (entries : KeyMap Key Value) (key : Key) :
    (keys.foldl (fun entries key => entries.insert key (value key (entries.lookup key))) entries).lookup key =
      if key ∈ keys then some (value key (entries.lookup key)) else entries.lookup key := by
  induction keys generalizing entries with
  | nil => rfl
  | cons first rest ih =>
    obtain ⟨absent, further⟩ := nodup_cons.mp distinct
    rw [foldl_cons, ih further]
    by_cases same : key = first
    · subst same
      simp [absent]
    · simp [same, Finmap.lookup_insert_of_ne _ same]

/-- A property of all entries holds behind an insertion of an entry with the property. -/
theorem forall_insert {entries : KeyMap Key Value} {holds : Key → Value → Prop}
    (all : ∀ key value, entries.lookup key = some value → holds key value) {key : Key} {value : Value}
    (new : holds key value) : ∀ other held, (entries.insert key value).lookup other = some held → holds other held := by
  intro other held stored
  by_cases same : other = key
  · subst same
    rw [Finmap.lookup_insert] at stored
    cases stored
    exact new
  · rw [Finmap.lookup_insert_of_ne _ same] at stored
    exact all other held stored

/-- A property of all entries holds behind a removal. -/
theorem forall_erase {entries : KeyMap Key Value} {holds : Key → Value → Prop}
    (all : ∀ key value, entries.lookup key = some value → holds key value) (key : Key) :
    ∀ other held, (entries.erase key).lookup other = some held → holds other held := by
  intro other held stored
  have different : other ≠ key := by
    rintro rfl
    rw [Finmap.lookup_erase] at stored
    cases stored
  rw [Finmap.lookup_erase_ne different] at stored
  exact all other held stored

end

/-- A loop whose steps add no key adds no key. -/
theorem mem_of_mem_foldl {Index : Type} {change : KeyMap Key Value → Index → KeyMap Key Value}
    (kept : ∀ entries index other, other ∈ change entries index → other ∈ entries) {indices : List Index}
    {entries : KeyMap Key Value} {other : Key} (member : other ∈ indices.foldl change entries) : other ∈ entries := by
  induction indices generalizing entries with
  | nil => exact member
  | cons index rest ih => exact kept entries index other (ih member)

/-- A loop that lays maps over each other leaves the value of the last map with the key. -/
theorem lookup_foldl_union [DecidableEq Key] (layers : List (KeyMap Key Value)) (entries : KeyMap Key Value)
    (key : Key) :
    (layers.foldl (fun entries layer => layer ∪ entries) entries).lookup key =
      (layers.reverse.findSome? fun layer => layer.lookup key).or (entries.lookup key) := by
  induction layers generalizing entries with
  | nil => rfl
  | cons first rest ih =>
    rw [foldl_cons, ih, reverse_cons, findSome?_append]
    have below : (first ∪ entries).lookup key = (first.lookup key).or (entries.lookup key) := by
      by_cases member : key ∈ first
      · obtain ⟨value, found⟩ := Finmap.mem_iff.mp member
        rw [Finmap.lookup_union_left member, found]
        rfl
      · rw [Finmap.lookup_union_right member, Finmap.lookup_eq_none.mpr member]
        rfl
    rw [below, Option.or_assoc, findSome?_singleton]

/-- A loop over all keys of a map that inserts its values lays this map over the entries. -/
theorem foldl_insert_lookup [DecidableEq Key] (layer : KeyMap Key Value) {visited : List Key}
    (all : ∀ key ∈ layer, key ∈ visited) (entries : KeyMap Key Value) :
    visited.foldl (fun entries key => (layer.lookup key).elim entries fun value => entries.insert key value) entries =
      layer ∪ entries := by
  have each (visited : List Key) (entries : KeyMap Key Value) (other : Key) :
      (visited.foldl (fun entries key =>
        (layer.lookup key).elim entries fun value => entries.insert key value) entries).lookup other =
        if other ∈ visited ∧ other ∈ layer then layer.lookup other else entries.lookup other := by
    induction visited generalizing entries with
    | nil => simp
    | cons first rest ih =>
      rw [foldl_cons, ih]
      by_cases later : other ∈ rest ∧ other ∈ layer
      · rw [if_pos later, if_pos ⟨mem_cons_of_mem first later.1, later.2⟩]
      rw [if_neg later]
      by_cases here : other = first
      · subst here
        cases found : layer.lookup other with
        | none =>
          have absent : other ∉ layer := Finmap.lookup_eq_none.mp found
          rw [if_neg fun both => absent both.2, Option.elim_none]
        | some value =>
          rw [if_pos ⟨mem_cons_self, Finmap.mem_of_lookup_eq_some found⟩, Option.elim_some, Finmap.lookup_insert]
      · have elsewhere : ¬ (other ∈ first :: rest ∧ other ∈ layer) :=
          fun both => later ⟨(mem_cons.mp both.1).resolve_left here, both.2⟩
        rw [if_neg elsewhere]
        cases layer.lookup first with
        | none => rfl
        | some value => exact Finmap.lookup_insert_of_ne _ here
  apply Finmap.ext_lookup
  intro key
  rw [each visited entries key]
  by_cases member : key ∈ layer
  · rw [if_pos ⟨all key member, member⟩, Finmap.lookup_union_left member]
  · rw [if_neg fun both => member both.2, Finmap.lookup_union_right member]

section
variable [DecidableEq Key] {Index : Type} (key : Index → Key) (value : Index → Value)

/-- A loop of insertions leaves the other keys alone. -/
theorem lookup_insertAll_of_notMem {indices : List Index} (entries : KeyMap Key Value) {other : Key}
    (absent : ∀ index ∈ indices, key index ≠ other) :
    (indices.foldl (fun entries index => entries.insert (key index) (value index)) entries).lookup other =
      entries.lookup other := by
  induction indices generalizing entries with
  | nil => rfl
  | cons index indices ih =>
    rw [foldl_cons, ih _ fun later member => absent later (mem_cons_of_mem _ member)]
    exact Finmap.lookup_insert_of_ne _ (absent index mem_cons_self).symm

/-- A loop of insertions under distinct keys stores every value. -/
theorem lookup_insertAll_of_mem {indices : List Index} (entries : KeyMap Key Value)
    (distinct : (indices.map key).Nodup) {index : Index} (member : index ∈ indices) :
    (indices.foldl (fun entries index => entries.insert (key index) (value index)) entries).lookup (key index) =
      some (value index) := by
  induction indices generalizing entries with
  | nil => cases member
  | cons first indices ih =>
    obtain ⟨absent, further⟩ := nodup_cons.mp distinct
    rw [foldl_cons]
    rcases mem_cons.mp member with rfl | later
    · rw [lookup_insertAll_of_notMem key value, Finmap.lookup_insert]
      intro later member same
      exact absent (mem_map.mpr ⟨later, member, same⟩)
    · exact ih _ further later

/-- What a loop of insertions stores comes from the loop or was there before. -/
theorem lookup_insertAll_cases {indices : List Index} {entries : KeyMap Key Value} {other : Key} {found : Value}
    (stored : (indices.foldl (fun entries index => entries.insert (key index) (value index)) entries).lookup other =
      some found) :
    (∃ index ∈ indices, key index = other ∧ value index = found) ∨ entries.lookup other = some found := by
  induction indices generalizing entries with
  | nil => exact .inr stored
  | cons first indices ih =>
    rcases ih stored with ⟨index, member, facts⟩ | before
    · exact .inl ⟨index, mem_cons_of_mem _ member, facts⟩
    · by_cases same : other = key first
      · subst same
        rw [Finmap.lookup_insert] at before
        exact .inl ⟨first, mem_cons_self, rfl, Option.some.inj before⟩
      · rw [Finmap.lookup_insert_of_ne _ same] at before
        exact .inr before

theorem mem_insertAll {indices : List Index} {entries : KeyMap Key Value} {other : Key} :
    other ∈ indices.foldl (fun entries index => entries.insert (key index) (value index)) entries ↔
      (∃ index ∈ indices, key index = other) ∨ other ∈ entries := by
  induction indices generalizing entries with
  | nil => simp
  | cons first indices ih =>
    rw [foldl_cons, ih, Finmap.mem_insert, exists_mem_cons_iff, or_left_comm, or_assoc, eq_comm]

/-- A loop of deletions takes away its keys and no other. -/
theorem lookup_eraseAll (indices : List Index) (entries : KeyMap Key Value) (other : Key) :
    (indices.foldl (fun entries index => entries.erase (key index)) entries).lookup other =
      if other ∈ indices.map key then none else entries.lookup other := by
  induction indices generalizing entries with
  | nil => rfl
  | cons first indices ih =>
    rw [foldl_cons, ih, map_cons]
    by_cases same : other = key first
    · subst same
      simp
    · simp [same, Finmap.lookup_erase_ne same]

end

end KeyMap

end Foundation
