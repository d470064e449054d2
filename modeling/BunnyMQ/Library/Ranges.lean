/-
This file splits a number of items into consecutive ranges whose sizes differ by at most one, and it
walks around a ring.
-/

import Mathlib.Data.Int.CardIntervalMod
import Mathlib.Data.Int.ModEq
import Mathlib.Data.List.Nodup
import Mathlib.Order.Monotone.Basic
import Mathlib.Tactic.Ring

namespace Foundation.Ranges
open List

/-- The first ranges take one item more while the remainder lasts. -/
def rangeStart (items parts index : Nat) : Nat := index * (items / parts) + min index (items % parts)

def rangeSize (items parts index : Nat) : Nat := if index < items % parts then items / parts + 1 else items / parts

section
variable {items parts : Nat}

@[simp] theorem rangeStart_zero : rangeStart items parts 0 = 0 := by
  simp [rangeStart]

theorem rangeStart_succ (index : Nat) :
    rangeStart items parts (index + 1) = rangeStart items parts index + rangeSize items parts index := by
  have product : (index + 1) * (items / parts) = index * (items / parts) + items / parts := by ring
  unfold rangeStart rangeSize
  rw [product]
  split
  · omega
  · omega

theorem rangeStart_mono : Monotone (rangeStart items parts) :=
  monotone_nat_of_le_succ fun index => by
    rw [rangeStart_succ]
    exact Nat.le_add_right _ _

theorem rangeStart_parts (positive : 0 < parts) : rangeStart items parts parts = items := by
  have bound := Nat.mod_lt items positive
  rw [rangeStart, Nat.min_eq_right bound.le]
  exact Nat.div_add_mod items parts

/-- No later range is longer. -/
theorem rangeSize_anti : Antitone (rangeSize items parts) := by
  intro first second later
  unfold rangeSize
  split
  · split
    · rfl
    · omega
  · split
    · omega
    · rfl

/-- No range is longer than another one by more than one item. -/
theorem rangeSize_le (first second : Nat) : rangeSize items parts first ≤ rangeSize items parts second + 1 := by
  unfold rangeSize
  split <;> split <;> omega

/-- An item lies in this range. -/
def InRange (items parts index item : Nat) : Prop :=
  rangeStart items parts index ≤ item ∧ item < rangeStart items parts (index + 1)

theorem rangeStart_le {index : Nat} (inside : index ≤ parts) (positive : 0 < parts) :
    rangeStart items parts index ≤ items :=
  (rangeStart_mono inside).trans (rangeStart_parts positive).le

/-- Every item below the end of the ranges lies in one of them. -/
theorem exists_range {count item : Nat} (below : item < rangeStart items parts count) :
    ∃ index < count, InRange items parts index item := by
  induction count with
  | zero => simp at below
  | succ count ih =>
    by_cases earlier : item < rangeStart items parts count
    · obtain ⟨index, bound, inside⟩ := ih earlier
      exact ⟨index, bound.trans (Nat.lt_succ_self count), inside⟩
    · exact ⟨count, Nat.lt_succ_self count, not_lt.mp earlier, below⟩

/-- No item lies in two ranges. -/
theorem InRange.unique {first second item : Nat} (left : InRange items parts first item)
    (right : InRange items parts second item) : first = second := by
  have ordered : ∀ {lower upper : Nat}, InRange items parts lower item → InRange items parts upper item →
      ¬ lower < upper := by
    intro lower upper below above smaller
    have steps := @rangeStart_mono items parts _ _ (Nat.succ_le_of_lt smaller)
    exact absurd (below.2.trans_le (steps.trans above.1)) (Nat.lt_irrefl _)
  exact le_antisymm (not_lt.mp (ordered right left)) (not_lt.mp (ordered left right))

end

/-- The items are cut at the multiples of the average size. -/
def cut (items parts index : Nat) : Nat := index * items / parts

section
variable {items parts : Nat}

@[simp] theorem cut_zero : cut items parts 0 = 0 := by
  simp [cut]

theorem cut_parts (positive : 0 < parts) : cut items parts parts = items := Nat.mul_div_cancel_left items positive

theorem cut_mono : Monotone (cut items parts) :=
  fun _ _ later => Nat.div_le_div_right (Nat.mul_le_mul_right items later)

/-- From one cut to the next are the rounded average or one item more. -/
theorem cut_succ (positive : 0 < parts) (index : Nat) :
    cut items parts index + items / parts ≤ cut items parts (index + 1) ∧
      cut items parts (index + 1) ≤ cut items parts index + items / parts + 1 := by
  have next : cut items parts (index + 1) = cut items parts index + items / parts +
      if parts ≤ index * items % parts + items % parts then 1 else 0 := by
    unfold cut
    rw [Nat.succ_mul, Nat.add_div positive]
  rw [next]
  split
  · omega
  · omega

/-- The items between one cut and the next. -/
def piece {Item : Type} (items : List Item) (parts index : Nat) : List Item :=
  (items.take (cut items.length parts (index + 1))).drop (cut items.length parts index)

theorem piece_length {Item : Type} (items : List Item) {index : Nat} (inside : index < parts) :
    (piece items parts index).length = cut items.length parts (index + 1) - cut items.length parts index := by
  have bound : cut items.length parts (index + 1) ≤ items.length :=
    (cut_mono (Nat.succ_le_of_lt inside)).trans (cut_parts (Nat.zero_lt_of_lt inside)).le
  rw [piece, length_drop, length_take, Nat.min_eq_left bound]

/-- No piece is longer than another one by more than one item. -/
theorem piece_length_le {Item : Type} (items : List Item) {first second : Nat} (left : first < parts)
    (right : second < parts) : (piece items parts first).length ≤ (piece items parts second).length + 1 := by
  have positive := Nat.zero_lt_of_lt left
  have above := (@cut_succ items.length parts positive first).2
  have below := (@cut_succ items.length parts positive second).1
  rw [piece_length items left, piece_length items right]
  omega

theorem flatMap_piece_take {Item : Type} (items : List Item) (count : Nat) :
    (range count).flatMap (piece items parts) = items.take (cut items.length parts count) := by
  induction count with
  | zero => simp
  | succ count ih =>
    have earlier : cut items.length parts count ≤ cut items.length parts (count + 1) := cut_mono (Nat.le_succ count)
    have start : items.take (cut items.length parts count) =
        (items.take (cut items.length parts (count + 1))).take (cut items.length parts count) := by
      rw [take_take, Nat.min_eq_left earlier]
    rw [range_succ, flatMap_append, flatMap_singleton, ih, start]
    exact take_append_drop _ _

/-- The pieces one behind the other are the items. -/
theorem flatMap_piece {Item : Type} (items : List Item) (positive : 0 < parts) :
    (range parts).flatMap (piece items parts) = items := by
  rw [flatMap_piece_take, cut_parts positive, take_length]

end

/-- Consecutive places on a ring. -/
def ringPlaces (start count size : Nat) : List Nat := (range count).map fun step => (start + step) % size

/-- Less than one turn visits no place twice. -/
theorem ringPlaces_nodup (start : Nat) {count size : Nat} (small : count ≤ size) :
    (ringPlaces start count size).Nodup := by
  refine List.Nodup.map_on ?_ nodup_range
  intro first below second under same
  have first_lt := mem_range.mp below
  have second_lt := mem_range.mp under
  have congruent : first ≡ second [MOD size] := Nat.ModEq.add_left_cancel' start same
  exact Nat.ModEq.eq_of_lt_of_lt congruent (by omega) (by omega)

/-- Consecutive steps on a ring visit a place as often as they go around, rounded down or up. -/
theorem ring_visits (start count : Nat) {size place : Nat} (inside : place < size) :
    count.count (fun step => (start + step) % size = place) = count / size ∨
      count.count (fun step => (start + step) % size = place) = (count + size - 1) / size := by
  have positive : 0 < size := Nat.zero_lt_of_lt inside
  -- The steps to the place are those of one residue.
  have residue : (fun step => (start + step) % size = place) =
      fun step => step ≡ place + (size - start % size) [MOD size] := by
    funext step
    rw [eq_iff_iff]
    have below := Nat.mod_lt start positive
    have whole : start + (place + (size - start % size)) ≡ place [MOD size] := by
      have sum : start + (place + (size - start % size)) = place + size * (start / size + 1) := by
        have split := Nat.div_add_mod start size
        rw [Nat.mul_add, Nat.mul_one]
        omega
      rw [sum]
      exact (Nat.add_mul_mod_self_left place size _)
    constructor
    · intro same
      have there : start + step ≡ place [MOD size] := same.trans (Nat.mod_eq_of_lt inside).symm
      exact Nat.ModEq.add_left_cancel' start (there.trans whole.symm)
    · intro same
      have there : start + step ≡ place [MOD size] := (Nat.ModEq.add_left start same).trans whole
      exact Eq.trans there (Nat.mod_eq_of_lt inside)
  have counted : count.count (fun step => (start + step) % size = place) = count / size +
      if (place + (size - start % size)) % size < count % size then 1 else 0 := by
    rw [← Nat.count_modEq_card count positive]
    simp only [residue]
  rw [counted]
  split
  · next beyond =>
    right
    have split := Nat.div_add_mod count size
    have rest : count + size - 1 = size * (count / size + 1) + (count % size - 1) := by
      rw [Nat.mul_add, Nat.mul_one]
      omega
    have small : count % size - 1 < size := by
      have := Nat.mod_lt count positive
      omega
    rw [rest, Nat.mul_add_div positive, Nat.div_eq_of_lt small]
  · exact .inl rfl

end Foundation.Ranges
