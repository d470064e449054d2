/-
This file merges stamped values, of which the one with the greatest stamp counts.
-/

import Mathlib.Order.Lattice
import Mathlib.Data.List.Basic

namespace Foundation.Latest
variable {Stamp Value : Type} [LinearOrder Stamp]

/-- A value replaces the held one when its stamp is greater. -/
def take (held next : Stamp × Value) : Stamp × Value := if next.1 ≤ held.1 then held else next

/-- The held value is the first one, or one of the others with a greater stamp, and no stamp exceeds it. -/
structure IsLatest (first : Stamp × Value) (others : Stamp × Value → Prop) (held : Stamp × Value) : Prop where
  origin : held = first ∨ others held ∧ first.1 < held.1
  bound : ∀ other, others other → other.1 ≤ held.1

section
variable {first held : Stamp × Value} {others : Stamp × Value → Prop} (latest : IsLatest first others held)
include latest

theorem IsLatest.first_le : first.1 ≤ held.1 := by
  obtain same | ⟨_, greater⟩ := latest.origin
  · exact (congrArg Prod.fst same).ge
  · exact greater.le

/-- Nothing exceeds the first value, so it is held. -/
theorem IsLatest.eq_first (bound : ∀ other, others other → other.1 ≤ first.1) : held = first := by
  obtain same | ⟨member, greater⟩ := latest.origin
  · exact same
  · exact absurd (bound held member) (not_le.mpr greater)

end

/-- Where a stamp determines its value, the greatest one above the first value is held. -/
theorem IsLatest.eq_greatest {first held greatest : Stamp × Value} {others : Stamp × Value → Prop}
    (latest : IsLatest first others held)
    (functional : ∀ one two, others one → others two → one.1 = two.1 → one = two) (member : others greatest)
    (greater : first.1 < greatest.1) (bound : ∀ other, others other → other.1 ≤ greatest.1) : held = greatest := by
  obtain same | ⟨also, _⟩ := latest.origin
  · exact absurd (latest.bound greatest member) (not_le.mpr (same ▸ greater))
  · exact functional held greatest also member (le_antisymm (bound held also) (latest.bound greatest member))

/-- A loop of replacements holds the latest value. -/
theorem foldl_take_isLatest (values : List (Stamp × Value)) (first : Stamp × Value) :
    IsLatest first (· ∈ values) (values.foldl take first) := by
  induction values generalizing first with
  | nil => exact ⟨.inl rfl, fun _ member => absurd member List.not_mem_nil⟩
  | cons next rest ih =>
    have later := ih (take first next)
    rw [List.foldl_cons]
    by_cases older : next.1 ≤ first.1
    · have kept : take first next = first := if_pos older
      rw [kept] at later ⊢
      refine ⟨later.origin.imp_right fun both => ⟨List.mem_cons_of_mem next both.1, both.2⟩, fun other member => ?_⟩
      obtain rfl | member := List.mem_cons.mp member
      · exact older.trans later.first_le
      · exact later.bound other member
    · have replaced : take first next = next := if_neg older
      rw [replaced] at later ⊢
      have above : first.1 < (rest.foldl take next).1 := (not_le.mp older).trans_le later.first_le
      refine ⟨.inr ⟨?_, above⟩, fun other member => ?_⟩
      · obtain same | both := later.origin
        · rw [same]
          exact List.mem_cons_self
        · exact List.mem_cons_of_mem next both.1
      · obtain rfl | member := List.mem_cons.mp member
        · exact later.first_le
        · exact later.bound other member

end Foundation.Latest
