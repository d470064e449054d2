/-
This file states what binary search loops and a search through a part of a list find.
-/

import Mathlib.Order.Basic

namespace Foundation.Search

/-- The loop remembers the last midpoint that satisfied the test and moves to the right of it. A failed
probe ends the search without a result. -/
def floorLoop (probe : Int → Option Bool) : Nat → Int → Int → Int → Option Int
  | 0, _, _, result => some result
  | more + 1, lo, hi, result =>
    if lo ≤ hi then
      let mid := (lo + hi) / 2
      match probe mid with
      | none => none
      | some true => floorLoop probe more (mid + 1) hi mid
      | some false => floorLoop probe more lo (mid - 1) result
    else some result

/-- The loop remembers the last midpoint that satisfied the test and moves to the left of it. -/
def ceilingLoop (probe : Int → Option Bool) : Nat → Int → Int → Int → Option Int
  | 0, _, _, result => some result
  | more + 1, lo, hi, result =>
    if lo ≤ hi then
      let mid := (lo + hi) / 2
      match probe mid with
      | none => none
      | some true => ceilingLoop probe more lo (mid - 1) mid
      | some false => ceilingLoop probe more (mid + 1) hi result
    else some result

/-- The loop keeps the test true at its lower end. -/
def lastLoop (holds : Nat → Bool) : Nat → Nat → Nat → Nat
  | 0, lo, _ => lo
  | more + 1, lo, hi =>
    if lo < hi then
      let mid := (lo + hi + 1) / 2
      if holds mid then lastLoop holds more mid hi else lastLoop holds more lo (mid - 1)
    else lo

/-- A search whose probes succeed returns its start value or an index that satisfies the test. -/
theorem floorLoop_spec {probe : Int → Option Bool} (fuel : Nat) (lo hi result : Int)
    (total : ∀ index, lo ≤ index → index ≤ hi → (probe index).isSome) :
    ∃ found, floorLoop probe fuel lo hi result = some found ∧
      (found = result ∨ lo ≤ found ∧ found ≤ hi ∧ probe found = some true) := by
  induction fuel generalizing lo hi result with
  | zero => exact ⟨result, rfl, .inl rfl⟩
  | succ fuel ih =>
    rw [floorLoop]
    split
    · next order =>
      obtain ⟨answer, probed⟩ :=
        Option.isSome_iff_exists.mp (total ((lo + hi) / 2) (by omega) (by omega))
      dsimp only
      rw [probed]
      cases answer with
      | true =>
        obtain ⟨found, search, place⟩ := ih ((lo + hi) / 2 + 1) hi ((lo + hi) / 2)
          fun index lower upper => total index (by omega) upper
        refine ⟨found, search, .inr ?_⟩
        rcases place with rfl | ⟨lower, upper, holds⟩
        · exact ⟨by omega, by omega, probed⟩
        · exact ⟨by omega, upper, holds⟩
      | false =>
        obtain ⟨found, search, place⟩ := ih lo ((lo + hi) / 2 - 1) result
          fun index lower upper => total index lower (by omega)
        refine ⟨found, search, place.imp_right ?_⟩
        rintro ⟨lower, upper, holds⟩
        exact ⟨lower, by omega, holds⟩
    · exact ⟨result, rfl, .inl rfl⟩

/-- A ceiling search over a rising test returns the first index that satisfies it, and its start value if there is
none. -/
theorem ceilingLoop_spec {probe : Int → Option Bool} (fuel : Nat) (lo hi result : Int) (enough : hi < lo + fuel)
    (total : ∀ index, lo ≤ index → index ≤ hi → (probe index).isSome)
    (rising : ∀ first second, lo ≤ first → first ≤ second → second ≤ hi → probe first = some true →
      probe second = some true) :
    ∃ found, ceilingLoop probe fuel lo hi result = some found ∧
      (found = result ∧ (∀ index, lo ≤ index → index ≤ hi → probe index = some false) ∨
        lo ≤ found ∧ found ≤ hi ∧ probe found = some true ∧
          ∀ index, lo ≤ index → index < found → probe index = some false) := by
  induction fuel generalizing lo hi result with
  | zero => exact ⟨result, rfl, .inl ⟨rfl, fun index lower upper => by omega⟩⟩
  | succ fuel ih =>
    rw [ceilingLoop]
    split
    · next order =>
      obtain ⟨answer, probed⟩ :=
        Option.isSome_iff_exists.mp (total ((lo + hi) / 2) (by omega) (by omega))
      dsimp only
      rw [probed]
      cases answer with
      | true =>
        obtain ⟨found, search, place⟩ := ih lo ((lo + hi) / 2 - 1) ((lo + hi) / 2) (by omega)
          (fun index lower upper => total index lower (by omega))
          (fun first second lower between upper => rising first second lower between (by omega))
        refine ⟨found, search, .inr ?_⟩
        rcases place with ⟨rfl, none⟩ | ⟨lower, upper, holds, none⟩
        · exact ⟨by omega, by omega, probed, fun index lower below => none index lower (by omega)⟩
        · exact ⟨lower, by omega, holds, none⟩
      | false =>
        obtain ⟨found, search, place⟩ := ih ((lo + hi) / 2 + 1) hi result (by omega)
          (fun index lower upper => total index (by omega) upper)
          (fun first second lower between upper => rising first second (by omega) between upper)
        -- The test fails at the midpoint, so it fails everywhere before it.
        have early : ∀ index, lo ≤ index → index ≤ (lo + hi) / 2 → probe index = some false := by
          intro index lower upper
          obtain ⟨answer, tested⟩ := Option.isSome_iff_exists.mp (total index lower (by omega))
          cases answer with
          | false => exact tested
          | true =>
            have later := rising index ((lo + hi) / 2) lower upper (by omega) tested
            rw [probed] at later
            cases later
        refine ⟨found, search, ?_⟩
        rcases place with ⟨same, none⟩ | ⟨lower, upper, holds, none⟩
        · refine .inl ⟨same, fun index lower upper => ?_⟩
          rcases Int.lt_or_le ((lo + hi) / 2) index with behind | before
          · exact none index (by omega) upper
          · exact early index lower before
        · refine .inr ⟨by omega, upper, holds, fun index lower below => ?_⟩
          rcases Int.lt_or_le ((lo + hi) / 2) index with behind | before
          · exact none index (by omega) below
          · exact early index lower before
    · exact ⟨result, rfl, .inl ⟨rfl, fun index lower upper => by omega⟩⟩

/-- The last index of the test ends the search, when the test fails behind the upper end. -/
theorem lastLoop_spec {holds : Nat → Bool} {fuel lo hi : Nat} (order : lo ≤ hi) (enough : hi - lo ≤ fuel)
    (lower : holds lo = true) {size : Nat} (inside : hi < size)
    (upper : hi + 1 < size → holds (hi + 1) = false) :
    lastLoop holds fuel lo hi < size ∧ holds (lastLoop holds fuel lo hi) = true ∧
      (lastLoop holds fuel lo hi + 1 < size → holds (lastLoop holds fuel lo hi + 1) = false) := by
  induction fuel generalizing lo hi with
  | zero =>
    obtain rfl : lo = hi := by omega
    exact ⟨inside, lower, upper⟩
  | succ fuel ih =>
    rw [lastLoop]
    split
    · dsimp only
      split
      · next holdsMid => exact ih (by omega) (by omega) holdsMid inside upper
      · next failsMid =>
        refine ih (by omega) (by omega) lower (by omega) fun _ => ?_
        rw [Nat.sub_add_cancel (by omega)]
        simpa using failsMid
    · obtain rfl : lo = hi := by omega
      exact ⟨inside, lower, upper⟩

/-- A sublist without repetitions finds the same first element once it contains it. -/
theorem find?_of_sublist {α : Type} {test : α → Bool} {first second : List α} {value : α}
    (inside : first.Sublist second)
    (distinct : second.Nodup) (found : second.find? test = some value) (member : value ∈ first) :
    first.find? test = some value := by
  induction inside with
  | slnil => cases member
  | cons head inside ih =>
    obtain ⟨fresh, rest⟩ := List.nodup_cons.mp distinct
    rw [List.find?_cons] at found
    cases holds : test head with
    | true =>
      rw [holds] at found
      cases found
      exact absurd (inside.subset member) fresh
    | false =>
      rw [holds] at found
      exact ih rest found member
  | cons_cons head inside ih =>
    obtain ⟨_, rest⟩ := List.nodup_cons.mp distinct
    rw [List.find?_cons] at found ⊢
    cases holds : test head with
    | true =>
      rw [holds] at found
      exact found
    | false =>
      rw [holds] at found
      rcases List.mem_cons.mp member with rfl | later
      · rw [List.find?_some found] at holds
        cases holds
      · exact ih rest found later

end Foundation.Search
