/-
This file describes selections of the items of a list by a parallel list of reasons or by their places.
-/

import Mathlib.Data.List.Nodup
import Mathlib.Data.List.Pairwise

namespace Foundation.Selection
open List Option
variable {Reason Item : Type}
variable {items : List Item} {reasons : List (Option Reason)} {item : Item}

/-- These are the items whose reasons are chosen. -/
def picked (choose : Option Reason → Bool) (reasons : List (Option Reason)) (items : List Item) : List Item :=
  ((items.zip reasons).filter fun entry => choose entry.2).map Prod.fst

@[simp] theorem picked_nil (choose : Option Reason → Bool) (reasons : List (Option Reason)) :
    picked choose reasons ([] : List Item) = [] := by
  simp [picked]

@[simp] theorem picked_nil_reasons (choose : Option Reason → Bool) (items : List Item) :
    picked choose [] items = [] := by
  simp [picked]

theorem picked_cons (choose : Option Reason → Bool) (reason : Option Reason) (reasons : List (Option Reason))
    (item : Item) (items : List Item) :
    picked choose (reason :: reasons) (item :: items) =
      (if choose reason then [item] else []) ++ picked choose reasons items := by
  unfold picked
  rw [zip_cons_cons, filter_cons]
  split
  · rfl
  · rfl

theorem picked_map {Other : Type} (choose : Option Reason → Bool) (reasons : List (Option Reason))
    (items : List Item) (f : Item → Other) :
    picked choose reasons (items.map f) = (picked choose reasons items).map f := by
  induction items generalizing reasons with
  | nil => simp
  | cons item items ih =>
    cases reasons with
    | nil => simp
    | cons reason reasons =>
      rw [map_cons, picked_cons, picked_cons, ih, map_append]
      split
      · rfl
      · rfl

theorem picked_sublist (choose : Option Reason → Bool) (reasons : List (Option Reason)) (items : List Item) :
    (picked choose reasons items).Sublist items := by
  induction items generalizing reasons with
  | nil => simp
  | cons item items ih =>
    cases reasons with
    | nil => simp
    | cons reason reasons =>
      rw [picked_cons]
      split
      · exact (ih reasons).cons_cons item
      · exact (ih reasons).cons item

theorem picked_forall₂ {Other : Type} {related : Item → Other → Prop} (choose : Option Reason → Bool)
    (reasons : List (Option Reason)) {others : List Other} (same : List.Forall₂ related items others) :
    List.Forall₂ related (picked choose reasons items) (picked choose reasons others) := by
  induction same generalizing reasons with
  | nil => simp
  | cons first rest ih =>
    cases reasons with
    | nil => simp
    | cons reason reasons =>
      rw [picked_cons, picked_cons]
      split
      · exact .cons first (ih reasons)
      · exact ih reasons

theorem mem_picked_iff {choose : Option Reason → Bool} :
    item ∈ picked choose reasons items ↔
      ∃ (place : Nat) (reason : Option Reason),
        items[place]? = some item ∧ reasons[place]? = some reason ∧ choose reason = true := by
  rw [picked, List.mem_map]
  constructor
  · rintro ⟨⟨first, reason⟩, member, rfl⟩
    obtain ⟨both, chosen⟩ := mem_filter.mp member
    obtain ⟨place, found⟩ := mem_iff_getElem?.mp both
    obtain ⟨listed, judged⟩ := List.getElem?_zip_eq_some.mp found
    exact ⟨place, reason, listed, judged, chosen⟩
  · rintro ⟨place, reason, listed, judged, chosen⟩
    exact ⟨(item, reason), mem_filter.mpr ⟨mem_iff_getElem?.mpr ⟨place,
      List.getElem?_zip_eq_some.mpr ⟨listed, judged⟩⟩, chosen⟩, rfl⟩

/-- Every item with a reason or without one is in one of the two lists. -/
theorem mem_picked_or (judged : reasons.length = items.length) (member : item ∈ items) :
    item ∈ picked isNone reasons items ∨ item ∈ picked isSome reasons items := by
  induction items generalizing reasons with
  | nil => cases member
  | cons first items ih =>
    cases reasons with
    | nil => cases judged
    | cons reason reasons =>
      rw [picked_cons, picked_cons]
      rcases mem_cons.mp member with rfl | later
      · cases reason with
        | none => exact .inl (by simp)
        | some reason => exact .inr (by simp)
      · rcases ih (Nat.succ.inj judged) later with kept | removed
        · exact .inl (mem_append_right _ kept)
        · exact .inr (mem_append_right _ removed)

/-- Without duplicates no item is both kept and removed. -/
theorem picked_disjoint (reasons : List (Option Reason)) (distinct : items.Nodup)
    (kept : item ∈ picked isNone reasons items) : item ∉ picked isSome reasons items := by
  induction items generalizing reasons with
  | nil => simp at kept
  | cons first items ih =>
    obtain ⟨fresh, rest⟩ := nodup_cons.mp distinct
    cases reasons with
    | nil => simp at kept
    | cons reason reasons =>
      rw [picked_cons] at kept ⊢
      have later := @ih reasons rest
      cases reason with
      | none =>
        rcases mem_append.mp kept with same | old
        · rw [mem_singleton.mp same]
          simpa using fun removed => fresh ((picked_sublist _ reasons items).subset removed)
        · simpa using later old
      | some reason =>
        have old : item ∈ picked isNone reasons items := by simpa using kept
        intro removed
        rcases mem_append.mp removed with same | more
        · rw [mem_singleton.mp same] at old
          exact fresh ((picked_sublist _ reasons items).subset old)
        · exact later old more

/-- A marked item has only marked items before it. -/
def MarksPrefix (reasons : List (Option Reason)) : Prop :=
  reasons.Pairwise fun earlier later => later.isSome → earlier.isSome

instance (reasons : List (Option Reason)) : Decidable (MarksPrefix reasons) :=
  inferInstanceAs (Decidable (List.Pairwise _ _))

theorem picked_unmarked (judged : reasons.length = items.length) (unmarked : ∀ reason ∈ reasons, reason = none) :
    picked isNone reasons items = items := by
  induction items generalizing reasons with
  | nil => simp
  | cons item items ih =>
    cases reasons with
    | nil => cases judged
    | cons reason reasons =>
      have first := unmarked reason mem_cons_self
      rw [picked_cons, first, ih (Nat.succ.inj judged) fun other member =>
        unmarked other (mem_cons_of_mem _ member)]
      rfl

/-- A marked prefix leaves a suffix. -/
theorem picked_suffix (judged : reasons.length = items.length) (marks : MarksPrefix reasons) :
    picked isNone reasons items <:+ items := by
  induction items generalizing reasons with
  | nil => simp
  | cons item items ih =>
    cases reasons with
    | nil => cases judged
    | cons reason reasons =>
      obtain ⟨before, rest⟩ := pairwise_cons.mp marks
      cases reason with
      | some reason =>
        rw [picked_cons]
        exact (ih (Nat.succ.inj judged) rest).trans (suffix_cons item items)
      | none =>
        have unmarked : ∀ other ∈ none :: reasons, other = none := by
          intro other member
          rcases mem_cons.mp member with same | later
          · exact same
          · cases other with
            | none => rfl
            | some other => exact absurd (before _ later rfl) (by simp)
        simp only [picked_unmarked judged unmarked, suffix_rfl]

/-- Marks on exactly the first places select a front of the items and leave the rest. -/
theorem picked_of_marks {reasons : List (Option Reason)} {items : List Item} (judged : reasons.length = items.length)
    {count : Nat} (marks : ∀ place reason, reasons[place]? = some reason → (reason.isSome ↔ place < count)) :
    picked isSome reasons items = items.take count ∧ picked isNone reasons items = items.drop count := by
  induction items generalizing reasons count with
  | nil => simp
  | cons item items ih =>
    cases reasons with
    | nil => cases judged
    | cons reason reasons =>
      have first := marks 0 reason rfl
      obtain ⟨taken, left⟩ := @ih reasons (Nat.succ.inj judged) (count - 1) fun place other found =>
        (marks (place + 1) other found).trans (by omega)
      rw [picked_cons, picked_cons, taken, left]
      cases count with
      | zero =>
        have unmarked : reason = none := by simpa using first
        simp [unmarked]
      | succ count =>
        obtain ⟨value, marked⟩ := isSome_iff_exists.mp (first.mpr (Nat.succ_pos count))
        simp [marked]

/-- A property of places that only passes to earlier ones holds of the places before some count. -/
theorem exists_count {chosen : Nat → Prop} (bound : Nat)
    (earlier : ∀ place, place + 1 < bound → chosen (place + 1) → chosen place) :
    ∃ count ≤ bound, ∀ place < bound, place < count ↔ chosen place := by
  induction bound with
  | zero => exact ⟨0, Nat.le_refl 0, fun place inside => absurd inside (Nat.not_lt_zero place)⟩
  | succ bound ih =>
    obtain ⟨count, below, counted⟩ := ih fun place inside => earlier place (by omega)
    by_cases last : chosen bound
    · have full : count = bound := by
        cases bound with
        | zero => omega
        | succ previous =>
          have chosen := (counted previous (by omega)).mpr (earlier previous (by omega) last)
          omega
      refine ⟨bound + 1, Nat.le_refl _, fun place inside => ⟨fun _ => ?_, fun _ => inside⟩⟩
      by_cases same : place = bound
      · rw [same]
        exact last
      · exact (counted place (by omega)).mp (by omega)
    · refine ⟨count, by omega, fun place inside => ?_⟩
      by_cases same : place = bound
      · subst same
        exact ⟨fun _ => by omega, fun holds => absurd holds last⟩
      · exact counted place (by omega)

section
variable {Other : Type}

/-- A traversal succeeds with the results that succeed for each item. -/
theorem mapM_eq_some_iff (f : Item → Option Other) (items : List Item) (results : List Other) :
    items.mapM f = some results ↔ items.map f = results.map some := by
  induction items generalizing results with
  | nil =>
    cases results with
    | nil => simp
    | cons result results => simp
  | cons item items ih =>
    cases results with
    | nil =>
      cases first : f item with
      | none => simp [mapM_cons, first]
      | some value => simp [mapM_cons, first, bind_eq_some_iff]
    | cons result results =>
      cases first : f item with
      | none => simp [mapM_cons, first]
      | some value => simp [mapM_cons, first, ← ih, bind_eq_some_iff, and_comm]

/-- Items that are picked at different places of a list without repetitions are different. -/
theorem nodup_of_places {results : List Item} {places : List Nat} (distinct : items.Nodup) (different : places.Nodup)
    (picked : places.map (fun place => items[place]?) = results.map some) : results.Nodup := by
  have found : (results.map some).Nodup := by
    rw [← picked]
    refine List.Nodup.map_on ?_ different
    intro first member second _ same
    have present : items[first]? ∈ results.map some := picked ▸ mem_map_of_mem member
    obtain ⟨item, _, at'⟩ := mem_map.mp present
    obtain ⟨inside, _⟩ := List.getElem?_eq_some_iff.mp at'.symm
    exact (List.getElem?_inj inside distinct).mp same
  exact List.Nodup.of_map _ found

theorem mem_of_places {results : List Item} {places : List Nat}
    (picked : places.map (fun place => items[place]?) = results.map some) (member : item ∈ results) :
    item ∈ items := by
  have present : some item ∈ places.map (fun place => items[place]?) := picked ▸ mem_map_of_mem member
  obtain ⟨place, _, found⟩ := mem_map.mp present
  exact mem_of_getElem? found

end

/-- A relation between all neighbours in time of a list holds between any two of its items in order. -/
theorem related_of_le {related : Item → Item → Prop} (same : ∀ item, related item item)
    (ordered : items.Pairwise related) {i j : Nat} {first second : Item} (order : i ≤ j)
    (found : items[i]? = some first) (also : items[j]? = some second) : related first second := by
  rcases Nat.eq_or_lt_of_le order with equal | before
  · subst equal
    rw [found] at also
    cases also
    exact same first
  · obtain ⟨inside, rfl⟩ := List.getElem?_eq_some_iff.mp found
    obtain ⟨within, rfl⟩ := List.getElem?_eq_some_iff.mp also
    exact pairwise_iff_getElem.mp ordered i j inside within before

/-- With distinct keys the items without a reason are those whose keys got none. -/
theorem picked_none_eq_filter {Key : Type} [DecidableEq Key] {key : Item → Key}
    (judged : reasons.length = items.length) (distinct : (items.map key).Nodup) :
    picked isNone reasons items =
      items.filter fun item => key item ∉ (picked isSome reasons items).map key := by
  induction items generalizing reasons with
  | nil => simp
  | cons item items ih =>
    cases reasons with
    | nil => cases judged
    | cons reason reasons =>
      obtain ⟨fresh, rest⟩ := nodup_cons.mp distinct
      have others : ∀ other ∈ items, key other ≠ key item :=
        fun other member same => fresh (same ▸ mem_map_of_mem member)
      have inside : ∀ other ∈ picked isSome reasons items, other ∈ items :=
        fun other member => (picked_sublist _ reasons items).subset member
      have below : picked isNone reasons items = _ := ih (Nat.succ.inj judged) rest
      rw [picked_cons, picked_cons, below]
      cases reason with
      | none =>
        have kept : key item ∉ (picked isSome reasons items).map key := by
          intro member
          obtain ⟨other, found, same⟩ := mem_map.mp member
          exact others other (inside other found) same
        simp only [isNone_none, if_true, singleton_append, isSome_none, Bool.false_eq_true,
          if_false, nil_append]
        rw [filter_cons, if_pos (decide_eq_true kept)]
      | some reason =>
        simp only [isNone_some, Bool.false_eq_true, if_false, nil_append, isSome_some, if_true,
          singleton_append, map_cons, mem_cons]
        rw [filter_cons_of_neg (by simp)]
        refine filter_congr fun other member => ?_
        simp [others other member]

/-- In a list without repetitions that is put together from parts, each item is in one part. -/
theorem exists_unique_part {Part : Type} {parts : List Part} {items : Part → List Item}
    (distinct : (parts.flatMap items).Nodup) (inside : item ∈ parts.flatMap items) :
    ∃ part ∈ parts, item ∈ items part ∧ ∀ other ∈ parts, item ∈ items other → other = part := by
  obtain ⟨part, member, here⟩ := mem_flatMap.mp inside
  refine ⟨part, member, here, fun other also there => ?_⟩
  by_contra different
  have symmetric : Std.Symm (Function.onFun List.Disjoint items) :=
    ⟨fun _ _ separate => disjoint_left.mpr fun _ here there => separate there here⟩
  exact (nodup_flatMap.mp distinct).2.forall also member different there here

end Foundation.Selection
