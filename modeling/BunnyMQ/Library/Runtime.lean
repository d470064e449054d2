/-
This file models maps, pointers and slices whose misuse stops a program.
-/

import BunnyMQ.Library.KeyMap

namespace Foundation.Runtime
open Finmap

/-- What stops a program at run time. -/
inductive Panic where
  | nilMap
  | nilPointer
  | indexRange
  | sliceBounds
  | divideByZero
  deriving DecidableEq, Repr

/-- A pointer is nil or points to a value. -/
abbrev Pointer (A : Type) := Option A

def deref {A : Type} : Pointer A → Except Panic A
  | none => .error .nilPointer
  | some value => .ok value

def index {A : Type} (items : List A) (place : Nat) : Except Panic A :=
  match items[place]? with
  | none => .error .indexRange
  | some item => .ok item

def slice {A : Type} (items : List A) (low high : Nat) : Except Panic (List A) :=
  if low ≤ high ∧ high ≤ items.length then .ok ((items.take high).drop low) else .error .sliceBounds

def quotient (dividend divisor : Nat) : Except Panic Nat :=
  if divisor = 0 then .error .divideByZero else .ok (dividend / divisor)

/-- A map is nil or holds its entries. -/
abbrev NilMap (Key A : Type) := Option (KeyMap Key A)

/-- A run without a panic goes on with its value. -/
@[simp] theorem ok_bind {A B : Type} (value : A) (next : A → Except Panic B) :
    (Except.ok value >>= next) = next value := rfl

section
variable {A : Type}

@[simp] theorem deref_some (value : A) : deref (some value) = .ok value := rfl

theorem index_of_lt {items : List A} {place : Nat} (inside : place < items.length) :
    index items place = .ok items[place] := by
  rw [index, List.getElem?_eq_getElem inside]

theorem slice_of_le {items : List A} {low high : Nat} (ordered : low ≤ high) (inside : high ≤ items.length) :
    slice items low high = .ok ((items.take high).drop low) := if_pos ⟨ordered, inside⟩

theorem quotient_of_pos (dividend : Nat) {divisor : Nat} (positive : 0 < divisor) :
    quotient dividend divisor = .ok (dividend / divisor) := if_neg positive.ne'

end

/-- A loop whose every round goes through and keeps a relation goes through and keeps it. -/
theorem foldlM_related {Running Abstract Index : Type} {related : Running → Abstract → Prop}
    {round : Running → Index → Except Panic Running} {step : Abstract → Index → Abstract} {indices : List Index}
    (each : ∀ place ∈ indices, ∀ running abstract, related running abstract →
      ∃ next, round running place = .ok next ∧ related next (step abstract place))
    {running : Running} {abstract : Abstract} (start : related running abstract) :
    ∃ last, indices.foldlM round running = .ok last ∧ related last (indices.foldl step abstract) := by
  induction indices generalizing running abstract with
  | nil => exact ⟨running, rfl, start⟩
  | cons first rest ih =>
    obtain ⟨next, went, kept⟩ := each first List.mem_cons_self running abstract start
    obtain ⟨last, finished, final⟩ := ih (fun place member => each place (List.mem_cons_of_mem first member)) kept
    refine ⟨last, ?_, final⟩
    rw [List.foldlM_cons, went]
    exact finished

/-- A loop that reads a value in every round collects the values. -/
theorem mapM_ok {A B : Type} {read : A → Except Panic B} {value : A → B} {items : List A}
    (each : ∀ item ∈ items, read item = .ok (value item)) : items.mapM read = .ok (items.map value) := by
  induction items with
  | nil => rfl
  | cons first rest ih =>
    rw [List.mapM_cons, each first List.mem_cons_self, ok_bind,
      ih fun item member => each item (List.mem_cons_of_mem first member)]
    rfl

namespace NilMap
variable {Key A B : Type} [DecidableEq Key]

/-- A nil map is read like an empty one. -/
def lookup (entries : NilMap Key A) (key : Key) : Option A := entries.bind fun held => held.lookup key

def store (entries : NilMap Key A) (key : Key) (value : A) : Except Panic (NilMap Key A) :=
  match entries with
  | none => .error .nilMap
  | some held => .ok (some (held.insert key value))

/-- A value that a stored pointer leads to is changed in place, which is no write to the map. -/
def modify (entries : NilMap Key A) (key : Key) (value : A) : NilMap Key A :=
  entries.map fun held => held.insert key value

/-- Nothing is deleted from a nil map. -/
def delete (entries : NilMap Key A) (key : Key) : NilMap Key A := entries.map fun held => held.erase key

/-- The value behind a stored pointer, or a new one. -/
def derefOr (entries : NilMap Key (Pointer A)) (key : Key) (new : A) : Except Panic A :=
  match entries.lookup key with
  | none => .ok new
  | some pointer => deref pointer

/-- A loop visits the keys, none of them in a nil map. -/
def visited (order : LinearOrder Key) (entries : NilMap Key A) : List Key :=
  (entries.map fun held => @KeyMap.sortedKeys _ _ order held).getD []

/-- The map is made, and its values are related to those of the entries. -/
def Mirrors (related : A → B → Prop) (entries : NilMap Key A) (mirrored : KeyMap Key B) : Prop :=
  ∃ held, entries = some held ∧ ∀ key, Option.Rel related (held.lookup key) (mirrored.lookup key)

/-- The pointer leads to a related value. -/
def Points (related : A → B → Prop) (pointer : Pointer A) (value : B) : Prop :=
  ∃ target, pointer = some target ∧ related target value

section
variable {related : A → B → Prop} {entries : NilMap Key A} {mirrored : KeyMap Key B}

theorem Mirrors.made : Mirrors related (some (∅ : KeyMap Key A)) (∅ : KeyMap Key B) :=
  ⟨∅, rfl, fun key => by rw [lookup_empty, lookup_empty]; exact .none⟩

/-- A map that is made is not made again. -/
theorem Mirrors.some_getD (mirrors : Mirrors related entries mirrored) : some (entries.getD ∅) = entries := by
  obtain ⟨held, rfl, _⟩ := mirrors
  rfl

theorem Mirrors.self {entries : KeyMap Key A} : Mirrors Eq (some entries) entries := by
  refine ⟨entries, rfl, fun key => ?_⟩
  cases entries.lookup key with
  | none => exact .none
  | some value => exact .some rfl

/-- A key is missing on both sides, or it has related values. -/
theorem Mirrors.lookup_cases (mirrors : Mirrors related entries mirrored) (key : Key) :
    (entries.lookup key = none ∧ mirrored.lookup key = none) ∨
      ∃ value other, entries.lookup key = some value ∧ mirrored.lookup key = some other ∧ related value other := by
  obtain ⟨held, rfl, each⟩ := mirrors
  change (held.lookup key = none ∧ _) ∨ ∃ value other, held.lookup key = some value ∧ _
  have here := each key
  cases found : held.lookup key with
  | none =>
    rw [found] at here
    cases other : mirrored.lookup key with
    | none => exact .inl ⟨rfl, rfl⟩
    | some value =>
      rw [other] at here
      cases here
  | some value =>
    rw [found] at here
    cases also : mirrored.lookup key with
    | none =>
      rw [also] at here
      cases here
    | some other =>
      rw [also] at here
      cases here with
      | some same => exact .inr ⟨value, other, rfl, rfl, same⟩

theorem Mirrors.insert {held : KeyMap Key A} (mirrors : Mirrors related (some held) mirrored) (key : Key) {value : A}
    {other : B} (same : related value other) :
    Mirrors related (some (held.insert key value)) (mirrored.insert key other) := by
  obtain ⟨stored, made, each⟩ := mirrors
  cases made
  refine ⟨_, rfl, fun visited => ?_⟩
  by_cases here : visited = key
  · subst here
    rw [lookup_insert, lookup_insert]
    exact .some same
  · rw [lookup_insert_of_ne _ here, lookup_insert_of_ne _ here]
    exact each visited

section
variable (mirrors : Mirrors related entries mirrored) (key : Key)
include mirrors key

/-- A write to a map that is made goes through. -/
theorem Mirrors.store {value : A} {other : B} (same : related value other) :
    ∃ next, entries.store key value = .ok next ∧ Mirrors related next (mirrored.insert key other) := by
  obtain ⟨held, rfl, _⟩ := id mirrors
  exact ⟨_, rfl, mirrors.insert key same⟩

theorem Mirrors.modify {value : A} {other : B} (same : related value other) :
    Mirrors related (entries.modify key value) (mirrored.insert key other) := by
  obtain ⟨held, rfl, _⟩ := id mirrors
  exact mirrors.insert key same

theorem Mirrors.delete : Mirrors related (entries.delete key) (mirrored.erase key) := by
  obtain ⟨held, rfl, each⟩ := mirrors
  refine ⟨_, rfl, fun visited => ?_⟩
  by_cases here : visited = key
  · subst here
    rw [lookup_erase, lookup_erase]
    exact .none
  · rw [lookup_erase_ne here, lookup_erase_ne here]
    exact each visited

end

theorem Mirrors.deleteAll {Index : Type} (mirrors : Mirrors related entries mirrored) (key : Index → Key)
    (indices : List Index) : Mirrors related (indices.foldl (fun entries place => entries.delete (key place)) entries)
      (indices.foldl (fun entries place => entries.erase (key place)) mirrored) := by
  induction indices generalizing entries mirrored with
  | nil => exact mirrors
  | cons place rest ih => exact ih (mirrors.delete (key place))

theorem Mirrors.isSome (mirrors : Mirrors related entries mirrored) (key : Key) :
    (entries.lookup key).isSome = (mirrored.lookup key).isSome := by
  obtain ⟨absent, also⟩ | ⟨value, other, stored, also, _⟩ := mirrors.lookup_cases key
  · rw [absent, also]
    rfl
  · rw [stored, also]
    rfl

theorem Mirrors.visited (mirrors : Mirrors related entries mirrored) (order : LinearOrder Key) :
    entries.visited order = @KeyMap.sortedKeys _ _ order mirrored := by
  have keys := mirrors.isSome
  obtain ⟨held, rfl, _⟩ := mirrors
  have same : held.keys = mirrored.keys := by
    ext key
    rw [mem_keys, mem_keys, ← lookup_isSome, ← lookup_isSome]
    exact Bool.eq_iff_iff.mp (keys key)
  change @KeyMap.sortedKeys _ _ order held = _
  rw [KeyMap.sortedKeys, KeyMap.sortedKeys, same]

section
variable {entries : NilMap Key (Pointer A)} (mirrors : Mirrors (Points related) entries mirrored) (key : Key)
include mirrors key

/-- In a map of pointers a key is missing on both sides, or its pointer leads to a related value. -/
theorem Mirrors.pointer_cases : (entries.lookup key = none ∧ mirrored.lookup key = none) ∨
      ∃ value other, entries.lookup key = some (some value) ∧ mirrored.lookup key = some other ∧
        related value other := by
  obtain absent | ⟨pointer, other, stored, also, target, rfl, same⟩ := mirrors.lookup_cases key
  · exact .inl absent
  · exact .inr ⟨target, other, stored, also, same⟩

theorem Mirrors.derefOr {new : A} {fresh : B} (made : related new fresh) :
    ∃ value, entries.derefOr key new = .ok value ∧ related value ((mirrored.lookup key).getD fresh) := by
  unfold NilMap.derefOr
  obtain ⟨absent, also⟩ | ⟨value, other, stored, also, same⟩ := mirrors.pointer_cases key
  · rw [absent, also]
    exact ⟨new, rfl, made⟩
  · rw [stored, also]
    exact ⟨value, rfl, same⟩

end

end

end NilMap

end Foundation.Runtime
