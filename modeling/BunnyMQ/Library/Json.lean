/-
This file defines JSON values and codecs that give back what they have encoded.
-/

import BunnyMQ.Library.Decimal
import BunnyMQ.Library.KeyMap
import Mathlib.Data.String.Basic

namespace Foundation.Json

inductive Value where
  | null
  | number (value : Int)
  | text (value : String)
  | array (elements : List Value)
  | object (fields : List (String × Value))

/-- A missing field reads as null. -/
def Value.field (name : String) : Value → Value
  | .object fields => (fields.lookup name).getD .null
  | _ => .null

/-- A codec gives back every value that it admits. -/
structure Codec (A : Type) where
  encode : A → Value
  decode : Value → Option A
  Admits : A → Prop
  faithful : ∀ value, Admits value → decode (encode value) = some value

/-- A reader that comes to an encoded field goes on with its value. -/
theorem Codec.read {A B : Type} (codec : Codec A) {value : A} (admitted : codec.Admits value) {next : A → Option B}
    {result : B} (rest : next value = some result) : (codec.decode (codec.encode value) >>= next) = some result := by
  rw [codec.faithful value admitted]
  exact rest

/-- The keys of a map are written as texts. -/
structure TextCodec (A : Type) where
  marshalText : A → String
  unmarshalText : String → Option A
  Admits : A → Prop
  faithful : ∀ value, Admits value → unmarshalText (marshalText value) = some value

/-- Null leaves a number at zero. -/
def number : Codec Int where
  encode := .number
  decode
    | .null => some 0
    | .number value => some value
    | _ => none
  Admits _ := True
  faithful _ _ := rfl

def natural : Codec Nat where
  encode value := .number value
  decode
    | .null => some 0
    | .number value => if 0 ≤ value then some value.toNat else none
    | _ => none
  Admits _ := True
  faithful value _ := by simp

def text : Codec String where
  encode := .text
  decode
    | .null => some ""
    | .text value => some value
    | _ => none
  Admits _ := True
  faithful _ _ := rfl

/-- A value with a text form is written in it also where it is no key. -/
def ofText {A : Type} (codec : TextCodec A) : Codec A where
  encode value := .text (codec.marshalText value)
  decode
    | .text written => codec.unmarshalText written
    | _ => none
  Admits := codec.Admits
  faithful value admitted := codec.faithful value admitted

/-- A pointer that is nil is null. -/
def pointer {A : Type} (codec : Codec A) (written : ∀ value, codec.encode value ≠ .null) : Codec (Option A) where
  encode
    | none => .null
    | some value => codec.encode value
  decode
    | .null => some none
    | read => (codec.decode read).map some
  Admits target := ∀ value, target = some value → codec.Admits value
  faithful target admitted := by
    cases target with
    | none => rfl
    | some value =>
      have read := codec.faithful value (admitted value rfl)
      have present := written value
      dsimp only
      split
      · next null => exact absurd null present
      · rw [read]
        rfl

theorem mapM_decode {A : Type} (codec : Codec A) {values : List A} (admitted : ∀ value ∈ values, codec.Admits value) :
    (values.map codec.encode).mapM codec.decode = some values := by
  induction values with
  | nil => rfl
  | cons first rest ih =>
    obtain ⟨here, later⟩ := List.forall_mem_cons.mp admitted
    rw [List.map_cons, List.mapM_cons, codec.faithful first here, ih later]
    rfl

/-- A slice without elements and a missing slice read the same. -/
def list {A : Type} (codec : Codec A) : Codec (List A) where
  encode values := .array (values.map codec.encode)
  decode
    | .null => some []
    | .array elements => elements.mapM codec.decode
    | _ => none
  Admits values := ∀ value ∈ values, codec.Admits value
  faithful _ admitted := mapM_decode codec admitted

def textKey : TextCodec String where
  marshalText key := key
  unmarshalText written := some written
  Admits _ := True
  faithful _ _ := rfl

def naturalKey : TextCodec Nat where
  marshalText key := String.ofList (Decimal.formatNat key)
  unmarshalText written := Decimal.parseNat written.toList
  Admits _ := True
  faithful key _ := by rw [String.toList_ofList, Decimal.parseNat_formatNat]

section
variable {Key A : Type} [DecidableEq Key]

/-- The fields of a map for some of its keys. -/
def fieldsOf (keys : TextCodec Key) (codec : Codec A) (entries : KeyMap Key A) (visited : List Key) :
    List (String × Value) :=
  visited.filterMap fun key => (entries.lookup key).map fun value => (keys.marshalText key, codec.encode value)

/-- The fields are inserted one after the other. -/
def readFields (keys : TextCodec Key) (codec : Codec A) (fields : List (String × Value)) (entries : KeyMap Key A) :
    Option (KeyMap Key A) :=
  fields.foldlM (fun entries field => do
    let key ← keys.unmarshalText field.1
    let value ← codec.decode field.2
    return entries.insert key value) entries

/-- Reading the fields of some keys gives these keys their values back. -/
theorem readFields_fieldsOf (keys : TextCodec Key) (codec : Codec A) {entries : KeyMap Key A}
    (admitted : ∀ key value, entries.lookup key = some value → keys.Admits key ∧ codec.Admits value)
    {visited : List Key} (distinct : visited.Nodup) (known : KeyMap Key A) :
    ∃ read, readFields keys codec (fieldsOf keys codec entries visited) known = some read ∧
      ∀ key, read.lookup key = if key ∈ visited ∧ key ∈ entries then entries.lookup key else known.lookup key := by
  induction visited generalizing known with
  | nil => exact ⟨known, rfl, fun key => by simp⟩
  | cons first rest ih =>
    obtain ⟨fresh, further⟩ := List.nodup_cons.mp distinct
    cases stored : entries.lookup first with
    | none =>
      obtain ⟨read, done, values⟩ := ih further known
      refine ⟨read, ?_, ?_⟩
      · unfold fieldsOf
        rw [List.filterMap_cons, stored]
        exact done
      · intro key
        have absent : first ∉ entries := Finmap.lookup_eq_none.mp stored
        rw [values key]
        by_cases same : key = first
        · simp [same, absent]
        · simp [same]
    | some value =>
      obtain ⟨keyAdmitted, valueAdmitted⟩ := admitted first value stored
      obtain ⟨read, done, values⟩ := ih further (known.insert first value)
      refine ⟨read, ?_, ?_⟩
      · unfold fieldsOf readFields
        rw [List.filterMap_cons, stored]
        simp only [Option.map_some, List.foldlM_cons, keys.faithful first keyAdmitted,
          codec.faithful value valueAdmitted]
        exact done
      · intro key
        have present : first ∈ entries := Finmap.mem_of_lookup_eq_some stored
        rw [values key]
        by_cases same : key = first
        · subst same
          simp [fresh, present, stored]
        · simp [same, Finmap.lookup_insert_of_ne _ same]

/-- A map is an object with one field for each key, in some order of the keys. A map that is nil is null. -/
def nilableMap (order : LinearOrder Key) (keys : TextCodec Key) (codec : Codec A) : Codec (Option (KeyMap Key A)) where
  encode
    | none => .null
    | some entries => .object (fieldsOf keys codec entries (@KeyMap.sortedKeys _ _ order entries))
  decode
    | .null => some none
    | .object fields => (readFields keys codec fields ∅).map some
    | _ => none
  Admits entries := ∀ held, entries = some held → ∀ key value, held.lookup key = some value →
    keys.Admits key ∧ codec.Admits value
  faithful entries admitted := by
    cases entries with
    | none => rfl
    | some held =>
      obtain ⟨read, done, values⟩ := readFields_fieldsOf keys codec (admitted held rfl)
        (@KeyMap.sortedKeys_nodup _ _ order held) ∅
      have same : read = held := by
        refine Finmap.ext_lookup fun key => ?_
        rw [values key]
        by_cases member : key ∈ held
        · rw [if_pos ⟨(@KeyMap.mem_sortedKeys _ _ order _ _).mpr member, member⟩]
        · rw [if_neg fun both => member both.2, Finmap.lookup_empty, Finmap.lookup_eq_none.mpr member]
      simp only [done, Option.map_some, same]

/-- The codec of a map that is never nil, because a nil map fails at the next write. -/
def map (order : LinearOrder Key) (keys : TextCodec Key) (codec : Codec A) : Codec (KeyMap Key A) where
  encode entries := (nilableMap order keys codec).encode (some entries)
  decode written := ((nilableMap order keys codec).decode written).join
  Admits entries := ∀ key value, entries.lookup key = some value → keys.Admits key ∧ codec.Admits value
  faithful entries admitted := by
    rw [(nilableMap order keys codec).faithful (some entries) fun held same => by cases same; exact admitted]
    rfl

end

end Foundation.Json
