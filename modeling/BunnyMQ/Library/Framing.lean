/-
This file splits a byte string into frames that announce their own length.
-/

import BunnyMQ.Library.ByteOrder

namespace Foundation.Framing
open List

/-- The header of a frame announces the length of the whole frame. -/
structure Format where
  header : Nat
  announced : Bytes → Nat
  accepts : Bytes → Bool
  header_pos : 0 < header
  announced_append : ∀ data rest, header ≤ data.length → announced (data ++ rest) = announced data

variable (format : Format)

/-- A complete frame announces its own length and passes the check. -/
structure Framed (frame : Bytes) : Prop where
  long : format.header ≤ frame.length
  announced : format.announced frame = frame.length
  accepted : format.accepts frame = true

/-- The reader takes the first complete frame of the data. -/
def next (data : Bytes) : Option Bytes :=
  if data.length < format.header then none
  else if format.announced data < format.header ∨ data.length < format.announced data then none
  else if format.accepts (data.take (format.announced data)) then some (data.take (format.announced data))
  else none

def framesLoop : Nat → Bytes → List Bytes
  | 0, _ => []
  | more + 1, data =>
    match next format data with
    | none => []
    | some frame => frame :: framesLoop more (data.drop frame.length)

/-- A scan reads frames until the first incomplete frame. -/
def frames (data : Bytes) : List Bytes := framesLoop format data.length data

variable {format}
variable {data frame : Bytes} {blocks : List Bytes}

theorem next_short (short : data.length < format.header) : next format data = none := by
  rw [next, if_pos short]

theorem next_invalid (invalid : format.announced data < format.header ∨ data.length < format.announced data) :
    next format data = none := by
  rw [next, if_pos invalid, ite_self]

theorem next_rejected (rejected : format.accepts (data.take (format.announced data)) = false) :
    next format data = none := by
  rw [next, rejected, if_neg Bool.false_ne_true, ite_self, ite_self]

theorem next_found (least : format.header ≤ format.announced data) (inside : format.announced data ≤ data.length)
    (accepted : format.accepts (data.take (format.announced data)) = true) :
    next format data = some (data.take (format.announced data)) := by
  rw [next, if_neg (by omega), if_neg (by omega), if_pos accepted]

theorem next_append (framed : Framed format frame) (rest : Bytes) : next format (frame ++ rest) = some frame := by
  have announced : format.announced (frame ++ rest) = frame.length :=
    (format.announced_append frame rest framed.long).trans framed.announced
  have long : format.header ≤ format.announced (frame ++ rest) := announced ▸ framed.long
  have inside : format.announced (frame ++ rest) ≤ (frame ++ rest).length := by
    rw [announced, length_append]
    omega
  have found := next_found long inside
  rw [announced, take_left] at found
  exact found framed.accepted

/-- A torn frame is not a frame. -/
theorem next_torn {part rest : Bytes} (framed : Framed format frame) (split : frame = part ++ rest)
    (missing : rest ≠ []) : next format part = none := by
  have positive := length_pos_iff.mpr missing
  have total : frame.length = part.length + rest.length := by rw [split, length_append]
  by_cases short : part.length < format.header
  · exact next_short short
  · have announced : format.announced part = frame.length := by
      rw [← framed.announced, split, format.announced_append part rest (by omega)]
    exact next_invalid (.inr (by omega))

section
variable (framed : ∀ block ∈ blocks, Framed format block)
include framed

theorem flatten_length_le : blocks.length ≤ blocks.flatten.length := by
  induction blocks with
  | nil => simp
  | cons block blocks ih =>
    have rest := ih fun later member => framed later (mem_cons_of_mem _ member)
    have long := (framed block mem_cons_self).long
    have positive := format.header_pos
    rw [length_cons, flatten_cons, length_append]
    omega

theorem framesLoop_flatten {tail : Bytes} (torn : next format tail = none) (fuel : Nat)
    (enough : blocks.length ≤ fuel) : framesLoop format fuel (blocks.flatten ++ tail) = blocks := by
  induction blocks generalizing fuel with
  | nil =>
    cases fuel with
    | zero => rfl
    | succ fuel => rw [flatten_nil, nil_append, framesLoop, torn]
  | cons block blocks ih =>
    cases fuel with
    | zero => simp at enough
    | succ fuel =>
      have first := next_append (framed block mem_cons_self) (blocks.flatten ++ tail)
      have rest := ih (fun later member => framed later (mem_cons_of_mem _ member)) fuel
        (Nat.le_of_succ_le_succ enough)
      rw [flatten_cons, append_assoc, framesLoop, first]
      change block :: framesLoop format fuel ((block ++ (blocks.flatten ++ tail)).drop block.length) = _
      rw [drop_left, rest]

/-- A scan returns exactly the frames in front of a torn tail. -/
theorem frames_flatten {tail : Bytes} (torn : next format tail = none) :
    frames format (blocks.flatten ++ tail) = blocks := by
  refine framesLoop_flatten framed torn _ ?_
  have bound := flatten_length_le framed
  rw [length_append]
  omega

end

theorem next_nil : next format [] = none := next_short format.header_pos

/-- What the reader takes is a frame at the start of the data. -/
theorem next_framed (found : next format data = some frame) :
    Framed format frame ∧ data = frame ++ data.drop frame.length := by
  by_cases short : data.length < format.header
  · rw [next_short short] at found
    cases found
  by_cases invalid : format.announced data < format.header ∨ data.length < format.announced data
  · rw [next_invalid invalid] at found
    cases found
  cases accepted : format.accepts (data.take (format.announced data)) with
  | false =>
    rw [next_rejected accepted] at found
    cases found
  | true =>
    rw [next_found (by omega) (by omega) accepted, Option.some.injEq] at found
    have length : frame.length = format.announced data := by
      rw [← found, length_take]
      omega
    have split : data = frame ++ data.drop frame.length := by
      rw [length, ← found, take_append_drop]
    have announced : format.announced data = format.announced frame := by
      rw [split]
      exact format.announced_append frame _ (by omega)
    exact ⟨⟨by omega, by omega, by rw [← found]; exact accepted⟩, split⟩

/-- With enough fuel the loop cuts off every frame and leaves a tail without one. -/
theorem framesLoop_split (fuel : Nat) (enough : data.length ≤ fuel) :
    (∀ frame ∈ framesLoop format fuel data, Framed format frame) ∧
      ∃ tail, data = (framesLoop format fuel data).flatten ++ tail ∧ next format tail = none := by
  induction fuel generalizing data with
  | zero =>
    have empty : data = [] := length_eq_zero_iff.mp (by omega)
    subst empty
    exact ⟨by simp [framesLoop], [], rfl, next_nil⟩
  | succ fuel ih =>
    rw [framesLoop]
    cases found : next format data with
    | none => exact ⟨by simp, data, rfl, found⟩
    | some frame =>
      obtain ⟨framed, split⟩ := next_framed found
      have shorter : (data.drop frame.length).length ≤ fuel := by
        have positive := format.header_pos
        have long := framed.long
        rw [length_drop]
        omega
      obtain ⟨rest, tail, parts, torn⟩ := ih shorter
      refine ⟨forall_mem_cons.mpr ⟨framed, rest⟩, tail, ?_, torn⟩
      rw [flatten_cons, append_assoc, ← parts]
      exact split

/-- Any data consists of its frames and a tail without one. -/
theorem frames_split (data : Bytes) :
    (∀ frame ∈ frames format data, Framed format frame) ∧
      ∃ tail, data = (frames format data).flatten ++ tail ∧ next format tail = none :=
  framesLoop_split data.length (Nat.le_refl _)

/-- A scan finds every list of frames at the start of the data. -/
theorem prefix_frames (framed : ∀ block ∈ blocks, Framed format block) (starts : blocks.flatten <+: data) :
    blocks <+: frames format data := by
  obtain ⟨rest, split⟩ := starts
  obtain ⟨more, tail, parts, torn⟩ := @frames_split format rest
  refine ⟨frames format rest, ?_⟩
  have whole := frames_flatten (forall_mem_append.mpr ⟨framed, more⟩) torn
  rw [flatten_append, append_assoc, ← parts, split] at whole
  exact whole.symm

/-- Every prefix of a framed log consists of whole frames and a torn tail. -/
theorem exists_torn (framed : ∀ block ∈ blocks, Framed format block) {part : Bytes} (kept : part <+: blocks.flatten) :
    ∃ count tail, count ≤ blocks.length ∧ part = (blocks.take count).flatten ++ tail ∧
      next format tail = none ∧
      ∀ whole, (blocks.take whole).flatten.length ≤ part.length → whole ≤ blocks.length → whole ≤ count := by
  induction blocks generalizing part with
  | nil =>
    have empty : part = [] := prefix_nil.mp kept
    refine ⟨0, [], Nat.le_refl 0, by simpa using empty, next_nil, ?_⟩
    intro whole _ bound
    exact bound
  | cons block blocks ih =>
    have rest := fun later member => framed later (mem_cons_of_mem _ member)
    have first := framed block mem_cons_self
    rw [flatten_cons] at kept
    by_cases short : part.length < block.length
    · obtain ⟨missing, equal⟩ :=
        prefix_of_prefix_length_le kept (prefix_append block blocks.flatten) short.le
      have total := congrArg length equal
      rw [length_append] at total
      have incomplete : missing ≠ [] := length_pos_iff.mp (by omega)
      refine ⟨0, part, Nat.zero_le _, by simp, next_torn first equal.symm incomplete, ?_⟩
      intro whole bound inside
      cases whole with
      | zero => omega
      | succ whole =>
        simp only [take_succ_cons, flatten_cons, length_append] at bound
        omega
    · obtain ⟨more, split⟩ :=
        prefix_of_prefix_length_le (prefix_append block blocks.flatten) kept (by omega)
      subst split
      have kept := (prefix_append_right_inj block).mp kept
      obtain ⟨count, tail, inside, equal, torn, largest⟩ := ih rest kept
      refine ⟨count + 1, tail, by simpa using inside, ?_, torn, ?_⟩
      · rw [equal, take_succ_cons, flatten_cons, append_assoc]
      · intro whole bound within
        cases whole with
        | zero => omega
        | succ whole =>
          have tailBound : (blocks.take whole).flatten.length ≤ more.length := by
            simp only [take_succ_cons, flatten_cons, length_append] at bound
            omega
          have least := largest whole tailBound (by simpa using within)
          omega

end Foundation.Framing
