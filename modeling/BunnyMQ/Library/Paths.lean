/-
This file describes which names stay one component of a path.
-/

import Mathlib.Data.String.Basic

namespace Foundation.Paths

/-- The scan for a separator runs to the end of a text without one. -/
theorem splitOnAux_plain (before rest : List Char) (plain : '/' ∉ rest) :
    String.splitOnAux (String.ofList (before ++ rest)) "/" 0 ⟨String.utf8Len before⟩ 0 [] =
      [String.ofList (before ++ rest)] := by
  induction rest generalizing before with
  | nil =>
    have ended := (String.atEnd_of_valid before []).mpr rfl
    have whole := String.extract_of_valid [] before []
    rw [List.nil_append, String.utf8Len_nil, Nat.zero_add] at whole
    rw [String.splitOnAux, if_pos ended]
    refine congrArg (fun text => [text]) (whole.trans ?_)
    rw [List.append_nil]
  | cons c rest ih =>
    have differs : c ≠ '/' := fun same => plain (same ▸ List.mem_cons_self)
    have inside : ¬ String.Pos.Raw.atEnd (String.ofList (before ++ c :: rest)) ⟨String.utf8Len before⟩ = true :=
      fun ended => List.cons_ne_nil _ _ ((String.atEnd_of_valid before (c :: rest)).mp ended)
    have moved : String.Pos.Raw.next (String.ofList (before ++ c :: rest)) ⟨String.utf8Len before⟩ =
        ⟨String.utf8Len (before ++ [c])⟩ := by
      rw [String.next_of_valid, String.utf8Len_append, String.utf8Len_cons, String.utf8Len_nil, Nat.zero_add]
    have further := ih (before ++ [c]) fun member => plain (List.mem_cons_of_mem _ member)
    rw [List.append_assoc, List.singleton_append] at further
    rw [String.splitOnAux, if_neg inside, String.get_of_valid]
    rw [if_neg]
    · have here : (⟨String.utf8Len before⟩ : String.Pos.Raw).unoffsetBy 0 = ⟨String.utf8Len before⟩ := rfl
      rw [here, moved]
      exact further
    · have separator : String.Pos.Raw.get "/" 0 = '/' := by decide
      rw [separator]
      simpa using differs

/-- A name without a separator is one component. -/
theorem splitOn_plain {name : String} (plain : '/' ∉ name.toList) : name.splitOn "/" = [name] := by
  have aux := splitOnAux_plain [] name.toList plain
  rw [List.nil_append, String.ofList_toList] at aux
  exact aux

theorem isDigit_of_mem_toString {n : Nat} {c : Char} (member : c ∈ (toString n).toList) : c.isDigit := by
  rw [Nat.toString_eq_ofList_toDigits, String.toList_ofList] at member
  exact Nat.isDigit_of_mem_toDigits (by decide) (by decide) member

/-- The text of an integer has digits and a sign. -/
theorem mem_toString_int {n : Int} {c : Char} (member : c ∈ (toString n).toList) : c.isDigit ∨ c = '-' := by
  cases n with
  | ofNat n => exact .inl (isDigit_of_mem_toString member)
  | negSucc n =>
    change c ∈ ("-" ++ toString (n + 1)).toList at member
    rw [String.toList_append] at member
    rcases List.mem_append.mp member with sign | digit
    · exact .inr (List.mem_singleton.mp sign)
    · exact .inl (isDigit_of_mem_toString digit)

theorem toString_int_ne_empty (n : Int) : toString n ≠ "" := by
  cases n with
  | ofNat n =>
    change toString n ≠ ""
    intro empty
    have digits := congrArg String.toList empty
    rw [Nat.toString_eq_ofList_toDigits, String.toList_ofList] at digits
    exact Nat.toDigits_ne_nil digits
  | negSucc n =>
    change "-" ++ toString (n + 1) ≠ ""
    intro empty
    have sign := congrArg String.toList empty
    rw [String.toList_append] at sign
    cases sign

theorem notMem_toString_int {c : Char} (digit : c.isDigit = false) (sign : c ≠ '-') (n : Int) :
    c ∉ (toString n).toList := by
  intro member
  rcases mem_toString_int member with isDigit | isSign
  · rw [digit] at isDigit
    cases isDigit
  · exact sign isSign

/-- A text with another character is not that of an integer. -/
theorem toString_int_ne {c : Char} (digit : c.isDigit = false) (sign : c ≠ '-') {n : Int} {name : String}
    (member : c ∈ name.toList) : toString n ≠ name := by
  rintro rfl
  exact notMem_toString_int digit sign n member

end Foundation.Paths
