/-
This file writes and reads decimal numbers.
-/

import Mathlib.Data.Nat.Digits.Defs
import Mathlib.Data.Nat.Digits.Lemmas

namespace Foundation.Decimal
open List

def digitValue (c : Char) : Option Nat := if '0' ≤ c ∧ c ≤ '9' then some (c.toNat - '0'.toNat) else none

/-- The digits of a number without leading zeros. -/
def formatNat (n : Nat) : List Char := if n = 0 then ['0'] else (Nat.digits 10 n).reverse.map Nat.digitChar

/-- Only digits are read, and at least one of them. -/
def parseNat (text : List Char) : Option Nat :=
  if text = [] then none else text.foldlM (fun value c => (digitValue c).map fun digit => 10 * value + digit) 0

def formatInt (n : Int) : List Char := if n < 0 then '-' :: formatNat n.natAbs else formatNat n.natAbs

/-- A sign may come first, and the number has to fit into the given bits. -/
def parseInt (bits : Nat) (text : List Char) : Option Int :=
  match text with
  | [] => none
  | c :: rest =>
    if c = '-' then (parseNat rest).bind fun n => if n ≤ 2 ^ (bits - 1) then some (-n) else none
    else (parseNat (if c = '+' then rest else text)).bind fun n => if n < 2 ^ (bits - 1) then some n else none

theorem digitValue_digitChar {digit : Nat} (small : digit < 10) : digitValue (Nat.digitChar digit) = some digit := by
  interval_cases digit <;> decide

theorem parse_digits {digits : List Nat} (small : ∀ digit ∈ digits, digit < 10) :
    (digits.reverse.map Nat.digitChar).foldlM (fun value c => (digitValue c).map fun digit => 10 * value + digit) 0 =
      some (Nat.ofDigits 10 digits) := by
  induction digits with
  | nil => rfl
  | cons first rest ih =>
    obtain ⟨here, later⟩ := forall_mem_cons.mp small
    rw [reverse_cons, map_append, foldlM_append, ih later]
    simp only [Option.bind_eq_bind, Option.bind_some, map_cons, map_nil, foldlM_cons, foldlM_nil,
      digitValue_digitChar here, Option.map_some, Option.pure_def, Nat.ofDigits_cons, Option.some.injEq]
    omega

theorem parseNat_formatNat (n : Nat) : parseNat (formatNat n) = some n := by
  unfold formatNat
  by_cases zero : n = 0
  · rw [if_pos zero, zero]
    rfl
  · have present : (Nat.digits 10 n).reverse.map Nat.digitChar ≠ [] := by
      simpa [Nat.digits_eq_nil_iff_eq_zero] using zero
    rw [if_neg zero, parseNat, if_neg present, parse_digits (fun _ member => Nat.digits_lt_base (by decide) member),
      Nat.ofDigits_digits]

theorem mem_formatNat {n : Nat} {c : Char} (member : c ∈ formatNat n) : ∃ digit < 10, c = Nat.digitChar digit := by
  unfold formatNat at member
  split at member
  · exact ⟨0, by decide, mem_singleton.mp member⟩
  · obtain ⟨digit, inside, rfl⟩ := mem_map.mp member
    exact ⟨digit, Nat.digits_lt_base (by decide) (mem_reverse.mp inside), rfl⟩

/-- A sign or a separator is no digit. -/
theorem notMem_formatNat {n : Nat} {c : Char} (other : ∀ digit < 10, c ≠ Nat.digitChar digit) : c ∉ formatNat n := by
  intro member
  obtain ⟨digit, small, same⟩ := mem_formatNat member
  exact other digit small same

theorem notMem_formatInt {n : Int} {c : Char} (other : ∀ digit < 10, c ≠ Nat.digitChar digit) (sign : c ≠ '-') :
    c ∉ formatInt n := by
  unfold formatInt
  split
  · rw [mem_cons, not_or]
    exact ⟨sign, notMem_formatNat other⟩
  · exact notMem_formatNat other

theorem parseInt_formatNat {bits n : Nat} (fits : n < 2 ^ (bits - 1)) :
    parseInt bits (formatNat n) = some (n : Int) := by
  cases written : formatNat n with
  | nil =>
    have parsed := parseNat_formatNat n
    rw [written] at parsed
    cases parsed
  | cons c rest =>
    have unsigned (sign : Char) (other : ∀ digit < 10, sign ≠ Nat.digitChar digit) : c ≠ sign := by
      rintro rfl
      exact notMem_formatNat other (by rw [written]; exact mem_cons_self)
    rw [parseInt, if_neg (unsigned '-' (by decide)), if_neg (unsigned '+' (by decide)), ← written, parseNat_formatNat,
      Option.bind_some, if_pos fits]

/-- Every number that fits is read as it was written. -/
theorem parseInt_formatInt {bits : Nat} {n : Int} (lower : -2 ^ (bits - 1) ≤ n) (upper : n < 2 ^ (bits - 1)) :
    parseInt bits (formatInt n) = some n := by
  unfold formatInt
  have cast : ((2 ^ (bits - 1) : Nat) : Int) = 2 ^ (bits - 1) := by push_cast; rfl
  by_cases negative : n < 0
  · have fits : n.natAbs ≤ 2 ^ (bits - 1) := by omega
    rw [if_pos negative, parseInt, if_pos rfl, parseNat_formatNat, Option.bind_some, if_pos fits]
    congr 1
    omega
  · have fits : n.natAbs < 2 ^ (bits - 1) := by omega
    rw [if_neg negative, parseInt_formatNat fits]
    congr 1
    omega

end Foundation.Decimal
