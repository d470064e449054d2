import Mathlib.Data.List.Induction
import Mathlib.Tactic.Ring

namespace Foundation
open List
variable {data bytes : Bytes} {pos : Nat}

abbrev Bytes := List UInt8

/-- A write of fixed width stores the big-endian digits of a number. -/
def putUint : Nat → Nat → Bytes
  | 0, _ => []
  | width + 1, value => putUint width (value / 256) ++ [UInt8.ofNat value]

/-- A read interprets every byte as one big-endian digit. -/
def getUint (bytes : Bytes) : Nat :=
  bytes.foldl (fun value byte => value * 256 + byte.toNat) 0

@[simp] theorem putUint_length (width value : Nat) : (putUint width value).length = width := by
  induction width generalizing value with
  | zero => rfl
  | succ width ih => simp [putUint, ih]

@[simp] theorem getUint_nil : getUint [] = 0 := rfl

@[simp] theorem getUint_concat (bytes : Bytes) (byte : UInt8) :
    getUint (bytes ++ [byte]) = getUint bytes * 256 + byte.toNat := by
  simp [getUint]

/-- A read returns the written number modulo the width. -/
theorem getUint_putUint (width value : Nat) :
    getUint (putUint width value) = value % 256 ^ width := by
  induction width generalizing value with
  | zero => simp [putUint, Nat.mod_one]
  | succ width ih =>
    have split := Nat.mod_mul (x := value) (a := 256) (b := 256 ^ width)
    have digit : (UInt8.ofNat value).toNat = value % 256 := UInt8.toNat_ofNat'
    rw [putUint, getUint_concat, ih, digit, pow_succ', split]
    ring

theorem getUint_putUint_of_lt {width value : Nat} (fits : value < 256 ^ width) :
    getUint (putUint width value) = value := by
  rw [getUint_putUint, Nat.mod_eq_of_lt fits]

/-- The digits of a read number are the bytes that were read. -/
theorem putUint_getUint (bytes : Bytes) : putUint bytes.length (getUint bytes) = bytes := by
  induction bytes using reverseRecOn with
  | nil => rfl
  | append_singleton bytes byte ih =>
    have digit : byte.toNat < 256 := byte.toNat_lt
    have quotient : (getUint bytes * 256 + byte.toNat) / 256 = getUint bytes := by omega
    have last : UInt8.ofNat (getUint bytes * 256 + byte.toNat) = byte := by
      apply UInt8.toNat_inj.mp
      rw [UInt8.toNat_ofNat']
      omega
    rw [length_append, length_singleton, putUint, getUint_concat, quotient, ih, last]

/-- A number of known width lies below the next power of the base. -/
theorem getUint_lt (bytes : Bytes) : getUint bytes < 256 ^ bytes.length := by
  induction bytes using reverseRecOn with
  | nil => simp
  | append_singleton bytes byte ih =>
    have digit : byte.toNat < 256 := byte.toNat_lt
    rw [getUint_concat, length_append, length_singleton, pow_succ]
    omega

/-- The half-open interval of a byte string, as in `data[lo:hi]`. -/
def slice (bytes : Bytes) (lo hi : Nat) : Bytes := (bytes.drop lo).take (hi - lo)

theorem slice_length {bytes : Bytes} {lo hi : Nat} (inside : hi ≤ bytes.length) :
    (slice bytes lo hi).length = hi - lo := by
  simp only [slice, length_take, length_drop]
  omega

/-- A slice inside the first part ignores the second part. -/
theorem slice_append_left {first second : Bytes} {lo hi : Nat} (inside : hi ≤ first.length) :
    slice (first ++ second) lo hi = slice first lo hi := by
  rcases Nat.lt_or_ge hi lo with empty | order
  · simp [slice, Nat.sub_eq_zero_of_le (Nat.le_of_lt empty)]
  · rw [slice, slice, drop_append_of_le_length (by omega),
      take_append_of_le_length (by simp; omega)]

/-- A slice behind the first part is a slice of the second part. -/
theorem slice_append_right (first second : Bytes) (lo hi : Nat) :
    slice (first ++ second) (first.length + lo) (first.length + hi) = slice second lo hi := by
  rw [slice, slice, drop_append, drop_eq_nil_of_le (by omega), nil_append]
  congr 1
  · omega
  · congr 1
    omega

/-- A slice inside a cut ignores what was cut off. -/
theorem slice_take (bytes : Bytes) {lo hi width : Nat} (inside : hi ≤ width) :
    slice (bytes.take width) lo hi = slice bytes lo hi := by
  rw [slice, slice, drop_take, take_take]
  congr 1
  omega

theorem slice_zero_length (bytes : Bytes) : slice bytes 0 bytes.length = bytes := by
  simp [slice]

/-- The predicate records that a byte string stands at a position of the data. -/
def BytesAt (data : Bytes) (pos : Nat) (bytes : Bytes) : Prop := bytes <+: data.drop pos

theorem bytesAt_append_left {first second : Bytes} (stored : BytesAt data pos (first ++ second)) :
    BytesAt data pos first :=
  (prefix_append first second).trans stored

theorem bytesAt_append_right {data : Bytes} {pos : Nat} {first second : Bytes}
    (stored : BytesAt data pos (first ++ second)) : BytesAt data (pos + first.length) second := by
  obtain ⟨rest, equal⟩ := stored
  refine ⟨rest, ?_⟩
  rw [← drop_drop, ← equal, append_assoc, drop_left]

/-- The stored bytes end inside the data. -/
theorem bytesAt_length (stored : BytesAt data pos bytes) (present : bytes ≠ []) : pos + bytes.length ≤ data.length := by
  have bound := stored.length_le
  have positive := length_pos_iff.mpr present
  rw [length_drop] at bound
  omega

theorem bytesAt_getElem {byte : UInt8} (stored : BytesAt data pos (byte :: bytes)) : data[pos]? = some byte := by
  obtain ⟨rest, equal⟩ := stored
  have head : (data.drop pos)[0]? = some byte := by rw [← equal]; rfl
  simpa using head

theorem bytesAt_slice (stored : BytesAt data pos bytes) : slice data pos (pos + bytes.length) = bytes := by
  rw [slice, Nat.add_sub_cancel_left]
  exact (prefix_iff_eq_take.mp stored).symm

theorem bytesAt_middle (before bytes behind : Bytes) :
    BytesAt (before ++ (bytes ++ behind)) before.length bytes := by
  rw [BytesAt, drop_left]
  exact prefix_append bytes behind

/-- A signed 64-bit value is the residue between `-2^63` and `2^63`. -/
def int64 (value : Int) : Int := (value + 2 ^ 63) % 2 ^ 64 - 2 ^ 63

/-- A signed 32-bit value is the residue between `-2^31` and `2^31`. -/
def int32 (value : Int) : Int := (value + 2 ^ 31) % 2 ^ 32 - 2 ^ 31

theorem int64_of_range {value : Int} (lower : -2 ^ 63 ≤ value) (upper : value < 2 ^ 63) :
    int64 value = value := by
  unfold int64
  omega

theorem int32_of_range {value : Int} (lower : -2 ^ 31 ≤ value) (upper : value < 2 ^ 31) :
    int32 value = value := by
  unfold int32
  omega

theorem int32_add_int32 (first second : Int) : int32 (int32 first + second) = int32 (first + second) := by
  unfold int32
  omega

/-- Two's complement stores a negative number as its residue. -/
def uint64 (value : Int) : Nat := (value % 2 ^ 64).toNat

theorem uint64_lt (value : Int) : uint64 value < 2 ^ 64 := by
  unfold uint64
  omega

/-- A signed value survives its unsigned representation. -/
theorem int64_uint64 (value : Int) : int64 (uint64 value) = int64 value := by
  unfold int64 uint64
  omega

/-- The signed reading of a word is its residue. -/
theorem toInt64_toInt (word : UInt64) : word.toInt64.toInt = int64 word.toNat := by
  have bound := word.toNat_lt
  have value : word.toInt64.toInt = (word.toNat : Int).bmod (2 ^ 64) := by
    rw [← Int64.toInt_toBitVec, UInt64.toBitVec_toInt64, BitVec.toInt_eq_toNat_bmod, UInt64.toNat_toBitVec]
  rw [value, Int.bmod_def, int64]
  omega

/-- An integer becomes a signed word by its residue. -/
theorem toInt_ofInt_int64 (value : Int) : (Int64.ofInt value).toInt = int64 value := by
  have width : Int64.size = 2 ^ 64 := rfl
  rw [Int64.toInt_ofInt, width, Int.bmod_def, int64]
  omega

/-- The difference of signed words is the residue of the difference. -/
theorem int64_sub (first second : Int64) : int64 (first.toInt - second.toInt) = (first - second).toInt := by
  rw [← toInt_ofInt_int64, Int64.ofInt_sub, Int64.ofInt_toInt, Int64.ofInt_toInt]

end Foundation
