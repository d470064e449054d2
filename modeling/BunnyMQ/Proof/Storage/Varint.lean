import BunnyMQ.Construction.Storage.Batch
import Mathlib.Tactic

namespace BunnyMQ.Storage
open Foundation List
variable {bytes data : Bytes} {pos : Nat} {v : UInt64}

/-- The low seven bits of a byte are its residue. -/
theorem payload_toNat (b : UInt8) : (b &&& 0x7F).toNat = b.toNat % 128 := by
  rw [UInt8.toNat_and]
  exact Nat.and_two_pow_sub_one_eq_mod b.toNat 7

/-- The continuation bit leaves the low seven bits alone. -/
theorem continued_payload (b : UInt8) : (b ||| 0x80).toNat % 128 = b.toNat % 128 := by
  rw [← payload_toNat, UInt8.toNat_and, UInt8.toNat_or, Nat.and_or_distrib_right]
  have mask : (0x80 : UInt8).toNat &&& (0x7F : UInt8).toNat = 0 := by decide
  rw [mask, Nat.or_zero]
  exact Nat.and_two_pow_sub_one_eq_mod b.toNat 7

/-- The continuation bit makes the byte end no varint. -/
theorem continued_not_last (b : UInt8) : ¬ (b ||| 0x80) < 0x80 := by
  rw [UInt8.lt_iff_toNat_lt, UInt8.toNat_or]
  have large : (0x80 : UInt8).toNat ≤ b.toNat ||| (0x80 : UInt8).toNat := Nat.right_le_or
  omega

/-- The number that the low seven bits of the bytes stand for, the lowest group first. -/
def varintSum (bytes : Bytes) : Nat := Nat.ofDigits 128 (bytes.map fun b => b.toNat % 128)

theorem varintSum_cons (b : UInt8) (rest : Bytes) : varintSum (b :: rest) = b.toNat % 128 + 128 * varintSum rest := rfl

theorem varintSum_lt (bytes : Bytes) : varintSum bytes < 128 ^ bytes.length := by
  have digits : ∀ digit ∈ bytes.map fun b => b.toNat % 128, digit < 128 := by
    intro digit member
    obtain ⟨b, _, rfl⟩ := mem_map.mp member
    exact Nat.mod_lt _ (by decide)
  have bound := Nat.ofDigits_lt_base_pow_length (by decide) digits
  rw [length_map] at bound
  exact bound

/-- Every byte but the last has the continuation bit. -/
inductive Terminated : Bytes → Prop
  | last {b : UInt8} (small : b < 0x80) : Terminated [b]
  | more {b : UInt8} {rest : Bytes} (large : ¬ b < 0x80) (behind : Terminated rest) : Terminated (b :: rest)

theorem Terminated.ne_nil (terminated : Terminated bytes) : bytes ≠ [] := by
  cases terminated <;> exact cons_ne_nil _ _

/-- One group of seven bits extends the accumulated value, as far as the word reaches. -/
theorem accumulate_eq {shift : Nat} {acc : UInt64} (b : UInt8) (low : acc.toNat < 2 ^ shift) (within : shift < 64) :
    acc ||| ((b &&& 0x7F).toUInt64 <<< UInt64.ofNat shift) =
      UInt64.ofNat (acc.toNat + 2 ^ shift * (b.toNat % 128)) := by
  have amount : (UInt64.ofNat shift).toNat % 64 = shift := by
    rw [UInt64.toNat_ofNat']
    omega
  have word : 2 ^ 64 = 2 ^ shift * 2 ^ (64 - shift) := by rw [← pow_add, Nat.add_sub_cancel' within.le]
  have kept : b.toNat % 128 * 2 ^ shift % 2 ^ 64 = 2 ^ shift * (b.toNat % 128 % 2 ^ (64 - shift)) := by
    rw [Nat.mul_comm, word, Nat.mul_mod_mul_left]
  apply UInt64.toNat_inj.mp
  rw [UInt64.toNat_or, UInt64.toNat_shiftLeft, UInt8.toNat_toUInt64, payload_toNat, amount, Nat.shiftLeft_eq, kept,
    Nat.or_comm, ← Nat.two_pow_add_eq_or_of_lt low, UInt64.toNat_ofNat', word, Nat.mod_mul, Nat.add_mul_mod_self_left,
    Nat.mod_eq_of_lt low, Nat.add_mul_div_left _ _ (Nat.two_pow_pos shift), Nat.div_eq_of_lt low, Nat.zero_add,
    Nat.add_comm]

/-- From any stage of the loop the groups are summed up to the byte that ends the varint. -/
theorem decodeUvarintLoop_terminated (terminated : Terminated bytes) {more : Nat} (acc : UInt64) (stage : more ≤ 10)
    (within : bytes.length ≤ more) (low : acc.toNat < 2 ^ (7 * (10 - more))) (stored : BytesAt data pos bytes) :
    decodeUvarintLoop data more pos acc (7 * (10 - more)) =
      .ok (UInt64.ofNat (acc.toNat + 2 ^ (7 * (10 - more)) * varintSum bytes), pos + bytes.length) := by
  induction terminated generalizing more pos acc with
  | @last b small =>
    cases more with
    | zero => cases within
    | succ more =>
      rw [decodeUvarintLoop, bytesAt_getElem stored]
      simp only [small, if_true]
      rw [accumulate_eq b low (by omega)]
      rfl
  | @more b rest large behind ih =>
    cases more with
    | zero => cases within
    | succ more =>
      rw [length_cons] at within ⊢
      have positive := length_pos_iff.mpr behind.ne_nil
      have step : 7 * (10 - (more + 1)) + 7 = 7 * (10 - more) := by omega
      have power : 2 ^ (7 * (10 - more)) = 2 ^ (7 * (10 - (more + 1))) * 128 := by
        rw [← step, pow_add]
        rfl
      have group : acc.toNat + 2 ^ (7 * (10 - (more + 1))) * (b.toNat % 128) < 2 ^ (7 * (10 - more)) := by
        have digit : b.toNat % 128 + 1 ≤ 128 := Nat.mod_lt _ (by decide)
        have scaled := Nat.mul_le_mul_left (2 ^ (7 * (10 - (more + 1)))) digit
        rw [Nat.mul_add, Nat.mul_one] at scaled
        omega
      have word : 2 ^ (7 * (10 - more)) ≤ 2 ^ 64 := Nat.pow_le_pow_right (by decide) (by omega)
      have held := Nat.mod_eq_of_lt (group.trans_le word)
      rw [← UInt64.toNat_ofNat'] at held
      have tail := ih (UInt64.ofNat (acc.toNat + 2 ^ (7 * (10 - (more + 1))) * (b.toNat % 128))) (by omega)
        (Nat.le_of_succ_le_succ within) (by rw [held]; exact group) (@bytesAt_append_right _ _ [b] _ stored)
      rw [length_singleton] at tail
      rw [decodeUvarintLoop, bytesAt_getElem stored]
      simp only [large, if_false, show ¬ (7 * (10 - (more + 1)) + 7 ≥ 64) by omega]
      rw [accumulate_eq b low (by omega), step, tail, held, varintSum_cons, power, Nat.mul_add, Nat.mul_assoc,
        Nat.add_assoc, Nat.add_assoc, Nat.add_comm 1]

/-- What the loop accepts is a terminated run of bytes inside the data. -/
theorem decodeUvarintLoop_inv {more shift next : Nat} {acc : UInt64}
    (read : decodeUvarintLoop data more pos acc shift = .ok (v, next)) :
    ∃ bytes, Terminated bytes ∧ bytes.length ≤ more ∧ BytesAt data pos bytes ∧ next = pos + bytes.length := by
  induction more generalizing pos acc shift with
  | zero => cases read
  | succ more ih =>
    rw [decodeUvarintLoop] at read
    cases byte : data[pos]? with
    | none =>
      rw [byte] at read
      cases read
    | some b =>
      obtain ⟨inside, rfl⟩ := List.getElem?_eq_some_iff.mp byte
      have here : data.drop pos = data[pos] :: data.drop (pos + 1) := drop_eq_getElem_cons inside
      simp only [byte] at read
      split at read
      case isTrue small =>
        cases read
        exact ⟨[data[pos]], .last small, by simp, by rw [BytesAt, here]; exact ⟨_, rfl⟩, rfl⟩
      case isFalse large =>
        split at read
        · cases read
        · obtain ⟨rest, terminated, within, ⟨behind, stored⟩, rfl⟩ := ih read
          refine ⟨data[pos] :: rest, .more large terminated, by simpa using within, ⟨behind, ?_⟩, ?_⟩
          · rw [here, ← stored, cons_append]
          · rw [length_cons, Nat.add_assoc, Nat.add_comm 1]

/-- A varint takes at least one byte and ends inside the data. -/
theorem decodeUvarint_advances {next : Nat} (read : decodeUvarint data pos = .ok (v, next)) :
    pos < next ∧ next ≤ data.length := by
  obtain ⟨bytes, terminated, _, stored, rfl⟩ := decodeUvarintLoop_inv read
  exact ⟨Nat.lt_add_of_pos_right (length_pos_iff.mpr terminated.ne_nil), bytesAt_length stored terminated.ne_nil⟩

theorem length_uvarintBytes (more : Nat) (v : UInt64) : (uvarintBytes more v).length ≤ more + 1 := by
  induction more generalizing v with
  | zero => exact le_refl 1
  | succ more ih =>
    rw [uvarintBytes]
    split
    · exact Nat.succ_le_succ (ih _)
    · exact Nat.succ_le_succ (Nat.zero_le _)

/-- The encoder stops with the group below 128, and the groups are the digits of the value. -/
theorem terminated_uvarintBytes (more : Nat) (fits : v.toNat < 128 ^ (more + 1)) :
    Terminated (uvarintBytes more v) ∧ varintSum (uvarintBytes more v) = v.toNat := by
  have single (v : UInt64) (small : v.toNat < 128) : Terminated [v.toUInt8] ∧ varintSum [v.toUInt8] = v.toNat := by
    have byte : v.toUInt8.toNat = v.toNat := by
      rw [UInt64.toNat_toUInt8]
      omega
    refine ⟨.last ?_, ?_⟩
    · rw [UInt8.lt_iff_toNat_lt, byte]
      exact small
    · rw [varintSum_cons, byte, Nat.mod_eq_of_lt small]
      rfl
  induction more generalizing v with
  | zero => exact single v (by simpa using fits)
  | succ more ih =>
    rw [uvarintBytes]
    split
    case isTrue large =>
      have shifted : (v >>> 7).toNat = v.toNat / 128 := by
        rw [UInt64.toNat_shiftRight]
        exact Nat.shiftRight_eq_div_pow v.toNat 7
      have byte : v.toUInt8.toNat % 128 = v.toNat % 128 := by
        rw [UInt64.toNat_toUInt8]
        omega
      obtain ⟨terminated, sum⟩ := ih (v := v >>> 7) (by rw [shifted]; exact Nat.div_lt_of_lt_mul (by rwa [← pow_succ']))
      refine ⟨.more (continued_not_last _) terminated, ?_⟩
      rw [varintSum_cons, sum, continued_payload, byte, shifted, Nat.mod_add_div]
    case isFalse small =>
      rw [ge_iff_le, UInt64.le_iff_toNat_le] at small
      exact single v (Nat.lt_of_not_le small)

/-- The decoder reads exactly the appended varint. -/
theorem decodeUvarint_uvarintBytes (stored : BytesAt data pos (uvarintBytes 9 v)) :
    decodeUvarint data pos = .ok (v, pos + (uvarintBytes 9 v).length) := by
  obtain ⟨terminated, sum⟩ := terminated_uvarintBytes 9 (v.toNat_lt.trans (by norm_num))
  have value := decodeUvarintLoop_terminated terminated 0 le_rfl (length_uvarintBytes 9 v) (by simp) stored
  rw [sum] at value
  rw [decodeUvarint]
  simpa using value

theorem Terminated.exists_last (terminated : Terminated bytes) :
    ∃ front last, bytes = front ++ [last] ∧ last < 0x80 := by
  induction terminated with
  | @last b small => exact ⟨[], b, rfl, small⟩
  | @more b rest _ _ ih =>
    obtain ⟨front, last, rfl, small⟩ := ih
    exact ⟨b :: front, last, rfl, small⟩

/-- Ten groups fit into the word if and only if the last of them is a single bit. -/
theorem Terminated.sum_lt_iff (terminated : Terminated bytes) (within : bytes.length ≤ 10) :
    varintSum bytes < 2 ^ 64 ↔ ∀ b ∈ bytes[9]?, b < 2 := by
  obtain ⟨front, last, rfl, small⟩ := terminated.exists_last
  rw [length_append, length_singleton] at within
  obtain tenth | fewer := Nat.eq_or_lt_of_le (Nat.le_of_succ_le_succ within)
  · have low := varintSum_lt front
    have split : varintSum (front ++ [last]) = varintSum front + 128 ^ 9 * (last.toNat % 128) := by
      rw [varintSum, map_append, Nat.ofDigits_append, length_map, tenth]
      rfl
    have found : (front ++ [last])[9]? = some last := by rw [← tenth, List.getElem?_concat_length]
    have digit : last.toNat < 128 := UInt8.lt_iff_toNat_lt.mp small
    rw [tenth] at low
    rw [split, found, Nat.mod_eq_of_lt digit]
    simp only [Option.mem_some_iff, forall_eq', UInt8.lt_iff_toNat_lt, show (2 : UInt8).toNat = 2 from rfl]
    omega
  · have short : (front ++ [last]).length ≤ 9 := by simpa using fewer
    have none : (front ++ [last])[9]? = none := List.getElem?_eq_none short
    have bound := (varintSum_lt (front ++ [last])).trans_le (Nat.pow_le_pow_right (by decide) short)
    rw [none]
    exact iff_of_true (bound.trans (by decide)) fun b member => by cases member

/-- The decoder sums the groups of the bytes that it consumes, all of them inside the data, and drops no bit unless
the tenth byte has more than one. What the encoder appends is decoded to the value and consumed to its end. -/
theorem varint_decoding_exact_iff (data : Bytes) (pos : Nat) :
    (∀ (next : Nat) (v : UInt64), decodeUvarint data pos = .ok (v, next) →
      pos < next ∧ next ≤ data.length ∧ next ≤ pos + 10 ∧
        (v.toNat = varintSum (slice data pos next) ↔ ∀ b ∈ (slice data pos next)[9]?, b < 2)) ∧
    ∀ (b : Bytes) (v : UInt64) (suffix : Bytes),
      decodeUvarint (appendUvarint b v ++ suffix) b.length = .ok (v, (appendUvarint b v).length) := by
  constructor
  · intro next v read
    obtain ⟨advances, inside⟩ := decodeUvarint_advances read
    obtain ⟨bytes, terminated, within, stored, rfl⟩ := decodeUvarintLoop_inv read
    have summed := decodeUvarintLoop_terminated terminated 0 le_rfl within (by simp) stored
    have value : v = UInt64.ofNat (varintSum bytes) := by
      have same := read.symm.trans summed
      simpa using same
    refine ⟨advances, inside, Nat.add_le_add_left within pos, ?_⟩
    rw [bytesAt_slice stored, ← terminated.sum_lt_iff within, value, UInt64.toNat_ofNat']
    exact Nat.mod_eq_iff_lt (by decide)
  · intro b v suffix
    have stored := bytesAt_middle b (uvarintBytes 9 v) suffix
    rw [← append_assoc] at stored
    rw [appendUvarint, decodeUvarint_uvarintBytes stored, length_append]

/-- The two bytes of 300 are consumed inside of longer data, and the largest word takes ten bytes. -/
theorem varint_decoding_exact_two_bytes :
    decodeUvarint [0xFF, 0xAC, 0x02, 0x07] 1 = .ok (300, 3) ∧ varintSum (slice [0xFF, 0xAC, 0x02, 0x07] 1 3) = 300 ∧
      decodeUvarint (appendUvarint [] 0xFFFFFFFFFFFFFFFF ++ [0x07]) 0 = .ok (0xFFFFFFFFFFFFFFFF, 10) := by
  have read : decodeUvarint [0xFF, 0xAC, 0x02, 0x07] 1 = .ok (300, 3) := by decide +kernel
  obtain ⟨decodes, encodes⟩ := varint_decoding_exact_iff [0xFF, 0xAC, 0x02, 0x07] 1
  obtain ⟨_, _, _, agrees⟩ := decodes _ _ read
  refine ⟨read, (agrees.mpr ?_).symm, encodes [] _ [0x07]⟩
  intro b member
  cases member

/-- The tenth byte is accepted with two bits, and the value loses the upper one. -/
theorem varint_tenth_byte_dropped :
    decodeUvarint [0x80, 0x80, 0x80, 0x80, 0x80, 0x80, 0x80, 0x80, 0x80, 0x02] 0 = .ok (0, 10) ∧
      varintSum [0x80, 0x80, 0x80, 0x80, 0x80, 0x80, 0x80, 0x80, 0x80, 0x02] = 2 ^ 64 := by
  decide +kernel

theorem uvarintBytes_ne_nil (more : Nat) (v : UInt64) : uvarintBytes more v ≠ [] := by
  cases more with
  | zero => simp [uvarintBytes]
  | succ more =>
    rw [uvarintBytes]
    split <;> simp

/-- The lowest bit of a word is its parity. -/
theorem lowBit_eq (y : BitVec 64) : y &&& 1#64 = BitVec.ofNat 64 (y.toNat % 2) := by
  apply BitVec.eq_of_toNat_eq
  simp only [BitVec.toNat_and, BitVec.toNat_ofNat, Nat.and_one_is_mod, Nat.reducePow, Nat.one_mod]
  omega

/-- The zigzag of a nonnegative word is its double. -/
theorem unzigzagWord_nonneg (x : BitVec 64) (sign : x.msb = false) :
    (((x <<< 1) ^^^ x.sshiftRight 63) >>> 1) ^^^ -(((x <<< 1) ^^^ x.sshiftRight 63) &&& 1#64) = x := by
  have small : x.toNat < 2 ^ 63 := by simpa [sign] using BitVec.msb_eq_decide x
  have zero : x.sshiftRight 63 = 0#64 := by
    rw [BitVec.sshiftRight_eq_of_msb_false sign]
    bv_omega
  have parity : (x <<< 1).toNat % 2 = 0 := by
    rw [BitVec.toNat_shiftLeft]
    omega
  rw [zero, BitVec.xor_zero, lowBit_eq, parity, BitVec.neg_zero, BitVec.xor_zero]
  bv_omega

/-- The zigzag of a negative word is the complement of its double. -/
theorem unzigzagWord_neg (x : BitVec 64) (sign : x.msb = true) :
    (((x <<< 1) ^^^ x.sshiftRight 63) >>> 1) ^^^ -(((x <<< 1) ^^^ x.sshiftRight 63) &&& 1#64) = x := by
  have large : 2 ^ 63 ≤ x.toNat := by simpa [sign] using BitVec.msb_eq_decide x
  have ones : x.sshiftRight 63 = BitVec.allOnes 64 := by
    have rest : ~~~x >>> 63 = 0#64 := by bv_omega
    rw [BitVec.sshiftRight_eq_of_msb_true sign, rest, BitVec.not_zero]
  have parity : (~~~(x <<< 1)).toNat % 2 = 1 := by
    rw [BitVec.toNat_not, BitVec.toNat_shiftLeft]
    omega
  rw [ones, BitVec.xor_allOnes, lowBit_eq, parity, BitVec.neg_one_eq_allOnes,
    BitVec.xor_allOnes]
  bv_omega

/-- The zigzag map moves the sign into the lowest bit and back. -/
theorem unzigzag_zigzag (n : Int64) : unzigzag (zigzag n) = n := by
  apply Int64.toBitVec_inj.mp
  change (((n.toBitVec <<< 1) ^^^ n.toBitVec.sshiftRight 63) >>> 1) ^^^
    -(((n.toBitVec <<< 1) ^^^ n.toBitVec.sshiftRight 63) &&& 1#64) = n.toBitVec
  cases sign : n.toBitVec.msb with
  | false => exact unzigzagWord_nonneg n.toBitVec sign
  | true => exact unzigzagWord_neg n.toBitVec sign

end BunnyMQ.Storage
