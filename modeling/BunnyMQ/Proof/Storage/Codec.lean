import BunnyMQ.Proof.Storage.Varint

namespace BunnyMQ.Storage
open Foundation List
variable {data : Bytes} {pos : Nat} {stop : Int}

theorem goSlice_eq {data : Bytes} {lo hi : Nat} (order : lo ≤ hi) (inside : hi ≤ data.length) :
    goSlice data lo hi = .ok (slice data lo hi) := by
  rw [goSlice, if_pos (by omega), Int.toNat_natCast, Int.toNat_natCast]

/-- A length below `2^63` keeps its value through the signed cast. -/
theorem ofNat_toInt64_toInt {n : Nat} (fits : n < 2 ^ 63) : (UInt64.ofNat n).toInt64.toInt = n := by
  rw [UInt64.toInt64_ofNat', Int64.toInt_ofNat_of_lt fits]

/-- The bytes of a length-prefixed string. -/
def sizedBytes (data : Bytes) : Bytes := uvarintBytes 9 (UInt64.ofNat data.length) ++ data

theorem appendSized_eq (b data : Bytes) : appendSized b data = b ++ sizedBytes data := by
  simp [appendSized, appendUvarint, sizedBytes]

/-- The decoder returns a length-prefixed string that ends before the stop position. -/
theorem decodeSized_eq {payload : Bytes} {text : String} (stored : BytesAt data pos payload)
    (inside : pos + payload.length ≤ data.length) (within : (pos : Int) + payload.length ≤ stop)
    (bounded : stop < 2 ^ 31) :
    decodeSized data pos (UInt64.ofNat payload.length) stop text =
      .ok (payload, pos + payload.length) := by
  have signed := ofNat_toInt64_toInt (n := payload.length) (by omega)
  have finish : int64 (pos + (UInt64.ofNat payload.length).toInt64.toInt) = (pos + payload.length : Nat) := by
    rw [signed, int64_of_range (by omega) (by omega)]
    norm_num
  have small : ¬ (UInt64.ofNat payload.length).toNat > maxAlloc := by
    rw [UInt64.toNat_ofNat', maxAlloc]
    omega
  have taken := goSlice_eq (Nat.le_add_right pos payload.length) inside
  rw [decodeSized, finish]
  simp only [small, if_false, taken, bind, Except.bind, pure, Except.pure, bytesAt_slice stored, Int.toNat_natCast]
  rw [if_neg (by omega)]

/-- The bytes that `appendKey` adds. -/
def keyBytes : Option Bytes → Bytes
  | none => uvarintBytes 9 (zigzag (-1))
  | some key => uvarintBytes 9 (zigzag (Int64.ofNat key.length)) ++ key

theorem appendKey_eq (body : Bytes) (key : Option Bytes) : appendKey body key = body ++ keyBytes key := by
  cases key <;> simp [appendKey, keyBytes, appendZigzagVarint, appendUvarint]

/-- A nullable key keeps the difference between nil and empty. -/
theorem decodeKey_keyBytes {key : Option Bytes} (stored : BytesAt data pos (keyBytes key))
    (within : (pos : Int) + (keyBytes key).length ≤ stop) (bounded : stop < 2 ^ 31) :
    decodeKey data pos stop = .ok (key, pos + (keyBytes key).length) := by
  cases key with
  | none =>
    rw [decodeKey, decodeUvarint_uvarintBytes stored]
    simp only [bind, Except.bind, unzigzag_zigzag]
    rfl
  | some key =>
    have length : key.length < 2 ^ 31 := by
      simp only [keyBytes, length_append] at within
      omega
    have head := bytesAt_append_left stored
    have tail := bytesAt_append_right stored
    have inside := bytesAt_length stored (append_ne_nil_of_left_ne_nil (uvarintBytes_ne_nil 9 _) key)
    have nonneg : Int64.ofNat key.length ≥ 0 := by
      rw [ge_iff_le, Int64.le_iff_toInt_le, Int64.toInt_ofNat_of_lt (by omega)]
      simp
    have payload : decodeSized data (pos + (uvarintBytes 9 (zigzag (Int64.ofNat key.length))).length)
        (Int64.ofNat key.length).toUInt64 stop "key extends beyond record" =
        .ok (key, pos + (uvarintBytes 9 (zigzag (Int64.ofNat key.length))).length + key.length) := by
      simp only [keyBytes, length_append] at within inside
      apply decodeSized_eq tail (by omega) _ bounded
      push_cast at within ⊢
      omega
    rw [decodeKey, decodeUvarint_uvarintBytes head]
    simp only [bind, Except.bind, unzigzag_zigzag, nonneg, if_true, payload, pure, Except.pure,
      keyBytes, length_append]
    congr 2
    omega

def headerBytes (header : RecordHeader) : Bytes := sizedBytes header.key ++ sizedBytes header.value

theorem foldl_appendHeader (headers : List RecordHeader) (body : Bytes) :
    headers.foldl appendHeader body = body ++ headers.flatMap headerBytes := by
  induction headers generalizing body with
  | nil => simp
  | cons header headers ih =>
    rw [foldl_cons, ih, appendHeader, appendSized_eq, appendSized_eq, flatMap_cons, headerBytes]
    simp only [append_assoc]

/-- A length prefix and its string decode together. -/
theorem decode_sizedBytes {payload : Bytes} (stored : BytesAt data pos (sizedBytes payload))
    (within : (pos : Int) + (sizedBytes payload).length ≤ stop) (bounded : stop < 2 ^ 31) (text : String) :
    ∃ middle, decodeUvarint data pos = .ok (UInt64.ofNat payload.length, middle) ∧
      decodeSized data middle (UInt64.ofNat payload.length) stop text =
        .ok (payload, pos + (sizedBytes payload).length) := by
  refine ⟨_, decodeUvarint_uvarintBytes (bytesAt_append_left stored), ?_⟩
  have inside := bytesAt_length stored (append_ne_nil_of_left_ne_nil (uvarintBytes_ne_nil 9 _) payload)
  simp only [sizedBytes, length_append] at inside
  rw [decodeSized_eq (bytesAt_append_right stored) (by omega) _ bounded]
  · simp only [sizedBytes, length_append]
    congr 2
    omega
  · simp only [sizedBytes, length_append] at within
    push_cast at within ⊢
    omega

theorem decodeRecordHeader_headerBytes {header : RecordHeader} (stored : BytesAt data pos (headerBytes header))
    (within : (pos : Int) + (headerBytes header).length ≤ stop) (bounded : stop < 2 ^ 31) :
    decodeRecordHeader data pos stop = .ok (header, pos + (headerBytes header).length) := by
  have total : (headerBytes header).length =
      (sizedBytes header.key).length + (sizedBytes header.value).length := length_append
  rw [total] at within ⊢
  push_cast at within
  obtain ⟨_, keyLength, key⟩ := decode_sizedBytes (bytesAt_append_left stored) (by omega) bounded
    "header key extends beyond record"
  obtain ⟨_, valueLength, value⟩ := decode_sizedBytes (bytesAt_append_right stored)
    (by push_cast; omega) bounded "header value extends beyond record"
  rw [decodeRecordHeader, keyLength]
  simp only [bind, Except.bind, key, valueLength, value, pure, Except.pure]
  congr 2
  omega

/-- The header loop returns every header in order. -/
theorem decodeRecordHeaders_flatMap (bounded : stop < 2 ^ 31) (headers : List RecordHeader) (pos : Nat)
    (stored : BytesAt data pos (headers.flatMap headerBytes))
    (within : (pos : Int) + (headers.flatMap headerBytes).length ≤ stop) :
    decodeRecordHeaders data stop headers.length pos =
      .ok (headers, pos + (headers.flatMap headerBytes).length) := by
  induction headers generalizing pos with
  | nil => simp [decodeRecordHeaders]
  | cons header headers ih =>
    rw [flatMap_cons] at stored within ⊢
    rw [length_append] at within ⊢
    push_cast at within
    have first := decodeRecordHeader_headerBytes (bytesAt_append_left stored) (by omega) bounded
    have rest := ih _ (bytesAt_append_right stored) (by push_cast; omega)
    rw [length_cons, decodeRecordHeaders, first]
    simp only [bind, Except.bind, rest, pure, Except.pure]
    congr 2
    omega

/-- The body of a record follows its length prefix. -/
def recordBody (record : Record) (baseTimestamp offsetDelta : Int64) : Bytes :=
  [0] ++ (uvarintBytes 9 (zigzag (record.timestampMs - baseTimestamp)) ++
    (uvarintBytes 9 (zigzag offsetDelta) ++ (keyBytes record.key ++ (sizedBytes record.value ++
      (uvarintBytes 9 (UInt64.ofNat record.headers.length) ++ record.headers.flatMap headerBytes)))))

def recordBytes (record : Record) (baseTimestamp offsetDelta : Int64) : Bytes :=
  sizedBytes (recordBody record baseTimestamp offsetDelta)

theorem appendRecord_eq (buf : Bytes) (record : Record) (baseTimestamp offsetDelta : Int64) :
    appendRecord buf record baseTimestamp offsetDelta =
      buf ++ recordBytes record baseTimestamp offsetDelta := by
  simp only [appendRecord, appendZigzagVarint, appendUvarint, appendKey_eq, appendSized_eq,
    foldl_appendHeader, recordBytes, recordBody, append_assoc]

/-- A nonempty header takes at least two bytes, which bounds the header count. -/
theorem headers_length_le (headers : List RecordHeader) :
    headers.length ≤ (headers.flatMap headerBytes).length := by
  induction headers with
  | nil => simp
  | cons header headers ih =>
    have first := length_pos_iff.mpr
      (uvarintBytes_ne_nil 9 (UInt64.ofNat header.key.length))
    simp only [flatMap_cons, length_append, length_cons, headerBytes, sizedBytes]
    omega

theorem recordBody_length (record : Record) (baseTimestamp offsetDelta : Int64) :
    (recordBody record baseTimestamp offsetDelta).length = 1 +
      ((uvarintBytes 9 (zigzag (record.timestampMs - baseTimestamp))).length +
      ((uvarintBytes 9 (zigzag offsetDelta)).length + ((keyBytes record.key).length +
      ((sizedBytes record.value).length + ((uvarintBytes 9 (UInt64.ofNat record.headers.length)).length +
      (record.headers.flatMap headerBytes).length))))) := by
  simp only [recordBody, length_append, length_singleton]

/-- The decoder returns the encoded record and the position behind it. -/
theorem decodeRecord_recordBytes {record : Record} {baseTimestamp offsetDelta : Int64}
    (bounded : data.length < 2 ^ 31) (stored : BytesAt data pos (recordBytes record baseTimestamp offsetDelta)) :
    decodeRecord data pos baseTimestamp =
      .ok (record, pos + (recordBytes record baseTimestamp offsetDelta).length) := by
  have inside := bytesAt_length stored (by simp [recordBytes, sizedBytes, recordBody])
  have lengthAt := bytesAt_append_left stored
  have bodyAt := bytesAt_append_right stored
  have total := recordBody_length record baseTimestamp offsetDelta
  obtain ⟨start, startEq⟩ : ∃ start, start =
    pos + (uvarintBytes 9 (UInt64.ofNat (recordBody record baseTimestamp offsetDelta).length)).length := ⟨_, rfl⟩
  obtain ⟨stop, stopEq⟩ : ∃ stop, stop = start + (recordBody record baseTimestamp offsetDelta).length := ⟨_, rfl⟩
  have finish : pos + (recordBytes record baseTimestamp offsetDelta).length = stop := by
    rw [recordBytes, sizedBytes, length_append, stopEq, startEq]
    omega
  have stopWord : int64 (start + (UInt64.ofNat (recordBody record baseTimestamp offsetDelta).length).toInt64.toInt) =
      (stop : Int) := by
    rw [ofNat_toInt64_toInt (by omega), int64_of_range (by omega) (by omega), stopEq]
    norm_num
  rw [finish] at inside ⊢
  rw [← startEq, recordBody] at bodyAt
  rw [total] at stopEq
  have limit : (stop : Int) < 2 ^ 31 := by omega
  -- The remaining fields stand behind each other up to the stop position.
  have timestampAt := bytesAt_append_right bodyAt
  rw [length_singleton] at timestampAt
  have deltaAt := bytesAt_append_right timestampAt
  have keyAt := bytesAt_append_right deltaAt
  have valueAt := bytesAt_append_right keyAt
  have countAt := bytesAt_append_right valueAt
  have headersAt := bytesAt_append_right countAt
  have key := decodeKey_keyBytes (bytesAt_append_left keyAt) (by push_cast; omega) limit
  obtain ⟨_, valueLength, value⟩ := decode_sizedBytes (bytesAt_append_left valueAt)
    (by push_cast; omega) limit "value extends beyond record"
  have headers := decodeRecordHeaders_flatMap limit record.headers _ headersAt (by push_cast; omega)
  have few := headers_length_le record.headers
  have count : (UInt64.ofNat record.headers.length).toNat = record.headers.length := by
    rw [UInt64.toNat_ofNat']
    omega
  have allocated : ¬ record.headers.length * headerSize > maxAlloc := by
    rw [headerSize, maxAlloc]
    omega
  have timestamp : baseTimestamp + (record.timestampMs - baseTimestamp) = record.timestampMs := by
    rw [Int64.add_comm, Int64.sub_add_cancel]
  rw [decodeRecord, decodeUvarint_uvarintBytes lengthAt]
  simp only [bind, Except.bind, ← startEq, stopWord]
  rw [if_neg (by omega), if_neg (by omega)]
  simp only [decodeUvarint_uvarintBytes (bytesAt_append_left timestampAt),
    decodeUvarint_uvarintBytes (bytesAt_append_left deltaAt), key, valueLength, value,
    decodeUvarint_uvarintBytes (bytesAt_append_left countAt), count, allocated, if_false, headers,
    unzigzag_zigzag, timestamp, pure, Except.pure, Int.toNat_natCast]

/-- The records follow one another, each with its own offset delta. -/
def recordsBytes (baseTimestamp : Int64) : Nat → List Record → Bytes
  | _, [] => []
  | index, record :: records =>
    recordBytes record baseTimestamp (Int64.ofNat index) ++ recordsBytes baseTimestamp (index + 1) records

theorem encodeRecords_eq (records : List Record) (baseTimestamp : Int64) :
    encodeRecords records baseTimestamp = recordsBytes baseTimestamp 0 records := by
  have general (buf : Bytes) (index : Nat) :
      (records.zipIdx index).foldl
        (fun buf entry => appendRecord buf entry.1 baseTimestamp (Int64.ofNat entry.2)) buf =
        buf ++ recordsBytes baseTimestamp index records := by
    induction records generalizing buf index with
    | nil => simp [recordsBytes]
    | cons record records ih =>
      rw [zipIdx_cons, foldl_cons, ih, appendRecord_eq, recordsBytes, append_assoc]
  simpa [encodeRecords] using general [] 0

/-- Every record takes at least seven bytes. -/
theorem recordBytes_length (record : Record) (baseTimestamp offsetDelta : Int64) :
    7 ≤ (recordBytes record baseTimestamp offsetDelta).length := by
  have positive (v : UInt64) := length_pos_iff.mpr (uvarintBytes_ne_nil 9 v)
  have key : 0 < (keyBytes record.key).length := by
    cases record.key with
    | none => exact positive _
    | some key =>
      rw [keyBytes, length_append]
      exact Nat.add_pos_left (positive _) _
  have value : 0 < (sizedBytes record.value).length := by
    rw [sizedBytes, length_append]
    exact Nat.add_pos_left (positive _) _
  have first := positive (UInt64.ofNat (recordBody record baseTimestamp offsetDelta).length)
  have second := positive (zigzag (record.timestampMs - baseTimestamp))
  have third := positive (zigzag offsetDelta)
  have fourth := positive (UInt64.ofNat record.headers.length)
  have total := recordBody_length record baseTimestamp offsetDelta
  rw [recordBytes, sizedBytes, length_append]
  omega

theorem recordsBytes_length (baseTimestamp : Int64) (index : Nat) (records : List Record) :
    7 * records.length ≤ (recordsBytes baseTimestamp index records).length := by
  induction records generalizing index with
  | nil => simp
  | cons record records ih =>
    have head := recordBytes_length record baseTimestamp (Int64.ofNat index)
    have tail := ih (index + 1)
    rw [recordsBytes, length_append, length_cons]
    omega

/-- The record loop returns every record of the batch in order. -/
theorem decodeRecords_recordsBytes (data : Bytes) {baseTimestamp : Int64} (bounded : data.length < 2 ^ 31)
    (records : List Record) (index more pos : Nat) (enough : records.length ≤ more)
    (stored : BytesAt data pos (recordsBytes baseTimestamp index records))
    (complete : pos + (recordsBytes baseTimestamp index records).length = data.length) :
    decodeRecords data baseTimestamp more pos = .ok records := by
  induction records generalizing index more pos with
  | nil =>
    have finished : ¬ pos < data.length := by
      simp only [recordsBytes, length_nil] at complete
      omega
    cases more with
    | zero => rfl
    | succ more => rw [decodeRecords, if_neg finished]
  | cons record records ih =>
    obtain ⟨more, rfl⟩ : ∃ next, more = next + 1 := ⟨more - 1, by simp at enough; omega⟩
    rw [recordsBytes] at stored complete
    rw [length_append] at complete
    have size := recordBytes_length record baseTimestamp (Int64.ofNat index)
    have first := decodeRecord_recordBytes bounded (bytesAt_append_left stored)
    have rest := ih (index + 1) more _ (by simpa using enough) (bytesAt_append_right stored) (by omega)
    rw [decodeRecords, if_pos (by omega), first]
    simp only [bind, Except.bind, rest, pure, Except.pure]

/-- The header that `encodeBatch` writes, with any base offset. -/
def headerOf (baseOffset : Int64) (records : List Record) : BatchHeader :=
  let baseTimestamp := (records.head?.map Record.timestampMs).getD 0
  let recsBuf := recordsBytes baseTimestamp 0 records
  { baseOffset := baseOffset
    batchLength := Int32.ofNat (38 + recsBuf.length)
    recordCount := Int32.ofNat records.length
    crc32 := checksum recsBuf
    attributes := 0
    baseTimestamp := baseTimestamp
    maxTimestamp := (records.getLast?.map Record.timestampMs).getD 0 }

/-- The bytes of an encoded batch at its assigned base offset. -/
def batchBytes (baseOffset : Int64) (records : List Record) : Bytes :=
  encodeHeader (headerOf baseOffset records) ++
    recordsBytes (headerOf baseOffset records).baseTimestamp 0 records

/-- The encoder accepts every nonempty list and assigns base offset zero. -/
theorem encodeBatch_eq {records : List Record} (present : records ≠ []) :
    encodeBatch records = .ok (batchBytes 0 records) := by
  obtain ⟨first, rest, rfl⟩ := exists_cons_of_ne_nil present
  have last : (first :: rest).getLast? = some ((first :: rest).getLast present) :=
    getLast?_eq_getLast_of_ne_nil present
  simp only [encodeBatch, head?_cons, last, encodeRecords_eq, batchBytes, headerOf,
    Option.map_some, Option.getD_some]

theorem encodeBatch_ok_iff {records : List Record} {bytes : Bytes} :
    encodeBatch records = .ok bytes ↔ records ≠ [] ∧ batchBytes 0 records = bytes := by
  constructor
  · intro encoded
    cases records with
    | nil => simp [encodeBatch] at encoded
    | cons first rest =>
      rw [encodeBatch_eq (cons_ne_nil first rest)] at encoded
      exact ⟨cons_ne_nil first rest, Except.ok.inj encoded⟩
  · rintro ⟨present, rfl⟩
    exact encodeBatch_eq present

@[simp] theorem encodeHeader_length (header : BatchHeader) : (encodeHeader header).length = 38 := by
  simp [encodeHeader]

theorem batchBytes_length (baseOffset : Int64) (records : List Record) :
    (batchBytes baseOffset records).length =
      38 + (recordsBytes (headerOf baseOffset records).baseTimestamp 0 records).length := by
  rw [batchBytes, length_append, encodeHeader_length]

theorem batchBytes_length_eq (first second : Int64) (records : List Record) :
    (batchBytes first records).length = (batchBytes second records).length := by
  rw [batchBytes_length, batchBytes_length]
  rfl

/-- Each header field stands at its fixed position. -/
theorem encodeHeader_fields (header : BatchHeader) (rest : Bytes) :
    BytesAt (encodeHeader header ++ rest) 0 (putUint 8 header.baseOffset.toUInt64.toNat) ∧
    BytesAt (encodeHeader header ++ rest) 8 (putUint 4 header.batchLength.toUInt32.toNat) ∧
    BytesAt (encodeHeader header ++ rest) 12 (putUint 4 header.recordCount.toUInt32.toNat) ∧
    BytesAt (encodeHeader header ++ rest) 16 (putUint 4 header.crc32.toNat) ∧
    BytesAt (encodeHeader header ++ rest) 20 (putUint 2 header.attributes.toUInt16.toNat) ∧
    BytesAt (encodeHeader header ++ rest) 22 (putUint 8 header.baseTimestamp.toUInt64.toNat) ∧
    BytesAt (encodeHeader header ++ rest) 30 (putUint 8 header.maxTimestamp.toUInt64.toNat) := by
  have whole : BytesAt (encodeHeader header ++ rest) 0 (encodeHeader header) := prefix_append _ _
  generalize encodeHeader header ++ rest = data at whole
  simp only [encodeHeader, append_assoc] at whole
  have second := bytesAt_append_right whole
  have third := bytesAt_append_right second
  have fourth := bytesAt_append_right third
  have fifth := bytesAt_append_right fourth
  have sixth := bytesAt_append_right fifth
  have seventh := bytesAt_append_right sixth
  simp only [putUint_length, Nat.zero_add, Nat.reduceAdd] at second third fourth fifth sixth seventh
  exact ⟨bytesAt_append_left whole, bytesAt_append_left second, bytesAt_append_left third,
    bytesAt_append_left fourth, bytesAt_append_left fifth, bytesAt_append_left sixth, seventh⟩

theorem uint64At_of_bytesAt {lo : Nat} {value : UInt64} (stored : BytesAt data lo (putUint 8 value.toNat)) :
    uint64At data lo = value := by
  have field := bytesAt_slice stored
  rw [putUint_length] at field
  rw [uint64At, field, getUint_putUint_of_lt (by have bound := value.toNat_lt; omega), UInt64.ofNat_toNat]

theorem uint32At_of_bytesAt {lo : Nat} {value : UInt32} (stored : BytesAt data lo (putUint 4 value.toNat)) :
    uint32At data lo = value := by
  have field := bytesAt_slice stored
  rw [putUint_length] at field
  rw [uint32At, field, getUint_putUint_of_lt (by have bound := value.toNat_lt; omega), UInt32.ofNat_toNat]

theorem uint16At_of_bytesAt {lo : Nat} {value : UInt16} (stored : BytesAt data lo (putUint 2 value.toNat)) :
    uint16At data lo = value := by
  have field := bytesAt_slice stored
  rw [putUint_length] at field
  rw [uint16At, field, getUint_putUint_of_lt (by have bound := value.toNat_lt; omega), UInt16.ofNat_toNat]

/-- The decoder reads back every header field, whatever follows. -/
theorem decodeHeader_encodeHeader (header : BatchHeader) (rest : Bytes) :
    decodeHeader (encodeHeader header ++ rest) = header := by
  obtain ⟨baseOffset, batchLength, recordCount, crc, attributes, baseTimestamp, maxTimestamp⟩ :=
    encodeHeader_fields header rest
  simp only [decodeHeader, uint64At_of_bytesAt baseOffset, uint32At_of_bytesAt batchLength,
    uint32At_of_bytesAt recordCount, uint32At_of_bytesAt crc, uint16At_of_bytesAt attributes,
    uint64At_of_bytesAt baseTimestamp, uint64At_of_bytesAt maxTimestamp]
  rfl

/-- A decoded batch ignores the data behind its own length. -/
theorem decodeBatch_batchBytes {baseOffset : Int64} {records : List Record} (rest : Bytes)
    (bounded : (batchBytes baseOffset records).length < 2 ^ 31) :
    decodeBatch (batchBytes baseOffset records ++ rest) =
      .ok { headerOf baseOffset records with records := records } := by
  have size := batchBytes_length baseOffset records
  have few := recordsBytes_length (headerOf baseOffset records).baseTimestamp 0 records
  have header : decodeHeader (batchBytes baseOffset records ++ rest) = headerOf baseOffset records := by
    rw [batchBytes, append_assoc]
    exact decodeHeader_encodeHeader _ _
  have batchLength : (headerOf baseOffset records).batchLength.toInt =
      ((batchBytes baseOffset records).length : Nat) := by
    rw [size, headerOf, Int32.toInt_ofNat_of_lt (by rw [size] at bounded; exact bounded)]
  have counted : ¬ (headerOf baseOffset records).recordCount < 0 := by
    rw [Int32.lt_iff_toInt_lt, headerOf, Int32.toInt_ofNat_of_lt (by omega)]
    simp
  have payload : slice (batchBytes baseOffset records ++ rest) 38 (batchBytes baseOffset records).length =
      recordsBytes (headerOf baseOffset records).baseTimestamp 0 records := by
    have stored : BytesAt (batchBytes baseOffset records ++ rest) 38
        (recordsBytes (headerOf baseOffset records).baseTimestamp 0 records) := by
      have middle := bytesAt_middle (encodeHeader (headerOf baseOffset records))
        (recordsBytes (headerOf baseOffset records).baseTimestamp 0 records) rest
      rw [encodeHeader_length] at middle
      rw [batchBytes, append_assoc]
      exact middle
    rw [size]
    exact bytesAt_slice stored
  have taken : goSlice (batchBytes baseOffset records ++ rest) 38 (batchBytes baseOffset records).length =
      .ok (recordsBytes (headerOf baseOffset records).baseTimestamp 0 records) := by
    have sliced := @goSlice_eq (batchBytes baseOffset records ++ rest) 38 (batchBytes baseOffset records).length
      (by omega) (by rw [length_append]; omega)
    rw [payload] at sliced
    exact sliced
  have crc : checksum (recordsBytes (headerOf baseOffset records).baseTimestamp 0 records) =
      (headerOf baseOffset records).crc32 := rfl
  have decoded := decodeRecords_recordsBytes
    (recordsBytes (headerOf baseOffset records).baseTimestamp 0 records) (by omega) records 0
    (recordsBytes (headerOf baseOffset records).baseTimestamp 0 records).length 0 (by omega)
    (prefix_refl _) (by simp)
  have long : ¬ (batchBytes baseOffset records ++ rest).length < 38 := by
    rw [length_append]
    omega
  have framed : ¬ (((batchBytes baseOffset records).length : Int) < 38 ∨
      ((batchBytes baseOffset records).length : Int) > (batchBytes baseOffset records ++ rest).length) := by
    rw [length_append]
    omega
  simp only [decodeBatch, header, batchLength, bind, Except.bind, taken, crc, counted,
    decoded, long, framed, ne_eq, not_true_eq_false, if_false, pure, Except.pure]

end BunnyMQ.Storage
