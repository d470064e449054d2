import BunnyMQ.Library.ByteOrder

namespace BunnyMQ

/-- A Go call returns an error value or stops with a run-time panic. -/
inductive GoError where
  | error (text : String)
  | panic (text : String)
  deriving DecidableEq, Repr

namespace Storage
open Foundation

def errCRCMismatch : GoError := .error "CRC mismatch"

/-- The Castagnoli polynomial in reversed bit order divides one bit. -/
def crcShift (crc : UInt32) : UInt32 :=
  if crc &&& 1 = 1 then (crc >>> 1) ^^^ 0x82F63B78 else crc >>> 1

def crcByte (crc : UInt32) (byte : UInt8) : UInt32 :=
  crcShift^[8] (crc ^^^ byte.toUInt32)

/-- This is `crc32.Checksum` with the Castagnoli table. -/
def checksum (data : Bytes) : UInt32 :=
  data.foldl crcByte 0xFFFFFFFF ^^^ 0xFFFFFFFF

structure RecordHeader where
  key : Bytes
  value : Bytes
  deriving DecidableEq, Repr

/-- A missing key differs from an empty key. The codec identifies a nil value with an empty one. -/
structure Record where
  timestampMs : Int64
  key : Option Bytes
  value : Bytes
  headers : List RecordHeader
  deriving DecidableEq, Repr

structure BatchHeader where
  baseOffset : Int64
  batchLength : Int32
  recordCount : Int32
  crc32 : UInt32
  attributes : Int16
  baseTimestamp : Int64
  maxTimestamp : Int64
  deriving DecidableEq, Repr

structure Batch extends BatchHeader where
  records : List Record
  deriving DecidableEq, Repr

/-- Nine continuation bytes cover 63 bits, so the last byte ends every 64-bit value. -/
def uvarintBytes : Nat → UInt64 → Bytes
  | 0, v => [v.toUInt8]
  | more + 1, v => if v ≥ 0x80 then (v.toUInt8 ||| 0x80) :: uvarintBytes more (v >>> 7) else [v.toUInt8]

def appendUvarint (b : Bytes) (v : UInt64) : Bytes := b ++ uvarintBytes 9 v

def zigzag (n : Int64) : UInt64 := ((n <<< 1) ^^^ (n >>> 63)).toUInt64

def unzigzag (n : UInt64) : Int64 := ((n >>> 1) ^^^ -(n &&& 1)).toInt64

def appendZigzagVarint (b : Bytes) (n : Int64) : Bytes := appendUvarint b (zigzag n)

/-- A length prefix precedes the bytes themselves. -/
def appendSized (b data : Bytes) : Bytes := appendUvarint b (UInt64.ofNat data.length) ++ data

def appendHeader (body : Bytes) (header : RecordHeader) : Bytes :=
  appendSized (appendSized body header.key) header.value

def appendKey (body : Bytes) : Option Bytes → Bytes
  | none => appendZigzagVarint body (-1)
  | some key => appendZigzagVarint body (Int64.ofNat key.length) ++ key

def appendRecord (buf : Bytes) (record : Record) (baseTimestamp offsetDelta : Int64) : Bytes :=
  let body : Bytes := [0]
  let tsDelta := record.timestampMs - baseTimestamp
  let body := appendZigzagVarint body tsDelta
  let body := appendZigzagVarint body offsetDelta
  let body := appendKey body record.key
  let body := appendSized body record.value
  let body := appendUvarint body (UInt64.ofNat record.headers.length)
  let body := record.headers.foldl appendHeader body
  appendSized buf body

/-- The header of the batch format takes 38 bytes. -/
def encodeHeader (header : BatchHeader) : Bytes :=
  putUint 8 header.baseOffset.toUInt64.toNat ++ putUint 4 header.batchLength.toUInt32.toNat ++
    putUint 4 header.recordCount.toUInt32.toNat ++ putUint 4 header.crc32.toNat ++
    putUint 2 header.attributes.toUInt16.toNat ++ putUint 8 header.baseTimestamp.toUInt64.toNat ++
    putUint 8 header.maxTimestamp.toUInt64.toNat

def encodeRecords (records : List Record) (baseTimestamp : Int64) : Bytes :=
  records.zipIdx.foldl (fun buf entry => appendRecord buf entry.1 baseTimestamp (Int64.ofNat entry.2)) []

/-- The base offset stays zero until the log assigns it. -/
def encodeBatch (records : List Record) : Except GoError Bytes :=
  match records.head?, records.getLast? with
  | some first, some last =>
    let baseTimestamp := first.timestampMs
    let maxTimestamp := last.timestampMs
    let recsBuf := encodeRecords records baseTimestamp
    .ok (encodeHeader {
      baseOffset := 0
      batchLength := Int32.ofNat (38 + recsBuf.length)
      recordCount := Int32.ofNat records.length
      crc32 := checksum recsBuf
      attributes := 0
      baseTimestamp := baseTimestamp
      maxTimestamp := maxTimestamp } ++ recsBuf)
  | _, _ => .error (.error "records must not be empty")

def uint16At (data : Bytes) (lo : Nat) : UInt16 := UInt16.ofNat (getUint (slice data lo (lo + 2)))

def uint32At (data : Bytes) (lo : Nat) : UInt32 := UInt32.ofNat (getUint (slice data lo (lo + 4)))

def uint64At (data : Bytes) (lo : Nat) : UInt64 := UInt64.ofNat (getUint (slice data lo (lo + 8)))

def decodeHeader (data : Bytes) : BatchHeader where
  baseOffset := (uint64At data 0).toInt64
  batchLength := (uint32At data 8).toInt32
  recordCount := (uint32At data 12).toInt32
  crc32 := uint32At data 16
  attributes := (uint16At data 20).toInt16
  baseTimestamp := (uint64At data 22).toInt64
  maxTimestamp := (uint64At data 30).toInt64

/-- The loop reads at most ten bytes, because the tenth byte moves the shift beyond 63. -/
def decodeUvarintLoop (data : Bytes) : Nat → Nat → UInt64 → Nat → Except GoError (UInt64 × Nat)
  | 0, _, _, _ => .error (.error "varint overflow")
  | more + 1, pos, v, shift =>
    match data[pos]? with
    | none => .error (.error "truncated varint")
    | some b =>
      let v := v ||| ((b &&& 0x7F).toUInt64 <<< UInt64.ofNat shift)
      if b < 0x80 then .ok (v, pos + 1)
      else if shift + 7 ≥ 64 then .error (.error "varint overflow")
      else decodeUvarintLoop data more (pos + 1) v (shift + 7)

def decodeUvarint (data : Bytes) (pos : Nat) : Except GoError (UInt64 × Nat) :=
  decodeUvarintLoop data 10 pos 0 0

/-- The runtime refuses an allocation above the 48-bit address space. -/
def maxAlloc : Nat := 2 ^ 48

def errMakeslice : GoError := .panic "runtime error: makeslice: len out of range"

def errSliceBounds : GoError := .panic "runtime error: slice bounds out of range"

/-- A slice expression stops with a panic outside of its data. -/
def goSlice (data : Bytes) (lo hi : Int) : Except GoError Bytes :=
  if 0 ≤ lo ∧ lo ≤ hi ∧ hi ≤ data.length then .ok (slice data lo.toNat hi.toNat) else .error errSliceBounds

/-- The bounds check adds a signed length with wraparound before the allocation. -/
def decodeSized (data : Bytes) (pos : Nat) (length : UInt64) (stop : Int) (text : String) :
    Except GoError (Bytes × Nat) :=
  let finish := int64 (pos + length.toInt64.toInt)
  if finish > stop then .error (.error text)
  else if length.toNat > maxAlloc then .error errMakeslice
  else do
    let payload ← goSlice data pos finish
    return (payload, finish.toNat)

def decodeKey (data : Bytes) (pos : Nat) (stop : Int) : Except GoError (Option Bytes × Nat) := do
  let (keyLenRaw, pos) ← decodeUvarint data pos
  let keyLen := unzigzag keyLenRaw
  if keyLen ≥ 0 then
    let (key, pos) ← decodeSized data pos keyLen.toUInt64 stop "key extends beyond record"
    return (some key, pos)
  else return (none, pos)

def decodeRecordHeader (data : Bytes) (pos : Nat) (stop : Int) :
    Except GoError (RecordHeader × Nat) := do
  let (hKeyLen, pos) ← decodeUvarint data pos
  let (hKey, pos) ← decodeSized data pos hKeyLen stop "header key extends beyond record"
  let (hValLen, pos) ← decodeUvarint data pos
  let (hVal, pos) ← decodeSized data pos hValLen stop "header value extends beyond record"
  return (⟨hKey, hVal⟩, pos)

def decodeRecordHeaders (data : Bytes) (stop : Int) :
    Nat → Nat → Except GoError (List RecordHeader × Nat)
  | 0, pos => .ok ([], pos)
  | count + 1, pos => do
      let (header, pos) ← decodeRecordHeader data pos stop
      let (headers, pos) ← decodeRecordHeaders data stop count pos
      return (header :: headers, pos)

/-- One header takes 48 bytes of memory. -/
def headerSize : Nat := 48

def decodeRecord (data : Bytes) (pos : Nat) (baseTimestamp : Int64) :
    Except GoError (Record × Nat) := do
  let (length, pos) ← decodeUvarint data pos
  let stop := int64 (pos + length.toInt64.toInt)
  if stop > data.length then throw (.error "record extends beyond data")
  if pos ≥ stop then throw (.error "truncated record")
  let pos := pos + 1
  let (tsDeltaRaw, pos) ← decodeUvarint data pos
  let tsDelta := unzigzag tsDeltaRaw
  let (_, pos) ← decodeUvarint data pos
  let (key, pos) ← decodeKey data pos stop
  let (valLen, pos) ← decodeUvarint data pos
  let (value, pos) ← decodeSized data pos valLen stop "value extends beyond record"
  let (headersCount, pos) ← decodeUvarint data pos
  if headersCount.toNat * headerSize > maxAlloc then throw errMakeslice
  let (headers, _) ← decodeRecordHeaders data stop headersCount.toNat pos
  return (⟨baseTimestamp + tsDelta, key, value, headers⟩, stop.toNat)

/-- Every record takes at least one byte, so the data length bounds the loop. -/
def decodeRecords (data : Bytes) (baseTimestamp : Int64) : Nat → Nat → Except GoError (List Record)
  | 0, _ => .ok []
  | more + 1, pos =>
    if pos < data.length then do
      let (record, newPos) ← decodeRecord data pos baseTimestamp
      let records ← decodeRecords data baseTimestamp more newPos
      return record :: records
    else .ok []

def decodeBatch (data : Bytes) : Except GoError Batch := do
  if data.length < 38 then throw (.error "batch too short")
  let bh := decodeHeader data
  if bh.batchLength.toInt < 38 ∨ bh.batchLength.toInt > data.length then
    throw (.error "batch data truncated")
  let recsData ← goSlice data 38 bh.batchLength.toInt
  if checksum recsData ≠ bh.crc32 then throw errCRCMismatch
  if bh.recordCount < 0 then throw (.panic "runtime error: makeslice: cap out of range")
  let records ← decodeRecords recsData bh.baseTimestamp recsData.length 0
  return { bh with records := records }

def decodeNextBatch (data : Bytes) (pos : Nat) : Except GoError (Batch × Nat) := do
  if pos ≥ data.length then throw (.error "no more batches")
  let rest ← goSlice data pos data.length
  let batch ← decodeBatch rest
  return (batch, pos + batch.batchLength.toInt.toNat)

end Storage

end BunnyMQ
