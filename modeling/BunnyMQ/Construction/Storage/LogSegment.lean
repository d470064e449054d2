/-
This file models one log file: its handle, its readers and its recovery scan.
-/

import BunnyMQ.Construction.Storage.Batch
import BunnyMQ.Library.FileStore

namespace BunnyMQ.Storage
open Foundation FileStore Program

/-- The page size is the value of `os.Getpagesize`, which the host fixes. -/
structure StorageConfig where
  segmentMaxBytes : Int
  indexSampleBytes : Int
  defaultRetentionMs : Int
  defaultRetentionBytes : Int
  pageSize : Nat
  pageSize_pos : 0 < pageSize
  pageSize_lt : pageSize < 2 ^ 31

/-- A partition directory holds three files for each segment and the sidecar with its temporary file. -/
inductive FileName where
  | log (baseOffset : Int)
  | index (baseOffset : Int)
  | timeindex (baseOffset : Int)
  | sidecar
  | sidecarTmp
  deriving DecidableEq, Repr

abbrev StorageDisk := Disk FileName

abbrev StorageProgram := Program FileName GoError

def errSegmentReadOnly : GoError := .error "segment is read-only"

def errUnexpectedEOF : GoError := .error "unexpected EOF"

def errNegativeOffset : GoError := .error "negative offset"

def errNotExist : GoError := .error "file does not exist"

/-- The call returns the bytes of an existing file. -/
def readFile (file : FileName) : StorageProgram Bytes :=
  observe fun disk => match disk.read file with
    | some data => .ok data
    | none => .error errNotExist

def baseOffsetOf (batch : Bytes) : Int := (uint64At batch 0).toInt64.toInt

def batchLengthOf (batch : Bytes) : Nat := (uint32At batch 8).toNat

/-- The log reads the record count as an unsigned number. -/
def recordCountOf (batch : Bytes) : Int := (uint32At batch 12).toNat

def maxTimestampOf (batch : Bytes) : Int64 := (uint64At batch 30).toInt64

def endOffsetOf (batch : Bytes) : Int := int64 (baseOffsetOf batch + recordCountOf batch)

structure LogSegment where
  baseOffset : Int
  logSize : Int
  readonly : Bool
  deriving DecidableEq, Repr

/-- The active log is created when it is missing, and a sealed log must exist. -/
def openLogSegment (baseOffset : Int) (create : Bool) : StorageProgram LogSegment := do
  if create then perform (.create (.log baseOffset))
  let data ← readFile (.log baseOffset)
  return ⟨baseOffset, data.length, !create⟩

def LogSegment.append (s : LogSegment) (batch : Bytes) : StorageProgram (Int × LogSegment) := do
  if s.readonly then fail errSegmentReadOnly
  else
    perform (.append (.log s.baseOffset) batch)
    return (s.logSize, { s with logSize := s.logSize + batch.length })

/-- A short read is an unexpected end of file. -/
def readAt (file : Bytes) (pos : Int) (length : Nat) : Except GoError Bytes :=
  if pos < 0 then .error errNegativeOffset
  else
    let buf := slice file pos.toNat (pos.toNat + length)
    if buf.length = length then .ok buf else .error errUnexpectedEOF

/-- The loop lists each batch with its position. A batch takes at least 12 bytes, so the file size
bounds the loop. -/
def scanFrom (file : Bytes) (logSize : Int) : Nat → Int → List (Bytes × Int) × Option GoError
  | 0, _ => ([], none)
  | more + 1, pos =>
    if pos < logSize then
      match readAt file pos 12 with
      | .error failure => if failure = errUnexpectedEOF then ([], none) else ([], some failure)
      | .ok header =>
        let batchLen := batchLengthOf header
        if batchLen < 12 ∨ pos + batchLen > logSize then ([], none)
        else match readAt file pos batchLen with
          | .error failure => ([], some failure)
          | .ok batch =>
            let rest := scanFrom file logSize more (pos + batchLen)
            ((batch, pos) :: rest.1, rest.2)
    else ([], none)

/-- Every caller of `ScanFrom` drops its error and sees the batches until it stops the scan. -/
def LogSegment.scan (s : LogSegment) (file : Bytes) (startPos : Int) : List (Bytes × Int) :=
  (scanFrom file s.logSize s.logSize.toNat startPos).1

def LogSegment.truncate (s : LogSegment) (pos : Int) : StorageProgram LogSegment := do
  perform (.truncate (.log s.baseOffset) pos.toNat)
  return { s with logSize := pos }

def LogSegment.sync (s : LogSegment) : StorageProgram Unit :=
  perform (.sync (.log s.baseOffset))

/-- The scan returns the first invalid byte, the next offset and the number of checksum errors. -/
def scanActiveLoop (file : Bytes) : Nat → Nat → Int → Nat × Int × Nat
  | 0, pos, currOffset => (pos, currOffset, 0)
  | more + 1, pos, currOffset =>
    if pos < file.length then
      let hdr := slice file pos (pos + 38)
      if hdr.length < 38 then (pos, currOffset, 0)
      else
        let batchLen := batchLengthOf hdr
        if batchLen < 38 ∨ pos + batchLen > file.length then (pos, currOffset, 0)
        else
          let records := slice file (pos + 38) (pos + batchLen)
          if records.length < batchLen - 38 then (pos, currOffset, 0)
          else if checksum records ≠ uint32At hdr 16 then (pos, currOffset, 1)
          else scanActiveLoop file more (pos + batchLen) (int64 (baseOffsetOf hdr + recordCountOf hdr))
    else (pos, currOffset, 0)

def scanActiveLog (file : Bytes) (baseOffset : Int) : Nat × Int × Nat :=
  scanActiveLoop file file.length 0 baseOffset

/-- The loop advances by the announced length until a batch starts at the offset. -/
def findBytePosLoop (file : Bytes) (logSize offset : Int) : Nat → Int → Int
  | 0, _ => logSize
  | more + 1, pos =>
    if pos < logSize then
      match readAt file pos 12 with
      | .error _ => logSize
      | .ok header =>
        if baseOffsetOf header = offset then pos
        else if batchLengthOf header < 12 then logSize
        else findBytePosLoop file logSize offset more (pos + batchLengthOf header)
    else logSize

end BunnyMQ.Storage
