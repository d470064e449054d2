/-
This file models one segment: a log file with its offset index and its time index.
-/

import BunnyMQ.Construction.Storage.Index

namespace BunnyMQ.Storage
open Foundation FileStore Program

structure SegmentStorage where
  log : LogSegment
  offsetIdx : IndexSegment OffsetEntry
  timeIdx : IndexSegment TimeEntry
  baseOffset : Int
  isSealed : Bool
  bytesSinceLastIndex : Int
  deriving DecidableEq, Repr

def newSegmentStorage (baseOffset : Int) (cfg : StorageConfig) : StorageProgram SegmentStorage := do
  let log ← openLogSegment baseOffset true
  let offsetIdx ← openOffsetIndex baseOffset cfg
  let timeIdx ← openTimeIndex baseOffset cfg
  return ⟨log, offsetIdx, timeIdx, baseOffset, false, 0⟩

/-- A read-only segment keeps its index files as they are. -/
def openSegmentStorage (baseOffset : Int) (cfg : StorageConfig) (readonly : Bool) :
    StorageProgram SegmentStorage := do
  let log ← openLogSegment baseOffset (!readonly)
  if readonly then
    let offsetIdx ← openOffsetIndexReadOnly baseOffset
    let timeIdx ← openTimeIndexReadOnly baseOffset
    return ⟨log, offsetIdx, timeIdx, baseOffset, readonly, 0⟩
  else
    let offsetIdx ← openOffsetIndex baseOffset cfg
    let timeIdx ← openTimeIndex baseOffset cfg
    return ⟨log, offsetIdx, timeIdx, baseOffset, readonly, 0⟩

/-- A batch is indexed when enough bytes lie behind the last entry. Its own bytes then do not count. -/
def SegmentStorage.append (s : SegmentStorage) (cfg : StorageConfig) (batch : Bytes) :
    StorageProgram (Int × SegmentStorage) := do
  let (startPos, log) ← s.log.append batch
  if batch.length < 38 then fail errSliceBounds
  else
    let relativeOffset := Int32.ofInt (baseOffsetOf batch - s.baseOffset)
    if s.bytesSinceLastIndex ≥ cfg.indexSampleBytes then
      let offsetIdx ← ofExcept
        (s.offsetIdx.append offsetLayout ⟨relativeOffset, Int32.ofInt startPos⟩)
      let timeIdx ← ofExcept
        (s.timeIdx.append timeLayout ⟨maxTimestampOf batch, relativeOffset⟩)
      return (startPos, { s with
        log := log, offsetIdx := offsetIdx, timeIdx := timeIdx, bytesSinceLastIndex := 0 })
    else
      return (startPos, { s with
        log := log, bytesSinceLastIndex := s.bytesSinceLastIndex + batch.length })

/-- The scan skips batches that end at or before the offset and returns at least one batch behind them. -/
def readLoop (offset maxBytes : Int) : List (Bytes × Int) → Bytes → Int → Except GoError (Bytes × Int)
  | [], result, nextOffset => .ok (result, nextOffset)
  | (batch, _) :: rest, result, nextOffset =>
    if batch.length < 16 then .error errSliceBounds
    else if endOffsetOf batch ≤ offset then readLoop offset maxBytes rest result nextOffset
    else if result.length > 0 ∧ (result.length + batch.length : Int) > maxBytes then .ok (result, nextOffset)
    else readLoop offset maxBytes rest (result ++ batch) (endOffsetOf batch)

def SegmentStorage.read (s : SegmentStorage) (file : Bytes) (offset maxBytes : Int) :
    Except GoError (Bytes × Int) := do
  let found ← lookupPosition s.offsetIdx (Int32.ofInt (offset - s.baseOffset))
  let scanPos := match found with
    | some position => position.toInt
    | none => 0
  readLoop offset maxBytes (s.log.scan file scanPos) [] offset

def errTimestampNotFound : GoError := .error "timestamp not found"

def SegmentStorage.readByTime (s : SegmentStorage) (file : Bytes) (timestampMs : Int64) (maxBytes : Int) :
    Except GoError (Bytes × Int) := do
  match ← lookupTimestamp s.timeIdx timestampMs with
  | none => throw errTimestampNotFound
  | some relOffset => s.read file (int64 (s.baseOffset + relOffset.toInt)) maxBytes

/-- The log is synced last, so a sealed segment has all its bytes on disk. -/
def SegmentStorage.seal (s : SegmentStorage) : StorageProgram SegmentStorage := do
  let offsetIdx ← s.offsetIdx.seal offsetLayout (.index s.baseOffset)
  let timeIdx ← s.timeIdx.seal timeLayout (.timeindex s.baseOffset)
  s.log.sync
  return { s with offsetIdx := offsetIdx, timeIdx := timeIdx, isSealed := true }

/-- The index entries that a scan of the log collects. -/
structure IndexScan where
  offEntries : List OffsetEntry
  tEntries : List TimeEntry
  bytesSince : Int
  deriving DecidableEq, Repr

def IndexScan.empty : IndexScan := ⟨[], [], 0⟩

def IndexScan.visit (cfg : StorageConfig) (baseOffset : Int) (scan : IndexScan) (found : Bytes × Int) :
    IndexScan :=
  let relOff := Int32.ofInt (baseOffsetOf found.1 - baseOffset)
  if scan.bytesSince ≥ cfg.indexSampleBytes then
    { offEntries := scan.offEntries ++ [⟨relOff, Int32.ofInt found.2⟩]
      tEntries := scan.tEntries ++ [⟨maxTimestampOf found.1, relOff⟩]
      bytesSince := 0 }
  else { scan with bytesSince := scan.bytesSince + found.1.length }

/-- The callback reads the timestamp of every batch, so each needs a whole header. -/
def scanIndexes (cfg : StorageConfig) (baseOffset : Int) (batches : List (Bytes × Int)) :
    Except GoError IndexScan :=
  if batches.any (·.1.length < 38) then .error errSliceBounds
  else .ok (batches.foldl (IndexScan.visit cfg baseOffset) IndexScan.empty)

/-- Both recovery paths drop the index files and fill them from the log. -/
def rebuildIndexes (cfg : StorageConfig) (baseOffset : Int) (log : LogSegment)
    (offsetIdx : IndexSegment OffsetEntry) (timeIdx : IndexSegment TimeEntry) :
    StorageProgram SegmentStorage := do
  let file ← readFile (.log baseOffset)
  let scan ← ofExcept (scanIndexes cfg baseOffset (log.scan file 0))
  let offsetIdx ← ofExcept (offsetIdx.rebuild offsetLayout scan.offEntries)
  let timeIdx ← ofExcept (timeIdx.rebuild timeLayout scan.tEntries)
  return ⟨log, offsetIdx, timeIdx, baseOffset, false, scan.bytesSince⟩

def rebuildSegmentIndexes (cfg : StorageConfig) (seg : SegmentStorage) : StorageProgram SegmentStorage := do
  perform (.remove (.index seg.baseOffset))
  perform (.remove (.timeindex seg.baseOffset))
  let offsetIdx ← openOffsetIndex seg.baseOffset cfg
  let timeIdx ← openTimeIndex seg.baseOffset cfg
  rebuildIndexes cfg seg.baseOffset seg.log offsetIdx timeIdx

def findBytePosForOffset (seg : SegmentStorage) (file : Bytes) (offset : Int) : Int :=
  if offset = seg.baseOffset then 0
  else findBytePosLoop file seg.log.logSize offset seg.log.logSize.toNat 0

/-- A removal ignores a missing file. -/
def removeSegmentFiles (baseOffset : Int) : StorageProgram Unit := do
  perform (.remove (.log baseOffset))
  perform (.remove (.index baseOffset))
  perform (.remove (.timeindex baseOffset))

def removeSegments : List SegmentStorage → StorageProgram Unit
  | [] => pure ()
  | seg :: rest => do
      removeSegmentFiles seg.baseOffset
      removeSegments rest

end BunnyMQ.Storage
