/-
This file models the storage of one partition replica: append, read, truncation, recovery and retention.
-/

import BunnyMQ.Construction.Storage.SegmentStorage
import Mathlib.Data.List.Sort

namespace BunnyMQ.Storage
open Foundation FileStore Program

def errOffsetOutOfRange : GoError := .error "offset out of range"

def errStorageClosed : GoError := .error "storage is closed"

def errIndexRange : GoError := .panic "runtime error: index out of range"

structure StorageImpl where
  segments : List SegmentStorage
  nextOffset : Int
  retentionMs : Int
  retentionBytes : Int
  closed : Bool
  deriving DecidableEq, Repr

/-- Decimal names of width 20 sort as strings. The minus sign sorts before the digits and reverses the
order of negative numbers. -/
def segmentNameLe (first second : Int) : Prop :=
  if first < 0 ∧ second < 0 then second ≤ first else first ≤ second

instance : DecidableRel segmentNameLe := fun first second => by unfold segmentNameLe; infer_instance

def FileName.logBase? : FileName → Option Int
  | .log baseOffset => some baseOffset
  | _ => none

/-- This is the sorted list of the log files in the directory. -/
def logBases (disk : StorageDisk) : List Int :=
  (disk.keys.filterMap FileName.logBase?).insertionSort segmentNameLe

def openSealed (cfg : StorageConfig) : List Int → StorageProgram (List SegmentStorage)
  | [] => pure []
  | baseOffset :: rest => do
      let seg ← openSegmentStorage baseOffset cfg true
      let segments ← openSealed cfg rest
      return seg :: segments

/-- The last log file is cut behind its last valid batch and gets new index files. -/
def recoverActive (cfg : StorageConfig) (activeOffset : Int) :
    StorageProgram (SegmentStorage × Int × Nat) := do
  let file ← readFile (.log activeOffset)
  let (validPos, nextOffset, crcErrors) := scanActiveLog file activeOffset
  perform (.truncate (.log activeOffset) validPos)
  perform (.remove (.index activeOffset))
  perform (.remove (.timeindex activeOffset))
  let offsetIdx ← openOffsetIndex activeOffset cfg
  let timeIdx ← openTimeIndex activeOffset cfg
  let logSeg ← openLogSegment activeOffset true
  let activeSeg ← rebuildIndexes cfg activeOffset logSeg offsetIdx timeIdx
  return (activeSeg, nextOffset, crcErrors)

def recoverStorage (cfg : StorageConfig) : StorageProgram (List SegmentStorage × Int × Nat) := do
  let bases ← observe fun disk => .ok (logBases disk)
  match bases.getLast? with
  | none =>
    let seg ← newSegmentStorage 0 cfg
    return ([seg], 0, 0)
  | some activeOffset =>
    let segments ← openSealed cfg bases.dropLast
    let (activeSeg, nextOffset, crcErrors) ← recoverActive cfg activeOffset
    return (segments ++ [activeSeg], nextOffset, crcErrors)

/-- This is `storage.Open`. -/
def openStorage (cfg : StorageConfig) : StorageProgram StorageImpl := do
  let (segments, nextOffset, _) ← recoverStorage cfg
  return {
    segments := segments
    nextOffset := nextOffset
    retentionMs := cfg.defaultRetentionMs
    retentionBytes := cfg.defaultRetentionBytes
    closed := false }

namespace StorageImpl

/-- The last segment is sealed before the next one is created. -/
def roll (s : StorageImpl) (cfg : StorageConfig) : StorageProgram StorageImpl :=
  match s.segments.getLast? with
  | none => fail errIndexRange
  | some active => do
      let sealedSeg ← active.seal
      let newSeg ← newSegmentStorage s.nextOffset cfg
      return { s with segments := s.segments.dropLast ++ [sealedSeg, newSeg] }

/-- The log assigns the base offset in the first eight bytes of the batch. -/
def patchBaseOffset (batch : Bytes) (baseOffset : Int) : Bytes :=
  putUint 8 (uint64 baseOffset) ++ batch.drop 8

def append (s : StorageImpl) (cfg : StorageConfig) (batch : Bytes) : StorageProgram (Int × StorageImpl) :=
  if s.closed then fail errStorageClosed
  else if batch.length < 8 then fail errSliceBounds
  else match s.segments.getLast? with
    | none => fail errIndexRange
    | some active => do
        let baseOffset := s.nextOffset
        let patched := patchBaseOffset batch baseOffset
        let (_, active) ← active.append cfg patched
        let s := { s with
          segments := s.segments.dropLast ++ [active]
          nextOffset := int64 (s.nextOffset + recordCountOf patched) }
        if active.log.logSize ≥ cfg.segmentMaxBytes then
          let s ← s.roll cfg
          return (baseOffset, s)
        else return (baseOffset, s)

def startsAtOrBefore (segs : List SegmentStorage) (offset : Int) (place : Nat) : Bool :=
  segs[place]?.any fun seg => decide (seg.baseOffset ≤ offset)

def read (s : StorageImpl) (disk : StorageDisk) (offset maxBytes : Int) : Except GoError (Bytes × Int) :=
  match s.segments with
  | [] => .ok ([], offset)
  | first :: later =>
    if offset < first.baseOffset then .error errOffsetOutOfRange
    else if offset ≥ s.nextOffset then .ok ([], offset)
    else
      let lo := Search.lastLoop (startsAtOrBefore (first :: later) offset) later.length 0 later.length
      match (first :: later)[lo]? with
      | none => .error errIndexRange
      | some seg =>
        match disk.read (.log seg.baseOffset) with
        | none => .error errNotExist
        | some file => seg.read file offset maxBytes

def readByTimeLoop (disk : StorageDisk) (timestampMs : Int64) (maxBytes : Int) :
    List SegmentStorage → Except GoError (Bytes × Int)
  | [] => .error errTimestampNotFound
  | seg :: rest =>
    match disk.read (.log seg.baseOffset) with
    | none => .error errNotExist
    | some file =>
      match seg.readByTime file timestampMs maxBytes with
      | .error failure =>
        if failure = errTimestampNotFound then readByTimeLoop disk timestampMs maxBytes rest
        else .error failure
      | .ok (data, next) =>
        if data ≠ [] then .ok (data, next) else readByTimeLoop disk timestampMs maxBytes rest

def readByTime (s : StorageImpl) (disk : StorageDisk) (timestampMs : Int64) (maxBytes : Int) :
    Except GoError (Bytes × Int) :=
  readByTimeLoop disk timestampMs maxBytes s.segments

def earliestOffset (s : StorageImpl) : Int :=
  match s.segments with
  | [] => 0
  | first :: _ => first.baseOffset

def latestOffset (s : StorageImpl) : Int := s.nextOffset

def setRetentionConfig (s : StorageImpl) (retentionMs retentionBytes : Int) : StorageImpl :=
  { s with retentionMs := retentionMs, retentionBytes := retentionBytes }

def sync (s : StorageImpl) : StorageProgram Unit :=
  match s.segments.getLast? with
  | none => fail errIndexRange
  | some active => active.log.sync

/-- The loop walks back to the last segment that starts at or before the offset. -/
def truncationPlace (segs : List SegmentStorage) (offset : Int) : Nat → Nat
  | 0 => 0
  | lo + 1 =>
    if segs[lo + 1]?.any fun seg => decide (seg.baseOffset > offset) then truncationPlace segs offset lo
    else lo + 1

/-- A sealed log is opened again for writing. -/
def reopenLog (seg : SegmentStorage) : StorageProgram SegmentStorage :=
  if seg.isSealed then do
    let newLog ← openLogSegment seg.baseOffset true
    return { seg with log := newLog, isSealed := false }
  else pure seg

def truncateSegment (cfg : StorageConfig) (seg : SegmentStorage) (offset : Int) :
    StorageProgram SegmentStorage := do
  let seg ← reopenLog seg
  let file ← readFile (.log seg.baseOffset)
  let log ← seg.log.truncate (findBytePosForOffset seg file offset)
  rebuildSegmentIndexes cfg { seg with log := log }

def truncateTo (s : StorageImpl) (cfg : StorageConfig) (offset : Int) : StorageProgram StorageImpl :=
  if offset = s.nextOffset then pure s
  else if offset > s.nextOffset then
    fail (.error s!"TruncateTo({offset}) > LatestOffset({s.nextOffset})")
  else
    let lo := truncationPlace s.segments offset (s.segments.length - 1)
    match s.segments[lo]? with
    | none => pure s
    | some activeSeg => do
        removeSegments (s.segments.drop (lo + 1))
        let activeSeg ← truncateSegment cfg activeSeg offset
        return { s with segments := s.segments.take lo ++ [activeSeg], nextOffset := offset }

/-- The active segment is sealed on the way out. -/
def close (s : StorageImpl) : StorageProgram StorageImpl :=
  if s.closed then pure s
  else match s.segments.getLast? with
    | none => pure { s with closed := true }
    | some active =>
      if active.isSealed then pure { s with closed := true }
      else do
        let sealedSeg ← active.seal
        return { s with segments := s.segments.dropLast ++ [sealedSeg], closed := true }

end StorageImpl

/-- A segment is deleted because of the bytes cap or because of its age. -/
inductive RetentionReason where
  | bytes
  | time
  deriving DecidableEq, Repr

def totalLogSize (segs : List SegmentStorage) : Int := (segs.map fun seg => seg.log.logSize).sum

/-- The oldest sealed segments are marked until the remaining total fits. -/
def markBytes (retentionBytes : Int) : List SegmentStorage → Int → List (Option RetentionReason)
  | [], _ => []
  | seg :: rest, total =>
    if total > retentionBytes then some .bytes :: markBytes retentionBytes rest (total - seg.log.logSize)
    else none :: markBytes retentionBytes rest total

/-- The base timestamp stands behind the first 22 bytes of the log. -/
def firstBatchTimestamp (disk : StorageDisk) (seg : SegmentStorage) : Option Int :=
  match disk.read (.log seg.baseOffset) with
  | none => none
  | some file =>
    match readAt file 0 38 with
    | .ok header => some (uint64At header 22).toInt64.toInt
    | .error _ => none

/-- Each segment is judged by the first timestamp of its successor alone. -/
def markTime (disk : StorageDisk) (limit : Int) (reason : Option RetentionReason)
    (nextSeg : SegmentStorage) : Option RetentionReason :=
  if reason.isSome then reason
  else match firstBatchTimestamp disk nextSeg with
    | none => none
    | some ts => if ts < limit then some .time else none

/-- The reasons of the sealed segments in order. -/
def retentionReasons (segs : List SegmentStorage) (disk : StorageDisk)
    (retentionMs retentionBytes nowMs : Int) : List (Option RetentionReason) :=
  let sealedSegs := segs.dropLast
  let marked :=
    if retentionBytes ≥ 0 then markBytes retentionBytes sealedSegs (totalLogSize segs)
    else sealedSegs.map fun _ => none
  if retentionMs > 0 then List.zipWith (markTime disk (int64 (nowMs - retentionMs))) marked segs.tail
  else marked

/-- The marked segments leave the list and lose their files. The active segment stays. -/
def StorageImpl.enforceRetention (s : StorageImpl) (retentionMs retentionBytes nowMs : Int) :
    StorageProgram (Nat × StorageImpl) := do
  if s.segments.length ≤ 1 then return (0, s)
  else
    let reasons ← observe fun disk =>
      .ok (retentionReasons s.segments disk retentionMs retentionBytes nowMs)
    let judged := s.segments.dropLast.zip reasons
    let deleted := (judged.filter fun entry => entry.2.isSome).map Prod.fst
    let kept := (judged.filter fun entry => entry.2.isNone).map Prod.fst
    removeSegments deleted
    return (deleted.length, { s with segments := kept ++ s.segments.drop (s.segments.length - 1) })

end BunnyMQ.Storage
