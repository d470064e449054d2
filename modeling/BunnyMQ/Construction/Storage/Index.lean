/-
This file models the two sparse index files of a segment.
-/

import BunnyMQ.Construction.Storage.LogSegment
import BunnyMQ.Library.Search

namespace BunnyMQ.Storage
open Foundation FileStore Program

def errIndexFull : GoError := .error "index full"

def errInvalidArgument : GoError := .error "invalid argument"

def errDivideByZero : GoError := .panic "runtime error: integer divide by zero"

structure OffsetEntry where
  relativeOffset : Int32
  position : Int32
  deriving DecidableEq, Repr

structure TimeEntry where
  timestampMs : Int64
  relativeOffset : Int32
  deriving DecidableEq, Repr

/-- The two index files differ only in the layout of an entry. -/
structure EntryLayout (Entry : Type) where
  width : Nat
  put : Entry → Bytes
  get : Bytes → Entry

def offsetLayout : EntryLayout OffsetEntry where
  width := 8
  put entry := putUint 4 entry.relativeOffset.toUInt32.toNat ++ putUint 4 entry.position.toUInt32.toNat
  get data := ⟨(uint32At data 0).toInt32, (uint32At data 4).toInt32⟩

def timeLayout : EntryLayout TimeEntry where
  width := 12
  put entry := putUint 8 entry.timestampMs.toUInt64.toNat ++ putUint 4 entry.relativeOffset.toUInt32.toNat
  get data := ⟨(uint64At data 0).toInt64, (uint32At data 8).toInt32⟩

/-- The mapped bytes are kept as the entries below the entry count. A store into the mapping reaches the
file without a system call, and `Seal` writes it out. -/
structure IndexSegment (Entry : Type) where
  entries : List Entry
  baseOffset : Int
  maxEntries : Int
  mapped : Int
  deriving DecidableEq, Repr

section
variable {Entry : Type}

def EntryLayout.entriesOf (layout : EntryLayout Entry) (data : Bytes) : List Entry :=
  (List.range (data.length / layout.width)).map fun slot =>
    layout.get (slice data (slot * layout.width) (slot * layout.width + layout.width))

/-- This is `ceil(segMaxBytes / indexSampleBytes)` in 64-bit arithmetic. -/
def StorageConfig.maxEntries (cfg : StorageConfig) : Int :=
  (int64 (int64 (cfg.segmentMaxBytes + cfg.indexSampleBytes) - 1)).tdiv cfg.indexSampleBytes

/-- The entry bytes are rounded up to the page size. -/
def StorageConfig.allocSize (cfg : StorageConfig) (width : Nat) : Int :=
  let entryBytes := int64 (cfg.maxEntries * width)
  int64 ((int64 (int64 (entryBytes + cfg.pageSize) - 1)).tdiv cfg.pageSize * cfg.pageSize)

/-- An existing file keeps its bytes and counts all of them as entries. -/
def openIndex (layout : EntryLayout Entry) (file : FileName) (baseOffset : Int) (cfg : StorageConfig) :
    StorageProgram (IndexSegment Entry) := do
  perform (.create file)
  let data ← readFile file
  let allocSize := cfg.allocSize layout.width
  if cfg.indexSampleBytes = 0 then fail errDivideByZero
  else if allocSize ≤ 0 then fail errInvalidArgument
  else
    if data.length < allocSize then perform (.truncate file allocSize.toNat)
    perform (.mmap file)
    return {
      entries := layout.entriesOf data
      baseOffset := baseOffset
      maxEntries := cfg.maxEntries
      mapped := allocSize }

def openOffsetIndex (baseOffset : Int) (cfg : StorageConfig) : StorageProgram (IndexSegment OffsetEntry) :=
  openIndex offsetLayout (.index baseOffset) baseOffset cfg

def openTimeIndex (baseOffset : Int) (cfg : StorageConfig) : StorageProgram (IndexSegment TimeEntry) :=
  openIndex timeLayout (.timeindex baseOffset) baseOffset cfg

def openIndexReadOnly (layout : EntryLayout Entry) (file : FileName) (baseOffset : Int) :
    StorageProgram (IndexSegment Entry) := do
  let data ← readFile file
  return {
    entries := layout.entriesOf data
    baseOffset := baseOffset
    maxEntries := data.length / layout.width
    mapped := data.length }

def openOffsetIndexReadOnly (baseOffset : Int) : StorageProgram (IndexSegment OffsetEntry) :=
  openIndexReadOnly offsetLayout (.index baseOffset) baseOffset

def openTimeIndexReadOnly (baseOffset : Int) : StorageProgram (IndexSegment TimeEntry) :=
  openIndexReadOnly timeLayout (.timeindex baseOffset) baseOffset

def IndexSegment.append (s : IndexSegment Entry) (layout : EntryLayout Entry) (entry : Entry) :
    Except GoError (IndexSegment Entry) :=
  if (s.entries.length : Int) ≥ s.maxEntries then .error errIndexFull
  else if ((s.entries.length + 1) * layout.width : Nat) > s.mapped then .error errSliceBounds
  else .ok { s with entries := s.entries ++ [entry] }

/-- A slot outside the mapping cannot be read. -/
def IndexSegment.entryAt (s : IndexSegment Entry) (layout : EntryLayout Entry) (slot : Int) : Option Entry :=
  if (slot + 1) * layout.width ≤ s.mapped then s.entries[slot.toNat]? else none

/-- The file shrinks to its entries, and a nonempty mapping is written out. -/
def IndexSegment.seal (s : IndexSegment Entry) (layout : EntryLayout Entry) (file : FileName) :
    StorageProgram (IndexSegment Entry) := do
  let actualSize := s.entries.length * layout.width
  perform (.truncate file actualSize)
  if actualSize > 0 then
    if actualSize > s.mapped then fail errSliceBounds
    perform (.msync file (s.entries.flatMap layout.put))
  return { s with maxEntries := s.entries.length, mapped := actualSize }

def IndexSegment.rebuild (s : IndexSegment Entry) (layout : EntryLayout Entry) (entries : List Entry) :
    Except GoError (IndexSegment Entry) :=
  if (entries.length * layout.width : Nat) > s.mapped then .error errSliceBounds
  else .ok { s with entries := entries }

end

/-- The floor entry gives the position from which a scan finds the offset. -/
def lookupPosition (s : IndexSegment OffsetEntry) (relativeOffset : Int32) : Except GoError (Option Int32) :=
  let probe := fun slot => (s.entryAt offsetLayout slot).map fun entry =>
    decide (entry.relativeOffset ≤ relativeOffset)
  match Search.floorLoop probe s.entries.length 0 (s.entries.length - 1) (-1) with
  | none => .error errSliceBounds
  | some result =>
    if result < 0 then .ok none
    else match s.entryAt offsetLayout result with
      | none => .error errSliceBounds
      | some entry => .ok (some entry.position)

/-- The ceiling entry is the first one that is not older than the timestamp. -/
def lookupTimestamp (s : IndexSegment TimeEntry) (timestampMs : Int64) : Except GoError (Option Int32) :=
  let probe := fun slot => (s.entryAt timeLayout slot).map fun entry =>
    decide (entry.timestampMs ≥ timestampMs)
  match Search.ceilingLoop probe s.entries.length 0 (s.entries.length - 1) (-1) with
  | none => .error errSliceBounds
  | some result =>
    if result < 0 then .ok none
    else match s.entryAt timeLayout result with
      | none => .error errSliceBounds
      | some entry => .ok (some entry.relativeOffset)

end BunnyMQ.Storage
