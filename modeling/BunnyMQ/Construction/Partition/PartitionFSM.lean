/-
This file models the partition state machine with its sidecar of the last applied index.
-/

import BunnyMQ.Construction.Storage.Storage

namespace BunnyMQ.Partition
open Foundation FileStore Storage Program

def cmdAppendBatch : UInt8 := 0x01

def cmdRetentionConfig : UInt8 := 0x02

structure RetentionConfigPayload where
  retentionMs : Int
  retentionBytes : Int
  deriving DecidableEq, Repr

/-- The decoder of the settings that a command carries. -/
abbrev Unmarshal := Bytes → Except String RetentionConfigPayload

/-- A Raft entry carries its log index and the command bytes. -/
structure Entry where
  index : UInt64
  cmd : Bytes
  deriving DecidableEq, Repr

structure PartitionFSM where
  storage : StorageImpl
  lastAppliedIndex : UInt64
  deriving DecidableEq, Repr

structure SidecarData where
  lastAppliedIndex : UInt64
  latestOffset : Int
  deriving DecidableEq, Repr

def encodeSidecar (index : UInt64) (latestOffset : Int) : Bytes :=
  putUint 8 index.toNat ++ putUint 8 (uint64 latestOffset)

/-- A missing sidecar is not an error. -/
def readSidecar (disk : StorageDisk) : Except GoError (Option SidecarData) :=
  match disk.read .sidecar with
  | none => .ok none
  | some data =>
    if data.length ≠ 16 then .error (.error s!"sidecar: unexpected size {data.length}")
    else .ok (some ⟨uint64At data 0, (uint64At data 8).toInt64.toInt⟩)

/-- The storage is cut back to the sidecar offset only when a sidecar exists. -/
def openFSM (cfg : StorageConfig) : StorageProgram (UInt64 × PartitionFSM) := do
  let storage ← openStorage cfg
  match ← observe readSidecar with
  | none => return (0, ⟨storage, 0⟩)
  | some sidecar =>
    if storage.latestOffset > sidecar.latestOffset then
      let storage ← storage.truncateTo cfg sidecar.latestOffset
      return (sidecar.lastAppliedIndex, ⟨storage, sidecar.lastAppliedIndex⟩)
    else return (sidecar.lastAppliedIndex, ⟨storage, sidecar.lastAppliedIndex⟩)

/-- The state machine turns an error into a panic. -/
def panicWith (context : String) : GoError → GoError
  | .error text => .panic s!"{context}: {text}"
  | .panic text => .panic text

def hexByte (byte : UInt8) : String := "0x" ++ String.ofList (Nat.toDigits 16 byte.toNat)

section
variable (unmarshal : Unmarshal)

/-- The result of an append is its base offset, and any failure stops the process. -/
def applyEntry (cfg : StorageConfig) (storage : StorageImpl) (entry : Entry) :
    StorageProgram (Nat × StorageImpl) :=
  match entry.cmd with
  | [] => fail errIndexRange
  | kind :: payload =>
    if kind = cmdAppendBatch then do
      let (baseOffset, storage) ←
        mapError (panicWith "storage.Append failed") (storage.append cfg payload)
      return (uint64 baseOffset, storage)
    else if kind = cmdRetentionConfig then
      match unmarshal payload with
      | .ok rc => pure (0, storage.setRetentionConfig rc.retentionMs rc.retentionBytes)
      | .error text => fail (.panic s!"bad retention config: {text}")
    else fail (.panic s!"unknown partition command type: {hexByte kind}")

def applyEntries (cfg : StorageConfig) : StorageImpl → List Entry → StorageProgram (List Nat × StorageImpl)
  | storage, [] => pure ([], storage)
  | storage, entry :: rest => do
      let (value, storage) ← applyEntry unmarshal cfg storage entry
      let (values, storage) ← applyEntries cfg storage rest
      return (value :: values, storage)

/-- The log is synced before the sidecar is replaced by one rename. -/
def persistApplied (storage : StorageImpl) (index : UInt64) : StorageProgram Unit := do
  storage.sync
  perform (.write .sidecarTmp (encodeSidecar index storage.latestOffset))
  perform (.sync .sidecarTmp)
  perform (.rename .sidecarTmp .sidecar)

def update (cfg : StorageConfig) (fsm : PartitionFSM) (entries : List Entry) :
    StorageProgram (List Nat × PartitionFSM) := do
  let (values, storage) ← applyEntries unmarshal cfg fsm.storage entries
  match entries.getLast? with
  | none => fail errIndexRange
  | some last =>
    mapError (panicWith "persistApplied failed") (persistApplied storage last.index)
    return (values, ⟨storage, last.index⟩)

/-- Raft hands the entries over in a sequence of update calls. -/
def updates (cfg : StorageConfig) : PartitionFSM → List (List Entry) → StorageProgram (List Nat × PartitionFSM)
  | fsm, [] => pure ([], fsm)
  | fsm, entries :: rest => do
      let (values, fsm) ← update unmarshal cfg fsm entries
      let (more, fsm) ← updates cfg fsm rest
      return (values ++ more, fsm)

/-- A run opens the directory and applies every call. -/
def run (cfg : StorageConfig) (calls : List (List Entry)) : StorageProgram (List Nat × PartitionFSM) := do
  let (_, fsm) ← openFSM cfg
  updates unmarshal cfg fsm calls

end

inductive PartitionQuery where
  | read (offset maxBytes : Int)
  | readByTime (timestampMs : Int64) (maxBytes : Int)
  | earliestOffset
  | latestOffset
  | getNewDataCh
  deriving DecidableEq, Repr

/-- The channel of new data carries no value. -/
inductive PartitionAnswer where
  | batches (batches : Bytes) (nextOffset : Int)
  | offset (offset : Int)
  | newDataCh
  deriving DecidableEq, Repr

/-- The storage is closed together with its state machine. -/
def PartitionFSM.lookup (fsm : PartitionFSM) (disk : StorageDisk) (query : PartitionQuery) :
    Except GoError PartitionAnswer :=
  if fsm.storage.closed then .error errStorageClosed
  else match query with
    | .read offset maxBytes => (fsm.storage.read disk offset maxBytes).map fun found => .batches found.1 found.2
    | .readByTime timestampMs maxBytes =>
      (fsm.storage.readByTime disk timestampMs maxBytes).map fun found => .batches found.1 found.2
    | .earliestOffset => .ok (.offset fsm.storage.earliestOffset)
    | .latestOffset => .ok (.offset fsm.storage.latestOffset)
    | .getNewDataCh => .ok .newDataCh

end BunnyMQ.Partition
