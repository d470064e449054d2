/-
This file models the check that the Data API makes before it forwards a batch.
-/

import BunnyMQ.Construction.Storage.LogSegment

namespace BunnyMQ.Api
open Foundation Storage

/-- These are the error codes that the check attaches to an invalid argument. -/
inductive BunnyErrorCode where
  | invalidMessageFormat
  | batchTooLarge
  deriving DecidableEq, Repr

structure BunnyError where
  code : BunnyErrorCode
  message : String
  deriving DecidableEq, Repr

def maxBatchBytes : Nat := 4 * 1024 * 1024

def invalidFormat (message : String) : BunnyError := ⟨.invalidMessageFormat, message⟩

def validateBatch (data : Bytes) : Except BunnyError Unit :=
  if data.length < 38 then .error (invalidFormat "batch too short")
  else
    let batchLength := batchLengthOf data
    if batchLength < 38 ∨ batchLength > data.length then
      .error (invalidFormat "batch_length field inconsistency")
    else if data.length > maxBatchBytes then .error ⟨.batchTooLarge, "batch exceeds 4 MiB"⟩
    else if checksum (slice data 38 batchLength) ≠ uint32At data 16 then
      .error (invalidFormat "CRC-32C mismatch")
    else .ok ()

end BunnyMQ.Api
