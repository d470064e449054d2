import BunnyMQ.Construction.Storage.Batch
import Mathlib.Data.Finmap

namespace BunnyMQ.Client
open Foundation Storage

abbrev HeaderMap := Finmap fun _ : Bytes => Bytes

structure DecodedRecord where
  offset : Int64
  key : Option Bytes
  value : Bytes
  headers : HeaderMap
  timestampMs : Int64
  deriving DecidableEq

/-- A later header replaces an earlier header of the same key. -/
def headerMap (headers : List RecordHeader) : HeaderMap :=
  headers.foldl (fun known header => known.insert header.key header.value) ∅

def decodedRecords (batch : Batch) : List DecodedRecord :=
  batch.records.zipIdx.map fun entry => {
    offset := batch.baseOffset + Int64.ofNat entry.2
    key := entry.1.key
    value := entry.1.value
    headers := headerMap entry.1.headers
    timestampMs := entry.1.timestampMs }

/-- The error names the byte at which the failed batch starts. -/
def decodeError (pos : Nat) : GoError → GoError
  | .error text => .error s!"decode batch at byte {pos}: {text}"
  | .panic text => .panic text

/-- Every batch takes at least 38 bytes, so the data length bounds the loop. -/
def decodeLoop (data : Bytes) : Nat → Nat → List DecodedRecord × Option GoError
  | 0, _ => ([], none)
  | more + 1, pos =>
    if pos < data.length then
      match decodeNextBatch data pos with
      | .error failure => ([], some (decodeError pos failure))
      | .ok (batch, nextPos) =>
        let rest := decodeLoop data more nextPos
        (decodedRecords batch ++ rest.1, rest.2)
    else ([], none)

/-- This is `BatchDecoder.Decode`. A failed batch leaves the records of the batches before it. -/
def decode (data : Bytes) : List DecodedRecord × Option GoError := decodeLoop data data.length 0

end BunnyMQ.Client
