import EthereumJS.Rlp.Basic
import EthereumJS.Util.LittleEndian

/-! # Entries and block index of the e2store formats

`e2store.ts`, `blockIndex.ts` and the compressing stream of `packages/e2store`. The block
compression and the checksum of Snappy are parameters, and so is the whole of `decompressData`.
Numbers are exact: no file has 2^53 bytes.
-/

namespace EthereumJS.E2store

open LittleEndian

/-- The index of an array that a relative index stands for. -/
def relativeIndex (length : Nat) (index : Int) : Nat :=
  if index < 0 then (length + index).toNat else min index.toNat length

def slice (bytes : Bytes) (start : Int) : Bytes := bytes.drop (relativeIndex bytes.length start)

def subarray (bytes : Bytes) (start stop : Int) : Bytes :=
  (bytes.take (relativeIndex bytes.length stop)).drop (relativeIndex bytes.length start)

/-- `setBigUint64` takes a value modulo 2^64. -/
def bigInt64ToBytes (value : Int) : Bytes := leBytes 8 (value % 2 ^ 64).toNat

def bytesToBigInt64 (bytes : Bytes) : Nat := leNumber (bytes.take 8)

inductive E2storeError
  | invalidDataLength (got max : Nat)
  | expectedBlockIndex
  | outOfBounds
  deriving DecidableEq

structure E2StoreEntry where
  type : Bytes
  data : Bytes
  deriving DecidableEq

namespace Types

def Version : Bytes := [0x65, 0x32]
def BlockIndex : Bytes := [0x66, 0x32]
def CompressedHeader : Bytes := [0x03, 0x00]
def CompressedHeaderWithProof : Bytes := [0x03, 0x01]
def CompressedBody : Bytes := [0x04, 0x00]
def CompressedReceipts : Bytes := [0x05, 0x00]
def TotalDifficulty : Bytes := [0x06, 0x00]
def AccumulatorRoot : Bytes := [0x07, 0x00]

end Types

section Snappy

/-- `compress` of `snappyjs`, the checksum of a chunk and `decompressData`, if it returns. -/
structure Snappy where
  compress : Bytes → Bytes
  checksum : Bytes → Bytes
  decompressData : Bytes → Option Bytes

def IDENTIFIER_FRAME : Bytes := [0xff, 0x06, 0x00, 0x00, 0x73, 0x4e, 0x61, 0x50, 0x70, 0x59]

def UNCOMPRESSED_CHUNK_SIZE : Nat := 65536

variable (snappy : Snappy)

def frame (kind : UInt8) (chunk content : Bytes) : Bytes :=
  kind :: leBytes 3 (content.length + 4) ++ snappy.checksum chunk ++ content

def chunkFrame (bytesChunk : Bytes) : Bytes :=
  let compressed := snappy.compress bytesChunk
  if compressed.length < bytesChunk.length then frame snappy 0 bytesChunk compressed
  else frame snappy 1 bytesChunk bytesChunk

def compressData (data : Bytes) : Bytes :=
  let chunks := (data.length + UNCOMPRESSED_CHUNK_SIZE - 1) / UNCOMPRESSED_CHUNK_SIZE
  IDENTIFIER_FRAME ++ (List.range chunks).flatMap fun i =>
    chunkFrame snappy ((data.drop (i * UNCOMPRESSED_CHUNK_SIZE)).take UNCOMPRESSED_CHUNK_SIZE)

end Snappy

section Entries

def readEntry (bytes : Bytes) : Except E2storeError E2StoreEntry :=
  if bytes.length < 8 then .error (.invalidDataLength bytes.length 8)
  else
    let length := leNumber ((bytes.drop 2).take 6)
    if length > bytes.length then .error (.invalidDataLength length (bytes.length - 8))
    else .ok { type := bytes.take 2, data := (bytes.drop 8).take length }

def entryBytes (type data : Bytes) : Bytes :=
  type ++ (bigInt64ToBytes data.length).take 6 ++ data

def formatEntry (snappy : Snappy) (type data : Bytes) : Bytes :=
  let plain := [Types.TotalDifficulty, Types.AccumulatorRoot, Types.Version, Types.BlockIndex]
  entryBytes type (if type ∈ plain then data else compressData snappy data)

/-- `formatEntry(VERSION)`. -/
def version (snappy : Snappy) : Bytes := formatEntry snappy Types.Version []

end Entries

section BlockIndex

structure BlockIndex where
  data : Bytes
  count : Nat
  recordStart : Int
  deriving DecidableEq

def getBlockIndex (bytes : Bytes) : Except E2storeError BlockIndex := do
  let count := bytesToBigInt64 (slice bytes (-8))
  let recordLength : Int := 8 * count + 24
  let recordEnd : Int := bytes.length
  let recordStart := recordEnd - recordLength
  let entry ← readEntry (subarray bytes recordStart recordEnd)
  if entry.type ≠ Types.BlockIndex then .error .expectedBlockIndex
  else return { data := entry.data, count := count, recordStart := recordStart }

/-- `getBigInt64` of eight bytes, which throws when there are fewer. -/
def getBigInt64 (bytes : Bytes) : Except E2storeError Int :=
  if bytes.length < 8 then .error .outOfBounds
  else
    let value : Int := leNumber (bytes.take 8)
    .ok (if value < 2 ^ 63 then value else value - 2 ^ 64)

structure Offsets where
  startingNumber : Nat
  offsets : List Int
  deriving DecidableEq

def readBlockIndex (data : Bytes) (count : Nat) : Except E2storeError Offsets := do
  let startingNumber := bytesToBigInt64 (data.take 8)
  let offsets ← (List.range count).mapM fun (i : Nat) =>
    getBigInt64 (subarray data ((i + 1) * 8) ((i + 2) * 8))
  return { startingNumber := startingNumber, offsets := offsets }

/-- The offsets of tuples that follow each other, from the offset of the first. -/
def offsetsFrom (offset : Int) : List Bytes → List Int
  | [] => []
  | tuple :: tuples => offset :: offsetsFrom (offset + tuple.length) tuples

def createBlockIndex (snappy : Snappy) (blockTuples : List Bytes) (startingNumber : Nat) : Bytes :=
  let tuplesLength := blockTuples.flatten.length
  let count := bigInt64ToBytes blockTuples.length
  let blockIndexLength := 8 * blockTuples.length + 24
  let e2hsLength := (version snappy).length + tuplesLength + count.length + blockIndexLength
  let recordStart : Int := e2hsLength - blockIndexLength
  let offsets := (offsetsFrom (8 - recordStart) blockTuples).map bigInt64ToBytes
  formatEntry snappy Types.BlockIndex (bigInt64ToBytes startingNumber ++ offsets.flatten ++ count)

end BlockIndex

end EthereumJS.E2store
