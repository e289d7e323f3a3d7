import EthereumJS.E2store.BlockIndex

/-! # Era1 and E2HS files

`formatEra1` with `readERA1` and `readAccumulatorRoot`, and `formatE2HS` with
`readTuplesFromE2HS`. The root of the epoch accumulator is given, and the SSZ encoding of a number
is its 32 bytes in little-endian order.
-/

namespace EthereumJS.E2store

open LittleEndian

variable (snappy : Snappy)

section Era1

structure BlockTuple where
  header : Bytes
  body : Bytes
  receipts : Bytes
  totalDifficulty : Nat
  deriving DecidableEq

def formatBlockTuple (tuple : BlockTuple) : Bytes :=
  formatEntry snappy Types.CompressedHeader tuple.header ++
  (formatEntry snappy Types.CompressedBody tuple.body ++
  (formatEntry snappy Types.CompressedReceipts tuple.receipts ++
  formatEntry snappy Types.TotalDifficulty (leBytes 32 tuple.totalDifficulty)))

def formatEra1 (blockTuples : List BlockTuple) (epochAccumulatorRoot : Bytes) (epoch : Nat) :
    Bytes :=
  let blocks := blockTuples.map (formatBlockTuple snappy)
  let accumulatorEntry := formatEntry snappy Types.AccumulatorRoot epochAccumulatorRoot
  let startingNumber := epoch * 8192
  let blockIndex := createBlockIndex snappy blocks startingNumber
  version snappy ++ (blocks.flatten ++ (accumulatorEntry ++ blockIndex))

structure BlockTupleEntries where
  headerEntry : E2StoreEntry
  bodyEntry : E2StoreEntry
  receiptsEntry : E2StoreEntry
  totalDifficultyEntry : E2StoreEntry
  length : Nat

def readBlockTupleAtOffset (bytes : Bytes) (recordStart offset : Int) :
    Except E2storeError BlockTupleEntries := do
  let headerEntry ← readEntry (slice bytes (recordStart + offset))
  let headerLength := headerEntry.data.length + 8
  let bodyEntry ← readEntry (slice bytes (recordStart + offset + headerLength))
  let bodyLength := bodyEntry.data.length + 8
  let receiptsEntry ← readEntry (slice bytes (recordStart + offset + headerLength + bodyLength))
  let receiptsLength := receiptsEntry.data.length + 8
  let totalDifficultyEntry ← readEntry
    (slice bytes (recordStart + offset + headerLength + bodyLength + receiptsLength))
  let totalDifficultyLength := totalDifficultyEntry.data.length + 8
  return { headerEntry := headerEntry, bodyEntry := bodyEntry, receiptsEntry := receiptsEntry
           totalDifficultyEntry := totalDifficultyEntry
           length := headerLength + bodyLength + receiptsLength + totalDifficultyLength }

/-- A tuple that cannot be read is skipped. -/
def readBlockTuplesFromERA1 (bytes : Bytes) (offsets : List Int) (recordStart : Int) :
    List BlockTupleEntries :=
  offsets.filterMap fun offset => (readBlockTupleAtOffset bytes recordStart offset).toOption

def readERA1 (bytes : Bytes) : Except E2storeError (List BlockTupleEntries) := do
  let index ← getBlockIndex bytes
  let read ← readBlockIndex index.data index.count
  return readBlockTuplesFromERA1 bytes read.offsets index.recordStart

/-- The loop of `readOtherEntries`. Every round goes on by eight bytes or more, so that it ends
with an error within as many rounds as there are bytes. -/
def accumulatorFrom (bytes : Bytes) : Nat → Int → E2StoreEntry → Except E2storeError Bytes
  | 0, _, _ => .error .outOfBounds
  | fuel + 1, next, nextEntry =>
    if nextEntry.type = Types.AccumulatorRoot then .ok nextEntry.data
    else do
      let next := next + nextEntry.data.length + 8
      let nextEntry ← readEntry (slice bytes next)
      accumulatorFrom bytes fuel next nextEntry

def readAccumulatorRoot (bytes : Bytes) : Except E2storeError Bytes := do
  let index ← getBlockIndex bytes
  let read ← readBlockIndex index.data index.count
  match read.offsets.getLast? with
  | none => .error .outOfBounds
  | some offset =>
    let lastTuple ← readBlockTupleAtOffset bytes index.recordStart offset
    let next := index.recordStart + offset + lastTuple.length
    let nextEntry ← readEntry (slice bytes next)
    accumulatorFrom bytes bytes.length next nextEntry

/-- What is read is the given tuple. -/
structure HoldsTuple (entries : BlockTupleEntries) (tuple : BlockTuple) : Prop where
  headerType : entries.headerEntry.type = Types.CompressedHeader
  header : snappy.decompressData entries.headerEntry.data = some tuple.header
  bodyType : entries.bodyEntry.type = Types.CompressedBody
  body : snappy.decompressData entries.bodyEntry.data = some tuple.body
  receiptsType : entries.receiptsEntry.type = Types.CompressedReceipts
  receipts : snappy.decompressData entries.receiptsEntry.data = some tuple.receipts
  totalDifficultyType : entries.totalDifficultyEntry.type = Types.TotalDifficulty
  totalDifficulty : entries.totalDifficultyEntry.data = leBytes 32 tuple.totalDifficulty

/-- The file reads back: exactly the given tuples in order, and the root. -/
def Era1ReadsBack (blockTuples : List BlockTuple) (root : Bytes) (epoch : Nat) : Prop :=
  (∃ read, readERA1 (formatEra1 snappy blockTuples root epoch) = .ok read ∧
    List.Forall₂ (HoldsTuple snappy) read blockTuples) ∧
  readAccumulatorRoot (formatEra1 snappy blockTuples root epoch) = .ok root

end Era1

section E2HS

structure E2HSTuple where
  headerWithProof : Bytes
  body : Bytes
  receipts : Bytes
  deriving DecidableEq

def formatE2HSTuple (tuple : E2HSTuple) : Bytes :=
  formatEntry snappy Types.CompressedHeaderWithProof tuple.headerWithProof ++
  (formatEntry snappy Types.CompressedBody tuple.body ++
  formatEntry snappy Types.CompressedReceipts tuple.receipts)

def formatE2HS (data : List E2HSTuple) (epoch : Nat) : Bytes :=
  let blockTuples := data.map (formatE2HSTuple snappy)
  let startingNumber := epoch * 8192
  let blockIndex := createBlockIndex snappy blockTuples startingNumber
  version snappy ++ (blockTuples.flatten ++ blockIndex)

structure E2HSTupleEntries where
  headerWithProofEntry : E2StoreEntry
  bodyEntry : E2StoreEntry
  receiptsEntry : E2StoreEntry

def readE2HSTupleAtOffset (bytes : Bytes) (offset : Int) :
    Except E2storeError E2HSTupleEntries := do
  let headerWithProofEntry ← readEntry (slice bytes offset)
  let headerWithProofLength := headerWithProofEntry.data.length + 8
  let bodyEntry ← readEntry (slice bytes (offset + headerWithProofLength))
  let bodyLength := bodyEntry.data.length + 8
  let receiptsEntry ← readEntry (slice bytes (offset + headerWithProofLength + bodyLength))
  return { headerWithProofEntry := headerWithProofEntry, bodyEntry := bodyEntry
           receiptsEntry := receiptsEntry }

/-- The offsets are taken as they are; a tuple that cannot be read is skipped. -/
def readTuplesFromE2HS (bytes : Bytes) : Except E2storeError (List E2HSTupleEntries) := do
  let index ← getBlockIndex bytes
  let read ← readBlockIndex index.data index.count
  return read.offsets.filterMap fun offset => (readE2HSTupleAtOffset bytes offset).toOption

structure HoldsE2HSTuple (entries : E2HSTupleEntries) (tuple : E2HSTuple) : Prop where
  headerType : entries.headerWithProofEntry.type = Types.CompressedHeaderWithProof
  header : snappy.decompressData entries.headerWithProofEntry.data = some tuple.headerWithProof
  bodyType : entries.bodyEntry.type = Types.CompressedBody
  body : snappy.decompressData entries.bodyEntry.data = some tuple.body
  receiptsType : entries.receiptsEntry.type = Types.CompressedReceipts
  receipts : snappy.decompressData entries.receiptsEntry.data = some tuple.receipts

def E2HSReadsBack (data : List E2HSTuple) (epoch : Nat) : Prop :=
  ∃ read, readTuplesFromE2HS (formatE2HS snappy data epoch) = .ok read ∧
    List.Forall₂ (HoldsE2HSTuple snappy) read data

end E2HS

end EthereumJS.E2store
