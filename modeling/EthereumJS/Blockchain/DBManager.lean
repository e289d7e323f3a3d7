import Mathlib.Logic.Function.Basic
import EthereumJS.Rlp.Basic

/-! # The database of a blockchain

The tables that `DBManager` of `manager.ts` reads and writes: headers, bodies and total
difficulties under a number and a hash, the two lookups between numbers and hashes, and
the saved heads. A header that stands in the table has the number and the hash of its key,
and the canonical index is finite.
-/

namespace EthereumJS

abbrev Hash := Bytes

/-- What the chain reads of a header; `hash` is what `header.hash()` returns. -/
structure BlockHeader where
  hash : Hash
  number : Nat
  parentHash : Hash
  difficulty : Nat
  timestamp : Nat
  transactionsTrie : Hash
  uncleHash : Hash
  withdrawalsRoot : Option Hash
  deriving DecidableEq

/-- The items of `block.raw().slice(1)`. -/
abbrev BlockBody := List (List Bytes)

structure Block where
  header : BlockHeader
  body : BlockBody
  deriving DecidableEq

/-- A block, or a header if there is no body, with what is read of its `common`. -/
structure BlockItem where
  header : BlockHeader
  body : Option BlockBody
  chainId : Nat
  proofOfStake : Bool

inductive BlockchainError
  | notFoundInDB
  | notFoundInCanonicalChain
  | noBlockFoundInDB
  | invalidHeader
  | invalidBody
  | genesisMismatch
  | chainMismatch
  | failedToFindAncientHeader
  | external (code : Nat)
  deriving DecidableEq

def KECCAK256_RLP : Hash := RLP.numberToBytes
  0x56e81f171bcc55a6ff8345e692c0f86e5b48e01b996cadc001622fb5e363b421

def KECCAK256_RLP_ARRAY : Hash := RLP.numberToBytes
  0x1dcc4de8dec75d7aab85b567b6ccd41ad312451b948a7413f0a142fd40d49347

/-- A table under a number and a hash. -/
abbrev Table (α : Type) := Nat → Hash → Option α

def Table.set {α : Type} (table : Table α) (number : Nat) (hash : Hash) (value : Option α) :
    Table α :=
  fun n h => if n = number ∧ h = hash then value else table n h

structure ChainDB where
  header : Table BlockHeader
  body : Table BlockBody
  td : Table Nat
  hashToNumber : Hash → Option Nat
  numberToHash : Nat → Option Hash
  /-- A bound on the numbers of the canonical index. -/
  size : Nat
  numberToHash_size : ∀ n, size ≤ n → numberToHash n = none
  header_key : ∀ n h header', header n h = some header' → header'.number = n ∧ header'.hash = h

/-- The entries for the heads. -/
structure SavedHeads where
  heads : Option (String → Option Hash)
  headHeader : Option Hash
  headBlock : Option Hash

inductive DBOp
  | setHeader (header : BlockHeader)
  | setBody (number : Nat) (hash : Hash) (body : BlockBody)
  | setTD (number : Nat) (hash : Hash) (td : Nat)
  | setHashToNumber (hash : Hash) (number : Nat)
  | setNumberToHash (number : Nat) (hash : Hash)
  | delHeader (number : Nat) (hash : Hash)
  | delBody (number : Nat) (hash : Hash)
  | delTD (number : Nat) (hash : Hash)
  | delHashToNumber (hash : Hash)
  | delNumberToHash (number : Nat)

/-- `DBSetBlockOrHeader`; a header alone has no body to set. -/
def DBSetBlockOrHeader (item : BlockItem) : List DBOp :=
  .setHeader item.header ::
    match item.body with
    | none => []
    | some body => [.setBody item.header.number item.header.hash body]

def DBSaveLookups (blockHash : Hash) (blockNumber : Nat) : List DBOp :=
  [.setNumberToHash blockNumber blockHash, .setHashToNumber blockHash blockNumber]

namespace ChainDB

variable (db : ChainDB)

/-- One operation of a batch. -/
def apply : DBOp → ChainDB
  | .setHeader header =>
    { db with
      header := db.header.set header.number header.hash (some header)
      header_key := by
        intro n h header' hheader
        unfold Table.set at hheader
        split at hheader
        · rename_i hkey
          obtain rfl := Option.some.inj hheader
          exact ⟨hkey.1.symm, hkey.2.symm⟩
        · exact db.header_key n h header' hheader }
  | .setBody number hash body => { db with body := db.body.set number hash (some body) }
  | .setTD number hash td => { db with td := db.td.set number hash (some td) }
  | .setHashToNumber hash number =>
    { db with hashToNumber := Function.update db.hashToNumber hash (some number) }
  | .setNumberToHash number hash =>
    { db with
      numberToHash := Function.update db.numberToHash number (some hash)
      size := max db.size (number + 1)
      numberToHash_size := by
        intro n hn
        rw [Function.update_of_ne (by omega)]
        exact db.numberToHash_size n (by omega) }
  | .delHeader number hash =>
    { db with
      header := db.header.set number hash none
      header_key := by
        intro n h header' hheader
        unfold Table.set at hheader
        split at hheader
        · cases hheader
        · exact db.header_key n h header' hheader }
  | .delBody number hash => { db with body := db.body.set number hash none }
  | .delTD number hash => { db with td := db.td.set number hash none }
  | .delHashToNumber hash =>
    { db with hashToNumber := Function.update db.hashToNumber hash none }
  | .delNumberToHash number =>
    { db with
      numberToHash := Function.update db.numberToHash number none
      numberToHash_size := by
        intro n hn
        rcases Classical.em (n = number) with rfl | hne
        · rw [Function.update_self]
        · rw [Function.update_of_ne hne]
          exact db.numberToHash_size n hn }

def batch (ops : List DBOp) : ChainDB := ops.foldl apply db

/-- One operation on the caches above a database: what is deleted from them is read from the
database again. -/
def updateCache (view : ChainDB) : DBOp → ChainDB
  | .delHeader number hash =>
    { view with
      header := view.header.set number hash (db.header number hash)
      header_key := by
        intro n h header' hheader
        unfold Table.set at hheader
        split at hheader
        · rename_i hkey
          rw [hkey.1, hkey.2]
          exact db.header_key number hash header' hheader
        · exact view.header_key n h header' hheader }
  | .delBody number hash => { view with body := view.body.set number hash (db.body number hash) }
  | .delTD number hash => { view with td := view.td.set number hash (db.td number hash) }
  | .delHashToNumber hash =>
    { view with
      hashToNumber := Function.update view.hashToNumber hash (db.hashToNumber hash) }
  | .delNumberToHash number =>
    { view with
      numberToHash := Function.update view.numberToHash number (db.numberToHash number)
      size := max view.size db.size
      numberToHash_size := by
        intro n hn
        rcases Classical.em (n = number) with rfl | hne
        · rw [Function.update_self]
          exact db.numberToHash_size n (by omega)
        · rw [Function.update_of_ne hne]
          exact view.numberToHash_size n (by omega) }
  | op => view.apply op

def updateCaches (view : ChainDB) (ops : List DBOp) : ChainDB := ops.foldl db.updateCache view

/-- `getHeader`: there is nothing to decode where no header is stored. -/
def getHeader (hash : Hash) (number : Nat) : Except BlockchainError BlockHeader :=
  match db.header number hash with
  | none => .error .invalidHeader
  | some header => .ok header

/-- `getTotalDifficulty`: a missing entry decodes to zero. -/
def getTotalDifficulty (hash : Hash) (number : Nat) : Nat := (db.td number hash).getD 0

def getHashToNumber (hash : Hash) : Except BlockchainError Nat :=
  match db.hashToNumber hash with
  | none => .error .notFoundInDB
  | some number => .ok number

/-- `getTotalDifficulty` of the blockchain for a hash alone. -/
def getTotalDifficultyByHash (hash : Hash) : Except BlockchainError Nat := do
  let number ← db.getHashToNumber hash
  return db.getTotalDifficulty hash number

/-- The header and the body of a block, where a body that is missing must be empty. -/
def getBlockAt (hash : Hash) (number : Nat) : Except BlockchainError Block := do
  let header ← db.getHeader hash number
  match db.body number hash with
  | some body => .ok ⟨header, body⟩
  | none =>
    if header.transactionsTrie ≠ KECCAK256_RLP then .error .invalidBody
    else if header.uncleHash ≠ KECCAK256_RLP_ARRAY then .error .invalidBody
    else match header.withdrawalsRoot with
      | none => .ok ⟨header, [[], []]⟩
      | some root =>
        if root ≠ KECCAK256_RLP then .error .invalidBody else .ok ⟨header, [[], [], []]⟩

/-- `getBlock` for a number. -/
def getBlock (number : Nat) : Except BlockchainError Block :=
  match db.numberToHash number with
  | none => .error .notFoundInDB
  | some hash => db.getBlockAt hash number

/-- `_getHeader` for a hash alone. -/
def getHeaderByHash (hash : Hash) : Except BlockchainError BlockHeader := do
  let number ← db.getHashToNumber hash
  db.getHeader hash number

def getCanonicalHeader (number : Nat) : Except BlockchainError BlockHeader :=
  match db.numberToHash number with
  | none => .error .notFoundInCanonicalChain
  | some hash => db.getHeader hash number

end ChainDB

end EthereumJS
