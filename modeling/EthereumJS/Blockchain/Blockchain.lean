import EthereumJS.Blockchain.DBManager

/-! # The blockchain

`Blockchain` of `blockchain.ts` behind `createBlockchain`, with its lock held: putting
blocks and headers, resets, deletions and the iterator. An operation that throws leaves
behind what it has changed. The reads of `DBManager` go through its caches, which a batch
updates before the database; so the chain that is read is kept beside the one on disk.
What validation, the consensus engine, `Common` and the database answer is a parameter.
-/

namespace EthereumJS

abbrev Heads := String → Option Hash

structure ChainConfig where
  genesisBlock : Block
  isGenesis : genesisBlock.header.number = 0
  chainId : Nat
  hardforkByHeadBlockNumber : Bool
  /-- Whether `deletedCanonicalBlocks` has listeners. -/
  listening : Bool

/-- The answers that one call gets from outside. -/
structure ChainEnv where
  /-- `validateBlock` and `validateConsensus`. -/
  validate : Except BlockchainError Unit
  /-- `common.setHardforkBy` for a number and a timestamp. -/
  setHardforkBy : Nat → Nat → Except BlockchainError Nat
  /-- `_consensusCheck`, `consensus.setup` and `consensus.genesisInit`. -/
  consensusSetup : Except BlockchainError Unit
  /-- The batch of the database. -/
  batch : Except BlockchainError Unit
  /-- `consensus.newBlock`. -/
  newBlock : Except BlockchainError Unit

structure Blockchain where
  /-- What is read through the caches. -/
  view : ChainDB
  db : ChainDB
  saved : SavedHeads
  heads : Heads
  headHeaderHash : Hash
  headBlockHash : Hash
  deletedBlocks : List Block
  /-- The hardfork of `common`. -/
  hardfork : Nat

abbrev BlockchainM := EStateM BlockchainError Blockchain

def liftExcept {α : Type} (x : Except BlockchainError α) : BlockchainM α := fun bc =>
  match x with
  | .ok a => .ok a bc
  | .error e => .error e bc

/-- The heads with an item on top of the chain. -/
def Blockchain.withTop (bc : Blockchain) (item : BlockItem) : Blockchain :=
  { bc with
    headHeaderHash := item.header.hash
    headBlockHash := if item.body.isSome then item.header.hash else bc.headBlockHash }

/-- A `try` block whose `catch` changes the state and throws again. -/
def onError {α : Type} (x : BlockchainM α) (restore : Blockchain → Blockchain) : BlockchainM α :=
  fun bc =>
    match x bc with
    | .ok a bc => .ok a bc
    | .error e bc => .error e (restore bc)

/-- A `try` block with a `finally` block. -/
def withFinally {α : Type} (x : BlockchainM α) (y : BlockchainM Unit) : BlockchainM α := fun bc =>
  match x bc with
  | .ok a bc => (y >>= fun _ => pure a) bc
  | .error e bc => (y >>= fun _ => throw e) bc

/-- `_heads`, `_headHeaderHash` and `_headBlockHash` with the hashes mapped. -/
def Blockchain.mapHeads (bc : Blockchain) (f : Hash → Hash) : Blockchain :=
  { bc with
    heads := fun name => (bc.heads name).map f
    headHeaderHash := f bc.headHeaderHash
    headBlockHash := f bc.headBlockHash }

namespace BlockchainM

variable (cfg : ChainConfig) (env : ChainEnv)

/-- `dbManager.batch` without the heads: the caches come first. -/
def batch (ops : List DBOp) : BlockchainM Unit := do
  let bc ← get
  modify fun bc => { bc with view := bc.db.updateCaches bc.view ops }
  liftExcept env.batch
  modify fun after => { after with view := bc.view.batch ops, db := after.db.batch ops }

/-- `dbManager.batch` with `_saveHeadOps`, which have no cache. -/
def batchWithHeads (ops : List DBOp) : BlockchainM Unit := do
  batch env ops
  modify fun bc => { bc with
    saved := ⟨some bc.heads, some bc.headHeaderHash, some bc.headBlockHash⟩ }

def checkAndTransitionHardForkByNumber (number timestamp : Nat) : BlockchainM Unit := do
  let hardfork ← liftExcept (env.setHardforkBy number timestamp)
  modify fun bc => { bc with hardfork := hardfork }
  liftExcept env.consensusSetup

/-- The first loop of `findCommonAncestor`: from a header down to a number. -/
def walkDown (db : ChainDB) (target : Nat) : Nat → BlockHeader → List BlockHeader →
    Except BlockchainError (BlockHeader × List BlockHeader)
  | 0, newHeader, ancestorHeaders => .ok (newHeader, ancestorHeaders)
  | number + 1, newHeader, ancestorHeaders =>
    if target = newHeader.number then .ok (newHeader, ancestorHeaders)
    else do
      let newHeader ← db.getHeader newHeader.parentHash number
      walkDown db target number newHeader (ancestorHeaders ++ [newHeader])

/-- The second loop of `findCommonAncestor`: down on both sides. -/
def walkBoth (db : ChainDB) : Nat → BlockHeader → BlockHeader → List BlockHeader →
    Except BlockchainError (BlockHeader × List BlockHeader)
  | 0, header, newHeader, ancestorHeaders =>
    if header.hash = newHeader.hash then .ok (header, ancestorHeaders)
    else .error .failedToFindAncientHeader
  | number + 1, header, newHeader, ancestorHeaders =>
    if header.hash = newHeader.hash then .ok (header, ancestorHeaders)
    else do
      let header ← db.getCanonicalHeader number
      let newHeader ← db.getHeader newHeader.parentHash number
      walkBoth db number header newHeader (ancestorHeaders ++ [header, newHeader])

def findCommonAncestor (bc : Blockchain) (newHeader : BlockHeader) :
    Except BlockchainError (BlockHeader × List BlockHeader) := do
  let header ← bc.view.getHeaderByHash bc.headHeaderHash
  if header.number > newHeader.number then
    let header ← bc.view.getCanonicalHeader newHeader.number
    walkBoth bc.view header.number header newHeader [header]
  else
    let (newHeader, ancestorHeaders) ←
      walkDown bc.view header.number newHeader.number newHeader []
    if header.number ≠ newHeader.number then .error .failedToFindAncientHeader
    else walkBoth bc.view header.number header newHeader ancestorHeaders

/-- The block that goes to `_deletedBlocks` if there is a listener. -/
def recordDeleted (blockNumber : Nat) : BlockchainM Unit :=
  if cfg.listening then do
    let bc ← get
    let block ← liftExcept (bc.view.getBlock blockNumber)
    modify fun bc => { bc with deletedBlocks := bc.deletedBlocks ++ [block] }
  else pure ()

/-- The loop of `_deleteCanonicalChainReferences`. -/
def deleteReferences (headHash : Hash) : Nat → Nat → List DBOp → BlockchainM (List DBOp)
  | 0, _, ops => pure ops
  | fuel + 1, blockNumber, ops => do
    let bc ← get
    match bc.view.numberToHash blockNumber with
    | none => pure ops
    | some hash =>
      recordDeleted cfg blockNumber
      modify fun bc => bc.mapHeads fun head => if head = hash then headHash else head
      deleteReferences headHash fuel (blockNumber + 1) (ops ++ [.delNumberToHash blockNumber])

/-- `_deleteCanonicalChainReferences`; the index ends at its size. -/
def deleteCanonicalChainReferences (blockNumber : Nat) (headHash : Hash) (ops : List DBOp) :
    BlockchainM (List DBOp) := do
  let bc ← get
  onError (deleteReferences cfg headHash (bc.view.size - blockNumber) blockNumber ops)
    fun bc => { bc with deletedBlocks := [] }

/-- The loop of `_rebuildCanonical`: the lookups to save, the stale hashes and the hash at
which it ends. -/
def rebuildLoop (db : ChainDB) : Nat → BlockHeader →
    Except BlockchainError (List DBOp × List Hash × Hash)
  | currentNumber, header =>
    if db.numberToHash currentNumber = some header.hash then .ok ([], [], header.hash)
    else if header.number = 0 then .ok ([], [], header.hash)
    else
      match currentNumber with
      | 0 => .error .invalidHeader
      | number + 1 => do
        let parent ← db.getHeader header.parentHash number
        let (ops, staleHashes, currentCanonicalHash) ← rebuildLoop db number parent
        .ok (DBSaveLookups header.hash header.number ++ ops,
          (db.numberToHash (number + 1)).toList ++ staleHashes, currentCanonicalHash)

/-- `_rebuildCanonical`. -/
def rebuildCanonical (header : BlockHeader) (ops : List DBOp) : BlockchainM (List DBOp) := do
  let bc ← get
  let (lookups, staleHashes, currentCanonicalHash) ←
    liftExcept (rebuildLoop bc.view header.number header)
  let renew := fun head => if head ∈ staleHashes then currentCanonicalHash else head
  modify fun bc => { bc with
    heads := fun name => (bc.heads name).map renew
    headBlockHash := renew bc.headBlockHash }
  return ops ++ lookups

def transitionByHead (header : BlockHeader) : BlockchainM Unit :=
  if cfg.hardforkByHeadBlockNumber then
    checkAndTransitionHardForkByNumber env header.number header.timestamp
  else pure ()

/-- What `_putBlockOrHeader` does with an item that becomes the head of the chain. -/
def putCanonical (item : BlockItem) (dbOps : List DBOp) : BlockchainM (List DBOp) := do
  let header := item.header
  let bc ← get
  let _ ← liftExcept (findCommonAncestor bc header)
  modify fun bc => bc.withTop item
  transitionByHead cfg env header
  let dbOps ← deleteCanonicalChainReferences cfg (header.number + 1) header.hash dbOps
  rebuildCanonical header dbOps

/-- What `_putBlockOrHeader` does with another item. -/
def putSide (item : BlockItem) (higher : Bool) (dbOps : List DBOp) : BlockchainM (List DBOp) := do
  modify fun bc => { bc with
    headBlockHash := if higher ∧ item.body.isSome then item.header.hash else bc.headBlockHash }
  return dbOps ++ [.setHashToNumber item.header.hash item.header.number]

/-- The checks of an item before anything changes. -/
def checkItem (item : BlockItem) : Except BlockchainError Unit :=
  if item.chainId ≠ cfg.chainId then .error .chainMismatch else env.validate

/-- What `_putBlockOrHeader` does before it writes, with the operations of its batch. -/
def prepareItem (item : BlockItem) : BlockchainM (List DBOp) := do
  let header := item.header
  liftExcept (checkItem cfg env item)
  let bc ← get
  let currentTdHeader ← liftExcept (bc.view.getTotalDifficultyByHash bc.headHeaderHash)
  let currentTdBlock ← liftExcept (bc.view.getTotalDifficultyByHash bc.headBlockHash)
  let td := header.difficulty + bc.view.getTotalDifficulty header.parentHash (header.number - 1)
  let dbOps := .setTD header.number header.hash td :: DBSetBlockOrHeader item
  if td > currentTdHeader ∨ item.proofOfStake then putCanonical cfg env item dbOps
  else putSide item (td > currentTdBlock) dbOps

/-- The `try` block of `_putBlockOrHeader` for an item that is no genesis block. -/
def putItem (item : BlockItem) : BlockchainM Unit := do
  let dbOps ← prepareItem cfg env item
  batchWithHeads env dbOps
  liftExcept env.newBlock

/-- The `try` block of `_putBlockOrHeader`. -/
def putBlockOrGenesis (item : BlockItem) : BlockchainM Unit :=
  if item.header.number = 0 then
    if cfg.genesisBlock.header.hash = item.header.hash then pure () else throw .genesisMismatch
  else putItem cfg env item

/-- The event with the deleted blocks. -/
def emitDeletedBlocks : BlockchainM Unit :=
  modify fun bc => { bc with deletedBlocks := [] }

/-- `_putBlockOrHeader`. -/
def putBlockOrHeader (item : BlockItem) : BlockchainM Unit := do
  let old ← get
  onError (putBlockOrGenesis cfg env item) fun bc => { bc with
    heads := old.heads
    headHeaderHash := old.headHeaderHash
    headBlockHash := old.headBlockHash }
  emitDeletedBlocks

def resetCanonicalHead (canonicalHead : Nat) : BlockchainM Unit := do
  let bc ← get
  match bc.view.numberToHash canonicalHead with
  | none => throw .noBlockFoundInDB
  | some hash =>
    let header ← liftExcept (bc.view.getHeader hash canonicalHead)
    let ops ← deleteCanonicalChainReferences cfg (canonicalHead + 1) hash []
    batchWithHeads env ops
    checkAndTransitionHardForkByNumber env canonicalHead header.timestamp
    emitDeletedBlocks

/-- `_delChild`: the recursion over the canonical children, if there is a head to set. -/
def delChild (headHash : Option Hash) : Nat → Hash → Nat → List DBOp → BlockchainM (List DBOp)
  | fuel, blockHash, blockNumber, ops => do
    let ops := ops ++ [.delHeader blockNumber blockHash, .delBody blockNumber blockHash,
      .delHashToNumber blockHash, .delTD blockNumber blockHash]
    match headHash with
    | none => pure ops
    | some head =>
      modify fun bc => { bc with
        headHeaderHash := if bc.headHeaderHash = blockHash then head else bc.headHeaderHash
        headBlockHash := if bc.headBlockHash = blockHash then head else bc.headBlockHash }
      match fuel with
      | 0 => pure ops
      | fuel + 1 =>
        let bc ← get
        match bc.view.getCanonicalHeader (blockNumber + 1) with
        | .error .notFoundInCanonicalChain => pure ops
        | .error e => throw e
        | .ok childHeader => delChild headHash fuel childHeader.hash childHeader.number ops

def delBlock (blockHash : Hash) : BlockchainM Unit := do
  let bc ← get
  let header ← liftExcept (bc.view.getHeaderByHash blockHash)
  let blockNumber := header.number
  let parentHash := header.parentHash
  let inCanonical := bc.view.numberToHash blockNumber = some blockHash
  let ops ← delChild (if inCanonical then some parentHash else none)
    (bc.view.size - blockNumber) blockHash blockNumber []
  let ops ← if inCanonical then deleteCanonicalChainReferences cfg blockNumber parentHash ops
    else pure ops
  batch env ops
  emitDeletedBlocks

def setIteratorHead (tag : String) (headHash : Hash) : BlockchainM Unit := do
  modify fun bc => { bc with heads := Function.update bc.heads tag (some headHash) }
  batchWithHeads env []

/-- The number of the iterator head. -/
def iteratorHeadNumber (name : String) (bc : Blockchain) : Except BlockchainError Nat :=
  bc.view.getHashToNumber ((bc.heads name).getD cfg.genesisBlock.header.hash)

/-- The next block of an iterator, which starts again at its head after a reorg. -/
def nextInLine (name : String) (lastBlock : Option Block) (nextBlockNumber : Nat)
    (bc : Blockchain) : Except BlockchainError (Nat × Block) := do
  let nextBlock ← bc.view.getBlock nextBlockNumber
  let reorg := lastBlock.any fun block => block.header.hash ≠ nextBlock.header.parentHash
  if reorg then do
    let headBlockNumber ← iteratorHeadNumber cfg name bc
    let nextBlock ← bc.view.getBlock (headBlockNumber + 1)
    .ok (headBlockNumber + 1, nextBlock)
  else .ok (nextBlockNumber, nextBlock)

/-- The loop of `iterator` with the lock held during the callback, which does not throw;
returns the blocks that the callback got. -/
def iteratorLoop (name : String) : Nat → Option Nat → Option Block → Nat → List Block →
    BlockchainM (List Block)
  | 0, _, _, _, blocks => pure blocks
  | fuel + 1, remaining, lastBlock, nextBlockNumber, blocks => do
    if remaining = some 0 then pure blocks
    else
      let bc ← get
      match nextInLine cfg name lastBlock nextBlockNumber bc with
      | .error .notFoundInDB => pure blocks
      | .error e => throw e
      | .ok (nextBlockNumber, nextBlock) =>
        modify fun bc => { bc with
          heads := Function.update bc.heads name (some nextBlock.header.hash) }
        iteratorLoop name fuel (remaining.map (· - 1)) (some nextBlock) (nextBlockNumber + 1)
          (blocks ++ [nextBlock])

/-- `iterator`; the index ends at its size. -/
def iterator (name : String) (maxBlocks : Option Nat) : BlockchainM (List Block) := do
  let bc ← get
  let headBlockNumber ← liftExcept (iteratorHeadNumber cfg name bc)
  withFinally
    (iteratorLoop cfg name (bc.view.size - headBlockNumber) maxBlocks none (headBlockNumber + 1) [])
    (batchWithHeads env [])

end BlockchainM

/-- The chain that `createBlockchain` makes over an empty database. -/
def Blockchain.create (cfg : ChainConfig) (hardfork : Nat) : Blockchain :=
  let genesis := cfg.genesisBlock
  let db := (ChainDB.mk (fun _ _ => none) (fun _ _ => none) (fun _ _ => none) (fun _ => none)
    (fun _ => none) 0 (fun _ _ => rfl) (fun _ _ _ h => by cases h)).batch
      ([.setTD 0 genesis.header.hash genesis.header.difficulty, .setHeader genesis.header,
        .setBody 0 genesis.header.hash genesis.body] ++ DBSaveLookups genesis.header.hash 0)
  { view := db
    db := db
    saved := ⟨none, none, none⟩
    heads := fun _ => none
    headHeaderHash := genesis.header.hash
    headBlockHash := genesis.header.hash
    deletedBlocks := []
    hardfork := hardfork }

end EthereumJS
