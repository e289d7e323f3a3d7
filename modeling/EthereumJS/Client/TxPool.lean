import EthereumJS.Ordered.InsertionMap
import EthereumJS.Tx.TransactionFactory

/-! # The transaction pool

`TxPool` of `client/src/service/txpool.ts` with the calls that change its transactions: `start`,
`add`, `removeByHash`, `removeNewBlockTxs` and `cleanup`. What peers know about transactions and the
metrics are left out. Hashes and addresses are kept as bytes and times in milliseconds.
-/

namespace EthereumJS.Client

open RLP Tx Ordered

def MIN_GAS_PRICE_BUMP_PERCENT : Nat := 10
def MIN_GAS_PRICE : Nat := 100000000
def TX_MAX_DATA_SIZE : Nat := 128 * 1024
def MAX_POOL_SIZE : Int := 5000
def MAX_TXS_PER_ACCOUNT : Nat := 100
def CELLS_PER_EXT_BLOB : Nat := 128
def POOLED_STORAGE_TIME_LIMIT : Int := 20
def HANDLED_CLEANUP_TIME_LIMIT : Int := 60

structure TxPoolObject where
  tx : Transaction
  hash : Bytes
  added : Int
  deriving DecidableEq

structure HandledObject where
  address : Bytes
  added : Int
  error : Option String
  deriving DecidableEq

structure GasPrice where
  tip : Nat
  maxFee : Nat

structure TxPool where
  pool : InsertionMap Bytes (List TxPoolObject)
  blobAndProofByHash : InsertionMap Bytes (Option Bytes × Option Bytes)
  blobAndProofsByHash : InsertionMap Bytes (Option Bytes × List Bytes)
  txsInPool : Int
  handled : InsertionMap Bytes HandledObject
  running : Bool

/-- What a pool is given: the hash function and the recovery of senders, the parameters of
`chainCommon`, which throws for one that it lacks, and `blobsAndProofsCacheBlocks`. -/
structure PoolConfig where
  keccak256 : Bytes → Bytes
  getSenderAddress : Transaction → Except String Bytes
  param : String → Option Nat
  blobsAndProofsCacheBlocks : Nat

/-- The fields of the head of the chain that a transaction is checked against. -/
structure HeadHeader where
  baseFeePerGas : Option Nat
  gasLimit : Nat

/-- A transaction to be added, with its `common` and the answers of the chain and of the state
of its head; the account is given by its nonce and its balance. -/
structure AddRequest where
  tx : Transaction
  common : Tx.Common
  isLocalTransaction : Bool
  getCanonicalHeadHeader : Except String HeadHeader
  getAccount : Except String (Option (Nat × Nat))

namespace TxPool

/-- `new TxPool`. -/
def create : TxPool :=
  { pool := .empty, blobAndProofByHash := .empty, blobAndProofsByHash := .empty, txsInPool := 0
    handled := .empty, running := false }

def start (self : TxPool) : TxPool := { self with running := true }

section Validate

def throwIf (condition : Bool) (message : String) : Except String Unit :=
  if condition then .error message else .ok ()

def txGasPrice : Transaction → Except String GasPrice
  | .legacy tx => .ok { maxFee := tx.gasPrice, tip := tx.gasPrice }
  | .accessList2930 tx => .ok { maxFee := tx.gasPrice, tip := tx.gasPrice }
  | .feeMarket1559 tx => .ok { maxFee := tx.maxFeePerGas, tip := tx.maxPriorityFeePerGas }
  | .blob4844 tx => .ok { maxFee := tx.maxFeePerGas, tip := tx.maxPriorityFeePerGas }
  | .eoaCode7702 _ => .error "tx of type 4 unknown"

def bumped (price : Nat) : Nat := price + price * MIN_GAS_PRICE_BUMP_PERCENT / 100

def validateTxGasBump (existingTx addedTx : Transaction) : Except String Unit := do
  let existingTxGasPrice ← txGasPrice existingTx
  let newGasPrice ← txGasPrice addedTx
  let minTipCap := bumped existingTxGasPrice.tip
  let minFeeCap := bumped existingTxGasPrice.maxFee
  throwIf (newGasPrice.tip < minTipCap || newGasPrice.maxFee < minFeeCap)
    s!"replacement gas too low, got tip {newGasPrice.tip}, min: {minTipCap}, got fee {newGasPrice.maxFee}, min: {minFeeCap}"
  match addedTx, existingTx with
  | .blob4844 addedTx, .blob4844 existingTx =>
    let minblobGasFee := bumped existingTx.maxFeePerBlobGas
    throwIf (addedTx.maxFeePerBlobGas < minblobGasFee)
      s!"replacement blob gas too low, got: {addedTx.maxFeePerBlobGas}, min: {minblobGasFee}"
  | _, _ => .ok ()

variable (config : PoolConfig)

/-- `tx.hash()`. -/
def hash (tx : Transaction) : Except String Bytes :=
  if tx.base.isSigned then .ok (config.keccak256 tx.serialize)
  else .error "Cannot call hash method if transaction is not signed"

/-- The checks against the transactions of the same sender. -/
def validateInPool (tx : Transaction) (isLocalTransaction : Bool) (senderAddress : Bytes)
    (inPool : List TxPoolObject) : Except String Unit := do
  throwIf (!isLocalTransaction && inPool.length ≥ MAX_TXS_PER_ACCOUNT)
    s!"Cannot add tx for {hexText senderAddress}: already have max amount of txs for this account"
  match inPool.find? fun poolObj => poolObj.tx.base.nonce = tx.base.nonce with
  | none => .ok ()
  | some existingTxn =>
    let existingHash ← hash config existingTxn.tx
    let txHash ← hash config tx
    throwIf (existingHash = txHash) s!"{hexText txHash}: this transaction is already in the TxPool"
    validateTxGasBump existingTxn.tx tx

def validate (self : TxPool) (request : AddRequest) : Except String Unit := do
  let tx := request.tx
  let isLocalTransaction := request.isLocalTransaction
  throwIf (!tx.base.isSigned) "Attempting to add tx to txpool which is not signed"
  throwIf (tx.base.data.length > TX_MAX_DATA_SIZE)
    s!"Tx is too large ({tx.base.data.length} bytes) and exceeds the max data size of {TX_MAX_DATA_SIZE} bytes"
  let currentGasPrice ← txGasPrice tx
  throwIf (!isLocalTransaction && self.txsInPool ≥ MAX_POOL_SIZE) "Cannot add tx: pool is full"
  throwIf (!isLocalTransaction && currentGasPrice.tip < MIN_GAS_PRICE)
    s!"Tx does not pay the minimum gas price of {MIN_GAS_PRICE}"
  let senderAddress ← config.getSenderAddress tx
  match self.pool.get senderAddress with
  | none => pure ()
  | some inPool => validateInPool config tx isLocalTransaction senderAddress inPool
  let block ← request.getCanonicalHeadHeader
  let baseFeePerGas := block.baseFeePerGas.getD 0
  throwIf (baseFeePerGas != 0 && currentGasPrice.maxFee < baseFeePerGas / 2 && !isLocalTransaction)
    s!"Tx cannot pay basefee of {baseFeePerGas}, have {currentGasPrice.maxFee} (not within 50% range of current basefee)"
  throwIf (tx.base.gasLimit > block.gasLimit)
    s!"Tx gaslimit of {tx.base.gasLimit} exceeds block gas limit of {block.gasLimit} (exceeds last block gas limit)"
  let maxGasLimit := request.common.param "maxTransactionGasLimit"
  throwIf (request.common.isActivatedEIP 7825 && tx.base.gasLimit > maxGasLimit)
    s!"Transaction gas limit {tx.base.gasLimit} exceeds the maximum allowed by EIP-7825 ({maxGasLimit})"
  let account ← request.getAccount
  let (nonce, balance) := account.getD (0, 0)
  throwIf (nonce > tx.base.nonce)
    s!"{hexText senderAddress} tries to send a tx with nonce {tx.base.nonce}, but account has nonce {nonce} (tx nonce too low)"
  let minimumBalance := tx.base.value + currentGasPrice.maxFee * tx.base.gasLimit
  throwIf (balance < minimumBalance)
    s!"{hexText senderAddress} does not have enough balance to cover transaction costs, need {minimumBalance}, but have {balance} (insufficient balance)"

end Validate

section Operations

variable (config : PoolConfig)

def configParam (name : String) : Except String Nat :=
  match config.param name with
  | some value => .ok value
  | none => .error s!"Missing parameter value for {name}"

def pruneBlobsAndProofsCache (self : TxPool) : Except String TxPool := do
  let blobGasLimit ← configParam config "maxBlobGasPerBlock"
  let blobGasPerBlob ← configParam config "blobGasPerBlob"
  throwIf (blobGasPerBlob = 0) "Division by zero"
  let kept := blobGasLimit / blobGasPerBlob * config.blobsAndProofsCacheBlocks
  return { self with
    blobAndProofByHash := self.blobAndProofByHash.drop (self.blobAndProofByHash.size - kept)
    blobAndProofsByHash := self.blobAndProofsByHash.drop (self.blobAndProofsByHash.size - kept) }

/-- One round of the loop over the blobs of a transaction. -/
def cacheBlob (networkWrapperVersion : Option Nat) (blobs kzgProofs : List Bytes)
    (self : TxPool) (entry : Bytes × Nat) : Except String TxPool :=
  let (versionedHash, i) := entry
  let blob := blobs[i]?
  if networkWrapperVersion = some 0 then
    .ok { self with
      blobAndProofByHash := self.blobAndProofByHash.set versionedHash (blob, kzgProofs[i]?) }
  else if networkWrapperVersion = some 1 then
    let proofs := (kzgProofs.drop (i * CELLS_PER_EXT_BLOB)).take CELLS_PER_EXT_BLOB
    .ok { self with
      blobAndProofsByHash := self.blobAndProofsByHash.set versionedHash (blob, proofs) }
  else
    let version := networkWrapperVersion.elim "undefined" toString
    .error s!"Invalid networkWrapperVersion={version}"

/-- The last part of `add`. What is in the cache stays there when pruning fails. -/
def cacheBlobs (self : TxPool) : Transaction → TxPool × Except String Unit
  | .blob4844 tx =>
    match tx.blobs, tx.kzgProofs with
    | some blobs, some kzgProofs =>
      -- a version that is not known throws in the first round
      match tx.blobVersionedHashes.zipIdx.foldlM (cacheBlob tx.networkWrapperVersion blobs kzgProofs)
          self with
      | .error e => (self, .error e)
      | .ok cached =>
        match pruneBlobsAndProofsCache config cached with
        | .error e => (cached, .error e)
        | .ok pruned => (pruned, .ok ())
    | _, _ => (self, .ok ())
  | _ => (self, .ok ())

/-- The pool with a transaction that passed its checks. -/
def pooled (self : TxPool) (tx : Transaction) (hash address : Bytes) (added : Int) : TxPool :=
  let inPool := (self.pool.get address).getD []
  let add := inPool.filter fun poolObj => poolObj.tx.base.nonce ≠ tx.base.nonce
  { self with
    pool := self.pool.set address (add ++ [{ tx := tx, hash := hash, added := added }])
    handled := self.handled.set hash { address := address, added := added, error := none }
    txsInPool := self.txsInPool + 1 }

def failed (self : TxPool) (hash address : Bytes) (added : Int) (error : String) : TxPool :=
  { self with
    handled := self.handled.set hash { address := address, added := added, error := some error } }

/-- `add`, where `Date.now()` is `added`. -/
def add (self : TxPool) (request : AddRequest) (added : Int) : TxPool × Except String Unit :=
  let tx := request.tx
  match hash config tx, config.getSenderAddress tx with
  | .error e, _ => (self, .error e)
  | .ok _, .error e => (self, .error e)
  | .ok hash, .ok address =>
    match self.validate config request with
    | .error e => (self.failed hash address added e, .error e)
    | .ok () =>
      match cacheBlobs config (self.pooled tx hash address added) tx with
      | (self, .error e) => (self.failed hash address added e, .error e)
      | (self, .ok ()) => (self, .ok ())

def removeByHash (self : TxPool) (txHash : Bytes) : TxPool :=
  match self.handled.get txHash with
  | none => self
  | some handled =>
    match self.pool.get handled.address with
    | none => self
    | some poolObjects =>
      let newPoolObjects := poolObjects.filter fun poolObj => poolObj.hash ≠ txHash
      { self with
        txsInPool := self.txsInPool - 1
        pool :=
          if newPoolObjects.length = 0 then self.pool.delete handled.address
          else self.pool.set handled.address newPoolObjects }

/-- The loop of `removeNewBlockTxs` over the transactions of all blocks. -/
def removeTxs (self : TxPool) : List Transaction → TxPool × Except String Unit
  | [] => (self, .ok ())
  | tx :: txs =>
    match hash config tx with
    | .error e => (self, .error e)
    | .ok txHash => removeTxs (self.removeByHash txHash) txs

def removeNewBlockTxs (self : TxPool) (newBlocks : List (List Transaction)) :
    TxPool × Except String Unit :=
  if !self.running then (self, .ok ()) else removeTxs config self newBlocks.flatten

/-- What `cleanup` leaves of the transactions of a sender. -/
def cleanObjects (compDate : Int) (objects : List TxPoolObject) : Option (List TxPoolObject) :=
  let updatedObjects := objects.filter fun obj => obj.added ≥ compDate
  if updatedObjects.length < objects.length then
    if updatedObjects.length = 0 then none else some updatedObjects
  else some objects

def removedObjects (compDate : Int) (objects : List TxPoolObject) : Int :=
  let updatedObjects := objects.filter fun obj => obj.added ≥ compDate
  if updatedObjects.length < objects.length then objects.length - updatedObjects.length else 0

/-- `cleanup`, which reads the clock once for the pool and once for the handled hashes. -/
def cleanup (self : TxPool) (now later : Int) : TxPool :=
  let compDate := now - POOLED_STORAGE_TIME_LIMIT * 1000 * 60
  let handledDate := later - HANDLED_CLEANUP_TIME_LIMIT * 1000 * 60
  { self with
    txsInPool := self.txsInPool - self.pool.total (removedObjects compDate)
    pool := self.pool.update (cleanObjects compDate)
    handled := self.handled.update fun handleObj =>
      if handleObj.added < handledDate then none else some handleObj }

end Operations

section Calls

/-- A call on a pool; `removeByHash` may be given any hash. -/
inductive Call
  | start
  | add (request : AddRequest)
  | removeByHash (txHash : Bytes)
  | removeNewBlockTxs (newBlocks : List (List Transaction))
  | cleanup

/-- A call with the first and the last time that it reads from the clock. -/
structure TimedCall where
  call : Call
  now : Int
  later : Int

variable (config : PoolConfig)

def step (self : TxPool) (timed : TimedCall) : TxPool :=
  match timed.call with
  | .start => self.start
  | .add request => (self.add config request timed.now).1
  | .removeByHash txHash => self.removeByHash txHash
  | .removeNewBlockTxs newBlocks => (self.removeNewBlockTxs config newBlocks).1
  | .cleanup => self.cleanup timed.now timed.later

/-- The pool after each call of a run. -/
def states (self : TxPool) : List TimedCall → List TxPool
  | [] => []
  | timed :: calls => self.step config timed :: states (self.step config timed) calls

end Calls

end TxPool

end EthereumJS.Client
