import EthereumJS.Binarytree.Tree
import EthereumJS.Util.Account
import EthereumJS.Util.BinaryTree

/-! # The state in a binary tree

`statefulBinaryTreeStateManager.ts` without caches: accounts, code and storage under one root.
-/

namespace EthereumJS.BinaryTreeState

open Binarytree RLP

/-- `Account` with the fields that other tries do not have. -/
structure LeafAccount extends Account where
  codeSize : Nat
  version : Nat
  deriving DecidableEq

/-- The fields to be changed. -/
structure AccountFields where
  nonce : Option Nat
  balance : Option Nat
  storageRoot : Option Bytes
  codeHash : Option Bytes
  codeSize : Option Nat

inductive StateError
  | tree (error : TreeError)
  | bytes (error : BytesError)
  | account (error : AccountError)
  | storageKeyLength
  /-- A `TypeError` of the language. -/
  | typeError
  /-- A `RangeError` of the language. -/
  | rangeError

structure StatefulBinaryTreeStateManager where
  hashFunction : HashKeysFunction
  tree : BinaryTree

section Accounts

variable (K : HashKeysFunction)

/-- `new Account()`. -/
def emptyAccount : LeafAccount where
  nonce := 0
  balance := 0
  storageRoot := keccakRlp K
  codeHash := keccakNull K
  codeSize := 0
  version := 0

/-- `createPartialAccount` with all of the fields. -/
def createPartialAccount (basicData : BinaryTreeLeafBasicData) (storageRoot codeHash : Bytes) :
    Except AccountError LeafAccount := do
  let account ← newAccount (bytesToBigInt (bigIntToBytes basicData.nonce))
    (bytesToBigInt (bigIntToBytes basicData.balance)) storageRoot codeHash
  return { account with
    codeSize := bytesToBigInt (intToBytes basicData.codeSize)
    version := bytesToBigInt (intToBytes basicData.version) }

namespace LeafAccount

variable (account : LeafAccount)

def isContract : Bool := account.codeHash ≠ keccakNull K ∨ account.codeSize ≠ 0

/-- What `encodeBinaryTreeLeafBasicData` reads of an account. -/
def basicData : BinaryTreeLeafBasicData :=
  ⟨account.version, account.nonce, account.balance, account.codeSize⟩

def modify (fields : AccountFields) : LeafAccount where
  nonce := fields.nonce.getD account.nonce
  balance := fields.balance.getD account.balance
  storageRoot := fields.storageRoot.getD account.storageRoot
  codeHash := fields.codeHash.getD account.codeHash
  codeSize := fields.codeSize.getD account.codeSize
  version := account.version

end LeafAccount

end Accounts

section Slices

/-- The part of the suffixes or chunks that belongs to the first stem. -/
def firstSlice {α : Type} (size : Nat) (xs : List α) : List α :=
  xs.take (if size ≤ BINARY_TREE_CODE_OFFSET then size else BINARY_TREE_CODE_OFFSET)

/-- The part that belongs to a later stem. The size is that of the code in bytes. -/
def laterSlice {α : Type} (size stem : Nat) (xs : List α) : List α :=
  let sliceStart := BINARY_TREE_CODE_OFFSET + BINARY_TREE_NODE_WIDTH * (stem - 1)
  let sliceEnd :=
    if size ≤ BINARY_TREE_CODE_OFFSET + BINARY_TREE_NODE_WIDTH * stem then size
    else BINARY_TREE_CODE_OFFSET + BINARY_TREE_NODE_WIDTH * stem
  (xs.take sliceEnd).drop sliceStart

/-- `code.set(part, offset)`. -/
def setBytes (code part : Bytes) (offset : Nat) : Except StateError Bytes :=
  if offset + part.length > code.length then .error .rangeError
  else .ok (code.take offset ++ part ++ code.drop (offset + part.length))

/-- The chunk at an index goes into the code without its first byte, the last one without its
padding. A suffix always has a value or null, which has no `slice`. -/
def insertChunk (codeSize numChunks : Nat) (code : Bytes) : Option Bytes × Nat →
    Except StateError Bytes
  | (none, _) => .error .typeError
  | (some chunk, x) =>
    let lastChunkByteIndex :=
      if x = numChunks - 1 then
        if codeSize % BINARY_TREE_CODE_CHUNK_SIZE = 0 then BINARY_TREE_CODE_CHUNK_SIZE
        else codeSize % BINARY_TREE_CODE_CHUNK_SIZE
      else BINARY_TREE_CODE_CHUNK_SIZE
    setBytes code ((chunk.take (lastChunkByteIndex + 1)).drop 1) (x * BINARY_TREE_CODE_CHUNK_SIZE)

end Slices

namespace StatefulBinaryTreeStateManager

variable (K : HashKeysFunction) (fuel : Nat) (manager : StatefulBinaryTreeStateManager)
  (address : TreeAddress)

/-- The constructor without a tree in its options. -/
def create (H : HashKeysFunction) : StatefulBinaryTreeStateManager := ⟨H, createBinaryTree H⟩

def treeGet (stem : Bytes) (suffixes : List Nat) : Except StateError (List (Option Bytes)) :=
  (manager.tree.get fuel stem (suffixes.map UInt8.ofNat)).mapError .tree

def treePut (stem : Bytes) (suffixes : List Nat) (values : List (Option Bytes)) :
    Except StateError StatefulBinaryTreeStateManager :=
  match manager.tree.put fuel stem (suffixes.map UInt8.ofNat) values with
  | .ok tree => .ok { manager with tree := tree }
  | .error e => .error (.tree e)

def getAccount : Except StateError (Option LeafAccount) := do
  let stem := getBinaryTreeStem manager.hashFunction address (.number 0)
  let accountValues ← manager.treeGet fuel stem [0, 1]
  match accountValues[0]?.join with
  | none => return none
  | some basicDataBytes =>
    let codeHash :=
      match accountValues[1]?.join with
      | none => keccakNull K
      | some codeHash => if codeHash = List.replicate 32 0 then keccakNull K else codeHash
    let account ← (createPartialAccount (decodeBinaryTreeLeafBasicData basicDataBytes)
      (keccakNull K) codeHash).mapError .account
    return some account

def deleteAccount : Except StateError StatefulBinaryTreeStateManager :=
  manager.treePut fuel (getBinaryTreeStem manager.hashFunction address (.number 0)) [0, 1]
    [none, none]

def putAccount : Option LeafAccount → Except StateError StatefulBinaryTreeStateManager
  | some account => do
    let stem := getBinaryTreeStem manager.hashFunction address (.number 0)
    let basicDataBytes ← (encodeBinaryTreeLeafBasicData account.basicData).mapError .bytes
    manager.treePut fuel stem [0, 1] [some basicDataBytes, some account.codeHash]
  | none => manager.deleteAccount fuel address

def modifyAccountFields (fields : AccountFields) :
    Except StateError StatefulBinaryTreeStateManager := do
  let account ← manager.getAccount K fuel address
  manager.putAccount fuel address (some ((account.getD (emptyAccount K)).modify fields))

/-- The chunks of a code are put under its stems. -/
def putChunks (value : Bytes) : Except StateError StatefulBinaryTreeStateManager := do
  let codeChunks := (chunkifyBinaryTreeCode value).map some
  let chunkSuffixes := generateBinaryTreeChunkSuffixes codeChunks.length
  match generateBinaryTreeCodeStems manager.hashFunction address codeChunks.length with
  | [] => throw .typeError
  | first :: later => do
    let manager ← manager.treePut fuel first (firstSlice chunkSuffixes.length chunkSuffixes)
      (firstSlice codeChunks.length codeChunks)
    (later.zipIdx 1).foldlM (fun manager entry =>
      manager.treePut fuel entry.1 (laterSlice value.length entry.2 chunkSuffixes)
        (laterSlice value.length entry.2 codeChunks)) manager

def putCode (value : Bytes) : Except StateError StatefulBinaryTreeStateManager := do
  let codeHash := K.hash value
  -- No code has to be stored.
  if codeHash = keccakNull K then return manager
  let manager ←
    match ← manager.getAccount K fuel address with
    | none => manager.putAccount fuel address (some (emptyAccount K))
    | some _ => pure manager
  let manager ← manager.putChunks fuel address value
  manager.modifyAccountFields K fuel address
    ⟨none, none, none, some codeHash, some value.length⟩

/-- The chunks under the stems of a code. -/
def getChunks (codeSize : Nat) : Except StateError (List (Option Bytes)) := do
  let chunkSuffixes := generateBinaryTreeChunkSuffixes (chunkCount codeSize)
  match generateBinaryTreeCodeStems manager.hashFunction address (chunkCount codeSize) with
  | [] => throw .typeError
  | first :: later => do
    let firstChunks ← manager.treeGet fuel first (firstSlice codeSize chunkSuffixes)
    let chunksByStem ← (later.zipIdx 1).mapM fun entry =>
      manager.treeGet fuel entry.1 (laterSlice codeSize entry.2 chunkSuffixes)
    return (firstChunks :: chunksByStem).flatten

def getCode : Except StateError Bytes := do
  match ← manager.getAccount K fuel address with
  | none => return []
  | some account =>
    if !account.isContract K then return []
    else
      let chunks ← manager.getChunks fuel address account.codeSize
      chunks.zipIdx.foldlM (insertChunk account.codeSize chunks.length)
        (List.replicate account.codeSize 0)

def getStorage (key : Bytes) : Except StateError Bytes := do
  if key.length ≠ 32 then throw .storageKeyLength
  match ← manager.getAccount K fuel address with
  | none => return []
  | some _ =>
    let storageKey := getBinaryTreeKeyForStorageSlot manager.hashFunction address
      (bytesToBigInt key)
    let value ← manager.treeGet fuel (storageKey.take 31) [(storageKey.getD 31 0).toNat]
    (setLengthLeft (value[0]?.join.getD []) 32).mapError .bytes

def putStorage (key value : Bytes) : Except StateError StatefulBinaryTreeStateManager := do
  let storageKey := getBinaryTreeKeyForStorageSlot manager.hashFunction address
    (bytesToBigInt key)
  let value ← (setLengthLeft value 32).mapError .bytes
  manager.treePut fuel (storageKey.take 31) [(storageKey.getD 31 0).toNat] [some value]

end StatefulBinaryTreeStateManager

inductive StateOp
  | putAccount (address : TreeAddress) (account : LeafAccount)
  | putCode (address : TreeAddress) (value : Bytes)
  | putStorage (address : TreeAddress) (key value : Bytes)

namespace StateOp

variable (K : HashKeysFunction) (fuel : Nat)

def run (manager : StatefulBinaryTreeStateManager) :
    StateOp → Except StateError StatefulBinaryTreeStateManager
  | putAccount address account => manager.putAccount fuel address (some account)
  | putCode address value => manager.putCode K fuel address value
  | putStorage address key value => manager.putStorage fuel address key value

end StateOp

def runStateOps (K : HashKeysFunction) (fuel : Nat) (manager : StatefulBinaryTreeStateManager)
    (ops : List StateOp) : Except StateError StatefulBinaryTreeStateManager :=
  ops.foldlM (fun manager op => op.run K fuel manager) manager

end EthereumJS.BinaryTreeState
