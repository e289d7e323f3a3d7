import EthereumJS.Mpt.Run
import EthereumJS.Overlay.Frame
import EthereumJS.Statemanager.SimpleStateManager
import EthereumJS.Statemanager.StateProof

/-! # The Merkle state manager

`merkleStateManager.ts` without caches and with the default options. The account trie has a
database with checkpoints of its own in front of the one that it shares with the storage tries.
That a read enters what it has found below in the latest checkpoint is left out.
-/

namespace EthereumJS

open RLP Overlay Ordered

/-- An error keeps what was done before. -/
inductive StateManagerError
  | mpt (error : MPTError)
  | account (error : AccountError)
  | bytes (error : BytesError)
  | rootLength (length : Nat)
  | storageKeyLength
  | storageValueLength
  | nonExistingAccount
  | commitNotCheckpointed
  | revertNotCheckpointed
  deriving DecidableEq

def StateManagerError.message : StateManagerError → String
  | mpt error => error.message
  | account error => error.message
  | bytes _ => "invalid bytes"
  | rootLength length =>
    "Invalid root length. Roots are 32 bytes, got " ++ toString length ++ " bytes"
  | storageKeyLength => "Storage key must be 32 bytes long"
  | storageValueLength => "Storage value cannot be longer than 32 bytes"
  | nonExistingAccount => "putStorage() called on non-existing account"
  | commitNotCheckpointed => "trying to commit when not checkpointed"
  | revertNotCheckpointed => "trying to revert when not checkpointed"

/-- A checkpoint of the database of the account trie, with the root of the trie. -/
structure TrieCheckpoint where
  keyValueMap : DiffMap Bytes Bytes
  root : Bytes

structure MerkleStateManager where
  root : Bytes
  checkpoints : List TrieCheckpoint
  /-- The database behind the checkpoints, which is that of the storage tries. -/
  db : MapDB
  /-- The roots of the storage tries by the hash of the address. -/
  storageTries : List (Bytes × Bytes)
  /-- The nodes that were written. No function reads it. -/
  written : List Bytes

abbrev StateRun := EStateM StateManagerError MerkleStateManager

/-- `utf8ToBytes('c')`. -/
def CODEHASH_PREFIX : Bytes := [0x63]

/-- `valueMap.set` of the operations of a batch. -/
def setOps (keyValueMap : DiffMap Bytes Bytes) (ops : List BatchDBOp) : DiffMap Bytes Bytes :=
  ops.foldl (fun keyValueMap op =>
    match op with
    | .put key value => keyValueMap.set key (some value)
    | .del key => keyValueMap.set key none) keyValueMap

namespace MerkleStateManager

variable (H : HashKeysFunction)

def new : MerkleStateManager where
  root := H.hash RLP_EMPTY_STRING
  checkpoints := []
  db := fun _ => none
  storageTries := []
  written := []

section State

variable (sm : MerkleStateManager)

/-- What the database of the account trie holds. -/
def database : MapDB := view sm.db (sm.checkpoints.map TrieCheckpoint.keyValueMap)

/-- The caches that are flushed first are not modelled. -/
def getStateRoot : Bytes := sm.root

def trie : MerklePatriciaTrie := ⟨hashedOpts H, sm.database, sm.root⟩

/-- A storage trie: a shallow copy of the account trie without its checkpoints. -/
def storageTrie (root : Bytes) : MerklePatriciaTrie := ⟨hashedOpts H, sm.db, root⟩

/-- `batch` of the database of the account trie. -/
def batch (ops : List BatchDBOp) : MerkleStateManager :=
  match sm.checkpoints with
  | [] => { sm with db := sm.db.batch ops }
  | cp :: cps =>
    { sm with checkpoints := { cp with keyValueMap := setOps cp.keyValueMap ops } :: cps }

def writeTrie (effect : Effect) : MerkleStateManager :=
  { sm.batch effect.batch with
    root := effect.root, written := sm.written ++ putValues effect.batch }

def setStorageTrie (address root : Bytes) : MerkleStateManager :=
  { sm with storageTries := insertEntry (H.hash address) root sm.storageTries }

/-- A storage trie writes behind the checkpoints of the account trie. -/
def writeStorageTrie (address : Bytes) (effect : Effect) : MerkleStateManager :=
  { sm.setStorageTrie H address effect.root with
    db := sm.db.batch effect.batch, written := sm.written ++ putValues effect.batch }

def readAccount (address : Bytes) : Except StateManagerError (Option Account) :=
  match (sm.trie H).get address false with
  | .error e => .error (.mpt e)
  | .ok none => .ok none
  | .ok (some rlp) =>
    match createAccountFromRLP H rlp with
    | .error e => .error (.account e)
    | .ok account => .ok (some account)

end State

section Run

/-- A result without effect on the state. -/
def ofExcept {α : Type} : Except StateManagerError α → StateRun α
  | .ok a => pure a
  | .error e => throw e

def effectOf : Except MPTError Effect → StateRun Effect
  | .ok effect => pure effect
  | .error e => throw (.mpt e)

def getAccount (address : Bytes) : StateRun (Option Account) := do
  ofExcept ((← get).readAccount H address)

def putAccount (address : Bytes) (account : Option Account) : StateRun Unit := do
  let trie := (← get).trie H
  let effect ← effectOf <|
    match account with
    | some account => trie.putEffect address (some account.serialize) false
    | none => trie.delEffect address false
  modify fun sm => sm.writeTrie effect

def deleteAccount (address : Bytes) : StateRun Unit := do
  let effect ← effectOf (((← get).trie H).delEffect address false)
  modify fun sm => sm.writeTrie effect

def modifyAccountFields (address : Bytes) (fields : AccountFields) : StateRun Unit := do
  let account := (← getAccount H address).getD (Account.empty H)
  putAccount H address (some (account.modifyFields fields))

def codeKey (codeHash : Bytes) : Bytes := CODEHASH_PREFIX ++ codeHash

def putCode (address value : Bytes) : StateRun Unit := do
  let codeHash := H.hash value
  modify fun sm => sm.batch [.put (codeKey codeHash) value]
  if (← getAccount H address) = none then
    putAccount H address (some (Account.empty H))
  modifyAccountFields H address ⟨none, none, none, some codeHash⟩

def getCode (address : Bytes) : StateRun Bytes := do
  match ← getAccount H address with
  | none => pure []
  | some account =>
    if ¬ account.isContract H then pure []
    else pure (((← get).database (codeKey account.codeHash)).getD [])

/-- The root of the storage trie of an account. -/
def getStorageTrie (address : Bytes) (rootAccount : Account) : StateRun Bytes := do
  match lookupEntry (H.hash address) (← get).storageTries with
  | some root => pure root
  | none =>
    if rootAccount.storageRoot.length ≠ 32 then
      throw (.rootLength rootAccount.storageRoot.length)
    modify fun sm => sm.setStorageTrie H address rootAccount.storageRoot
    pure rootAccount.storageRoot

def getStorage (address key : Bytes) : StateRun Item := do
  if key.length ≠ 32 then throw .storageKeyLength
  match ← getAccount H address with
  | none => pure (.bytes [])
  | some account =>
    let root ← getStorageTrie H address account
    let value ← ofExcept ((((← get).storageTrie H root).get key false).mapError .mpt)
    ofExcept ((decodeValue (value.getD (.bytes []))).mapError .bytes)

/-- An error in `modifyTrie` leaves the promise of the source without an answer. -/
def modifyContractStorage (address : Bytes) (account : Account)
    (modifyTrie : MerklePatriciaTrie → Except MPTError Effect) : StateRun Unit := do
  let root ← getStorageTrie H address account
  let effect ← effectOf (modifyTrie ((← get).storageTrie H root))
  modify fun sm => sm.writeStorageTrie H address effect
  putAccount H address (some { account with storageRoot := effect.root })

def writeContractStorage (address : Bytes) (account : Account) (key value : Bytes) :
    StateRun Unit :=
  modifyContractStorage H address account fun storageTrie =>
    if value.length ≠ 0 then storageTrie.putEffect key (some (encode (.bytes value))) false
    else storageTrie.delEffect key false

def putStorage (address key value : Bytes) : StateRun Unit := do
  if key.length ≠ 32 then throw .storageKeyLength
  if value.length > 32 then throw .storageValueLength
  match ← getAccount H address with
  | none => throw .nonExistingAccount
  | some account => writeContractStorage H address account key (unpadBytes value)

def clearStorage (address : Bytes) : StateRun Unit := do
  let account := (← getAccount H address).getD (Account.empty H)
  modifyContractStorage H address account fun storageTrie => .ok ⟨storageTrie.emptyTrieRoot, []⟩

def checkpoint : StateRun Unit :=
  modify fun sm => { sm with checkpoints := ⟨∅, sm.root⟩ :: sm.checkpoints }

def commit : StateRun Unit := do
  match (← get).checkpoints with
  | [] => throw .commitNotCheckpointed
  | [cp] =>
    modify fun sm => { sm with checkpoints := [], db := writes cp.keyValueMap.toWrites sm.db }
  | cp :: cur :: cps =>
    modify fun sm => { sm with
      checkpoints := { cur with keyValueMap := cp.keyValueMap.merge cur.keyValueMap } :: cps }

def revert : StateRun Unit := do
  match (← get).checkpoints with
  | [] => throw .revertNotCheckpointed
  | cp :: cps =>
    modify fun sm => { sm with root := cp.root, checkpoints := cps, storageTries := [] }

def step : StateCall → StateRun StateReply
  | .getAccount address => do return .account (← getAccount H address)
  | .putAccount address account => do
    putAccount H address account
    return .done
  | .deleteAccount address => do
    deleteAccount H address
    return .done
  | .modifyAccountFields address fields => do
    modifyAccountFields H address fields
    return .done
  | .getCode address => do return .code (← getCode H address)
  | .putCode address value => do
    putCode H address value
    return .done
  | .getStorage address key => do return .storage (← getStorage H address key)
  | .putStorage address key value => do
    putStorage H address key value
    return .done
  | .clearStorage address => do
    clearStorage H address
    return .done
  | .checkpoint => do
    checkpoint
    return .done
  | .commit => do
    commit
    return .done
  | .revert => do
    revert
    return .done

def run : List StateCall → StateRun (List StateReply)
  | [] => pure []
  | call :: calls => do
    let reply ← step H call
    let replies ← run calls
    return reply :: replies

end Run

end MerkleStateManager

end EthereumJS
