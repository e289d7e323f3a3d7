import EthereumJS.Ordered.InsertionMap
import EthereumJS.Overlay.Store
import EthereumJS.Util.Account

/-! # The simple state manager

The calls that state managers share, and `simpleStateManager.ts`. Its three stacks of maps have one
height, so they are one stack of states here, and a key of the map of slots is a pair.
-/

namespace EthereumJS

open RLP Overlay Ordered

/-- The fields of an account that are given. -/
structure AccountFields where
  nonce : Option Nat
  balance : Option Nat
  storageRoot : Option Bytes
  codeHash : Option Bytes

inductive StateCall
  | getAccount (address : Bytes)
  | putAccount (address : Bytes) (account : Option Account)
  | deleteAccount (address : Bytes)
  | modifyAccountFields (address : Bytes) (fields : AccountFields)
  | getCode (address : Bytes)
  | putCode (address value : Bytes)
  | getStorage (address key : Bytes)
  | putStorage (address key value : Bytes)
  | clearStorage (address : Bytes)
  | checkpoint
  | commit
  | revert

/-- What a call returns. -/
inductive StateReply
  | done
  | account (account : Option Account)
  | code (code : Bytes)
  | storage (value : Item)

/-- What an account says apart from the root of its storage. -/
def Account.visible (account : Account) : Nat × Nat × Bytes :=
  (account.nonce, account.balance, account.codeHash)

/-- The same answer, where a slot holds a number. -/
def StateReply.Agrees : StateReply → StateReply → Prop
  | .done, .done => True
  | .account a, .account b => a.map Account.visible = b.map Account.visible
  | .code c, .code d => c = d
  | .storage (.bytes value), .storage (.bytes value') =>
    bytesToBigInt value = bytesToBigInt value'
  | _, _ => False

/-- `new Account()`. -/
def Account.empty (H : HashKeysFunction) : Account := ⟨0, 0, keccakRlp H, keccakNull H⟩

def Account.modifyFields (account : Account) (fields : AccountFields) : Account where
  nonce := fields.nonce.getD account.nonce
  balance := fields.balance.getD account.balance
  storageRoot := fields.storageRoot.getD account.storageRoot
  codeHash := fields.codeHash.getD account.codeHash

/-- The maps on top of the three stacks. -/
structure SimpleState where
  accounts : List (Bytes × Option Account)
  codes : List (Bytes × Bytes)
  storage : List ((Bytes × Bytes) × Bytes)

namespace SimpleState

variable (state : SimpleState)

def account (address : Bytes) : Option Account := (lookupEntry address state.accounts).join

def code (address : Bytes) : Bytes := (lookupEntry address state.codes).getD []

def slot (address key : Bytes) : Bytes := (lookupEntry (address, key) state.storage).getD []

/-- No slot of the account holds a number other than zero. -/
def NoStorage (address : Bytes) : Prop :=
  ∀ entry ∈ state.storage, entry.1.1 = address →
    bytesToBigInt (state.slot address entry.1.2) = 0

instance decidableNoStorage (address : Bytes) : Decidable (state.NoStorage address) :=
  inferInstanceAs (Decidable (∀ entry ∈ state.storage, _))

def setAccount (address : Bytes) (account : Option Account) : SimpleState :=
  { state with accounts := insertEntry address account state.accounts }

def setCode (address value : Bytes) : SimpleState :=
  { state with codes := insertEntry address value state.codes }

def setSlot (address key value : Bytes) : SimpleState :=
  { state with storage := insertEntry (address, key) value state.storage }

@[simp] theorem account_setAccount (a address : Bytes) (account : Option Account) :
    (state.setAccount address account).account a =
      if a = address then account else state.account a := by
  unfold SimpleState.account setAccount
  rw [lookupEntry_insertEntry]
  split <;> rfl

@[simp] theorem account_setCode (a address value : Bytes) :
    (state.setCode address value).account a = state.account a := rfl

@[simp] theorem account_setSlot (a address key value : Bytes) :
    (state.setSlot address key value).account a = state.account a := rfl

@[simp] theorem code_setAccount (a address : Bytes) (account : Option Account) :
    (state.setAccount address account).code a = state.code a := rfl

@[simp] theorem code_setCode (a address value : Bytes) :
    (state.setCode address value).code a = if a = address then value else state.code a := by
  unfold SimpleState.code setCode
  rw [lookupEntry_insertEntry]
  split <;> rfl

@[simp] theorem code_setSlot (a address key value : Bytes) :
    (state.setSlot address key value).code a = state.code a := rfl

@[simp] theorem slot_setAccount (a k address : Bytes) (account : Option Account) :
    (state.setAccount address account).slot a k = state.slot a k := rfl

@[simp] theorem slot_setCode (a k address value : Bytes) :
    (state.setCode address value).slot a k = state.slot a k := rfl

@[simp] theorem slot_setSlot (a k address key value : Bytes) :
    (state.setSlot address key value).slot a k =
      if (a, k) = (address, key) then value else state.slot a k := by
  unfold SimpleState.slot setSlot
  rw [lookupEntry_insertEntry]
  split <;> rfl

theorem NoStorage.slot_eq {address : Bytes} (h : state.NoStorage address) (key : Bytes) :
    bytesToBigInt (state.slot address key) = 0 := by
  cases hlookup : lookupEntry (address, key) state.storage with
  | none =>
    unfold slot
    rw [hlookup]
    rfl
  | some value => exact h _ (mem_of_lookupEntry hlookup) rfl

end SimpleState

/-- The state on top and those at the open checkpoints. -/
abbrev SimpleStateManager := Nested SimpleState

namespace SimpleStateManager

def new : SimpleStateManager := ⟨⟨[], [], []⟩, []⟩

variable (H : HashKeysFunction) (sm : SimpleStateManager)

def getAccount (address : Bytes) : Option Account := sm.current.account address

def putAccount (address : Bytes) (account : Option Account) : SimpleStateManager :=
  sm.modify fun state => state.setAccount address account

def deleteAccount (address : Bytes) : SimpleStateManager :=
  sm.modify fun state => state.setAccount address none

def modifyAccountFields (address : Bytes) (fields : AccountFields) : SimpleStateManager :=
  let account := (sm.getAccount address).getD (Account.empty H)
  sm.putAccount address (some (account.modifyFields fields))

def getCode (address : Bytes) : Bytes := sm.current.code address

def putCode (address value : Bytes) : SimpleStateManager :=
  let sm : SimpleStateManager := sm.modify fun state => state.setCode address value
  let sm :=
    if sm.getAccount address = none then sm.putAccount address (some (Account.empty H)) else sm
  modifyAccountFields H sm address ⟨none, none, none, some (H.hash value)⟩

def getStorage (address key : Bytes) : Bytes := sm.current.slot address key

def putStorage (address key value : Bytes) : SimpleStateManager :=
  sm.modify fun state => state.setSlot address key value

def clearStorage : SimpleStateManager := sm

theorem putCode_of_some {address value : Bytes} {account : Account}
    (h : sm.getAccount address = some account) :
    putCode H sm address value =
      ⟨(sm.current.setCode address value).setAccount address
        (some { account with codeHash := H.hash value }), sm.saved⟩ := by
  have hget : getAccount (sm.modify fun state => state.setCode address value) address =
      some account := h
  unfold putCode modifyAccountFields
  dsimp only
  rw [hget, if_neg (Option.some_ne_none account), hget]
  rfl

theorem putCode_of_none {address value : Bytes} (h : sm.getAccount address = none) :
    putCode H sm address value =
      putCode H (sm.putAccount address (some (Account.empty H))) address value := by
  have hget : getAccount (sm.modify fun state => state.setCode address value) address = none := h
  have hempty (sm : SimpleStateManager) :
      (sm.putAccount address (some (Account.empty H))).getAccount address =
        some (Account.empty H) := by
    rw [getAccount, putAccount, Nested.modify, SimpleState.account_setAccount, if_pos rfl]
  rw [putCode_of_some H _ (hempty sm)]
  unfold putCode modifyAccountFields
  dsimp only
  rw [hget, if_pos rfl, hempty]
  rfl

/-- A commit or revert without a checkpoint, which would leave no state, is no step. -/
def step : StateCall → Option (StateReply × SimpleStateManager)
  | .getAccount address => some (.account (sm.getAccount address), sm)
  | .putAccount address account => some (.done, sm.putAccount address account)
  | .deleteAccount address => some (.done, sm.deleteAccount address)
  | .modifyAccountFields address fields =>
    some (.done, modifyAccountFields H sm address fields)
  | .getCode address => some (.code (sm.getCode address), sm)
  | .putCode address value => some (.done, putCode H sm address value)
  | .getStorage address key => some (.storage (.bytes (sm.getStorage address key)), sm)
  | .putStorage address key value => some (.done, sm.putStorage address key value)
  | .clearStorage _ => some (.done, sm.clearStorage)
  | .checkpoint => some (.done, Nested.checkpoint sm)
  | .commit => (Nested.commit sm).map fun sm => (.done, sm)
  | .revert => (Nested.revert sm).map fun sm => (.done, sm)

def run : SimpleStateManager → List StateCall → Option (List StateReply × SimpleStateManager)
  | sm, [] => some ([], sm)
  | sm, call :: calls => do
    let (reply, sm) ← sm.step H call
    let (replies, sm) ← run sm calls
    return (reply :: replies, sm)

end SimpleStateManager

end EthereumJS
