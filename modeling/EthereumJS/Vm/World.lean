import Mathlib.Algebra.BigOperators.Group.Finset.Basic
import Mathlib.Data.Fintype.Basic
import EthereumJS.Util.Account

/-! # The state that a transaction changes

Accounts and codes as the state manager returns them, with the journal's set of touched
addresses. Balances are the unbounded integers of the source. Every write of an account
is recorded, so that all states of a run can be spoken about.
-/

namespace EthereumJS

abbrev Address := Fin (2 ^ 160)

instance neZero_addresses : NeZero (2 ^ 160) := NeZero.pow

instance lawfulBEq_address : LawfulBEq Address := inferInstance

structure VmAccount where
  nonce : Nat
  balance : Int
  codeHash : Bytes
  deriving DecidableEq

abbrev Accounts := Address → Option VmAccount

/-- The total of all balances. -/
def Accounts.total (accounts : Accounts) : Int :=
  ∑ address, ((accounts address).map VmAccount.balance).getD 0

def Accounts.NonNegative (accounts : Accounts) : Prop :=
  ∀ address account, accounts address = some account → 0 ≤ account.balance

structure World where
  accounts : Accounts
  code : Address → Bytes
  touched : List Address
  /-- The accounts after every write, the latest first. -/
  history : List Accounts

variable (H : HashKeysFunction)

/-- `new Account()`. -/
def emptyAccount : VmAccount := ⟨0, 0, keccakNull H⟩

namespace VmAccount

def isEmpty (account : VmAccount) : Bool :=
  account.balance = 0 ∧ account.nonce = 0 ∧ account.codeHash = keccakNull H

def isContract (account : VmAccount) : Bool := account.codeHash ≠ keccakNull H

end VmAccount

namespace World

def set (world : World) (address : Address) (account : Option VmAccount) : World :=
  let accounts := Function.update world.accounts address account
  { world with accounts := accounts, history := accounts :: world.history }

def touch (world : World) (address : Address) : World :=
  if address ∈ world.touched then world
  else { world with touched := world.touched ++ [address] }

/-- `journal.putAccount`. -/
def putAccount (world : World) (address : Address) (account : VmAccount) : World :=
  (world.touch address).set address (some account)

/-- `journal.deleteAccount`. -/
def deleteAccount (world : World) (address : Address) : World :=
  (world.touch address).set address none

/-- `getAccount` with `new Account()` for a missing one. -/
def accountOrNew (world : World) (address : Address) : VmAccount :=
  (world.accounts address).getD (emptyAccount H)

/-- `stateManager.putCode`. -/
def putCode (world : World) (address : Address) (value : Bytes) : World :=
  let account := world.accountOrNew H address
  { world.set address (some { account with codeHash := H.hash value }) with
    code := Function.update world.code address value }

/-- The loop of `journal.cleanup` over the touched addresses. -/
def deleteEmpty (world : World) : List Address → World
  | [] => world
  | address :: touched =>
    match world.accounts address with
    | none => deleteEmpty (world.deleteAccount address) touched
    | some account =>
      if account.isEmpty H then deleteEmpty (world.deleteAccount address) touched
      else deleteEmpty world touched

/-- `journal.cleanup`. -/
def cleanup (world : World) (spuriousDragon : Bool) : World :=
  { (if spuriousDragon then world.deleteEmpty H world.touched else world) with touched := [] }

@[simp] theorem touch_accounts (world : World) (address : Address) :
    (world.touch address).accounts = world.accounts := by
  unfold touch
  split <;> rfl

@[simp] theorem touch_history (world : World) (address : Address) :
    (world.touch address).history = world.history := by
  unfold touch
  split <;> rfl

@[simp] theorem putAccount_accounts (world : World) (address : Address) (account : VmAccount) :
    (world.putAccount address account).accounts =
      Function.update world.accounts address (some account) := by
  simp [putAccount, set]

@[simp] theorem putAccount_history (world : World) (address : Address) (account : VmAccount) :
    (world.putAccount address account).history =
      Function.update world.accounts address (some account) :: world.history := by
  simp [putAccount, set]

end World

end EthereumJS
