import EthereumJS.Ordered.InsertionMap
import EthereumJS.Ordered.Sorting
import EthereumJS.Util.Values

/-! # Block access lists

`BlockLevelAccessList` of `util/src/bal/index.ts`. A hex string of the code whose digits are
padded to an even number is the bytes that it stands for, and a set is a map to `Unit`.
-/

namespace EthereumJS

open RLP Ordered

/-- An index in the block and what the value is from there on. -/
abbrev IndexedChange := Nat × Bytes

/-- The accesses to one account. -/
structure Access where
  nonceChanges : InsertionMap Nat Bytes
  balanceChanges : InsertionMap Nat Bytes
  codeChanges : List IndexedChange
  storageChanges : InsertionMap Bytes (List IndexedChange)
  storageReads : InsertionMap Bytes Unit

def Access.empty : Access :=
  { nonceChanges := .empty, balanceChanges := .empty, codeChanges := [], storageChanges := .empty
    storageReads := .empty }

abbrev Accesses := InsertionMap Bytes Access

structure BlockLevelAccessList where
  accesses : Accesses
  blockAccessIndex : Nat
  checkpoints : List (Accesses × Nat)
  originalBalances : InsertionMap Bytes Nat
  originalCodesAtIndex : InsertionMap (Bytes × Nat) Bytes

def createBlockLevelAccessList : BlockLevelAccessList :=
  { accesses := .empty, blockAccessIndex := 0, checkpoints := [], originalBalances := .empty
    originalCodesAtIndex := .empty }

def stripLeadingZeros (bytes : Bytes) : Bytes := unpadBytes bytes

abbrev compareLexicographicHexOrBytes (a b : Bytes) : Ordering := compareLists UInt8.toNat a b

/-- The order of strings in `sort()`. -/
abbrev compareStrings (a b : HexString) : Ordering := compareLists Char.toNat a b

/-- `a.localeCompare(b)` of lower-case hex strings: the digits come before the letters, as they
do in the order of strings. -/
abbrev localeCompare (a b : HexString) : Ordering := compareStrings a b

namespace Access

def addStorageRead (access : Access) (strippedKey : Bytes) : Access :=
  match access.storageChanges.get strippedKey with
  | none => { access with storageReads := access.storageReads.set strippedKey () }
  | some _ => access

/-- A write that is no no-op. -/
def addStorageWrite (access : Access) (strippedKey strippedValue : Bytes)
    (blockAccessIndex : Nat) : Access :=
  let slotChanges := (access.storageChanges.get strippedKey).getD []
  { access with
    storageChanges := access.storageChanges.set strippedKey
      (insertEntry blockAccessIndex strippedValue slotChanges)
    storageReads := access.storageReads.delete strippedKey }

/-- A no-op write. -/
def addStorageNoOp (access : Access) (strippedKey : Bytes) (blockAccessIndex : Nat) : Access :=
  match access.storageChanges.get strippedKey with
  | some slotChanges =>
    let remaining := slotChanges.filter fun change => change.1 ≠ blockAccessIndex
    if remaining.length = 0 then
      { access with
        storageChanges := access.storageChanges.delete strippedKey }.addStorageRead strippedKey
    else { access with storageChanges := access.storageChanges.set strippedKey remaining }
  | none => access.addStorageRead strippedKey

def addReads (access : Access) (slots : List Bytes) : Access :=
  { access with
    storageReads := slots.foldl (fun reads slot => reads.set slot ()) access.storageReads }

def slotKeys (access : Access) : List Bytes := access.storageChanges.entries.map Prod.fst

def readKeys (access : Access) : List Bytes := access.storageReads.entries.map Prod.fst

/-- What is kept of an access that is reverted, added to what was there before. -/
def mergeReverted (target access : Access) : Access :=
  (target.addReads access.readKeys).addReads
    (access.slotKeys.filter fun slot => (target.storageChanges.get slot).isNone)

end Access

namespace BlockLevelAccessList

variable (self : BlockLevelAccessList)

/-- A change of the access to an address, which is added first if it is not there. -/
def modifyAccess (address : Bytes) (change : Access → Access) : BlockLevelAccessList :=
  { self with
    accesses := self.accesses.set address (change ((self.accesses.get address).getD .empty)) }

def checkpoint : BlockLevelAccessList :=
  { self with checkpoints := (self.accesses, self.blockAccessIndex) :: self.checkpoints }

def commit : BlockLevelAccessList := { self with checkpoints := self.checkpoints.tail }

/-- The loop of `revert` over the current accesses. -/
def mergeReverted : List (Bytes × Access) → Accesses → Accesses
  | [], accesses => accesses
  | (address, access) :: current, accesses =>
    let target := (accesses.get address).getD .empty
    mergeReverted current (accesses.set address (target.mergeReverted access))

def revert : BlockLevelAccessList :=
  match self.checkpoints with
  | [] => self
  | (accesses, blockAccessIndex) :: checkpoints =>
    { self with
      accesses := mergeReverted self.accesses.entries accesses
      blockAccessIndex := blockAccessIndex
      checkpoints := checkpoints }

def addAddress (address : Bytes) : BlockLevelAccessList := self.modifyAccess address id

def addStorageRead (address storageKey : Bytes) : BlockLevelAccessList :=
  self.modifyAccess address fun access => access.addStorageRead (stripLeadingZeros storageKey)

/-- A write of the value from before the transaction, or of zero if that is not given. -/
def isNoOp (value : Bytes) (originalValue : Option Bytes) : Bool :=
  match originalValue with
  | some originalValue => stripLeadingZeros value = stripLeadingZeros originalValue
  | none => (stripLeadingZeros value).length = 0

def addStorageWrite (address storageKey value : Bytes) (blockAccessIndex : Nat)
    (originalValue : Option Bytes) : BlockLevelAccessList :=
  let strippedKey := stripLeadingZeros storageKey
  self.modifyAccess address fun access =>
    if isNoOp value originalValue then access.addStorageNoOp strippedKey blockAccessIndex
    else access.addStorageWrite strippedKey (stripLeadingZeros value) blockAccessIndex

/-- The first original balance of an address wins. -/
def addBalanceChange (address : Bytes) (balance blockAccessIndex : Nat)
    (originalBalance : Option Nat) : BlockLevelAccessList :=
  let changed := self.modifyAccess address fun access =>
    { access with
      balanceChanges :=
        access.balanceChanges.set blockAccessIndex (stripLeadingZeros (bigIntToBytes balance)) }
  match originalBalance, self.originalBalances.get address with
  | some originalBalance, none =>
    { changed with originalBalances := changed.originalBalances.set address originalBalance }
  | _, _ => changed

/-- One round of the loop of `cleanupNetZeroBalanceChanges`. -/
def cleanupNetZero (accesses : Accesses) (address : Bytes) (originalBalance : Nat) : Accesses :=
  match accesses.get address with
  | none => accesses
  | some access =>
    match access.balanceChanges.entries.getLast? with
    | none => accesses
    | some (_, finalBalance) =>
      if bytesToBigInt finalBalance = originalBalance then
        accesses.set address
          { access with balanceChanges := access.balanceChanges.delete self.blockAccessIndex }
      else accesses

def cleanupNetZeroBalanceChanges : BlockLevelAccessList :=
  { self with
    accesses := self.originalBalances.entries.foldl
      (fun accesses entry => self.cleanupNetZero accesses entry.1 entry.2) self.accesses
    originalBalances := .empty }

def addNonceChange (address : Bytes) (nonce blockAccessIndex : Nat) : BlockLevelAccessList :=
  self.modifyAccess address fun access =>
    { access with nonceChanges := access.nonceChanges.set blockAccessIndex (bigIntToBytes nonce) }

def addCodeChange (address code : Bytes) (blockAccessIndex : Nat) (originalCode : Option Bytes) :
    BlockLevelAccessList :=
  let trackingKey := (address, blockAccessIndex)
  let originalCodesAtIndex :=
    match originalCode, self.originalCodesAtIndex.get trackingKey with
    | some originalCode, none => self.originalCodesAtIndex.set trackingKey originalCode
    | _, _ => self.originalCodesAtIndex
  let changed := self.modifyAccess address fun access =>
    if (lookupEntry blockAccessIndex access.codeChanges).isSome then
      if originalCodesAtIndex.get trackingKey = some code then
        { access with
          codeChanges := access.codeChanges.eraseP fun change => change.1 = blockAccessIndex }
      else
        { access with codeChanges := insertEntry blockAccessIndex code access.codeChanges }
    else if originalCode = some code then access
    else { access with codeChanges := access.codeChanges ++ [(blockAccessIndex, code)] }
  { changed with originalCodesAtIndex := originalCodesAtIndex }

/-- One round of the loop of `cleanupSelfdestructed`. -/
def cleanupAccess (address : Bytes) (access : Access) : Access :=
  let access := access.addReads access.slotKeys
  { access with
    storageChanges := .empty
    nonceChanges := .empty
    codeChanges := []
    balanceChanges :=
      match self.originalBalances.get address with
      | none | some 0 => .empty
      | some _ => access.balanceChanges }

def cleanupSelfdestructed : List Bytes → BlockLevelAccessList → BlockLevelAccessList
  | [], self => self
  | address :: addresses, self =>
    match self.accesses.get address with
    | none => cleanupSelfdestructed addresses self
    | some access =>
      cleanupSelfdestructed addresses
        { self with accesses := self.accesses.set address (self.cleanupAccess address access) }

/-- The changes in the order of their indices. -/
def sortIndices {α : Type} (changes : List (Nat × α)) : List (Nat × α) :=
  changes.insertionSort fun a b => a.1 ≤ b.1

structure RawAccountChanges where
  address : Bytes
  storageChanges : List (Bytes × List IndexedChange)
  storageReads : List Bytes
  balanceChanges : List IndexedChange
  nonceChanges : List IndexedChange
  codeChanges : List IndexedChange
  deriving DecidableEq

def rawAccount (address : Bytes) (data : Access) : RawAccountChanges :=
  { address := address
    storageChanges :=
      (data.storageChanges.entries.insertionSort fun a b =>
        compareLexicographicHexOrBytes a.1 b.1 ≠ .gt).map fun entry =>
          (unpadBytes entry.1,
            (sortIndices entry.2).map fun change => (change.1, stripLeadingZeros change.2))
    storageReads :=
      (data.readKeys.map unpadBytes).insertionSort fun a b =>
        compareLexicographicHexOrBytes a b ≠ .gt
    balanceChanges :=
      (sortIndices data.balanceChanges.entries).map fun change => (change.1, unpadBytes change.2)
    nonceChanges :=
      (sortIndices data.nonceChanges.entries).map fun change => (change.1, unpadBytes change.2)
    codeChanges := sortIndices data.codeChanges }

/-- `raw`, where the addresses are in the order of their hex strings. -/
def raw : List RawAccountChanges :=
  (self.accesses.entries.insertionSort fun a b =>
    compareStrings (bytesToHex a.1) (bytesToHex b.1) ≠ .gt).map fun entry => rawAccount entry.1 entry.2

/-- The RLP item of changes with their indices. -/
def changesItem (changes : List IndexedChange) : Item :=
  .list (changes.map fun change => .list [.bytes (bigIntToUnpaddedBytes change.1), .bytes change.2])

def RawAccountChanges.item (account : RawAccountChanges) : Item :=
  .list [.bytes account.address,
    .list (account.storageChanges.map fun change => .list [.bytes change.1, changesItem change.2]),
    .list (account.storageReads.map .bytes), changesItem account.balanceChanges,
    changesItem account.nonceChanges, changesItem account.codeChanges]

def serialize : Bytes := encode (.list (self.raw.map RawAccountChanges.item))

def hash (H : Bytes → Bytes) : Bytes := H self.serialize

/-- `padToEvenHex` of a number in base 16. -/
def indexToHex (index : Nat) : HexString := bytesToHex (bigIntToBytes index)

structure JSONStorageChange where
  blockAccessIndex : HexString
  postValue : HexString
  deriving DecidableEq

structure JSONSlotChanges where
  slot : HexString
  slotChanges : List JSONStorageChange
  deriving DecidableEq

structure JSONAccountChanges where
  address : HexString
  balanceChanges : List (HexString × HexString)
  nonceChanges : List (HexString × HexString)
  codeChanges : List (HexString × HexString)
  storageChanges : List JSONSlotChanges
  storageReads : List HexString
  deriving DecidableEq

/-- The number of a slot in `toJSON`, where the empty string is zero. -/
def slotNumber (slot : HexString) : Nat :=
  match hexToBigInt slot with
  | .ok number => number
  | .error _ => 0

def jsonChanges (changes : List IndexedChange) : List (HexString × HexString) :=
  changes.map fun change => (indexToHex change.1, bytesToHex change.2)

def jsonAccount (address : Bytes) (access : Access) : JSONAccountChanges :=
  { address := bytesToHex address
    storageChanges :=
      (access.storageChanges.entries.insertionSort fun a b =>
        localeCompare (bytesToHex a.1) (bytesToHex b.1) ≠ .gt).map fun entry =>
          { slot := bytesToHex entry.1
            slotChanges := (sortIndices entry.2).map fun change =>
              { blockAccessIndex := indexToHex change.1, postValue := bytesToHex change.2 } }
    storageReads :=
      (access.readKeys.map bytesToHex).insertionSort fun a b => slotNumber a ≤ slotNumber b
    balanceChanges := jsonChanges (sortIndices access.balanceChanges.entries)
    nonceChanges := jsonChanges (sortIndices access.nonceChanges.entries)
    codeChanges := jsonChanges access.codeChanges }

def toJSON : List JSONAccountChanges :=
  (self.accesses.entries.insertionSort fun a b =>
    localeCompare (bytesToHex a.1) (bytesToHex b.1) ≠ .gt).map fun entry =>
      jsonAccount entry.1 entry.2

end BlockLevelAccessList

end EthereumJS
