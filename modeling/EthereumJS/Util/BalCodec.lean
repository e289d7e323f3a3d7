import EthereumJS.Util.Bal

/-! # Parsing a block access list

`createBlockLevelAccessListFromRLP` and `createBlockLevelAccessListFromJSON` of
`util/src/bal/index.ts`. Both read the accounts one by one and add what they say to a new list.
-/

namespace EthereumJS

open RLP Ordered

inductive BALError
  | bytes (error : BytesError)
  | rlp (error : RLP.Error)
  | indexExceeds
  | notIterable
  | notBytes

def BALError.message : BALError → String
  | .indexExceeds => "Number exceeds 53 bits"
  | .rlp error => error.message
  | .bytes _ => "invalid hex string"
  | .notIterable => "value is not iterable"
  | .notBytes => "value is not bytes"

namespace BlockLevelAccessList

/-- `map.set` for each of the changes. -/
def setChanges (map : InsertionMap Nat Bytes) (changes : List IndexedChange) :
    InsertionMap Nat Bytes :=
  changes.foldl (fun map change => map.set change.1 change.2) map

/-- The changes of a slot go behind those that it has. -/
def pushChanges (map : InsertionMap Bytes (List IndexedChange))
    (storageChanges : List (Bytes × List IndexedChange)) :
    InsertionMap Bytes (List IndexedChange) :=
  storageChanges.foldl
    (fun map change => map.set change.1 ((map.get change.1).getD [] ++ change.2)) map

/-- What the parsers add to the access of an account. -/
def loadAccess (access : Access) (account : RawAccountChanges) : Access :=
  { access.addReads account.storageReads with
    storageChanges := pushChanges access.storageChanges account.storageChanges
    balanceChanges := setChanges access.balanceChanges account.balanceChanges
    nonceChanges := setChanges access.nonceChanges account.nonceChanges
    codeChanges := access.codeChanges ++ account.codeChanges }

def load (self : BlockLevelAccessList) (accounts : List RawAccountChanges) :
    BlockLevelAccessList :=
  accounts.foldl
    (fun bal account => bal.modifyAccess account.address fun access => loadAccess access account)
    self

section OfRLP

def bytesToInt (bytes : Bytes) : Except BALError Nat :=
  let res := bytesToBigInt bytes
  if 2 ^ 53 ≤ res then .error .indexExceeds else .ok res

/-- What a loop over a decoded value goes through; the numbers of a byte string are no tuples. -/
def itemsOf : Item → Except BALError (List Item)
  | .list items => .ok items
  | .bytes [] => .ok []
  | .bytes _ => .error .notIterable

def bytesOf : Item → Except BALError Bytes
  | .bytes bytes => .ok bytes
  | .list _ => .error .notBytes

def indexedChangeOf : Item → Except BALError IndexedChange
  | .list (indexBytes :: valueBytes :: _) => do
    let index ← bytesToInt (← bytesOf indexBytes)
    .ok (index, ← bytesOf valueBytes)
  | _ => .error .notIterable

def changesOfItem (item : Item) : Except BALError (List IndexedChange) := do
  (← itemsOf item).mapM indexedChangeOf

def slotChangesOf : Item → Except BALError (Bytes × List IndexedChange)
  | .list (slotBytes :: slotChangesRaw :: _) => do
    .ok (← bytesOf slotBytes, ← changesOfItem slotChangesRaw)
  | _ => .error .notIterable

def accountOfItem : Item → Except BALError RawAccountChanges
  | .list (addressBytes :: storageChangesRaw :: storageReadsRaw :: balanceChangesRaw ::
      nonceChangesRaw :: codeChangesRaw :: _) => do
    .ok
      { address := ← bytesOf addressBytes
        storageChanges := ← (← itemsOf storageChangesRaw).mapM slotChangesOf
        storageReads := ← (← itemsOf storageReadsRaw).mapM bytesOf
        balanceChanges := ← changesOfItem balanceChangesRaw
        nonceChanges := ← changesOfItem nonceChangesRaw
        codeChanges := ← changesOfItem codeChangesRaw }
  | _ => .error .notIterable

def createBlockLevelAccessListFromRLP (rlp : Bytes) : Except BALError BlockLevelAccessList := do
  let decoded ← (decode rlp).mapError .rlp
  let accounts ← (← itemsOf decoded).mapM accountOfItem
  .ok (createBlockLevelAccessList.load accounts)

end OfRLP

section OfJSON

def bytesOfHex (hex : HexString) : Except BALError Bytes := (hexToBytes hex).mapError .bytes

/-- `parseInt(hex, 16)` of a hex string that stands for a number. -/
def parseIndex (hex : HexString) : Except BALError Nat := (hexToBigInt hex).mapError .bytes

def indexedChangeOfJSON (change : HexString × HexString) : Except BALError IndexedChange := do
  .ok (← parseIndex change.1, ← bytesOfHex change.2)

def slotChangesOfJSON (slotChange : JSONSlotChanges) :
    Except BALError (Bytes × List IndexedChange) := do
  .ok (← bytesOfHex slotChange.slot, ← slotChange.slotChanges.mapM fun change =>
    indexedChangeOfJSON (change.blockAccessIndex, change.postValue))

def accountOfJSON (account : JSONAccountChanges) : Except BALError RawAccountChanges := do
  .ok
    { address := ← bytesOfHex account.address
      storageChanges := ← account.storageChanges.mapM slotChangesOfJSON
      storageReads := ← account.storageReads.mapM bytesOfHex
      balanceChanges := ← account.balanceChanges.mapM indexedChangeOfJSON
      nonceChanges := ← account.nonceChanges.mapM indexedChangeOfJSON
      codeChanges := ← account.codeChanges.mapM indexedChangeOfJSON }

def createBlockLevelAccessListFromJSON (json : List JSONAccountChanges) :
    Except BALError BlockLevelAccessList := do
  .ok (createBlockLevelAccessList.load (← json.mapM accountOfJSON))

end OfJSON

end BlockLevelAccessList

end EthereumJS
