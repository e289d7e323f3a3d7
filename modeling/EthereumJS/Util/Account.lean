import EthereumJS.Mpt.Trie
import EthereumJS.Util.Bytes

/-! # Accounts

`Account` of `util/src/account.ts` without the fields of other tries (`codeSize` and
`version`) and without partial accounts.
-/

namespace EthereumJS

open RLP

structure Account where
  nonce : Nat
  balance : Nat
  storageRoot : Bytes
  codeHash : Bytes
  deriving DecidableEq

inductive AccountError
  | bytes (error : BytesError)
  | notAnArray
  | storageRootLength
  | codeHashLength
  deriving DecidableEq

def AccountError.message : AccountError → String
  | bytes _ => "This method only supports Uint8Array"
  | notAnArray => "Invalid serialized account input. Must be array"
  | storageRootLength => "storageRoot must have a length of 32"
  | codeHashLength => "codeHash must have a length of 32"

variable (H : HashKeysFunction)

/-- `KECCAK256_RLP`, the root of an empty trie. -/
def keccakRlp : Bytes := H.hash RLP_EMPTY_STRING

/-- `KECCAK256_NULL`, the hash of no code. -/
def keccakNull : Bytes := H.hash []

/-- `RLP.decode` of a value that a trie returned. -/
def decodeValue : Item → Except BytesError Item
  | .bytes value =>
    match decode value with
    | .ok item => .ok item
    | .error e => .error (.rlp e)
  | .list [] => .ok (.bytes [])
  | .list _ => .error .unsupportedType

/-- The constructor with its checks. -/
def newAccount (nonce balance : Nat) (storageRoot codeHash : Bytes) :
    Except AccountError Account :=
  if storageRoot.length ≠ 32 then .error .storageRootLength
  else if codeHash.length ≠ 32 then .error .codeHashLength
  else .ok ⟨nonce, balance, storageRoot, codeHash⟩

def itemToBigInt : Option Item → Except AccountError Nat
  | some (.bytes data) => .ok (bytesToBigInt data)
  | _ => .error (.bytes .notBytes)

/-- Missing fields get the defaults of the constructor. An array in the place of a hash
would pass as one if it had 32 elements, and be equal to no hash. -/
def itemToHash (default : Bytes) (error : AccountError) : Option Item → Except AccountError Bytes
  | some (.bytes data) => .ok data
  | some (.list _) => .error error
  | none => .ok default

def createAccountFromBytesArray (values : List Item) : Except AccountError Account := do
  let nonce ← itemToBigInt values[0]?
  let balance ← itemToBigInt values[1]?
  let storageRoot ← itemToHash (keccakRlp H) .storageRootLength values[2]?
  let codeHash ← itemToHash (keccakNull H) .codeHashLength values[3]?
  newAccount nonce balance storageRoot codeHash

def createAccountFromRLP (serialized : Item) : Except AccountError Account :=
  match decodeValue serialized with
  | .ok (.list values) => createAccountFromBytesArray H values
  | .ok (.bytes _) => .error .notAnArray
  | .error e => .error (.bytes e)

namespace Account

variable (account : Account)

def raw : Item :=
  .list [.bytes (bigIntToUnpaddedBytes account.nonce),
    .bytes (bigIntToUnpaddedBytes account.balance), .bytes account.storageRoot,
    .bytes account.codeHash]

def serialize : Bytes := encode account.raw

def isContract : Bool := account.codeHash ≠ keccakNull H

def isEmpty : Bool := account.balance = 0 ∧ account.nonce = 0 ∧ account.codeHash = keccakNull H

end Account

end EthereumJS
