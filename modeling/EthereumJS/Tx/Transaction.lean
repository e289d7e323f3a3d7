import EthereumJS.Common.Hardfork
import EthereumJS.Util.Values

/-! # Transactions

The five types of transactions of `packages/tx`: their constructors with all checks and the
conversion from and to bytes. The texts of the checks lack the description of the transaction
that `errorMsg` appends, and those of the chain id the two values that they print.
-/

namespace EthereumJS.Tx

open RLP

inductive TransactionType
  | legacy
  | accessListEIP2930
  | feeMarketEIP1559
  | blobEIP4844
  | eoaCodeEIP7702
  deriving DecidableEq

/-- The chain of a transaction with its EIPs beyond those of the hardfork, the parameters of the
active EIPs and whether it has a `customCrypto.kzg`. -/
structure Common where
  chainId : Nat
  hardfork : Hardfork
  eips : List Nat
  param : String → Nat
  kzg : Bool

def Common.isActivatedEIP (common : Common) (eip : Nat) : Bool :=
  common.hardfork.isActivatedEIP eip || common.eips.contains eip

structure TxOptions where
  common : Common
  allowUnlimitedInitCodeSize : Bool

/-- The input of a constructor. A value that is no array is given by its bytes, and a list in its
JSON form by its bytes form. -/
structure TxData where
  nonce : Option Item
  gasPrice : Option Item
  maxPriorityFeePerGas : Option Item
  maxFeePerGas : Option Item
  gasLimit : Option Item
  toAddress : Option Item
  value : Option Item
  data : Option Item
  v : Option Item
  r : Option Item
  s : Option Item
  chainId : Option Item
  accessList : Option Item
  authorizationList : Option Item
  maxFeePerBlobGas : Option Item
  blobVersionedHashes : Option Item
  networkWrapperVersion : Option Item
  blobs : Option (List Item)
  kzgCommitments : Option (List Item)
  kzgProofs : Option (List Item)

def TxData.empty : TxData :=
  { nonce := none, gasPrice := none, maxPriorityFeePerGas := none, maxFeePerGas := none
    gasLimit := none, toAddress := none, value := none, data := none, v := none, r := none, s := none
    chainId := none, accessList := none, authorizationList := none, maxFeePerBlobGas := none
    blobVersionedHashes := none, networkWrapperVersion := none, blobs := none
    kzgCommitments := none, kzgProofs := none }

/-- The entries that may be of any kind, with their keys. -/
def TxData.entries (txData : TxData) : List (String × Option Item) :=
  [("chainId", txData.chainId), ("nonce", txData.nonce), ("gasPrice", txData.gasPrice),
    ("maxPriorityFeePerGas", txData.maxPriorityFeePerGas), ("maxFeePerGas", txData.maxFeePerGas),
    ("gasLimit", txData.gasLimit), ("to", txData.toAddress), ("value", txData.value),
    ("data", txData.data), ("accessList", txData.accessList),
    ("authorizationList", txData.authorizationList),
    ("maxFeePerBlobGas", txData.maxFeePerBlobGas),
    ("blobVersionedHashes", txData.blobVersionedHashes), ("v", txData.v), ("r", txData.r),
    ("s", txData.s)]

section Shared

def txDataKeys : List String :=
  ["nonce", "gasPrice", "gasLimit", "to", "value", "data", "v", "r", "s", "type", "baseFee",
    "maxFeePerGas", "chainId"]

def validateNotArray (values : List (String × Option Item)) : List (Bool × String) :=
  values.map fun (key, value) =>
    (txDataKeys.contains key && isArray value, s!"{key} cannot be an array")

def MAX_UINT64 : Nat := 2 ^ 64 - 1

def MAX_INTEGER : Nat := 2 ^ 256 - 1

def valueOverflowCheck (values : List (String × Option Nat)) (bits : Nat) (cannotEqual : Bool) :
    List (Bool × String) :=
  values.map fun (key, value) =>
    let name := if bits = 64 then "MAX_UINT64" else "MAX_INTEGER"
    let limit := if bits = 64 then MAX_UINT64 else MAX_INTEGER
    let given := value.getD 0
    if cannotEqual then
      (decide (given ≥ limit), s!"{key} cannot equal or exceed {name} (2^{bits}-1), given {given}")
    else (decide (given > limit), s!"{key} cannot exceed {name} (2^{bits}-1), given {given}")

/-- What every transaction has. -/
structure TransactionInterface where
  nonce : Nat
  gasLimit : Nat
  toAddress : Option Bytes
  value : Nat
  data : Bytes
  v : Option Nat
  r : Option Nat
  s : Option Nat
  deriving DecidableEq

def inputBigInt (value : Option Item) : Nat := bytesToNumber (inputBytes value)

/-- A part of the signature, which empty bytes leave out. -/
def signatureValue (value : Option Item) : Option Nat :=
  if (inputBytes value).length > 0 then some (inputBigInt value) else none

def TransactionInterface.ofData (txData : TxData) : TransactionInterface :=
  let toB := inputBytes txData.toAddress
  { nonce := inputBigInt txData.nonce
    gasLimit := inputBigInt txData.gasLimit
    toAddress := if toB.length > 0 then some toB else none
    value := inputBigInt txData.value
    data := inputBytes txData.data
    v := signatureValue txData.v
    r := signatureValue txData.r
    s := signatureValue txData.s }

variable (opts : TxOptions)

def checkMaxInitCodeSize (length : Nat) : Bool × String :=
  let maxInitCodeSize := opts.common.param "maxInitCodeSize"
  (maxInitCodeSize != 0 && decide (length > maxInitCodeSize),
    s!"the initcode size of this transaction is too large: it is {length} while the max is {maxInitCodeSize}")

/-- The checks of `sharedConstructor`. -/
def sharedChecks (txData : TxData) (tx : TransactionInterface) : List (Bool × String) :=
  let maxGasLimit := opts.common.param "maxTransactionGasLimit"
  let initCode := checkMaxInitCodeSize opts tx.data.length
  validateNotArray txData.entries ++
  [(tx.toAddress.any fun address => address.length != 20, "Invalid address length")] ++
  valueOverflowCheck [("value", some tx.value), ("r", tx.r), ("s", tx.s)] 256 false ++
  valueOverflowCheck [("gasLimit", some tx.gasLimit)] 64 false ++
  valueOverflowCheck [("nonce", some tx.nonce)] 64 true ++
  [(opts.common.isActivatedEIP 7825 && !opts.common.isActivatedEIP 8037 &&
        decide (tx.gasLimit > maxGasLimit),
      s!"Transaction gas limit {tx.gasLimit} exceeds the maximum allowed by EIP-7825 ({maxGasLimit})"),
    (tx.toAddress.isNone && opts.common.isActivatedEIP 3860 && !opts.allowUnlimitedInitCodeSize &&
        initCode.1, initCode.2)]

/-- A transaction whose checks pass in their order. -/
def construct {α : Type} (tx : α) (checks : List (Bool × String)) : Except String α :=
  throwFirst checks >>= fun _ => .ok tx

def TransactionInterface.isSigned (tx : TransactionInterface) : Bool :=
  tx.v.isSome && tx.r.isSome && tx.s.isSome

def SECP256K1_ORDER_DIV_2 : Nat :=
  0x7fffffffffffffffffffffffffffffff5d576e7357a4501ddfe92f46681b20a0

def validateYParity (tx : TransactionInterface) : Bool × String :=
  (tx.v.any fun v => v != 0 && v != 1,
    "The y-parity of the transaction should either be 0 or 1")

def validateHighS (tx : TransactionInterface) : Bool × String :=
  (opts.common.hardfork.gteHardfork .homestead &&
      tx.s.any fun s => decide (s > SECP256K1_ORDER_DIV_2),
    "Invalid Signature: s-values greater than secp256k1n/2 are considered invalid")

def integerItem (value : Nat) : Item := .bytes (bigIntToUnpaddedBytes value)

def signatureItem (value : Option Nat) : Item :=
  .bytes ((value.map bigIntToUnpaddedBytes).getD [])

end Shared

section Lists

/-- The elements of a value; those of a byte string are numbers. -/
def elements : Option Item → List (Option Item)
  | some (.bytes bytes) => bytes.map fun _ => none
  | some (.list items) => items.map some
  | none => []

/-- The property `length`, which a number lacks. -/
def length? : Option Item → Option Nat
  | some (.bytes bytes) => some bytes.length
  | some (.list items) => some items.length
  | none => none

/-- A list in bytes form: it is empty or begins with an array. Any other is taken for a list in
JSON form, whose items are asked for a property that no value has. -/
def isBytesForm (list : Item) : Bool :=
  length? (some list) == some 0 || (elements (some list)).head?.any isArray

def verifyAccessList (accessList : Item) : List (Bool × String) :=
  (elements (some accessList)).flatMap fun accessListItem =>
    let address := (elements accessListItem)[0]?.join
    let storageSlots := (elements accessListItem)[1]?.join
    [(length? accessListItem != some 2,
        "Invalid EIP-2930 transaction: access list item should have 2 elements"),
      (length? address != some 20,
        "Invalid EIP-2930 transaction: address length should be 20 bytes")] ++
    (elements storageSlots).map fun slot =>
      (length? slot != some 32,
        "Invalid EIP-2930 transaction: storage slot length should be 32 bytes")

def accessListChecks (accessList : Item) : List (Bool × String) :=
  (!isBytesForm accessList,
    "Cannot read properties of undefined (reading 'startsWith')") :: verifyAccessList accessList

def verifyAuthorizationList (authorizationList : Item) : List (Bool × String) :=
  (length? (some authorizationList) == some 0,
    "Invalid EIP-7702 transaction: authorization list is empty") ::
  (elements (some authorizationList)).flatMap fun item =>
    let member (i : Nat) := (elements item)[i]?.join
    let exceeds (i max : Nat) := decide (inputBigInt (member i) > max)
    [(length? item != some 6,
      "Invalid EIP-7702 transaction: authorization list item should have 6 elements")] ++
    ((elements item).map fun value => (isArray value,
      "Invalid EIP-7702 transaction: authority list element is a list, not bytes")) ++
    validateNoLeadingZeroes [("yParity", member 3), ("r", member 4), ("s", member 5),
      ("nonce", member 2), ("chainId", member 0)] ++
    [(length? (member 1) != some 20,
        "Invalid EIP-7702 transaction: address length should be 20 bytes"),
      (exceeds 0 MAX_INTEGER, "Invalid EIP-7702 transaction: chainId exceeds 2^256 - 1"),
      (exceeds 2 MAX_UINT64, "Invalid EIP-7702 transaction: nonce exceeds 2^64 - 1"),
      (exceeds 3 255,
        "Invalid EIP-7702 transaction: yParity should be fit within 1 byte (0 - 255)"),
      (exceeds 4 MAX_INTEGER, "Invalid EIP-7702 transaction: r exceeds 2^256 - 1"),
      (exceeds 5 MAX_INTEGER, "Invalid EIP-7702 transaction: s exceeds 2^256 - 1")]

def authorizationListChecks (authorizationList : Item) : List (Bool × String) :=
  (!isBytesForm authorizationList,
    "EIP-7702 authorization list invalid: chainId is not defined") ::
    verifyAuthorizationList authorizationList

end Lists

section Types

variable (opts : TxOptions)

/-- The chain id of the input, if there is one, must be that of the chain. -/
def chainIdCheck (txData : TxData) : Bool × String :=
  (txData.chainId.any fun chainId => toBigInt chainId != opts.common.chainId,
    "Common chain ID not matching the derived chain ID")

structure LegacyTx extends TransactionInterface where
  gasPrice : Nat
  deriving DecidableEq

def LegacyTx.ofData (txData : TxData) : LegacyTx :=
  { TransactionInterface.ofData txData with gasPrice := inputBigInt txData.gasPrice }

/-- No double is as large. -/
def doubleLimit : Nat := 2 ^ 1024

/-- The double nearest to an integer, ties to even; infinity is `none`. -/
def toDouble (n : Nat) : Option Nat :=
  let unit := 2 ^ (n.log2 - 52)
  let low := n % unit * 2
  let high := n / unit
  let rounded := if unit < low ∨ unit = low ∧ high % 2 = 1 then (high + 1) * unit else high * unit
  if rounded < doubleLimit then some rounded else none

def doubleText (v : Option Nat) : String := v.elim "Infinity" toString

/-- A sum of doubles. -/
def addDouble (v : Option Nat) (n : Nat) : Option Nat := v.bind fun v => toDouble (v + n)

def meetsEIP155 (v : Option Nat) (chainId : Nat) : Bool :=
  let chainIdDoubled := (toDouble chainId).bind fun n => toDouble (n * 2)
  v == addDouble chainIdDoubled 35 || v == addDouble chainIdDoubled 36

/-- `validateVAndExtractChainID` and the comparison of the chain id that it extracts. -/
def legacyVChecks (tx : TransactionInterface) : List (Bool × String) :=
  match tx.v.map toDouble with
  | none => []
  | some v =>
    let unprotected := v == some 27 || v == some 28
    let extracts := opts.common.hardfork.gteHardfork .spuriousDragon && !unprotected
    let subtract (n : Nat) := (toDouble (v.getD 0 - n)).getD 0
    let numSub := if subtract 35 % 2 = 0 then 35 else 36
    let chainId := subtract numSub / 2
    [(v.any (fun v => decide (v < 37)) && !unprotected,
        s!"Legacy txs need either v = 27/28 or v >= 37 (EIP-155 replay protection), got v = {doubleText v}"),
      (extracts && v.isNone,
        "The number Infinity cannot be converted to a BigInt because it is not an integer"),
      (extracts && !meetsEIP155 v opts.common.chainId,
        s!"Incompatible EIP155-based V {doubleText v} and chain id {opts.common.chainId}. See the Common parameter of the Transaction constructor to set the chain id."),
      (extracts && chainId != opts.common.chainId,
        "Common chain ID not matching the derived chain ID")]

def LegacyTx.checks (tx : LegacyTx) : List (Bool × String) :=
  valueOverflowCheck [("gasPrice", some tx.gasPrice)] 256 false ++
  legacyVChecks opts tx.toTransactionInterface ++
  [(decide (tx.gasPrice * tx.gasLimit > MAX_INTEGER),
    "gas limit * gasPrice cannot exceed MAX_INTEGER (2^256-1)")]

def createLegacyTx (txData : TxData) : Except String LegacyTx :=
  let tx := LegacyTx.ofData txData
  construct tx (sharedChecks opts txData tx.toTransactionInterface ++ tx.checks opts)

structure AccessList2930Tx extends TransactionInterface where
  chainId : Nat
  accessList : Item
  gasPrice : Nat
  deriving DecidableEq

def AccessList2930Tx.ofData (txData : TxData) : AccessList2930Tx :=
  { TransactionInterface.ofData txData with
    chainId := opts.common.chainId
    accessList := txData.accessList.getD (.list [])
    gasPrice := inputBigInt txData.gasPrice }

def AccessList2930Tx.checks (tx : AccessList2930Tx) : List (Bool × String) :=
  [(!opts.common.isActivatedEIP 2930, "EIP-2930 not enabled on Common")] ++
  accessListChecks tx.accessList ++
  valueOverflowCheck [("gasPrice", some tx.gasPrice)] 256 false ++
  [(decide (tx.gasPrice * tx.gasLimit > MAX_INTEGER),
      "gasLimit * gasPrice cannot exceed MAX_INTEGER"),
    validateYParity tx.toTransactionInterface, validateHighS opts tx.toTransactionInterface]

def createAccessList2930Tx (txData : TxData) : Except String AccessList2930Tx :=
  let tx := AccessList2930Tx.ofData opts txData
  construct tx (sharedChecks opts txData tx.toTransactionInterface ++ [chainIdCheck opts txData] ++
    tx.checks opts)

/-- What the types with a fee market have in common. -/
structure FeeMarketTx extends TransactionInterface where
  chainId : Nat
  accessList : Item
  maxPriorityFeePerGas : Nat
  maxFeePerGas : Nat
  deriving DecidableEq

def FeeMarketTx.ofData (txData : TxData) : FeeMarketTx :=
  { TransactionInterface.ofData txData with
    chainId := opts.common.chainId
    accessList := txData.accessList.getD (.list [])
    maxPriorityFeePerGas := inputBigInt txData.maxPriorityFeePerGas
    maxFeePerGas := inputBigInt txData.maxFeePerGas }

/-- The checks of the fees, with those that stand between them. -/
def FeeMarketTx.checks (tx : FeeMarketTx) (between : List (Bool × String)) :
    List (Bool × String) :=
  valueOverflowCheck [("maxFeePerGas", some tx.maxFeePerGas),
    ("maxPriorityFeePerGas", some tx.maxPriorityFeePerGas)] 256 false ++ between ++
  [(decide (tx.gasLimit * tx.maxFeePerGas > MAX_INTEGER),
      "gasLimit * maxFeePerGas cannot exceed MAX_INTEGER (2^256-1)"),
    (decide (tx.maxFeePerGas < tx.maxPriorityFeePerGas),
      "maxFeePerGas cannot be less than maxPriorityFeePerGas (The total must be the larger of the two)")]

structure FeeMarket1559Tx extends FeeMarketTx
  deriving DecidableEq

def FeeMarket1559Tx.ofData (txData : TxData) : FeeMarket1559Tx :=
  { FeeMarketTx.ofData opts txData with }

def FeeMarket1559Tx.checks (tx : FeeMarket1559Tx) : List (Bool × String) :=
  [(!opts.common.isActivatedEIP 1559, "EIP-1559 not enabled on Common")] ++
  accessListChecks tx.accessList ++ tx.toFeeMarketTx.checks [] ++
  [validateYParity tx.toTransactionInterface, validateHighS opts tx.toTransactionInterface]

def createFeeMarket1559Tx (txData : TxData) : Except String FeeMarket1559Tx :=
  let tx := FeeMarket1559Tx.ofData opts txData
  construct tx (sharedChecks opts txData tx.toTransactionInterface ++ [chainIdCheck opts txData] ++
    tx.checks opts)

/-- A transaction with blobs; a prefixed hex string is kept as its bytes. -/
structure Blob4844Tx extends FeeMarketTx where
  maxFeePerBlobGas : Nat
  blobVersionedHashes : List Bytes
  networkWrapperVersion : Option Nat
  blobs : Option (List Bytes)
  kzgCommitments : Option (List Bytes)
  kzgProofs : Option (List Bytes)
  deriving DecidableEq

/-- `blobs` makes a version where none is given. -/
def Blob4844Tx.ofData (txData : TxData) : Blob4844Tx :=
  let version := txData.networkWrapperVersion.map toBigInt
  let defaultVersion := if opts.common.isActivatedEIP 7594 then 1 else 0
  { FeeMarketTx.ofData opts txData with
    maxFeePerBlobGas := inputBigInt txData.maxFeePerBlobGas
    blobVersionedHashes := (elements txData.blobVersionedHashes).map inputBytes
    networkWrapperVersion := version <|> txData.blobs.map fun _ => defaultVersion
    blobs := txData.blobs.map (List.map toBytes)
    kzgCommitments := txData.kzgCommitments.map (List.map toBytes)
    kzgProofs := txData.kzgProofs.map (List.map toBytes) }

def networkWrapperChecks (txData : TxData) : List (Bool × String) :=
  match txData.networkWrapperVersion.map toBigInt with
  | none => []
  | some version =>
    [(decide ((toDouble version).getD doubleLimit ≥ 2 ^ 53), "Number exceeds 53 bits"),
      (version == 1 && !opts.common.isActivatedEIP 7594,
        "EIP-7594 not enabled on Common for EIP-7594 network wrapper version"),
      (version == 0 && opts.common.isActivatedEIP 7594,
        "EIP-7594 is active on Common for EIP-4844 network wrapper version"),
      (decide (version > 1), s!"Invalid networkWrapperVersion={version}")]

/-- `parseInt` of the two hexadecimal digits of a byte, which reads decimal digits only. -/
def parseIntOfByte (byte : UInt8) : Option Nat :=
  let high := byte.toNat / 16
  let low := byte.toNat % 16
  if high > 9 then none else if low > 9 then some high else some (high * 10 + low)

def versionedHashChecks (tx : Blob4844Tx) : List (Bool × String) :=
  tx.blobVersionedHashes.flatMap fun hash =>
    let version := hash.head?.bind parseIntOfByte
    [(hash.length != 32, "versioned hash is invalid length"),
      (version.isNone,
        "The number NaN cannot be converted to a BigInt because it is not an integer"),
      (version != some (opts.common.param "blobCommitmentVersionKzg"),
        "versioned hash does not start with KZG commitment version")]

def Blob4844Tx.checks (txData : TxData) (tx : Blob4844Tx) : List (Bool × String) :=
  let blobGasPerBlob := opts.common.param "blobGasPerBlob"
  let maxBlobGasPerBlock := opts.common.param "maxBlobGasPerBlock"
  let maxBlobsPerTx := opts.common.param "maxBlobsPerTx"
  let blobCount := tx.blobVersionedHashes.length
  [(!opts.common.isActivatedEIP 1559, "EIP-1559 not enabled on Common"),
    (!opts.common.isActivatedEIP 4844, "EIP-4844 not enabled on Common")] ++
  accessListChecks tx.accessList ++
  tx.toFeeMarketTx.checks (validateNotArray txData.entries) ++
  [validateYParity tx.toTransactionInterface, validateHighS opts tx.toTransactionInterface] ++
  versionedHashChecks opts tx ++
  [(decide (blobCount > maxBlobGasPerBlock / blobGasPerBlob),
      s!"tx causes total blob gas of {blobGasPerBlob * blobCount} to exceed maximum blob gas per block of {maxBlobGasPerBlock}"),
    (opts.common.isActivatedEIP 7594 && decide (blobCount > maxBlobsPerTx),
      s!"{blobCount} blobs exceeds max {maxBlobsPerTx} blobs per tx (EIP-7594)"),
    (blobCount == 0, "tx should contain at least one blob"),
    (tx.toAddress.isNone,
      "tx should have a \"to\" field and cannot be used to create contracts"),
    (tx.networkWrapperVersion.isSome && tx.blobs.isNone,
      "tx is not allowed to be in network wrapper format if no blob list is provided"),
    (tx.blobs.isSome && tx.kzgCommitments.isNone,
      "kzgCommitments are mandatory if blobs are provided"),
    (tx.blobs.isSome && tx.kzgProofs.isNone, "kzgProofs are mandatory if blobs are provided")]

def kzgCheck : Bool × String :=
  (!opts.common.kzg,
    "A common object with customCrypto.kzg initialized required to instantiate a 4844 blob tx")

/-- The constructor of `Blob4844Tx`. -/
def newBlob4844Tx (txData : TxData) : Except String Blob4844Tx :=
  let tx := Blob4844Tx.ofData opts txData
  construct tx (networkWrapperChecks opts txData ++
    sharedChecks opts txData tx.toTransactionInterface ++ [chainIdCheck opts txData] ++
    tx.checks opts txData)

/-- What is derived from the blobs is in the input. -/
def createBlob4844Tx (txData : TxData) : Except String Blob4844Tx :=
  throwFirst [kzgCheck opts] >>= fun _ => newBlob4844Tx opts txData

structure EOACode7702Tx extends FeeMarketTx where
  authorizationList : Item
  deriving DecidableEq

def EOACode7702Tx.ofData (txData : TxData) : EOACode7702Tx :=
  { FeeMarketTx.ofData opts txData with
    authorizationList := txData.authorizationList.getD (.list []) }

def EOACode7702Tx.checks (txData : TxData) (tx : EOACode7702Tx) : List (Bool × String) :=
  [(!opts.common.isActivatedEIP 7702, "EIP-7702 not enabled on Common")] ++
  accessListChecks tx.accessList ++ authorizationListChecks tx.authorizationList ++
  tx.toFeeMarketTx.checks (validateNotArray txData.entries) ++
  [validateYParity tx.toTransactionInterface, validateHighS opts tx.toTransactionInterface,
    (tx.toAddress.isNone,
      "tx should have a \"to\" field and cannot be used to create contracts")]

def createEOACode7702Tx (txData : TxData) : Except String EOACode7702Tx :=
  let tx := EOACode7702Tx.ofData opts txData
  construct tx (sharedChecks opts txData tx.toTransactionInterface ++ [chainIdCheck opts txData] ++
    tx.checks opts txData)

end Types

end EthereumJS.Tx
