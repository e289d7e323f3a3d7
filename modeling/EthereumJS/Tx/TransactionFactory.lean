import EthereumJS.Tx.Transaction

/-! # Encoding and decoding of transactions -/

namespace EthereumJS.Tx

open RLP

section Encode

def txTypeBytes : TransactionType → Bytes
  | .legacy => [0]
  | .accessListEIP2930 => [1]
  | .feeMarketEIP1559 => [2]
  | .blobEIP4844 => [3]
  | .eoaCodeEIP7702 => [4]

/-- A transaction of any type. -/
inductive Transaction
  | legacy (tx : LegacyTx)
  | accessList2930 (tx : AccessList2930Tx)
  | feeMarket1559 (tx : FeeMarket1559Tx)
  | blob4844 (tx : Blob4844Tx)
  | eoaCode7702 (tx : EOACode7702Tx)
  deriving DecidableEq

namespace Transaction

def type : Transaction → TransactionType
  | legacy _ => .legacy
  | accessList2930 _ => .accessListEIP2930
  | feeMarket1559 _ => .feeMarketEIP1559
  | blob4844 _ => .blobEIP4844
  | eoaCode7702 _ => .eoaCodeEIP7702

def base : Transaction → TransactionInterface
  | legacy tx => tx.toTransactionInterface
  | accessList2930 tx => tx.toTransactionInterface
  | feeMarket1559 tx => tx.toTransactionInterface
  | blob4844 tx => tx.toTransactionInterface
  | eoaCode7702 tx => tx.toTransactionInterface

end Transaction

def toItem (tx : TransactionInterface) : Item := .bytes (tx.toAddress.getD [])

def signatureItems (tx : TransactionInterface) : List Item :=
  [signatureItem tx.v, signatureItem tx.r, signatureItem tx.s]

def LegacyTx.raw (tx : LegacyTx) : List Item :=
  [integerItem tx.nonce, integerItem tx.gasPrice, integerItem tx.gasLimit,
    toItem tx.toTransactionInterface, integerItem tx.value, .bytes tx.data] ++
  signatureItems tx.toTransactionInterface

def AccessList2930Tx.raw (tx : AccessList2930Tx) : List Item :=
  [integerItem tx.chainId, integerItem tx.nonce, integerItem tx.gasPrice, integerItem tx.gasLimit,
    toItem tx.toTransactionInterface, integerItem tx.value, .bytes tx.data, tx.accessList] ++
  signatureItems tx.toTransactionInterface

/-- The values of a fee market transaction up to its access list. -/
def FeeMarketTx.raw (tx : FeeMarketTx) : List Item :=
  [integerItem tx.chainId, integerItem tx.nonce, integerItem tx.maxPriorityFeePerGas,
    integerItem tx.maxFeePerGas, integerItem tx.gasLimit, toItem tx.toTransactionInterface,
    integerItem tx.value, .bytes tx.data, tx.accessList]

def FeeMarket1559Tx.raw (tx : FeeMarket1559Tx) : List Item :=
  tx.toFeeMarketTx.raw ++ signatureItems tx.toTransactionInterface

def Blob4844Tx.raw (tx : Blob4844Tx) : List Item :=
  tx.toFeeMarketTx.raw ++
  [integerItem tx.maxFeePerBlobGas, .list (tx.blobVersionedHashes.map .bytes)] ++
  signatureItems tx.toTransactionInterface

def EOACode7702Tx.raw (tx : EOACode7702Tx) : List Item :=
  tx.toFeeMarketTx.raw ++ [tx.authorizationList] ++ signatureItems tx.toTransactionInterface

namespace Transaction

def raw : Transaction → List Item
  | legacy tx => tx.raw
  | accessList2930 tx => tx.raw
  | feeMarket1559 tx => tx.raw
  | blob4844 tx => tx.raw
  | eoaCode7702 tx => tx.raw

def serialize (tx : Transaction) : Bytes :=
  match tx with
  | legacy _ => encode (.list tx.raw)
  | _ => txTypeBytes tx.type ++ encode (.list tx.raw)

end Transaction

end Encode

section Decode

variable (opts : TxOptions) (values : List Item)

/-- An integer that a constructor is given in place of its bytes. -/
def bigIntValue (value : Option Item) : Option Item :=
  value.map fun item => .bytes (bigIntToBytes (toBigInt item))

def legacyTxData : TxData :=
  let field (i : Nat) := values[i]?
  { TxData.empty with
    nonce := field 0, gasPrice := field 1, gasLimit := field 2, toAddress := field 3
    value := field 4, data := field 5, v := field 6, r := field 7, s := field 8 }

def createLegacyTxFromBytesArray : Except String LegacyTx := do
  let field (i : Nat) := values[i]?
  throwFirst [(values.length != 6 && values.length != 9,
    "Invalid transaction. Only expecting 6 values (for unsigned tx) or 9 values (for signed tx).")]
  throwFirst (validateNoLeadingZeroes [("nonce", field 0), ("gasPrice", field 1),
    ("gasLimit", field 2), ("value", field 4), ("v", field 6), ("r", field 7), ("s", field 8)])
  createLegacyTx opts (legacyTxData values)

def accessList2930TxData : TxData :=
  let field (i : Nat) := values[i]?
  { TxData.empty with
    chainId := bigIntValue (field 0), nonce := field 1, gasPrice := field 2, gasLimit := field 3
    toAddress := field 4, value := field 5, data := field 6, accessList := field 7
    v := bigIntValue (field 8), r := field 9, s := field 10 }

def createAccessList2930TxFromBytesArray : Except String AccessList2930Tx := do
  let field (i : Nat) := values[i]?
  throwFirst [(values.length != 8 && values.length != 11,
    "Invalid EIP-2930 transaction. Only expecting 8 values (for unsigned tx) or 11 values (for signed tx).")]
  throwFirst (validateNotArray [("chainId", field 0), ("v", field 8)])
  throwFirst (validateNoLeadingZeroes [("nonce", field 1), ("gasPrice", field 2),
    ("gasLimit", field 3), ("value", field 5), ("v", field 8), ("r", field 9), ("s", field 10)])
  createAccessList2930Tx opts (accessList2930TxData values)

def feeMarket1559TxData : TxData :=
  let field (i : Nat) := values[i]?
  { TxData.empty with
    chainId := bigIntValue (field 0), nonce := field 1, maxPriorityFeePerGas := field 2
    maxFeePerGas := field 3, gasLimit := field 4, toAddress := field 5, value := field 6
    data := field 7, accessList := field 8, v := bigIntValue (field 9), r := field 10
    s := field 11 }

def create1559FeeMarketTxFromBytesArray : Except String FeeMarket1559Tx := do
  let field (i : Nat) := values[i]?
  throwFirst [(values.length != 9 && values.length != 12,
    "Invalid EIP-1559 transaction. Only expecting 9 values (for unsigned tx) or 12 values (for signed tx).")]
  throwFirst (validateNotArray [("chainId", field 0), ("v", field 9)])
  throwFirst (validateNoLeadingZeroes [("nonce", field 1), ("maxPriorityFeePerGas", field 2),
    ("maxFeePerGas", field 3), ("gasLimit", field 4), ("value", field 6), ("v", field 9),
    ("r", field 10), ("s", field 11)])
  createFeeMarket1559Tx opts (feeMarket1559TxData values)

def blob4844TxData : TxData :=
  let field (i : Nat) := values[i]?
  { TxData.empty with
    chainId := bigIntValue (field 0), nonce := field 1, maxPriorityFeePerGas := field 2
    maxFeePerGas := field 3, gasLimit := field 4, toAddress := field 5, value := field 6
    data := field 7, accessList := field 8, maxFeePerBlobGas := field 9
    blobVersionedHashes := field 10, v := bigIntValue (field 11), r := field 12
    s := field 13 }

def createBlob4844TxFromBytesArray : Except String Blob4844Tx := do
  let field (i : Nat) := values[i]?
  throwFirst [kzgCheck opts]
  throwFirst [(values.length != 11 && values.length != 14,
    "Invalid EIP-4844 transaction. Only expecting 11 values (for unsigned tx) or 14 values (for signed tx).")]
  throwFirst (validateNotArray [("chainId", field 0), ("v", field 11)])
  throwFirst (validateNoLeadingZeroes [("nonce", field 1), ("maxPriorityFeePerGas", field 2),
    ("maxFeePerGas", field 3), ("gasLimit", field 4), ("value", field 6),
    ("maxFeePerBlobGas", field 9), ("v", field 11), ("r", field 12), ("s", field 13)])
  newBlob4844Tx opts (blob4844TxData values)

def eoaCode7702TxData : TxData :=
  let field (i : Nat) := values[i]?
  { TxData.empty with
    chainId := bigIntValue (field 0), nonce := field 1, maxPriorityFeePerGas := field 2
    maxFeePerGas := field 3, gasLimit := field 4, toAddress := field 5, value := field 6
    data := field 7, accessList := field 8, authorizationList := field 9
    v := bigIntValue (field 10), r := field 11, s := field 12 }

def createEOACode7702TxFromBytesArray : Except String EOACode7702Tx := do
  let field (i : Nat) := values[i]?
  throwFirst [(values.length != 10 && values.length != 13,
    "Invalid EIP-7702 transaction. Only expecting 10 values (for unsigned tx) or 13 values (for signed tx).")]
  throwFirst (validateNotArray [("chainId", field 0), ("v", field 10)])
  throwFirst (validateNoLeadingZeroes [("nonce", field 1), ("maxPriorityFeePerGas", field 2),
    ("maxFeePerGas", field 3), ("gasLimit", field 4), ("value", field 6), ("v", field 10),
    ("r", field 11), ("s", field 12)])
  createEOACode7702Tx opts (eoaCode7702TxData values)

/-- The values of the RLP list in a serialized transaction. -/
def decodeValues (payload : Bytes) (notArray : String) : Except String (List Item) :=
  match decode payload with
  | .error e => .error e.message
  | .ok (.bytes _) => .error notArray
  | .ok (.list values) => .ok values

/-- The checks of the type byte in the functions behind the switch hold already. -/
def createTxFromRLP (data : Bytes) : Except String Transaction :=
  let notArray := "Invalid serialized tx input: must be array"
  let legacy := do
    let values ← decodeValues data "Invalid serialized tx input. Must be array"
    Transaction.legacy <$> createLegacyTxFromBytesArray opts values
  match data with
  | [] => legacy
  | type :: payload =>
    if type > 0x7f then legacy
    else if type = 1 then do
      let values ← decodeValues payload notArray
      Transaction.accessList2930 <$> createAccessList2930TxFromBytesArray opts values
    else if type = 2 then do
      let values ← decodeValues payload notArray
      Transaction.feeMarket1559 <$> create1559FeeMarketTxFromBytesArray opts values
    else if type = 3 then do
      throwFirst [kzgCheck opts]
      let values ← decodeValues payload notArray
      Transaction.blob4844 <$> createBlob4844TxFromBytesArray opts values
    else if type = 4 then do
      let values ← decodeValues payload notArray
      Transaction.eoaCode7702 <$> createEOACode7702TxFromBytesArray opts values
    else .error s!"TypedTransaction with ID {type} unknown"

end Decode

end EthereumJS.Tx
