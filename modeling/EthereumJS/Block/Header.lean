import EthereumJS.Common.Hardfork
import EthereumJS.Util.Values

/-! # Block headers

The header of `packages/block`: its constructor with all checks, the conversion from and to a
list of values, and the hardforks of `packages/common` that decide which fields there are. The
options are the default ones; the texts of the checks lack the description of the header that
`_errorMsg` appends.
-/

namespace EthereumJS.Block

open RLP

inductive ConsensusAlgorithm
  | ethash
  | clique
  | casper
  deriving DecidableEq

/-- What a header asks of its chain at a hardfork. -/
structure Common where
  hardfork : Hardfork
  algorithm : ConsensusAlgorithm
  epoch : Nat
  hardforkBlock : Hardfork → Option Nat
  initialBaseFee : Nat
  maxExtraDataSize : Nat

namespace Common

variable (common : Common)

def isActivatedEIP (eip : Nat) : Bool := common.hardfork.isActivatedEIP eip

/-- The algorithm of the chain until `paris`, which brings its own. -/
def consensusAlgorithm : ConsensusAlgorithm :=
  if common.hardfork.gteHardfork .paris then .casper else common.algorithm

end Common

structure HeaderData where
  parentHash : Option Bytes
  uncleHash : Option Bytes
  coinbase : Option Bytes
  stateRoot : Option Bytes
  transactionsTrie : Option Bytes
  receiptTrie : Option Bytes
  logsBloom : Option Bytes
  difficulty : Option Nat
  number : Option Nat
  gasLimit : Option Nat
  gasUsed : Option Nat
  timestamp : Option Nat
  extraData : Option Bytes
  mixHash : Option Bytes
  nonce : Option Bytes
  baseFeePerGas : Option Nat
  withdrawalsRoot : Option Bytes
  blobGasUsed : Option Nat
  excessBlobGas : Option Nat
  parentBeaconBlockRoot : Option Bytes
  requestsHash : Option Bytes
  blockAccessListHash : Option Bytes
  slotNumber : Option Nat

structure BlockHeader where
  parentHash : Bytes
  uncleHash : Bytes
  coinbase : Bytes
  stateRoot : Bytes
  transactionsTrie : Bytes
  receiptTrie : Bytes
  logsBloom : Bytes
  difficulty : Nat
  number : Nat
  gasLimit : Nat
  gasUsed : Nat
  timestamp : Nat
  extraData : Bytes
  mixHash : Bytes
  nonce : Bytes
  baseFeePerGas : Option Nat
  withdrawalsRoot : Option Bytes
  blobGasUsed : Option Nat
  excessBlobGas : Option Nat
  parentBeaconBlockRoot : Option Bytes
  requestsHash : Option Bytes
  blockAccessListHash : Option Bytes
  slotNumber : Option Nat
  deriving DecidableEq

def KECCAK256_RLP_ARRAY : Bytes :=
  [0x1d, 0xcc, 0x4d, 0xe8, 0xde, 0xc7, 0x5d, 0x7a, 0xab, 0x85, 0xb5, 0x67, 0xb6, 0xcc, 0xd4, 0x1a,
    0xd3, 0x12, 0x45, 0x1b, 0x94, 0x8a, 0x74, 0x13, 0xf0, 0xa1, 0x42, 0xfd, 0x40, 0xd4, 0x93, 0x47]

def KECCAK256_RLP : Bytes :=
  [0x56, 0xe8, 0x1f, 0x17, 0x1b, 0xcc, 0x55, 0xa6, 0xff, 0x83, 0x45, 0xe6, 0x92, 0xc0, 0xf8, 0x6e,
    0x5b, 0x48, 0xe0, 0x1b, 0x99, 0x6c, 0xad, 0xc0, 0x01, 0x62, 0x2f, 0xb5, 0xe3, 0x63, 0xb4, 0x21]

def SHA256_NULL : Bytes :=
  [0xe3, 0xb0, 0xc4, 0x42, 0x98, 0xfc, 0x1c, 0x14, 0x9a, 0xfb, 0xf4, 0xc8, 0x99, 0x6f, 0xb9, 0x24,
    0x27, 0xae, 0x41, 0xe4, 0x64, 0x9b, 0x93, 0x4c, 0xa4, 0x95, 0x99, 0x1b, 0x78, 0x52, 0xb8, 0x55]

def DEFAULT_GAS_LIMIT : Nat := 0xffffffffffffff

section Constructor

variable (common : Common)

/-- The fields with their defaults; those of the hardfork have one if their EIP is active. -/
def BlockHeader.ofData (data : HeaderData) : BlockHeader :=
  let number := data.number.getD 0
  let hardforkDefault {α : Type} (eip : Nat) (value : α) : Option α :=
    if common.isActivatedEIP eip then some value else none
  { parentHash := data.parentHash.getD (List.replicate 32 0)
    uncleHash := data.uncleHash.getD KECCAK256_RLP_ARRAY
    coinbase := data.coinbase.getD (List.replicate 20 0)
    stateRoot := data.stateRoot.getD (List.replicate 32 0)
    transactionsTrie := data.transactionsTrie.getD KECCAK256_RLP
    receiptTrie := data.receiptTrie.getD KECCAK256_RLP
    logsBloom := data.logsBloom.getD (List.replicate 256 0)
    difficulty := data.difficulty.getD 0
    number := number
    gasLimit := data.gasLimit.getD DEFAULT_GAS_LIMIT
    gasUsed := data.gasUsed.getD 0
    timestamp := data.timestamp.getD 0
    extraData := data.extraData.getD []
    mixHash := data.mixHash.getD (List.replicate 32 0)
    nonce := data.nonce.getD (List.replicate 8 0)
    baseFeePerGas := data.baseFeePerGas <|> hardforkDefault 1559
      (if common.hardforkBlock .london = some number then common.initialBaseFee else 7)
    withdrawalsRoot := data.withdrawalsRoot <|> hardforkDefault 4895 KECCAK256_RLP
    blobGasUsed := data.blobGasUsed <|> hardforkDefault 4844 0
    excessBlobGas := data.excessBlobGas <|> hardforkDefault 4844 0
    parentBeaconBlockRoot :=
      data.parentBeaconBlockRoot <|> hardforkDefault 4788 (List.replicate 32 0)
    requestsHash := data.requestsHash <|> hardforkDefault 7685 SHA256_NULL
    blockAccessListHash := data.blockAccessListHash <|> hardforkDefault 7928 (List.replicate 32 0)
    slotNumber := data.slotNumber <|> hardforkDefault 7843 0 }

variable (header : BlockHeader)

/-- The fields that may only be there when their EIP is active. -/
def forkFieldChecks : List (Bool × String) :=
  [(!common.isActivatedEIP 1559 && header.baseFeePerGas.isSome,
      "A base fee for a block can only be set with EIP1559 being activated"),
    (!common.isActivatedEIP 4895 && header.withdrawalsRoot.isSome,
      "A withdrawalsRoot for a header can only be provided with EIP4895 being activated"),
    (!common.isActivatedEIP 4844 && header.blobGasUsed.isSome,
      "blob gas used can only be provided with EIP4844 activated"),
    (!common.isActivatedEIP 4844 && header.excessBlobGas.isSome,
      "excess blob gas can only be provided with EIP4844 activated"),
    (!common.isActivatedEIP 4788 && header.parentBeaconBlockRoot.isSome,
      "A parentBeaconBlockRoot for a header can only be provided with EIP4788 being activated"),
    (!common.isActivatedEIP 7685 && header.requestsHash.isSome,
      "requestsHash can only be provided with EIP 7685 activated"),
    (!common.isActivatedEIP 7928 && header.blockAccessListHash.isSome,
      "blockAccessListHash can only be provided with EIP 7928 activated"),
    (!common.isActivatedEIP 7843 && header.slotNumber.isSome,
      "slotNumber can only be provided with EIP 7843 activated")]

def lengthCheck (name : String) (length : Nat) (field : Bytes) : Bool × String :=
  (field.length != length, s!"{name} must be {length} bytes, received {field.length} bytes")

/-- The length of a field of an active EIP, which must be there. -/
def forkLengthChecks (eip : Nat) (name : String) (field : Option Bytes) : List (Bool × String) :=
  let length := (field.getD []).length
  [(common.isActivatedEIP eip && field.isNone, s!"EIP{eip} block has no {name} field"),
    (common.isActivatedEIP eip && length != 32,
      s!"{name} must be 32 bytes, received {length} bytes")]

def genericFormatChecks : List (Bool × String) :=
  [lengthCheck "parentHash" 32 header.parentHash,
    lengthCheck "stateRoot" 32 header.stateRoot,
    lengthCheck "transactionsTrie" 32 header.transactionsTrie,
    lengthCheck "receiptTrie" 32 header.receiptTrie,
    lengthCheck "mixHash" 32 header.mixHash,
    lengthCheck "nonce" 8 header.nonce,
    (decide (header.gasUsed > header.gasLimit),
      s!"Invalid block: too much gas used. Used: {header.gasUsed}, gas limit: {header.gasLimit}"),
    (common.isActivatedEIP 1559 && header.baseFeePerGas.isNone,
      "EIP1559 block has no base fee field"),
    (common.isActivatedEIP 1559 && common.hardforkBlock .london != some 0 &&
        common.hardforkBlock .london == some header.number &&
        header.baseFeePerGas != some common.initialBaseFee,
      "Initial EIP1559 block does not have initial base fee")] ++
  forkLengthChecks common 4895 "withdrawalsRoot" header.withdrawalsRoot ++
  forkLengthChecks common 4788 "parentBeaconBlockRoot" header.parentBeaconBlockRoot ++
  [(common.isActivatedEIP 7685 && header.requestsHash.isNone,
      "EIP7685 block has no requestsHash field")] ++
  forkLengthChecks common 7928 "blockAccessListHash" header.blockAccessListHash ++
  [(common.isActivatedEIP 7843 && header.slotNumber.isNone,
      "EIP7843 block has no slotNumber field")]

/-- The bytes of `dao-hard-fork`. -/
def DAO_ExtraData : Bytes :=
  [0x64, 0x61, 0x6f, 0x2d, 0x68, 0x61, 0x72, 0x64, 0x2d, 0x66, 0x6f, 0x72, 0x6b]

/-- The text of an array of bytes. -/
def arrayText (bytes : Bytes) : String := String.intercalate "," (bytes.map fun b => toString b)

def daoExtraDataChecks : List (Bool × String) :=
  match common.hardforkBlock .dao with
  | none => []
  | some DAOActivationBlock =>
    [(DAOActivationBlock != 0 && decide (DAOActivationBlock ≤ header.number) &&
        decide (header.number - DAOActivationBlock ≤ 9) && header.extraData != DAO_ExtraData,
      s!"extraData should be 'dao-hard-fork', got (hex: {hexText header.extraData})")]

def CLIQUE_EXTRA_VANITY : Nat := 32

def CLIQUE_EXTRA_SEAL : Nat := 65

def cliqueChecks : List (Bool × String) :=
  let minLength := CLIQUE_EXTRA_VANITY + CLIQUE_EXTRA_SEAL
  let length := header.extraData.length
  let isEpochTransition := header.number % common.epoch == 0
  -- A negative number of signer bytes has the remainder of its absolute value.
  let signerLength := (length : Int) - minLength
  [(!isEpochTransition && length != minLength,
      s!"extraData must be {minLength} bytes on non-epoch transition blocks, received {length} bytes"),
    (isEpochTransition && signerLength.natAbs % 20 != 0,
      s!"invalid signer list length in extraData, received signer length of {signerLength} (not divisible by 20)"),
    (isEpochTransition && header.coinbase != List.replicate 20 0,
      s!"coinbase must be filled with zeros on epoch transition blocks, received {hexText header.coinbase}"),
    (header.mixHash != List.replicate 32 0,
      s!"mixHash must be filled with zeros, received {arrayText header.mixHash}")]

/-- What a block of proof of stake has wrong, in one text. -/
def posErrors : String :=
  let uncleError := if header.uncleHash = KECCAK256_RLP_ARRAY then "" else
    s!", uncleHash: {hexText header.uncleHash} (expected: {hexText KECCAK256_RLP_ARRAY})"
  let difficultyError := if header.number = 0 ∨ header.difficulty = 0 then "" else
    s!", difficulty: {header.difficulty} (expected: 0)"
  let extraDataError := if header.number = 0 ∨ header.extraData.length ≤ 32 then "" else
    s!", extraData: {hexText header.extraData} (cannot exceed 32 bytes length, received {header.extraData.length} bytes)"
  let nonceError := if header.number = 0 ∨ header.nonce = List.replicate 8 0 then "" else
    s!", nonce: {hexText header.nonce} (expected: {hexText (List.replicate 8 0)})"
  uncleError ++ difficultyError ++ extraDataError ++ nonceError

def consensusFormatChecks : List (Bool × String) :=
  match common.consensusAlgorithm with
  | .ethash =>
    [(decide (header.number > 0) && decide (header.extraData.length > common.maxExtraDataSize),
      "invalid amount of extra data")]
  | .clique => cliqueChecks common header
  | .casper => [(posErrors header != "", s!"Invalid PoS block: {posErrors header}")]

def headerChecks : List (Bool × String) :=
  [(header.coinbase.length != 20, "Invalid address length")] ++
    forkFieldChecks common header ++ genericFormatChecks common header ++
    daoExtraDataChecks common header ++ consensusFormatChecks common header

def createBlockHeader (data : HeaderData) : Except String BlockHeader :=
  let header := BlockHeader.ofData common data
  throwFirst (headerChecks common header) >>= fun _ => .ok header

/-- The values of a header in their order. -/
def BlockHeader.raw : List Item :=
  let integer (value : Nat) : Item := .bytes (bigIntToUnpaddedBytes value)
  [.bytes header.parentHash, .bytes header.uncleHash, .bytes header.coinbase,
    .bytes header.stateRoot, .bytes header.transactionsTrie, .bytes header.receiptTrie,
    .bytes header.logsBloom, integer header.difficulty, integer header.number,
    integer header.gasLimit, integer header.gasUsed, integer header.timestamp,
    .bytes header.extraData, .bytes header.mixHash, .bytes header.nonce] ++
  (if common.isActivatedEIP 1559 then [integer (header.baseFeePerGas.getD 0)] else []) ++
  (if common.isActivatedEIP 4895 then [.bytes (header.withdrawalsRoot.getD [])] else []) ++
  (if common.isActivatedEIP 4844 then
    [integer (header.blobGasUsed.getD 0), integer (header.excessBlobGas.getD 0)] else []) ++
  (if common.isActivatedEIP 4788 then [.bytes (header.parentBeaconBlockRoot.getD [])] else []) ++
  (if common.isActivatedEIP 7685 then [.bytes (header.requestsHash.getD [])] else []) ++
  (if common.isActivatedEIP 7928 then [.bytes (header.blockAccessListHash.getD [])] else []) ++
  (if common.isActivatedEIP 7843 then [integer (header.slotNumber.getD 0)] else [])

def BlockHeader.serialize : Bytes := encode (.list (header.raw common))

end Constructor

section Decode

def valuesArrayToHeaderData (values : List Item) : Except String HeaderData :=
  let bytes (i : Nat) := values[i]?.map toBytes
  let integer (i : Nat) := values[i]?.map toBigInt
  if values.length > 23 then
    .error s!"invalid header. More values than expected were received. Max: 23, got: {values.length}"
  else if values.length < 15 then
    .error s!"invalid header. Less values than expected were received. Min: 15, got: {values.length}"
  else .ok
    { parentHash := bytes 0, uncleHash := bytes 1, coinbase := bytes 2, stateRoot := bytes 3
      transactionsTrie := bytes 4, receiptTrie := bytes 5, logsBloom := bytes 6
      difficulty := integer 7, number := integer 8, gasLimit := integer 9, gasUsed := integer 10
      timestamp := integer 11, extraData := bytes 12, mixHash := bytes 13, nonce := bytes 14
      baseFeePerGas := integer 15, withdrawalsRoot := bytes 16, blobGasUsed := integer 17
      excessBlobGas := integer 18, parentBeaconBlockRoot := bytes 19, requestsHash := bytes 20
      blockAccessListHash := bytes 21, slotNumber := integer 22 }

variable (common : Common)

/-- The fields that must be among the values. The base fee is missed only in the block that
activates EIP-1559; the last two fields have their defaults by then. -/
def missingFieldChecks (values : List Item) (data : HeaderData) (header : BlockHeader) :
    List (Bool × String) :=
  [(common.isActivatedEIP 1559 && data.baseFeePerGas.isNone &&
      (common.hardforkBlock .london).isNone, "Cannot read properties of null"),
    (common.isActivatedEIP 1559 && data.baseFeePerGas.isNone &&
      (common.hardforkBlock .london).any fun block => values[8]? == some (.bytes (bigIntToBytes block)),
      "invalid header. baseFeePerGas should be provided"),
    (common.isActivatedEIP 4844 && data.excessBlobGas.isNone,
      "invalid header. excessBlobGas should be provided"),
    (common.isActivatedEIP 4844 && data.blobGasUsed.isNone,
      "invalid header. blobGasUsed should be provided"),
    (common.isActivatedEIP 4788 && data.parentBeaconBlockRoot.isNone,
      "invalid header. parentBeaconBlockRoot should be provided"),
    (common.isActivatedEIP 7685 && data.requestsHash.isNone,
      "invalid header. requestsHash should be provided"),
    (common.isActivatedEIP 7928 && header.blockAccessListHash.isNone,
      "invalid header. blockAccessListHash should be provided"),
    (common.isActivatedEIP 7843 && header.slotNumber.isNone,
      "invalid header. slotNumber should be provided")]

def createBlockHeaderFromBytesArray (values : List Item) : Except String BlockHeader := do
  let data ← valuesArrayToHeaderData values
  let header ← createBlockHeader common data
  throwFirst (missingFieldChecks common values data header)
  return header

def createBlockHeaderFromRLP (serializedHeaderData : Bytes) : Except String BlockHeader :=
  match decode serializedHeaderData with
  | .error e => .error e.message
  | .ok (.bytes _) => .error "Invalid serialized header input. Must be array"
  | .ok (.list values) => createBlockHeaderFromBytesArray common values

end Decode

end EthereumJS.Block
