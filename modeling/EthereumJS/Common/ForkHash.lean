import EthereumJS.Common.Crc32
import EthereumJS.Common.HardforkBy
import EthereumJS.Util.BalOrder

/-! # Fork hashes

The fork hashes of `common.ts`: how a hash that the schedule of a chain does not give is computed,
and what the hashes and the points of the forks are looked up for.
-/

namespace EthereumJS.ForkId

open RLP Tx HardforkSchedule

/-- A `HardforkTransitionConfig` with its fork hash, a prefixed hex string. -/
structure ForkTransition extends HardforkTransitionConfig where
  forkHash : Option HexString
  deriving DecidableEq

structure ForkConfig where
  hardforks : List ForkTransition
  /-- The names of `customHardforks`. -/
  customHardforks : List String

/-- `hardforks`. -/
def ForkConfig.transitions (chain : ForkConfig) : List ForkTransition :=
  chain.hardforks ++
    (chain.customHardforks.filter fun name =>
      !(chain.hardforks.map fun hf => hf.name).contains name).map
      fun name => ⟨⟨name, none, none⟩, none⟩

inductive ForkIdError
  | thrown (msg : String)
  | bytes (error : BytesError)
  deriving DecidableEq

/-- `Hardfork.Paris`. -/
def paris : String := "paris"

/-- `hf.timestamp ?? hf.block`. -/
def ForkTransition.blockOrTimestamp (hf : ForkTransition) : Option Timestamp :=
  hf.timestamp <|> hf.block.map .number

section Hash

/-- `padStart(targetLength, '0')`. -/
def padStart (text : HexString) (targetLength : Nat) : HexString :=
  List.replicate (targetLength - text.length) '0' ++ text

/-- `toString(16)` of a double, where `none` is infinity. -/
def doubleToHex : Option Nat → HexString
  | some blockOrTime => (toHexDigits blockOrTime).map hexChar
  | none => ['I', 'n', 'f', 'i', 'n', 'i', 't', 'y']

def hfBlockBytes (blockOrTime : Option Nat) : Except BytesError Bytes :=
  hexToBytes ('0' :: 'x' :: padStart (doubleToHex blockOrTime) 16)

/-- One turn of the loop of `_calcForkHash`: forks without a point, at zero, at the point before and
the merge add nothing. -/
def hfStep (hf : ForkTransition) (hfBytes : Bytes) (prevBlockOrTime : Option Nat) :
    Except BytesError (Bytes × Option Nat) :=
  match hf.blockOrTimestamp with
  | none => .ok (hfBytes, prevBlockOrTime)
  | some value =>
    let blockOrTime := toDouble value.toBigInt
    if blockOrTime ≠ some 0 ∧ blockOrTime ≠ prevBlockOrTime ∧ hf.name ≠ paris then do
      let hfBlock ← hfBlockBytes blockOrTime
      .ok (hfBytes ++ hfBlock, blockOrTime)
    else .ok (hfBytes, prevBlockOrTime)

/-- The loop of `_calcForkHash`, which stops behind the fork that is asked for. -/
def hfBytesLoop (hardfork : String) :
    List ForkTransition → Bytes → Option Nat → Except BytesError Bytes
  | [], hfBytes, _ => .ok hfBytes
  | hf :: hfs, hfBytes, prevBlockOrTime => do
    let (hfBytes, prevBlockOrTime) ← hfStep hf hfBytes prevBlockOrTime
    if hf.name = hardfork then .ok hfBytes
    else hfBytesLoop hardfork hfs hfBytes prevBlockOrTime

/-- `intToBytes` as the source has it: no more bytes than the number needs. -/
def checksumHex (inputBytes : Bytes) : HexString := bytesToHex (bigIntToBytes (crc32 inputBytes))

/-- `_calcForkHash`. -/
def calcForkHash (chain : ForkConfig) (hardfork : String) (genesisHash : Bytes) :
    Except ForkIdError HexString :=
  match hfBytesLoop hardfork chain.transitions [] (some 0) with
  | .ok hfBytes => .ok (checksumHex (genesisHash ++ hfBytes))
  | .error error => .error (.bytes error)

/-- `_getHardfork`. -/
def getHardfork (chain : ForkConfig) (hardfork : String) : Option ForkTransition :=
  chain.transitions.find? fun hf => hf.name = hardfork

def forkHash (chain : ForkConfig) (hardfork : String) (genesisHash : Option Bytes) :
    Except ForkIdError HexString :=
  match getHardfork chain hardfork with
  | none => .error (.thrown "No fork hash calculation possible for future hardfork")
  | some data =>
    if data.block = none ∧ data.timestamp = none then
      .error (.thrown "No fork hash calculation possible for future hardfork")
    else
      match data.forkHash, genesisHash with
      | some hash, _ => .ok hash
      | none, none => .error (.thrown "genesisHash required for forkHash calculation")
      | none, some genesisHash => calcForkHash chain hardfork genesisHash

/-- The loop of `setForkHashes` over the entries, which it changes; a custom hardfork without an
entry has no point. -/
def setForkHashesLoop (chain : ForkConfig) (genesisHash : Bytes) (done : List ForkTransition) :
    List ForkTransition → Except ForkIdError (List ForkTransition)
  | [] => .ok done
  | hf :: hfs =>
    if hf.forkHash = none ∧ hf.blockOrTimestamp ≠ none then do
      let current := { chain with hardforks := done ++ hf :: hfs }
      let hash ← forkHash current hf.name (some genesisHash)
      setForkHashesLoop chain genesisHash (done ++ [{ hf with forkHash := some hash }]) hfs
    else setForkHashesLoop chain genesisHash (done ++ [hf]) hfs

def setForkHashes (chain : ForkConfig) (genesisHash : Bytes) : Except ForkIdError ForkConfig := do
  let hardforks ← setForkHashesLoop chain genesisHash [] chain.hardforks
  .ok { chain with hardforks := hardforks }

end Hash

section Lookup

def hardforkForForkHash (chain : ForkConfig) (forkHash : HexString) : Option ForkTransition :=
  (chain.transitions.filter fun hf => hf.forkHash = some forkHash).getLast?

/-- The index that `nextHardforkBlockOrTimestamp` starts from; `none` is an index below zero. -/
def targetHfIndex (hfs : List ForkTransition) (targetHardfork : String) : Option Nat :=
  match hfs.findIdx? fun hf => hf.name = targetHardfork with
  | none => none
  | some index =>
    if targetHardfork = paris then if index = 0 then none else some (index - 1) else some index

def nextHardforkBlockOrTimestamp (chain : ForkConfig) (targetHardfork : String) : Option Nat :=
  match targetHfIndex chain.transitions targetHardfork with
  | none => none
  | some index =>
    match chain.transitions[index]?.bind ForkTransition.blockOrTimestamp with
    | none => none
    | some currentBlockOrTimestamp =>
      let nextHf := (chain.transitions.drop (index + 1)).find? fun hf =>
        hf.blockOrTimestamp ≠ none ∧ hf.blockOrTimestamp ≠ some currentBlockOrTimestamp
      (nextHf.bind ForkTransition.blockOrTimestamp).map Timestamp.toBigInt

/-- The loop of `hardforkGteHardfork`, which keeps the last index of a name. -/
def position (name : String) : List ForkTransition → Int → Int → Int
  | [], _, pos => pos
  | hf :: hfs, index, pos => position name hfs (index + 1) (if hf.name = name then index else pos)

def hardforkGteHardfork (chain : ForkConfig) (hardfork1 hardfork2 : String) : Bool :=
  let posHf1 := position hardfork1 chain.transitions 0 (-1)
  let posHf2 := position hardfork2 chain.transitions 0 (-1)
  posHf1 ≥ posHf2 ∧ posHf2 ≠ -1

def hardforkBlock (chain : ForkConfig) (hardfork : String) : Option Nat :=
  (getHardfork chain hardfork).bind fun hf => hf.block

end Lookup

end EthereumJS.ForkId
