import EthereumJS.Evm.Interpreter
import EthereumJS.Util.Bytes

/-! # The gas of `SSTORE`

The gas handler of `SSTORE` in `evm/src/opcodes/gas.ts` with `EIP1283.ts`, `EIP2200.ts` and the
part of `EIP2929.ts` it calls. Warmth of the slot and the gas of the access witness are given.
-/

namespace EthereumJS.Evm

open RLP Interpreter

/-- Storage values have at most 32 bytes, as `putStorage` checks. -/
def setLengthLeftStorage (value : Bytes) : Bytes :=
  if value.all (· = 0) then [] else List.replicate (32 - value.length) 0 ++ value

/-- The amounts that EIP-1283 and EIP-2200 name differently. -/
structure NetSstore where
  noop : ℤ
  init : ℤ
  clean : ℤ
  dirty : ℤ
  clearRefund : ℤ
  initRefund : ℤ
  cleanRefund : ℤ

/-- The first clause for a dirty slot. -/
def refundCleared (amounts : NetSstore) (currentStorage originalStorage value : Bytes) :
    Run Unit :=
  if originalStorage.length ≠ 0 then
    if currentStorage.length = 0 then subRefund amounts.clearRefund
    else if value.length = 0 then refundGas amounts.clearRefund
    else pure ()
  else pure ()

/-- The second clause for a dirty slot. -/
def refundRestored (amounts : NetSstore) (originalStorage value : Bytes) : Run Unit :=
  if originalStorage = value then
    if originalStorage.length = 0 then refundGas amounts.initRefund
    else refundGas amounts.cleanRefund
  else pure ()

/-- What `updateSstoreGasEIP1283` and `updateSstoreGasEIP2200` share. -/
def netSstoreGas (amounts : NetSstore) (currentStorage originalStorage value : Bytes) : Run ℤ :=
  if currentStorage = value then pure amounts.noop
  else if originalStorage = currentStorage then
    if originalStorage.length = 0 then pure amounts.init
    else if value.length = 0 then do
      refundGas amounts.clearRefund
      pure amounts.clean
    else pure amounts.clean
  else do
    refundCleared amounts currentStorage originalStorage value
    refundRestored amounts originalStorage value
    pure amounts.dirty

namespace Common

variable (common : Common)

/-- `adjustSstoreGasEIP2929`, with the cost of a warm slot in place of the name of the cost. -/
def adjustSstoreGasEIP2929 (isWarm : Bool) (defaultCost warmCost : ℤ) : ℤ :=
  if common.isActivatedEIP 2929 ∧ isWarm then warmCost else defaultCost

def sstoreAmountsEIP1283 : NetSstore where
  noop := common.param .netSstoreNoopGas
  init := common.param .netSstoreInitGas
  clean := common.param .netSstoreCleanGas
  dirty := common.param .netSstoreDirtyGas
  clearRefund := common.param .netSstoreClearRefundGas
  initRefund := common.param .netSstoreResetClearRefundGas
  cleanRefund := common.param .netSstoreResetRefundGas

def sstoreAmountsEIP2200 (isWarm : Bool) : NetSstore where
  noop := common.adjustSstoreGasEIP2929 isWarm (common.param .sstoreNoopEIP2200Gas)
    (common.param .warmstoragereadGas)
  init := common.param .sstoreInitEIP2200Gas
  clean := common.param .sstoreCleanEIP2200Gas
  dirty := common.param .sstoreDirtyEIP2200Gas
  clearRefund := common.param .sstoreClearRefundEIP2200Gas
  initRefund := common.adjustSstoreGasEIP2929 isWarm (common.param .sstoreInitRefundEIP2200Gas)
    (common.param .sstoreInitEIP2200Gas - common.param .warmstoragereadGas)
  cleanRefund := common.adjustSstoreGasEIP2929 isWarm (common.param .sstoreCleanRefundEIP2200Gas)
    (common.param .sstoreResetGas - common.param .coldsloadGas -
      common.param .warmstoragereadGas)

/-- `accessStorageEIP2929` as far as the gas goes. -/
def accessStorageEIP2929 (isWarm isSstore chargeGas : Bool) : ℤ :=
  if ¬common.isActivatedEIP 2929 then 0
  else if ¬isWarm then
    if chargeGas ∧ ¬common.isStateless then common.param .coldsloadGas else 0
  else if chargeGas ∧ (¬isSstore ∨ common.isStateless) then common.param .warmstoragereadGas
  else 0

end Common

def updateSstoreGasEIP1283 (common : Common) (currentStorage originalStorage value : Bytes) :
    Run ℤ :=
  netSstoreGas common.sstoreAmountsEIP1283 currentStorage originalStorage value

def updateSstoreGasEIP2200 (common : Common) (isWarm : Bool)
    (currentStorage originalStorage value : Bytes) : Run ℤ := do
  if (← get).gasLeft ≤ common.param .sstoreSentryEIP2200Gas then throw .OUT_OF_GAS
  netSstoreGas (common.sstoreAmountsEIP2200 isWarm) currentStorage originalStorage value

def updateSstoreGas (common : Common) (currentStorage value : Bytes) : Run ℤ :=
  if value.length = 0 ∧ currentStorage.length = 0 ∨
      value.length > 0 ∧ currentStorage.length > 0 then
    pure (common.param .sstoreResetGas)
  else if value.length = 0 ∧ currentStorage.length > 0 then do
    refundGas (common.param .sstoreRefundGas)
    pure (common.param .sstoreResetGas)
  else pure (common.param .sstoreSetGas)

/-- An address and a key. -/
abbrev Slot := Bytes × Bytes

abbrev Storage := Slot → Bytes

/-- An `SSTORE` with what its handlers read of the frame, the journal and the witness. -/
structure Sstore where
  slot : Slot
  val : Nat
  isStatic : Bool
  isWarm : Bool
  coldAccessGas : ℤ
  statelessGas : ℤ

namespace Sstore

/-- The shortest representation of the value. -/
def value (op : Sstore) : Bytes := if op.val = 0 then [] else bigIntToBytes op.val

/-- The rules for storage gas that the hardfork has. -/
def updateGas (common : Common) (original storage : Storage) (op : Sstore) : Run ℤ :=
  let currentStorage := setLengthLeftStorage (storage op.slot)
  let originalStorage := setLengthLeftStorage (original op.slot)
  let value := setLengthLeftStorage op.value
  if common.hardfork = .constantinople then
    updateSstoreGasEIP1283 common currentStorage originalStorage value
  else if common.gteHardfork .istanbul then
    if common.isStateless then pure 0
    else updateSstoreGasEIP2200 common op.isWarm currentStorage originalStorage value
  else updateSstoreGas common currentStorage value

/-- The gas handler. -/
def gasHandler (common : Common) (original storage : Storage) (op : Sstore) (gas : ℤ) : Run ℤ :=
  if op.isStatic then throw .STATIC_STATE_CHANGE
  else do
    let sstoreGas ← op.updateGas common original storage
    let witnessGas := if common.isStateless then op.coldAccessGas else 0
    let charge2929Gas := !common.isStateless || op.coldAccessGas == 0
    pure (gas + sstoreGas + witnessGas +
      common.accessStorageEIP2929 op.isWarm true charge2929Gas)

/-- The step of the interpreter up to the write, with a base fee of 0. -/
def charge (common : Common) (original storage : Storage) (op : Sstore) : Run Unit := do
  let gas ← op.gasHandler common original storage 0
  useGas (gas + op.statelessGas)

end Sstore

end EthereumJS.Evm
