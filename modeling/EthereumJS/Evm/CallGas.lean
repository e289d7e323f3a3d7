import EthereumJS.Evm.Interpreter
import Mathlib.Tactic.Linarith

/-! # The gas of calls and creates

The gas handlers of `CALL`, `CALLCODE`, `DELEGATECALL`, `STATICCALL`, `CREATE` and `CREATE2` in
`evm/src/opcodes/gas.ts` and `EIP7928.ts`, and what `runStep` and the opcodes do until the child
frame gets its gas limit. What they read of the state, the journal and the access witness is given.
-/

namespace EthereumJS.Evm

open Overlay

structure Memory where
  memoryWordCount : ℕ
  highestMemCost : ℕ
  deriving DecidableEq

structure RunState where
  interpreter : Interpreter
  memory : Memory
  messageGasLimit : Option ℤ
  eip7928PostTargetCallOog : Bool
  eip7928PostTargetCreateOog : Bool
  deriving DecidableEq

abbrev Step := EStateM EVMError RunState

/-- A step of the interpreter. -/
def onInterpreter {α : Type} (x : Run α) : Step α := fun s =>
  match x s.interpreter with
  | .ok a interpreter => .ok a { s with interpreter := interpreter }
  | .error e interpreter => .error e { s with interpreter := interpreter }

def trapIf (condition : Bool) (error : EVMError) : Step Unit :=
  if condition then throw error else pure ()

inductive Opcode
  | CALL
  | CALLCODE
  | DELEGATECALL
  | STATICCALL
  | CREATE
  | CREATE2
  deriving DecidableEq

/-- The operands on the stack, where those of a create are `value`, `inOffset` and `inLength`, and
what the handlers read. -/
structure CallInput where
  currentGasLimit : ℕ
  value : ℕ
  inOffset : ℕ
  inLength : ℕ
  outOffset : ℕ
  outLength : ℕ
  isStatic : Bool
  isPrecompile : Bool
  targetIsWarm : Bool
  readTargetGas : ℕ
  writeCallerGas : ℕ
  writeTargetGas : ℕ
  targetIsMissing : Bool
  targetIsEmpty : Bool
  /-- Whether the address that the code of the target delegates to is warm. -/
  delegationIsWarm : Option Bool
  allowUnlimitedInitCodeSize : Bool
  isEOF : Bool
  /-- The gas for the chunk of code that the opcode is read from. -/
  chunkGas : ℕ

def divCeil (a b : ℕ) : ℕ := (a + b - 1) / b

/-- The cost of a memory access and the memory after it. -/
def memoryExpansion (common : Common) (memory : Memory) (offset length : ℕ) : ℕ × Memory :=
  if length = 0 then (0, memory)
  else
    let words := divCeil (offset + length) 32
    if words ≤ memory.memoryWordCount then (0, memory)
    else
      let cost := words * common.param .memoryGas +
        words * words / common.param .quadCoefficientDivGas
      if cost > memory.highestMemCost then (cost - memory.highestMemCost, ⟨words, cost⟩)
      else (cost, { memory with memoryWordCount := words })

def subMemUsage (common : Common) (offset length : ℕ) : Step ℤ := fun s =>
  .ok (memoryExpansion common s.memory offset length).1
    { s with memory := (memoryExpansion common s.memory offset length).2 }

namespace Common

variable (common : Common)

def maxCallGas (gasLimit gasLeft : ℤ) : ℤ :=
  if common.gteHardfork .tangerineWhistle then
    let gasAllowed := gasLeft - gasLeft.tdiv 64
    if gasLimit > gasAllowed then gasAllowed else gasLimit
  else gasLimit

def getAddressAccessCost (isWarm chargeGas : Bool) : ℕ :=
  if ¬common.isActivatedEIP 2929 ∨ ¬chargeGas then 0
  else if isWarm ∨ common.isActivatedEIP 7864 then common.param .warmstoragereadGas
  else common.param .coldaccountaccessGas

def newAccountStateGasCost : ℕ :=
  if common.isActivatedEIP 8037 then
    common.param .stateBytesPerNewAccount * common.param .costPerStateByte
  else 0

end Common

def getGasLeft : Step ℤ := do return (← get).interpreter.gasLeft

def canAfford (s : RunState) (regularGas stateGas : ℤ) : Bool :=
  regularGas + stateGas ≤ s.interpreter.gasLeft + s.interpreter.evm.stateGasReservoir

def eip7928TrapPreTarget (common : Common) (gas : ℤ) : Step Unit := do
  let gasLeft ← getGasLeft
  trapIf (common.isActivatedEIP 7928 && gasLeft < gas) .OUT_OF_GAS

def eip7928SchedulePostTargetCallOog : Step ℤ := do
  modify fun s => { s with eip7928PostTargetCallOog := true }
  getGasLeft

def eip7928PostTargetCreateOog (common : Common) (gas : ℤ) : Step ℤ :=
  if ¬common.isActivatedEIP 7928 then throw .OUT_OF_GAS
  else do
    modify fun s => { s with messageGasLimit := some 0, eip7928PostTargetCreateOog := true }
    pure gas

def postTargetCallOogOrTrap (common : Common) : Step ℤ :=
  if ¬common.isActivatedEIP 7928 then throw .OUT_OF_GAS else eip7928SchedulePostTargetCallOog

namespace CallInput

variable (common : Common) (input : CallInput)

/-- The access witness charges for the target instead of EIP-2929, when it charges at all. -/
def readsWitness : Bool := common.isStateless && !input.isPrecompile

def charge2929Gas : Bool := !input.readsWitness common || input.readTargetGas == 0

def witnessGas (includeValueTransfer : Bool) : ℕ :=
  if input.readsWitness common then
    (if includeValueTransfer ∧ input.value ≠ 0 then input.writeCallerGas + input.writeTargetGas
      else 0) + input.readTargetGas
  else 0

def valueTransferGas (includeValueTransfer : Bool) : ℕ :=
  if includeValueTransfer ∧ input.value ≠ 0 ∧ ¬common.isStateless then
    common.param .callValueTransferGas
  else 0

def createsNewAccount : Bool :=
  if common.gteHardfork .spuriousDragon then input.targetIsEmpty else input.targetIsMissing

/-- `includeNewAccountPostCheck` and what `getCallNewAccountPostCosts` finds. -/
def paysNewAccount (includeNewAccountPostCheck : Bool) : Bool :=
  includeNewAccountPostCheck && (input.value ≠ 0 || !common.gteHardfork .spuriousDragon) &&
    input.createsNewAccount common

def newAccountGas (includeNewAccountPostCheck : Bool) : ℕ :=
  if input.paysNewAccount common includeNewAccountPostCheck then common.param .callNewAccountGas
  else 0

def newAccountStateGas (includeNewAccountPostCheck : Bool) : ℕ :=
  if input.paysNewAccount common includeNewAccountPostCheck then common.newAccountStateGasCost
  else 0

def delegates : Bool := common.isActivatedEIP 7702 && input.delegationIsWarm.isSome

def delegationGas : ℕ :=
  if common.isActivatedEIP 7702 then
    match input.delegationIsWarm with
    | some isWarm => common.getAddressAccessCost isWarm (input.charge2929Gas common)
    | none => 0
  else 0

end CallInput

def finalizeCallMessageGas (common : Common) (gas : ℤ) (currentGasLimit newAccountStateGas : ℕ) :
    Step ℤ := do
  let s ← get
  let gasLeft := s.interpreter.gasLeft
  let gasLimit := common.maxCallGas currentGasLimit (gasLeft - gas)
  if common.isActivatedEIP 7928 ∧ ¬canAfford s gas newAccountStateGas then
    eip7928SchedulePostTargetCallOog
  else if gasLimit > gasLeft - gas then postTargetCallOogOrTrap common
  else if gas > gasLeft then postTargetCallOogOrTrap common
  else do
    onInterpreter (if common.isActivatedEIP 8037 ∧ newAccountStateGas > 0 then
      Interpreter.chargeStateGas newAccountStateGas else pure ())
    modify fun s => { s with messageGasLimit := some gasLimit }
    pure gas

def callFamilyGas (common : Common) (gas : ℤ)
    (includeValueTransfer includeNewAccountPostCheck : Bool) (input : CallInput) : Step ℤ := do
  let inGas ← subMemUsage common input.inOffset input.inLength
  let outGas ← subMemUsage common input.outOffset input.outLength
  let gas := gas + inGas + outGas
  eip7928TrapPreTarget common gas
  let gas := gas + input.witnessGas common includeValueTransfer +
    common.getAddressAccessCost input.targetIsWarm (input.charge2929Gas common)
  let valueTransferGas := input.valueTransferGas common includeValueTransfer
  eip7928TrapPreTarget common (gas + valueTransferGas)
  let gas := gas + valueTransferGas + input.newAccountGas common includeNewAccountPostCheck +
    input.delegationGas common
  let gasLeft ← getGasLeft
  if input.delegates common ∧ common.isActivatedEIP 7928 ∧ gas > gasLeft then
    postTargetCallOogOrTrap common
  else
    finalizeCallMessageGas common gas input.currentGasLimit
      (input.newAccountStateGas common includeNewAccountPostCheck)

/-- EIP-3860 rejects this init code. -/
def oversizedInitCode (common : Common) (input : CallInput) : Bool :=
  common.isActivatedEIP 3860 && input.inLength > common.param .maxInitCodeSize &&
    !input.allowUnlimitedInitCodeSize

def initCodeGas (common : Common) (length : ℕ) : ℕ :=
  if common.isActivatedEIP 3860 then (length + 31) / 32 * common.param .initCodeWordGas else 0

/-- The charges under EIP-8037 before the gas limit is taken, and what remains to be charged. -/
def preCharge (common : Common) (gas : ℤ) : Step ℤ :=
  if common.isActivatedEIP 8037 then do
    let rest ← onInterpreter (if gas > 0 then do Interpreter.useGas gas; pure 0 else pure gas)
    onInterpreter (Interpreter.chargeStateGas common.newAccountStateGasCost)
    pure rest
  else pure gas

/-- The message gas limit of a create is taken from the gas that is left. -/
def limitCreate (common : Common) (gas : ℤ) : Step Unit :=
  modify fun s =>
    let gasLimit := s.interpreter.gasLeft - gas
    { s with messageGasLimit := some (common.maxCallGas gasLimit gasLimit) }

def create7928Gas (common : Common) (gas : ℤ) (extraPreTargetGas : ℕ) (input : CallInput) :
    Step ℤ :=
  if oversizedInitCode common input then throw .INITCODE_SIZE_VIOLATION
  else do
    let memGas ← subMemUsage common input.inOffset input.inLength
    let gas := gas + memGas + initCodeGas common input.inLength + extraPreTargetGas
    eip7928TrapPreTarget common gas
    let s ← get
    trapIf (common.isActivatedEIP 8037 && !canAfford s gas common.newAccountStateGasCost)
      .OUT_OF_GAS
    let gas := gas + common.getAddressAccessCost true false
    if common.isActivatedEIP 8037 ∧ ¬canAfford s gas common.newAccountStateGasCost ∨
        gas > s.interpreter.gasLeft then
      eip7928PostTargetCreateOog common gas
    else do
      let gas ← preCharge common gas
      trapIf input.isStatic .STATIC_STATE_CHANGE
      limitCreate common gas
      let gasLeft ← getGasLeft
      if gas > gasLeft then eip7928PostTargetCreateOog common gas else pure gas

/-- The gas handlers of `CREATE` and `CREATE2` without EIP-7928. -/
def createGas (common : Common) (gas : ℤ) (extraGas : ℕ) (input : CallInput) : Step ℤ :=
  if input.isStatic then throw .STATIC_STATE_CHANGE
  else do
    let memGas ← subMemUsage common input.inOffset input.inLength
    let gas := gas + common.getAddressAccessCost true false + initCodeGas common input.inLength +
      memGas + extraGas
    let gas ← preCharge common gas
    limitCreate common gas
    pure gas

/-- The hashing of the init code that `CREATE2` pays for. -/
def create2HashGas (common : Common) (length : ℕ) : ℕ :=
  common.param .keccak256WordGas * divCeil length 32

def gasHandler (common : Common) (input : CallInput) (gas : ℤ) : Opcode → Step ℤ
  | .CALL =>
    if input.isStatic ∧ input.value ≠ 0 then throw .STATIC_STATE_CHANGE
    else callFamilyGas common gas true true input
  | .CALLCODE => callFamilyGas common gas true false input
  | .DELEGATECALL => callFamilyGas common gas false false { input with value := 0 }
  | .STATICCALL => callFamilyGas common gas false false { input with value := 0 }
  | .CREATE =>
    if common.isActivatedEIP 7928 then create7928Gas common gas 0 input
    else createGas common gas 0 input
  | .CREATE2 =>
    let hashGas := create2HashGas common input.inLength
    if common.isActivatedEIP 7928 then create7928Gas common gas hashGas input
    else createGas common gas hashGas input

def consumeEip7928PostTargetCallOog : Step Unit := fun s =>
  if s.eip7928PostTargetCallOog then
    .error .OUT_OF_GAS { s with eip7928PostTargetCallOog := false }
  else .ok () s

/-- `messageGasLimit` is read and reset. -/
def takeMessageGasLimit : Step (Option ℤ) := fun s =>
  .ok s.messageGasLimit { s with messageGasLimit := none }

/-- `CALL` and `CALLCODE` up to the child frame, with its gas limit. -/
def valueCall (common : Common) (input : CallInput) : Step (Option ℤ) := do
  let gasLimit ← takeMessageGasLimit
  let callStipend : ℕ := if input.value ≠ 0 then common.param .callStipendGas else 0
  onInterpreter (Interpreter.addStipend callStipend)
  pure (gasLimit.map (· + (callStipend : ℤ)))

/-- `CREATE` and `CREATE2` up to the child frame, with its gas limit when there is one. -/
def createChild (common : Common) (input : CallInput) : Step (Option ℤ) :=
  if oversizedInitCode common input then throw .INITCODE_SIZE_VIOLATION
  else do
    let gasLimit ← takeMessageGasLimit
    let s ← get
    if s.eip7928PostTargetCreateOog then do
      set { s with eip7928PostTargetCreateOog := false }
      pure none
    else if input.isEOF then pure none
    else pure gasLimit

def opHandler (common : Common) (input : CallInput) : Opcode → Step (Option ℤ)
  | .CALL | .CALLCODE => valueCall common input
  | .DELEGATECALL | .STATICCALL => takeMessageGasLimit
  | .CREATE => createChild common input
  | .CREATE2 =>
    if input.isStatic then throw .STATIC_STATE_CHANGE else createChild common input

/-- The gas for the chunk of code, which `runStep` adds to that of the gas handler. -/
def CallInput.statelessGas (common : Common) (input : CallInput) : ℕ :=
  if common.isStateless then input.chunkGas else 0

/-- `runStep` up to the child frame. -/
def runStep (common : Common) (opcode : Opcode) (input : CallInput) (fee : ℤ) :
    Step (Option ℤ) := do
  let gas ← gasHandler common input fee opcode
  onInterpreter (Interpreter.useGas (gas + input.statelessGas common))
  consumeEip7928PostTargetCallOog
  opHandler common input opcode

end EthereumJS.Evm
