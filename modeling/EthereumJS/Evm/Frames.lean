import EthereumJS.Evm.Sstore

/-! # Nested call frames

What `_baseCall` and `create` of `evm/src/interpreter.ts`, `runCall` and `runInterpreter` of
`evm/src/evm.ts` hand from frame to frame: gas, the refund counter, the storage and the state gas.
A frame that was trapped does nothing more until it is left.
-/

namespace EthereumJS.Evm

open Interpreter

structure Frame where
  isCreate : Bool
  gasLimit : ℤ
  gasLeft : ℤ
  gasRefund : ℤ
  exceptionError : Option EVMError
  /-- The storage at the checkpoint of `runCall`. -/
  checkpoint : Storage
  stateGasSnapshot : EVM
  /-- What charges of state gas took out of `gasLeft`. No function reads it. -/
  stateGasTaken : ℤ
  /-- What a charge that ran out of gas took out of the reservoir. No function reads it. -/
  stateGasLost : ℤ

/-- The frames with the one that runs first. -/
structure Transaction where
  evm : EVM
  storage : Storage
  frames : List Frame

/-- What a frame does next. `trap` is any error that other opcodes end with, `REVERT` included.
The charge for the code that a create deposits is a `spend` and a `chargeStateGas` before it is
left, and the state gas of an `SSTORE` is the event that follows. -/
inductive Event
  | spend (amount : ℤ)
  | addStipend (amount : ℤ)
  | trap (error : EVMError) (h : error ≠ .REFUND_EXHAUSTED)
  | selfDestruct
  | sstore (op : Sstore)
  | chargeStateGas (amount : ℕ)
  | refillStateGasReservoir (amount : ℕ)
  | call (isCreate : Bool) (gasLimit : ℤ)
  | leave

namespace Frame

def interpreter (frame : Frame) (evm : EVM) : Interpreter where
  gasLeft := frame.gasLeft
  gasRefund := frame.gasRefund
  evm := evm

/-- The counters and the error that a step of the interpreter leaves. -/
def after (frame : Frame) : EStateM.Result EVMError Interpreter Unit → Frame
  | .ok _ s => { frame with gasLeft := s.gasLeft, gasRefund := s.gasRefund }
  | .error e s =>
    { frame with gasLeft := s.gasLeft, gasRefund := s.gasRefund, exceptionError := some e }

/-- The result of `runInterpreter`. -/
def executionGasUsed (frame : Frame) : ℤ :=
  match frame.exceptionError with
  | some e => if e = .REVERT then frame.gasLimit - frame.gasLeft else frame.gasLimit
  | none => frame.gasLimit - frame.gasLeft

end Frame

variable (common : Common) (original : Storage)

def newAccountStateGas : ℤ :=
  common.param .stateBytesPerNewAccount * common.param .costPerStateByte

/-- How `runCall` restores the state gas of a frame that failed. -/
def restoreStateGas (frame : Frame) (error : EVMError) (evm : EVM) : EVM :=
  if common.isActivatedEIP 8037 then
    let snap := frame.stateGasSnapshot
    let consumeSpilled := error = .STATIC_STATE_CHANGE
    let usedThisFrame := evm.executionStateGasUsed - snap.executionStateGasUsed
    let reservoirPaidThisFrame := snap.stateGasReservoir - evm.stateGasReservoir
    let spilledThisFrame :=
      if usedThisFrame > reservoirPaidThisFrame then usedThisFrame - reservoirPaidThisFrame else 0
    let newAccountStateGas := if frame.isCreate then newAccountStateGas common else 0
    { stateGasReservoir :=
        snap.stateGasReservoir + (if consumeSpilled then 0 else spilledThisFrame) +
          newAccountStateGas
      executionStateGasUsed := snap.executionStateGasUsed - newAccountStateGas }
  else evm

/-- The beginning of `runCall` and `runInterpreter`. -/
def enter (tx : Transaction) (isCreate : Bool) (gasLimit gasRefund : ℤ) : Transaction :=
  { tx with
    frames :=
      { isCreate := isCreate, gasLimit := gasLimit, gasLeft := gasLimit, gasRefund := gasRefund
        exceptionError := none, checkpoint := tx.storage, stateGasSnapshot := tx.evm
        stateGasTaken := 0, stateGasLost := 0 } :: tx.frames }

/-- What a frame that is left counts as taken in its caller: what it took or, when it failed, what
it credited to the reservoir. -/
def credited (frame : Frame) (evm : EVM) : ℤ :=
  match frame.exceptionError with
  | none => frame.stateGasTaken
  | some _ =>
    evm.stateGasReservoir - frame.stateGasSnapshot.stateGasReservoir -
      if frame.isCreate then newAccountStateGas common else 0

/-- What the caller makes of the result of `runCall`: it pays the gas, and a frame without error
hands over its refund counter. -/
def handOver (frame caller : Frame) (evm : EVM) : Frame :=
  let caller := caller.after (useGas frame.executionGasUsed (caller.interpreter evm))
  { caller with
    gasRefund :=
      if caller.exceptionError = none ∧ frame.exceptionError = none then frame.gasRefund
      else caller.gasRefund
    stateGasTaken := caller.stateGasTaken + credited common frame evm }

/-- The end of `runInterpreter` and `runCall`, and the rest of the call in the caller. -/
def leaveFrame (tx : Transaction) (frame : Frame) (callers : List Frame) : Transaction :=
  let evm :=
    match frame.exceptionError with
    | none => tx.evm
    | some e => restoreStateGas common frame e tx.evm
  { evm := evm
    storage := if frame.exceptionError = none then tx.storage else frame.checkpoint
    frames :=
      match callers with
      | [] => []
      | caller :: callers => handOver common frame caller evm :: callers }

theorem leaveFrame_evm (tx : Transaction) (frame : Frame) (callers : List Frame) :
    (leaveFrame common tx frame callers).evm =
      match frame.exceptionError with
      | none => tx.evm
      | some e => restoreStateGas common frame e tx.evm := rfl

def selfdestructRefundGas : Run Unit := refundGas (common.param .selfdestructRefundGas)

/-- A step of the frame that runs. -/
def perform (tx : Transaction) (frame : Frame) (callers : List Frame) : Event → Transaction
  | .spend amount =>
    { tx with frames := frame.after (useGas amount (frame.interpreter tx.evm)) :: callers }
  | .addStipend amount =>
    { tx with
      frames := frame.after (Interpreter.addStipend amount (frame.interpreter tx.evm)) :: callers }
  | .trap error _ => { tx with frames := { frame with exceptionError := some error } :: callers }
  | .selfDestruct =>
    { tx with
      frames :=
        frame.after (selfdestructRefundGas common (frame.interpreter tx.evm)) :: callers }
  | .sstore op =>
    let result := op.charge common original tx.storage (frame.interpreter tx.evm)
    { tx with
      storage :=
        match result with
        | .ok _ _ => fun slot => if slot = op.slot then op.value else tx.storage slot
        | .error _ _ => tx.storage
      frames := frame.after result :: callers }
  | .chargeStateGas amount =>
    let result := Interpreter.chargeStateGas amount (frame.interpreter tx.evm)
    let fromReservoir := fromReservoir tx.evm amount
    { tx with
      evm := (Overlay.endState result).evm
      frames :=
        (match result with
        | .ok _ _ =>
          { frame.after result with
            stateGasTaken := frame.stateGasTaken + (amount - fromReservoir) }
        | .error _ _ => { frame.after result with stateGasLost := fromReservoir }) :: callers }
  | .refillStateGasReservoir amount =>
    let result := Interpreter.refillStateGasReservoir amount (frame.interpreter tx.evm)
    { tx with evm := (Overlay.endState result).evm, frames := frame.after result :: callers }
  | .call isCreate gasLimit =>
    enter { tx with frames := frame :: callers } isCreate gasLimit frame.gasRefund
  | .leave => leaveFrame common tx frame callers

def step (tx : Transaction) (event : Event) : Transaction :=
  match tx.frames with
  | [] => tx
  | frame :: callers =>
    match frame.exceptionError, event with
    | some _, .leave => leaveFrame common tx frame callers
    | some _, _ => tx
    | none, event => perform common original tx frame callers event

/-- A transaction starts with the storage that is original for it and no refund. -/
def start (isCreate : Bool) (gasLimit : ℤ) (evm : EVM) : Transaction :=
  enter { evm := evm, storage := original, frames := [] } isCreate gasLimit 0

def run (tx : Transaction) (events : List Event) : Transaction :=
  events.foldl (step common original) tx

end EthereumJS.Evm
