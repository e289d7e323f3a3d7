import EthereumJS.Evm.Common
import EthereumJS.Overlay.Frame
import Mathlib.Algebra.Order.Ring.Int
import Mathlib.Data.Int.Notation

/-! # The gas counters of a frame

`useGas`, `refundGas`, `subRefund` and the state gas of `evm/src/interpreter.ts`. What an error
leaves in the counters stays there.
-/

namespace EthereumJS.Evm

/-- The messages of `EVMError` that the frames below end with. -/
inductive EVMError
  | OUT_OF_GAS
  | REFUND_EXHAUSTED
  | STATIC_STATE_CHANGE
  | INITCODE_SIZE_VIOLATION
  | REVERT
  | INVALID_OPCODE
  deriving DecidableEq

/-- The counters of the EVM that all frames of a transaction share. -/
structure EVM where
  stateGasReservoir : ℤ
  executionStateGasUsed : ℤ
  deriving DecidableEq

structure Interpreter where
  gasLeft : ℤ
  gasRefund : ℤ
  evm : EVM
  deriving DecidableEq

abbrev Run := EStateM EVMError Interpreter

namespace Interpreter

def useGas (amount : ℤ) : Run Unit := do
  modify fun s => { s with gasLeft := s.gasLeft - amount }
  if (← get).gasLeft < 0 then
    modify fun s => { s with gasLeft := 0 }
    throw .OUT_OF_GAS

def refundGas (amount : ℤ) : Run Unit :=
  modify fun s => { s with gasRefund := s.gasRefund + amount }

def subRefund (amount : ℤ) : Run Unit := do
  modify fun s => { s with gasRefund := s.gasRefund - amount }
  if (← get).gasRefund < 0 then
    modify fun s => { s with gasRefund := 0 }
    throw .REFUND_EXHAUSTED

def addStipend (amount : ℤ) : Run Unit :=
  modify fun s => { s with gasLeft := s.gasLeft + amount }

/-- What a charge of state gas takes out of the reservoir. -/
def fromReservoir (evm : EVM) (amount : ℤ) : ℤ :=
  if evm.stateGasReservoir > 0 then min amount evm.stateGasReservoir else 0

def chargeStateGas (amount : ℤ) : Run Unit :=
  if amount = 0 then pure ()
  else do
    let taken := fromReservoir (← get).evm amount
    modify fun s =>
      { s with evm := { s.evm with stateGasReservoir := s.evm.stateGasReservoir - taken } }
    if amount - taken > 0 then useGas (amount - taken)
    modify fun s =>
      { s with evm := { s.evm with
        executionStateGasUsed := s.evm.executionStateGasUsed + amount } }

def refillStateGasReservoir (amount : ℤ) : Run Unit :=
  modify fun s =>
    { s with evm := {
      stateGasReservoir := s.evm.stateGasReservoir + amount
      executionStateGasUsed := s.evm.executionStateGasUsed - amount } }

variable (amount : ℤ) (s : Interpreter)

theorem useGas_eq : useGas amount s =
    if s.gasLeft < amount then .error .OUT_OF_GAS { s with gasLeft := 0 }
    else .ok () { s with gasLeft := s.gasLeft - amount } := by
  rw [useGas, Overlay.modify_bind, Overlay.get_bind]
  simp only [sub_neg]
  split <;> rfl

theorem subRefund_eq : subRefund amount s =
    if s.gasRefund < amount then .error .REFUND_EXHAUSTED { s with gasRefund := 0 }
    else .ok () { s with gasRefund := s.gasRefund - amount } := by
  rw [subRefund, Overlay.modify_bind, Overlay.get_bind]
  simp only [sub_neg]
  split <;> rfl

theorem refundGas_eq : refundGas amount s =
    .ok () { s with gasRefund := s.gasRefund + amount } := rfl

theorem addStipend_eq : addStipend amount s =
    .ok () { s with gasLeft := s.gasLeft + amount } := rfl

theorem refillStateGasReservoir_eq : refillStateGasReservoir amount s =
    .ok () { s with evm := {
      stateGasReservoir := s.evm.stateGasReservoir + amount
      executionStateGasUsed := s.evm.executionStateGasUsed - amount } } := rfl

/-- A charge takes what the reservoir has and the rest from the gas that is left; when it runs out
of gas, the reservoir has paid but nothing is counted as used. -/
theorem chargeStateGas_eq {amount : ℤ} (hamount : 0 ≤ amount) (s : Interpreter) :
    chargeStateGas amount s =
      let taken := fromReservoir s.evm amount
      if s.gasLeft < amount - taken ∧ taken < amount then
        .error .OUT_OF_GAS { s with
          gasLeft := 0
          evm := { s.evm with stateGasReservoir := s.evm.stateGasReservoir - taken } }
      else
        .ok () { s with
          gasLeft := s.gasLeft - (amount - taken)
          evm := {
            stateGasReservoir := s.evm.stateGasReservoir - taken
            executionStateGasUsed := s.evm.executionStateGasUsed + amount } } := by
  have htaken : fromReservoir s.evm amount ≤ amount := by
    rw [fromReservoir]
    split <;> omega
  dsimp only
  rw [chargeStateGas]
  split
  · next hzero =>
    have hnone : fromReservoir s.evm amount = 0 := by
      rw [fromReservoir]
      split <;> omega
    subst hzero
    rw [hnone, if_neg (by simp)]
    simp [pure, EStateM.pure]
  · rw [Overlay.get_bind, Overlay.modify_bind]
    split
    · next hspill =>
      cases hgas : useGas (amount - fromReservoir s.evm amount)
          { s with evm := { s.evm with
            stateGasReservoir := s.evm.stateGasReservoir - fromReservoir s.evm amount } } with
      | error e after =>
        rw [Overlay.bind_of_error hgas]
        rw [useGas_eq] at hgas
        split at hgas
        · next hlow =>
          cases hgas
          rw [if_pos ⟨hlow, by omega⟩]
        · cases hgas
      | ok u after =>
        rw [Overlay.bind_of_ok hgas]
        rw [useGas_eq] at hgas
        split at hgas
        · cases hgas
        · next hlow =>
          cases hgas
          rw [if_neg fun h => hlow h.1]
          rfl
    · next hspill =>
      have hall : fromReservoir s.evm amount = amount := by omega
      rw [if_neg (by omega), hall, Int.sub_self, Int.sub_zero]
      rfl

end Interpreter

end EthereumJS.Evm
