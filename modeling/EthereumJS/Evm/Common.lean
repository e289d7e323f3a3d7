import EthereumJS.Common.Hardfork
import Mathlib.Data.List.Basic

/-! # The parameters of the EVM

The entries of `evm/src/params.ts` that gas handlers read, and how `Common` finds the value of a
parameter at a hardfork with further EIPs.
-/

namespace EthereumJS.Evm

inductive Param
  | sstoreSetGas
  | sstoreResetGas
  | sstoreRefundGas
  | selfdestructRefundGas
  | callStipendGas
  | callValueTransferGas
  | callNewAccountGas
  | memoryGas
  | quadCoefficientDivGas
  | keccak256WordGas
  | netSstoreNoopGas
  | netSstoreInitGas
  | netSstoreCleanGas
  | netSstoreDirtyGas
  | netSstoreClearRefundGas
  | netSstoreResetRefundGas
  | netSstoreResetClearRefundGas
  | sstoreSentryEIP2200Gas
  | sstoreNoopEIP2200Gas
  | sstoreDirtyEIP2200Gas
  | sstoreInitEIP2200Gas
  | sstoreInitRefundEIP2200Gas
  | sstoreCleanEIP2200Gas
  | sstoreCleanRefundEIP2200Gas
  | sstoreClearRefundEIP2200Gas
  | coldsloadGas
  | coldaccountaccessGas
  | warmstoragereadGas
  | initCodeWordGas
  | maxInitCodeSize
  | costPerStateByte
  | stateBytesPerNewAccount
  deriving DecidableEq

open Param in
/-- `null` is 0, as `param` reads it. -/
def eipParams : Nat → Param → Option Nat
  | 1, sstoreSetGas => some 20000
  | 1, sstoreResetGas => some 5000
  | 1, sstoreRefundGas => some 15000
  | 1, selfdestructRefundGas => some 24000
  | 1, callStipendGas => some 2300
  | 1, callValueTransferGas => some 9000
  | 1, callNewAccountGas => some 25000
  | 1, memoryGas => some 3
  | 1, quadCoefficientDivGas => some 512
  | 1, keccak256WordGas => some 6
  | 1013, netSstoreNoopGas => some 200
  | 1013, netSstoreInitGas => some 20000
  | 1013, netSstoreCleanGas => some 5000
  | 1013, netSstoreDirtyGas => some 200
  | 1013, netSstoreClearRefundGas => some 15000
  | 1013, netSstoreResetRefundGas => some 4800
  | 1013, netSstoreResetClearRefundGas => some 19800
  | 1716, netSstoreNoopGas => some 0
  | 1716, netSstoreInitGas => some 0
  | 1716, netSstoreCleanGas => some 0
  | 1716, netSstoreDirtyGas => some 0
  | 1716, netSstoreClearRefundGas => some 0
  | 1716, netSstoreResetRefundGas => some 0
  | 1716, netSstoreResetClearRefundGas => some 0
  | 1679, sstoreSentryEIP2200Gas => some 2300
  | 1679, sstoreNoopEIP2200Gas => some 800
  | 1679, sstoreDirtyEIP2200Gas => some 800
  | 1679, sstoreInitEIP2200Gas => some 20000
  | 1679, sstoreInitRefundEIP2200Gas => some 19200
  | 1679, sstoreCleanEIP2200Gas => some 5000
  | 1679, sstoreCleanRefundEIP2200Gas => some 4200
  | 1679, sstoreClearRefundEIP2200Gas => some 15000
  | 2929, coldsloadGas => some 2100
  | 2929, coldaccountaccessGas => some 2600
  | 2929, warmstoragereadGas => some 100
  | 2929, sstoreCleanEIP2200Gas => some 2900
  | 2929, sstoreNoopEIP2200Gas => some 100
  | 2929, sstoreDirtyEIP2200Gas => some 100
  | 2929, sstoreInitRefundEIP2200Gas => some 19900
  | 2929, sstoreCleanRefundEIP2200Gas => some 4900
  | 3529, selfdestructRefundGas => some 0
  | 3529, sstoreClearRefundEIP2200Gas => some 4800
  | 3860, initCodeWordGas => some 2
  | 3860, maxInitCodeSize => some 49152
  | 7954, maxInitCodeSize => some 65536
  | 8037, sstoreSetGas => some 2900
  | 8037, sstoreInitEIP2200Gas => some 2900
  | 8037, sstoreInitRefundEIP2200Gas => some 0
  | 8037, callNewAccountGas => some 0
  | 8037, costPerStateByte => some 1530
  | 8037, stateBytesPerNewAccount => some 120
  | _, _ => none

/-- A hardfork and the EIPs that are activated besides. -/
structure Common where
  hardfork : Hardfork
  eips : List Nat

namespace Common

variable (common : Common)

def gteHardfork (hardfork : Hardfork) : Bool := common.hardfork.gteHardfork hardfork

/-- The cache of activated EIPs, in the order in which their parameters are merged. -/
def activatedEIPs : List Nat :=
  (Hardfork.schedule.filter common.gteHardfork).flatMap Hardfork.eips ++ common.eips

def isActivatedEIP (eip : Nat) : Bool := common.activatedEIPs.contains eip

/-- Gas is charged for what the access witness gets. -/
def isStateless : Bool := common.isActivatedEIP 6800 || common.isActivatedEIP 7864

/-- The value of the EIP that was merged last. A parameter that no EIP has is never read. -/
def param (name : Param) : Nat :=
  (common.activatedEIPs.filterMap (eipParams · name)).getLast?.getD 0

variable {common}

theorem eips_subset_activatedEIPs {hardfork : Hardfork} (h : common.gteHardfork hardfork) :
    hardfork.eips ⊆ common.activatedEIPs := by
  intro eip heip
  apply List.mem_append_left
  rw [List.mem_flatMap]
  refine ⟨hardfork, List.mem_filter.mpr ⟨?_, h⟩, heip⟩
  cases hardfork <;> decide

/-- A parameter that an activated EIP has gets its value from an activated EIP. -/
theorem exists_param {eip : Nat} (name : Param) (heip : eip ∈ common.activatedEIPs)
    (hname : (eipParams eip name).isSome) :
    ∃ eip' ∈ common.activatedEIPs, eipParams eip' name = some (common.param name) := by
  obtain ⟨v, hv⟩ := Option.isSome_iff_exists.mp hname
  have hmem : v ∈ common.activatedEIPs.filterMap (eipParams · name) :=
    List.mem_filterMap.mpr ⟨eip, heip, hv⟩
  have hne := List.ne_nil_of_mem hmem
  have hlast := List.getLast_mem hne
  obtain ⟨eip', heip', hv'⟩ := List.mem_filterMap.mp hlast
  refine ⟨eip', heip', ?_⟩
  rw [hv', param, List.getLast?_eq_some_getLast hne, Option.getD_some]

/-- The parameters of the first EIP are there at every hardfork. -/
theorem exists_chainstart_param (common : Common) (name : Param)
    (hname : (eipParams 1 name).isSome) :
    ∃ eip ∈ common.activatedEIPs, eipParams eip name = some (common.param name) := by
  have hchainstart : common.gteHardfork .chainstart := by
    rw [gteHardfork]
    cases common.hardfork <;> decide
  exact exists_param name
    (eips_subset_activatedEIPs hchainstart (List.mem_singleton.mpr rfl)) hname

/-- A parameter is 0 or has its value from an activated EIP. -/
theorem param_eq_zero_or (common : Common) (name : Param) :
    common.param name = 0 ∨
      ∃ eip ∈ common.activatedEIPs, eipParams eip name = some (common.param name) := by
  rw [or_iff_not_imp_left]
  intro hne
  rw [param] at hne
  cases hlast : (common.activatedEIPs.filterMap (eipParams · name)).getLast? with
  | none => simp [hlast] at hne
  | some v =>
    have hmem := List.mem_of_getLast? hlast
    obtain ⟨eip, heip, hv⟩ := List.mem_filterMap.mp hmem
    exact exists_param name heip (hv ▸ rfl)

end Common

end EthereumJS.Evm
