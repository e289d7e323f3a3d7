import EthereumJS.Evm.CallGas

/-! # The gas limit of a child frame against the gas of its caller

The message gas limit is a part of the gas that is available when it is computed. Whether the
caller still has it when the child is entered depends on what is charged in between.
-/

namespace EthereumJS.Evm

open Overlay Interpreter

section Steps

variable {α : Type} {s s' : RunState}

theorem onInterpreter_ok {x : Run α} {a : α} (h : onInterpreter x s = .ok a s') :
    ∃ interpreter, x s.interpreter = .ok a interpreter ∧
      s' = { s with interpreter := interpreter } := by
  rw [onInterpreter] at h
  cases hx : x s.interpreter with
  | ok b interpreter =>
    rw [hx] at h
    cases h
    exact ⟨interpreter, rfl, rfl⟩
  | error e interpreter =>
    rw [hx] at h
    cases h

theorem trapIf_ok {condition : Bool} {error : EVMError} {u : Unit}
    (h : trapIf condition error s = .ok u s') : s' = s := by
  rw [trapIf] at h
  split at h
  · cases h
  · cases h
    rfl

theorem eip7928TrapPreTarget_ok {common : Common} {gas : ℤ} {u : Unit}
    (h : eip7928TrapPreTarget common gas s = .ok u s') : s' = s := by
  obtain ⟨gasLeft, mid, hget, htrap⟩ := bind_returns h
  cases hget
  exact trapIf_ok htrap

theorem useGas_ok {amount : ℤ} {u : Unit} {i i' : Interpreter} (h : useGas amount i = .ok u i') :
    amount ≤ i.gasLeft ∧ i' = { i with gasLeft := i.gasLeft - amount } := by
  rw [useGas_eq] at h
  split at h
  · cases h
  · next hlow =>
    cases h
    exact ⟨not_lt.mp hlow, rfl⟩

theorem chargeStateGas_ok {amount : ℕ} {u : Unit} {i i' : Interpreter}
    (h : chargeStateGas amount i = .ok u i') :
    i'.gasLeft = i.gasLeft - (amount - fromReservoir i.evm amount) := by
  rw [chargeStateGas_eq (Int.natCast_nonneg _)] at h
  dsimp only at h
  split at h
  · cases h
  · cases h
    rfl

theorem postTargetCallOogOrTrap_ok {common : Common} {gas : ℤ}
    (h : postTargetCallOogOrTrap common s = .ok gas s') : s'.eip7928PostTargetCallOog = true := by
  rw [postTargetCallOogOrTrap] at h
  split at h
  · cases h
  · cases h
    rfl

theorem eip7928PostTargetCreateOog_ok {common : Common} {gas gas' : ℤ}
    (h : eip7928PostTargetCreateOog common gas s = .ok gas' s') :
    s'.eip7928PostTargetCreateOog = true := by
  rw [eip7928PostTargetCreateOog] at h
  split at h
  · cases h
  · cases h
    rfl

end Steps

/-- What a charge of state gas takes out of `gasLeft`. -/
def spill (evm : EVM) (amount : ℕ) : ℤ := amount - fromReservoir evm amount

theorem spill_zero (evm : EVM) : spill evm 0 = 0 := by
  rw [spill, fromReservoir]
  split <;> simp_all
  omega

section Handlers

variable {common : Common} {input : CallInput} {s s' : RunState} {gas gas' : ℤ}

theorem finalizeCallMessageGas_ok {currentGasLimit newAccountStateGas : ℕ}
    (h8037 : common.isActivatedEIP 8037 ∨ newAccountStateGas = 0)
    (h : finalizeCallMessageGas common gas currentGasLimit newAccountStateGas s = .ok gas' s') :
    s'.eip7928PostTargetCallOog = true ∨
      gas' = gas ∧
      s'.messageGasLimit =
        some (common.maxCallGas currentGasLimit (s.interpreter.gasLeft - gas)) ∧
      s'.interpreter.gasLeft =
        s.interpreter.gasLeft - spill s.interpreter.evm newAccountStateGas := by
  rw [finalizeCallMessageGas, get_bind] at h
  split at h
  · cases h
    exact .inl rfl
  split at h
  · exact .inl (postTargetCallOogOrTrap_ok h)
  split at h
  · exact .inl (postTargetCallOogOrTrap_ok h)
  obtain ⟨u, mid, hstep, hrest⟩ := bind_returns h
  obtain ⟨interpreter, hcharge, rfl⟩ := onInterpreter_ok hstep
  cases hrest
  refine .inr ⟨rfl, rfl, ?_⟩
  dsimp only
  split at hcharge
  · exact chargeStateGas_ok hcharge
  · next hnone =>
    cases hcharge
    have hzero : newAccountStateGas = 0 := by
      obtain h | h := h8037
      · by_contra hne
        exact hnone ⟨h, Nat.pos_of_ne_zero hne⟩
      · exact h
    rw [hzero, spill_zero, Int.sub_zero]

/-- The regular gas of a call: its memory, its target, the value and the code it delegates to. -/
def callGas (common : Common) (includeValueTransfer includeNewAccountPostCheck : Bool)
    (input : CallInput) (memory : Memory) (fee : ℤ) : ℤ :=
  let inExpansion := memoryExpansion common memory input.inOffset input.inLength
  let outExpansion := memoryExpansion common inExpansion.2 input.outOffset input.outLength
  fee + inExpansion.1 + outExpansion.1 + input.witnessGas common includeValueTransfer +
    common.getAddressAccessCost input.targetIsWarm (input.charge2929Gas common) +
    input.valueTransferGas common includeValueTransfer +
    input.newAccountGas common includeNewAccountPostCheck + input.delegationGas common

theorem newAccountStateGas_inactive (includeNewAccountPostCheck : Bool) :
    common.isActivatedEIP 8037 ∨
      input.newAccountStateGas common includeNewAccountPostCheck = 0 := by
  rw [CallInput.newAccountStateGas, Common.newAccountStateGasCost]
  cases common.isActivatedEIP 8037 with
  | false => simp
  | true => simp

theorem callFamilyGas_ok {includeValueTransfer includeNewAccountPostCheck : Bool}
    (h : callFamilyGas common gas includeValueTransfer includeNewAccountPostCheck input s =
      .ok gas' s') :
    s'.eip7928PostTargetCallOog = true ∨
      let gas := callGas common includeValueTransfer includeNewAccountPostCheck input s.memory gas
      let stateGas := input.newAccountStateGas common includeNewAccountPostCheck
      gas' = gas ∧
      s'.messageGasLimit =
        some (common.maxCallGas input.currentGasLimit (s.interpreter.gasLeft - gas)) ∧
      s'.interpreter.gasLeft = s.interpreter.gasLeft - spill s.interpreter.evm stateGas := by
  rw [callFamilyGas] at h
  obtain ⟨inGas, s₁, hin, h⟩ := bind_returns h
  cases hin
  obtain ⟨outGas, s₂, hout, h⟩ := bind_returns h
  cases hout
  obtain ⟨u, s₃, htrap, h⟩ := bind_returns h
  obtain rfl := eip7928TrapPreTarget_ok htrap
  obtain ⟨u, s₄, htrap, h⟩ := bind_returns h
  obtain rfl := eip7928TrapPreTarget_ok htrap
  obtain ⟨gasLeft, s₅, hget, h⟩ := bind_returns h
  cases hget
  split at h
  · exact .inl (postTargetCallOogOrTrap_ok h)
  · have hfinal := finalizeCallMessageGas_ok (newAccountStateGas_inactive _) h
    exact hfinal

/-- What a create charges before its state gas. -/
def createRegularGas (common : Common) (extraGas : ℕ) (input : CallInput) (memory : Memory)
    (fee : ℤ) : ℤ :=
  fee + (memoryExpansion common memory input.inOffset input.inLength).1 +
    initCodeGas common input.inLength + extraGas

/-- What both handlers of a create leave: the gas that is left with what they return still to be
charged, and the gas limit taken from it. -/
def LimitsCreate (common : Common) (extraGas : ℕ) (input : CallInput) (fee gas : ℤ)
    (s s' : RunState) : Prop :=
  let available := s.interpreter.gasLeft -
    createRegularGas common extraGas input s.memory fee -
    spill s.interpreter.evm common.newAccountStateGasCost
  s'.messageGasLimit = some (common.maxCallGas available available) ∧
    s'.interpreter.gasLeft - gas = available

theorem getAddressAccessCost_free (isWarm : Bool) :
    common.getAddressAccessCost isWarm false = 0 := by
  simp [Common.getAddressAccessCost]

theorem preCharge_ok (h : preCharge common gas s = .ok gas' s') :
    s'.interpreter.gasLeft - gas' =
      s.interpreter.gasLeft - gas - spill s.interpreter.evm common.newAccountStateGasCost := by
  rw [preCharge] at h
  split at h
  · obtain ⟨rest, s₁, hfirst, h⟩ := bind_returns h
    obtain ⟨i₁, hfirst', rfl⟩ := onInterpreter_ok hfirst
    obtain ⟨u, s₂, hsecond, h⟩ := bind_returns h
    obtain ⟨i₂, hsecond', rfl⟩ := onInterpreter_ok hsecond
    cases h
    have hcharged := chargeStateGas_ok hsecond'
    have hpaid : i₁.gasLeft - gas' = s.interpreter.gasLeft - gas ∧ i₁.evm = s.interpreter.evm := by
      split at hfirst'
      · obtain ⟨u, i, hgas, hrest⟩ := bind_returns hfirst'
        cases hrest
        obtain ⟨-, rfl⟩ := useGas_ok hgas
        exact ⟨Int.sub_zero _, rfl⟩
      · cases hfirst'
        exact ⟨rfl, rfl⟩
    dsimp only at hcharged ⊢
    rw [hpaid.2] at hcharged
    rw [spill]
    omega
  · next hinactive =>
    cases h
    rw [Common.newAccountStateGasCost, if_neg hinactive, spill_zero, Int.sub_zero]

theorem createGas_ok {extraGas : ℕ} (h : createGas common gas extraGas input s = .ok gas' s') :
    LimitsCreate common extraGas input gas gas' s s' := by
  rw [createGas] at h
  split at h
  · cases h
  obtain ⟨memGas, s₁, hmem, h⟩ := bind_returns h
  cases hmem
  obtain ⟨rest, s₂, hpre, h⟩ := bind_returns h
  obtain ⟨u, s₃, hlimit, h⟩ := bind_returns h
  cases hlimit
  cases h
  have havailable : s₂.interpreter.gasLeft - gas' = s.interpreter.gasLeft -
      createRegularGas common extraGas input s.memory gas -
      spill s.interpreter.evm common.newAccountStateGasCost := by
    rw [preCharge_ok hpre, getAddressAccessCost_free, createRegularGas]
    dsimp only
    omega
  refine ⟨?_, havailable⟩
  dsimp only
  rw [havailable]

theorem create7928Gas_ok {extraGas : ℕ}
    (h : create7928Gas common gas extraGas input s = .ok gas' s') :
    s'.eip7928PostTargetCreateOog = true ∨ LimitsCreate common extraGas input gas gas' s s' := by
  rw [create7928Gas] at h
  split at h
  · cases h
  obtain ⟨memGas, s₁, hmem, h⟩ := bind_returns h
  cases hmem
  obtain ⟨u, s₂, htrap, h⟩ := bind_returns h
  obtain rfl := eip7928TrapPreTarget_ok htrap
  rw [get_bind] at h
  obtain ⟨u, s₃, htrap, h⟩ := bind_returns h
  obtain rfl := trapIf_ok htrap
  dsimp only at h
  split at h
  · exact .inl (eip7928PostTargetCreateOog_ok h)
  obtain ⟨rest, s₄, hpre, hrest⟩ := bind_returns h
  obtain ⟨u, s₅, hstatic, hlimited⟩ := bind_returns hrest
  obtain rfl := trapIf_ok hstatic
  obtain ⟨u, s₆, hlimit, hchecked⟩ := bind_returns hlimited
  cases hlimit
  obtain ⟨gasLeft, s₇, hget, hlast⟩ := bind_returns hchecked
  cases hget
  split at hlast
  · exact .inl (eip7928PostTargetCreateOog_ok hlast)
  cases hlast
  have havailable : s₅.interpreter.gasLeft - gas' = s.interpreter.gasLeft -
      createRegularGas common extraGas input s.memory gas -
      spill s.interpreter.evm common.newAccountStateGasCost := by
    rw [preCharge_ok hpre, getAddressAccessCost_free, createRegularGas]
    dsimp only
    omega
  refine .inr ⟨?_, havailable⟩
  dsimp only
  rw [havailable]

end Handlers

namespace Opcode

variable (common : Common) (opcode : Opcode) (input : CallInput) (fee : ℤ) (s : RunState)

def isCreate : Opcode → Bool
  | CREATE | CREATE2 => true
  | _ => false

/-- The regular gas of the opcode. -/
def regularGas : ℤ :=
  match opcode with
  | CALL => callGas common true true input s.memory fee
  | CALLCODE => callGas common true false input s.memory fee
  | DELEGATECALL | STATICCALL => callGas common false false { input with value := 0 } s.memory fee
  | CREATE => createRegularGas common 0 input s.memory fee
  | CREATE2 => createRegularGas common (create2HashGas common input.inLength) input s.memory fee

/-- What the state gas of the opcode takes out of `gasLeft`. -/
def stateGasSpill : ℤ :=
  match opcode with
  | CALL => spill s.interpreter.evm (input.newAccountStateGas common true)
  | CREATE | CREATE2 => spill s.interpreter.evm common.newAccountStateGasCost
  | _ => 0

/-- The gas that is left when the gas limit is computed; a create has paid its state gas then. -/
def available : ℤ :=
  s.interpreter.gasLeft - opcode.regularGas common input fee s -
    if opcode.isCreate then opcode.stateGasSpill common input s else 0

/-- What of the available gas stays with the caller. -/
def retained : ℤ :=
  let available := opcode.available common input fee s
  available -
    common.maxCallGas (if opcode.isCreate then available else input.currentGasLimit) available

/-- What is charged after the gas limit was computed. -/
def laterCharges : ℤ :=
  (if opcode.isCreate then 0 else opcode.stateGasSpill common input s) +
    input.statelessGas common

end Opcode

section Forwarded

variable {common : Common} {opcode : Opcode} {input : CallInput} {fee gas gasLimit : ℤ}
  {s s' : RunState}

theorem newAccountStateGas_unchecked : input.newAccountStateGas common false = 0 := by
  simp [CallInput.newAccountStateGas, CallInput.paysNewAccount]

/-- The child has the gas limit that was computed, and the caller the gas that is left of what
was available. -/
def Limits (common : Common) (opcode : Opcode) (input : CallInput) (fee gas : ℤ)
    (s s' : RunState) : Prop :=
  s'.messageGasLimit = some (opcode.available common input fee s -
    opcode.retained common input fee s) ∧
  s'.interpreter.gasLeft - gas = opcode.available common input fee s -
    if opcode.isCreate then 0 else opcode.stateGasSpill common input s

theorem limits_call {transfer newAccount : Bool} {operands : CallInput}
    (hcreate : opcode.isCreate = false)
    (hregular : opcode.regularGas common input fee s =
      callGas common transfer newAccount operands s.memory fee)
    (hspill : opcode.stateGasSpill common input s =
      spill s.interpreter.evm (operands.newAccountStateGas common newAccount))
    (hlimit : operands.currentGasLimit = input.currentGasLimit)
    (h : callFamilyGas common fee transfer newAccount operands s = .ok gas s') :
    s'.eip7928PostTargetCallOog = true ∨ Limits common opcode input fee gas s s' := by
  obtain hoog | ⟨hgas, hmessage, hleft⟩ := callFamilyGas_ok h
  · exact .inl hoog
  refine .inr ⟨?_, ?_⟩
  · rw [hmessage, Opcode.retained, Opcode.available, hcreate, hregular, hlimit]
    simp
  · rw [hleft, hgas, Opcode.available, hcreate, hregular, hspill]
    simp only [Bool.false_eq_true, if_false]
    omega

theorem LimitsCreate.limits {extraGas : ℕ} (hcreate : opcode.isCreate = true)
    (hregular : opcode.regularGas common input fee s =
      createRegularGas common extraGas input s.memory fee)
    (hspill : opcode.stateGasSpill common input s =
      spill s.interpreter.evm common.newAccountStateGasCost)
    (h : LimitsCreate common extraGas input fee gas s s') :
    Limits common opcode input fee gas s s' := by
  obtain ⟨hmessage, hleft⟩ := h
  constructor
  · rw [hmessage, Opcode.retained, Opcode.available, hcreate, hregular, hspill]
    simp
  · rw [hleft, Opcode.available, hcreate, hregular, hspill]
    simp

/-- What a gas handler returns and leaves unless it scheduled the end of the opcode. -/
theorem gasHandler_ok (h : gasHandler common input fee opcode s = .ok gas s') :
    (s'.eip7928PostTargetCallOog = true ∨
        opcode.isCreate = true ∧ s'.eip7928PostTargetCreateOog = true) ∨
      Limits common opcode input fee gas s s' := by
  cases opcode with
  | CALL =>
    rw [gasHandler] at h
    split at h
    · cases h
    · exact (limits_call rfl rfl rfl rfl h).imp_left .inl
  | CALLCODE =>
    have hspill : Opcode.CALLCODE.stateGasSpill common input s =
        spill s.interpreter.evm (input.newAccountStateGas common false) := by
      rw [newAccountStateGas_unchecked, spill_zero]
      rfl
    exact (limits_call rfl rfl hspill rfl h).imp_left .inl
  | DELEGATECALL =>
    have hspill : Opcode.DELEGATECALL.stateGasSpill common input s =
        spill s.interpreter.evm
          (CallInput.newAccountStateGas common { input with value := 0 } false) := by
      rw [newAccountStateGas_unchecked, spill_zero]
      rfl
    exact (limits_call rfl rfl hspill rfl h).imp_left .inl
  | STATICCALL =>
    have hspill : Opcode.STATICCALL.stateGasSpill common input s =
        spill s.interpreter.evm
          (CallInput.newAccountStateGas common { input with value := 0 } false) := by
      rw [newAccountStateGas_unchecked, spill_zero]
      rfl
    exact (limits_call rfl rfl hspill rfl h).imp_left .inl
  | CREATE =>
    rw [gasHandler] at h
    split at h
    · obtain hoog | hlimits := create7928Gas_ok h
      · exact .inl (.inr ⟨rfl, hoog⟩)
      · exact .inr (hlimits.limits rfl rfl rfl)
    · exact .inr ((createGas_ok h).limits rfl rfl rfl)
  | CREATE2 =>
    rw [gasHandler] at h
    split at h
    · obtain hoog | hlimits := create7928Gas_ok h
      · exact .inl (.inr ⟨rfl, hoog⟩)
      · exact .inr (hlimits.limits rfl rfl rfl)
    · exact .inr ((createGas_ok h).limits rfl rfl rfl)

theorem valueCall_ok (h : valueCall common input s = .ok (some gasLimit) s') :
    ∃ stipend limit : ℤ, s.messageGasLimit = some limit ∧ gasLimit = limit + stipend ∧
      s'.interpreter.gasLeft = s.interpreter.gasLeft + stipend := by
  rw [valueCall] at h
  obtain ⟨limit, s₁, htake, hrest⟩ := bind_returns h
  cases htake
  obtain ⟨u, s₂, hadd, hlast⟩ := bind_returns hrest
  obtain ⟨i, hstipend, rfl⟩ := onInterpreter_ok hadd
  cases hstipend
  set stipend : ℤ := ((if input.value ≠ 0 then common.param .callStipendGas else 0 : ℕ) : ℤ)
  have hresult : EStateM.Result.ok (s.messageGasLimit.map (· + stipend))
      { s with
        interpreter := { s.interpreter with gasLeft := s.interpreter.gasLeft + stipend }
        messageGasLimit := none } =
      (EStateM.Result.ok (some gasLimit) s' : EStateM.Result EVMError _ _) := hlast
  rw [EStateM.Result.ok.injEq] at hresult
  obtain ⟨hlimit, rfl⟩ := hresult
  obtain ⟨limit, hmessage, rfl⟩ := Option.map_eq_some_iff.mp hlimit
  exact ⟨stipend, limit, hmessage, rfl, rfl⟩

theorem createChild_ok (h : createChild common input s = .ok (some gasLimit) s') :
    s.eip7928PostTargetCreateOog = false ∧ s.messageGasLimit = some gasLimit ∧
      s'.interpreter.gasLeft = s.interpreter.gasLeft := by
  rw [createChild] at h
  split at h
  · cases h
  obtain ⟨limit, s₁, htake, hrest⟩ := bind_returns h
  cases htake
  rw [get_bind] at hrest
  split at hrest
  · cases hrest
  · next hoog =>
    split at hrest
    · cases hrest
    · have hresult : EStateM.Result.ok s.messageGasLimit { s with messageGasLimit := none } =
          (EStateM.Result.ok (some gasLimit) s' : EStateM.Result EVMError _ _) := hrest
      rw [EStateM.Result.ok.injEq] at hresult
      obtain ⟨hlimit, rfl⟩ := hresult
      exact ⟨Bool.eq_false_iff.mpr hoog, hlimit, rfl⟩

/-- An opcode with a child hands on the message gas limit, and adds the stipend to both sides. -/
theorem opHandler_ok (h : opHandler common input opcode s = .ok (some gasLimit) s') :
    ¬(opcode.isCreate = true ∧ s.eip7928PostTargetCreateOog = true) ∧
      ∃ stipend limit : ℤ, s.messageGasLimit = some limit ∧ gasLimit = limit + stipend ∧
        s'.interpreter.gasLeft = s.interpreter.gasLeft + stipend := by
  have hcreate : createChild common input s = .ok (some gasLimit) s' →
      ¬(true = true ∧ s.eip7928PostTargetCreateOog = true) ∧
      ∃ stipend limit : ℤ, s.messageGasLimit = some limit ∧ gasLimit = limit + stipend ∧
        s'.interpreter.gasLeft = s.interpreter.gasLeft + stipend := by
    intro h
    obtain ⟨hoog, hlimit, hleft⟩ := createChild_ok h
    exact ⟨by simp [hoog], 0, gasLimit, hlimit, by simp, by simp [hleft]⟩
  have htake : takeMessageGasLimit s = .ok (some gasLimit) s' →
      ∃ stipend limit : ℤ, s.messageGasLimit = some limit ∧ gasLimit = limit + stipend ∧
        s'.interpreter.gasLeft = s.interpreter.gasLeft + stipend := by
    intro h
    rw [takeMessageGasLimit, EStateM.Result.ok.injEq] at h
    obtain ⟨hlimit, rfl⟩ := h
    exact ⟨0, gasLimit, hlimit, by simp, by simp⟩
  cases opcode with
  | CALL => exact ⟨fun h => Bool.false_ne_true h.1, valueCall_ok h⟩
  | CALLCODE => exact ⟨fun h => Bool.false_ne_true h.1, valueCall_ok h⟩
  | DELEGATECALL => exact ⟨fun h => Bool.false_ne_true h.1, htake h⟩
  | STATICCALL => exact ⟨fun h => Bool.false_ne_true h.1, htake h⟩
  | CREATE => exact hcreate h
  | CREATE2 =>
    rw [opHandler] at h
    split at h
    · cases h
    · exact hcreate h

/-- The gas limit of the child and the gas of the caller at its entry. -/
theorem runStep_ok (h : runStep common opcode input fee s = .ok (some gasLimit) s') :
    ∃ stipend : ℤ,
      gasLimit = opcode.available common input fee s - opcode.retained common input fee s +
        stipend ∧
      s'.interpreter.gasLeft = opcode.available common input fee s -
        opcode.laterCharges common input s + stipend := by
  rw [runStep] at h
  obtain ⟨gas, s₁, hgas, hrest⟩ := bind_returns h
  obtain ⟨u, s₂, hpay, hconsumed⟩ := bind_returns hrest
  obtain ⟨i, huse, rfl⟩ := onInterpreter_ok hpay
  obtain ⟨-, rfl⟩ := useGas_ok huse
  obtain ⟨u, s₃, hconsume, hop⟩ := bind_returns hconsumed
  rw [consumeEip7928PostTargetCallOog] at hconsume
  split at hconsume
  · cases hconsume
  next hnooog =>
  cases hconsume
  obtain ⟨hnocreate, stipend, limit, hlimit, rfl, hleft⟩ := opHandler_ok hop
  obtain (hoog | hoog) | ⟨hmessage, hpaid⟩ := gasHandler_ok hgas
  · exact absurd hoog hnooog
  · exact absurd hoog hnocreate
  refine ⟨stipend, ?_, ?_⟩
  · dsimp only at hlimit
    rw [hmessage] at hlimit
    rw [Option.some.inj hlimit]
  · rw [hleft, Opcode.laterCharges]
    dsimp only
    split at hpaid <;> simp_all <;> omega

/-- The caller of a child frame has as much gas as the child may use, so that paying for it never
runs out of gas, exactly when what is charged after the gas limit was computed is no more than what
the limit leaves to the caller. -/
theorem forwarded_covered_iff (common : Common) (opcode : Opcode) (input : CallInput) (fee : ℤ)
    (s : RunState) (h : runStep common opcode input fee s = .ok (some gasLimit) s') :
    (gasLimit ≤ s'.interpreter.gasLeft ∧
        ∀ executionGasUsed ≤ gasLimit,
          ∃ after, useGas executionGasUsed s'.interpreter = .ok () after) ↔
      opcode.laterCharges common input s ≤ opcode.retained common input fee s := by
  obtain ⟨stipend, hlimit, hleft⟩ := runStep_ok h
  constructor
  · rintro ⟨hcovered, -⟩
    omega
  · intro hlater
    refine ⟨by omega, fun executionGasUsed hused => ?_⟩
    rw [useGas_eq, if_neg (by omega)]
    exact ⟨_, rfl⟩

end Forwarded

/-- A call that sends 1 wei to a missing account and asks for all gas. -/
def fundingCall : CallInput where
  currentGasLimit := 2 ^ 256 - 1
  value := 1
  inOffset := 0
  inLength := 0
  outOffset := 0
  outLength := 0
  isStatic := false
  isPrecompile := false
  targetIsWarm := false
  readTargetGas := 0
  writeCallerGas := 0
  writeTargetGas := 0
  targetIsMissing := true
  targetIsEmpty := true
  delegationIsWarm := none
  allowUnlimitedInitCodeSize := false
  isEOF := false
  chunkGas := 0

def caller (stateGasReservoir : ℤ) : RunState where
  interpreter := { gasLeft := 1000000, gasRefund := 0, evm := ⟨stateGasReservoir, 0⟩ }
  memory := ⟨0, 0⟩
  messageGasLimit := none
  eip7928PostTargetCallOog := false
  eip7928PostTargetCreateOog := false

theorem forwarded_covered_iff_reservoir :
    ((975257 : ℤ) ≤ 990700 ∧ ∀ executionGasUsed ≤ 975257, ∃ after, useGas executionGasUsed
        { gasLeft := 990700, gasRefund := 0, evm := ⟨16400, 183600⟩ } = .ok () after) ↔
      Opcode.CALL.laterCharges ⟨.amsterdam, []⟩ fundingCall (caller 200000) ≤
        Opcode.CALL.retained ⟨.amsterdam, []⟩ fundingCall 0 (caller 200000) := by
  have hstep : runStep ⟨.amsterdam, []⟩ .CALL fundingCall 0 (caller 200000) =
      .ok (some 975257) {
        interpreter := { gasLeft := 990700, gasRefund := 0, evm := ⟨16400, 183600⟩ }
        memory := ⟨0, 0⟩
        messageGasLimit := none
        eip7928PostTargetCallOog := false
        eip7928PostTargetCreateOog := false } := rfl
  exact forwarded_covered_iff _ _ _ _ _ hstep

/-- Without a reservoir the state gas of the new account is taken from the gas that was left when
the child got all but a 64th of it. -/
theorem not_forwarded_covered :
    ¬∀ (common : Common) (opcode : Opcode) (input : CallInput) (fee gasLimit : ℤ)
      (s s' : RunState), runStep common opcode input fee s = .ok (some gasLimit) s' →
      gasLimit ≤ s'.interpreter.gasLeft := by
  intro h
  have hstep : runStep ⟨.amsterdam, []⟩ .CALL fundingCall 0 (caller 0) =
      .ok (some 975257) {
        interpreter := { gasLeft := 807100, gasRefund := 0, evm := ⟨0, 183600⟩ }
        memory := ⟨0, 0⟩
        messageGasLimit := none
        eip7928PostTargetCallOog := false
        eip7928PostTargetCreateOog := false } := rfl
  have hcovered := h _ _ _ _ _ _ _ hstep
  revert hcovered
  decide

end EthereumJS.Evm
