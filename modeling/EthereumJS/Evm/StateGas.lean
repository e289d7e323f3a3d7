import EthereumJS.Evm.Frames

/-! # State gas over frames that fail

What the state gas of a frame took out of `gasLeft` is the growth of the reservoir and the used
state gas together, unless a charge ran out of gas.
-/

namespace EthereumJS.Evm

open RLP Interpreter Overlay

/-- Reservoir and used state gas, which a charge from the reservoir and a refill leave alone. -/
def EVM.stateGas (evm : EVM) : ℤ := evm.stateGasReservoir + evm.executionStateGasUsed

theorem fromReservoir_bounds (evm : EVM) (amount : ℕ) :
    0 ≤ fromReservoir evm amount ∧ fromReservoir evm amount ≤ amount := by
  rw [fromReservoir]
  split <;> omega

variable {common : Common} {original : Storage}

/-- The books of the open frames, each at the state gas its callee was entered with. -/
def Balanced : EVM → List Frame → Prop
  | _, [] => True
  | evm, frame :: callers =>
    evm.stateGas + frame.stateGasLost = frame.stateGasSnapshot.stateGas + frame.stateGasTaken ∧
      0 ≤ frame.stateGasTaken ∧ 0 ≤ frame.stateGasLost ∧
      (frame.exceptionError = none → frame.stateGasLost = 0) ∧
      Balanced frame.stateGasSnapshot callers

/-- A frame that failed leaves its snapshot and, in the reservoir, what it has credited. -/
theorem restoreStateGas_eq (h8037 : common.isActivatedEIP 8037) (frame : Frame) (error : EVMError)
    (evm : EVM) :
    restoreStateGas common frame error evm =
      { stateGasReservoir := frame.stateGasSnapshot.stateGasReservoir +
          (if error = .STATIC_STATE_CHANGE then 0
            else max 0 (evm.stateGas - frame.stateGasSnapshot.stateGas)) +
          if frame.isCreate then newAccountStateGas common else 0
        executionStateGasUsed := frame.stateGasSnapshot.executionStateGasUsed -
          if frame.isCreate then newAccountStateGas common else 0 } := by
  have hspilled : (if evm.executionStateGasUsed - frame.stateGasSnapshot.executionStateGasUsed >
        frame.stateGasSnapshot.stateGasReservoir - evm.stateGasReservoir then
      evm.executionStateGasUsed - frame.stateGasSnapshot.executionStateGasUsed -
        (frame.stateGasSnapshot.stateGasReservoir - evm.stateGasReservoir) else 0) =
      max 0 (evm.stateGas - frame.stateGasSnapshot.stateGas) := by
    simp only [EVM.stateGas]
    split <;> omega
  rw [restoreStateGas, if_pos h8037]
  dsimp only
  rw [hspilled]

variable {evm : EVM} {frame : Frame} {callers : List Frame}

/-- A step that leaves the state gas alone. -/
theorem Balanced.after (h : Balanced evm (frame :: callers))
    (hrunning : frame.exceptionError = none) (result : EStateM.Result EVMError Interpreter Unit) :
    Balanced evm (frame.after result :: callers) := by
  obtain ⟨hbooks, htaken, hlost, hnone, hcallers⟩ := h
  cases result with
  | ok u s => exact ⟨hbooks, htaken, hlost, hnone, hcallers⟩
  | error e s => exact ⟨hbooks, htaken, hlost, fun _ => hnone hrunning, hcallers⟩

theorem Balanced.chargeStateGas {tx : Transaction} (h : Balanced tx.evm (frame :: callers))
    (hrunning : frame.exceptionError = none) (amount : ℕ) :
    Balanced (perform common original tx frame callers (.chargeStateGas amount)).evm
      (perform common original tx frame callers (.chargeStateGas amount)).frames := by
  obtain ⟨hbooks, htaken, hlost, hnone, hcallers⟩ := h
  have hbounds := fromReservoir_bounds tx.evm amount
  have hnone := hnone hrunning
  simp only [EVM.stateGas] at hbooks
  rw [perform]
  dsimp only
  rw [chargeStateGas_eq (Int.natCast_nonneg _)]
  dsimp only
  split_ifs
  · refine ⟨?_, htaken, hbounds.1, ?_, hcallers⟩
    · simp only [endState_error, EVM.stateGas, Frame.after, Frame.interpreter]
      omega
    · exact fun h => absurd h (Option.some_ne_none _)
  · refine ⟨?_, ?_, hlost, fun _ => hnone, hcallers⟩
    · simp only [endState_ok, EVM.stateGas, Frame.after, Frame.interpreter]
      omega
    · dsimp only
      omega

theorem handOver_stateGas (common : Common) (frame caller : Frame) (evm : EVM) :
    (handOver common frame caller evm).stateGasTaken =
        caller.stateGasTaken + credited common frame evm ∧
      (handOver common frame caller evm).stateGasLost = caller.stateGasLost ∧
      (handOver common frame caller evm).stateGasSnapshot = caller.stateGasSnapshot ∧
      ((handOver common frame caller evm).exceptionError = none →
        caller.exceptionError = none) := by
  simp only [handOver, useGas_eq]
  split_ifs
  · exact ⟨rfl, rfl, rfl, fun h => absurd h (Option.some_ne_none _)⟩
  · exact ⟨rfl, rfl, rfl, id⟩

theorem Balanced.leaveFrame (h8037 : common.isActivatedEIP 8037) {tx : Transaction}
    (h : Balanced tx.evm (frame :: callers)) :
    Balanced (leaveFrame common tx frame callers).evm
      (leaveFrame common tx frame callers).frames := by
  obtain ⟨hbooks, htaken, hlost, hnone, hcallers⟩ := h
  -- the growth since the snapshot is what counts as taken in the caller
  have hcredit : ∃ evm, (Evm.leaveFrame common tx frame callers).evm = evm ∧
      evm.stateGas = frame.stateGasSnapshot.stateGas + credited common frame evm ∧
      0 ≤ credited common frame evm := by
    refine ⟨_, rfl, ?_⟩
    rw [leaveFrame_evm, credited]
    cases herror : frame.exceptionError with
    | none =>
      have := hnone herror
      dsimp only
      omega
    | some e =>
      dsimp only
      rw [restoreStateGas_eq h8037]
      have hpositive := le_max_left 0 (tx.evm.stateGas - frame.stateGasSnapshot.stateGas)
      generalize max 0 (tx.evm.stateGas - frame.stateGasSnapshot.stateGas) = credit at *
      simp only [EVM.stateGas]
      split_ifs <;> omega
  cases callers with
  | nil => trivial
  | cons caller callers =>
    obtain ⟨hsaved, hcaller, hkept, hrunning, hrest⟩ := hcallers
    obtain ⟨evm, hevm, hgrown, hpositive⟩ := hcredit
    change Balanced _ (handOver common frame caller (Evm.leaveFrame common tx frame
      (caller :: callers)).evm :: callers)
    rw [hevm]
    obtain ⟨htaken', hlost', hsnapshot', herror'⟩ :=
      handOver_stateGas common frame caller evm
    rw [Balanced, htaken', hlost', hsnapshot']
    refine ⟨?_, ?_, hkept, fun h => hrunning (herror' h), hrest⟩
    · omega
    · omega

theorem Balanced.perform (h8037 : common.isActivatedEIP 8037) {tx : Transaction}
    (h : Balanced tx.evm (frame :: callers)) (hrunning : frame.exceptionError = none)
    (event : Event) :
    Balanced (perform common original tx frame callers event).evm
      (perform common original tx frame callers event).frames := by
  cases event with
  | spend amount => exact h.after hrunning _
  | addStipend amount => exact h.after hrunning _
  | trap error hne => exact ⟨h.1, h.2.1, h.2.2.1, fun _ => h.2.2.2.1 hrunning, h.2.2.2.2⟩
  | selfDestruct => exact h.after hrunning _
  | sstore op => exact h.after hrunning _
  | chargeStateGas amount => exact h.chargeStateGas hrunning amount
  | refillStateGasReservoir amount =>
    obtain ⟨hbooks, htaken, hlost, hnone, hcallers⟩ := h
    refine ⟨?_, htaken, hlost, hnone, hcallers⟩
    rw [Evm.perform, refillStateGasReservoir_eq]
    simp only [endState_ok, EVM.stateGas, Frame.after, Frame.interpreter] at hbooks ⊢
    omega
  | call isCreate gasLimit =>
    exact ⟨rfl, le_refl _, le_refl _, fun _ => rfl, h⟩
  | leave => exact h.leaveFrame h8037

theorem Balanced.step (h8037 : common.isActivatedEIP 8037) {tx : Transaction}
    (h : Balanced tx.evm tx.frames) (event : Event) :
    Balanced (step common original tx event).evm (step common original tx event).frames := by
  rw [Evm.step]
  cases hframes : tx.frames with
  | nil =>
    dsimp only
    rw [hframes]
    trivial
  | cons frame callers =>
    rw [hframes] at h
    dsimp only
    cases herror : frame.exceptionError with
    | none => exact h.perform h8037 herror event
    | some e =>
      cases event with
      | leave => exact h.leaveFrame h8037
      | _ =>
        dsimp only
        rw [hframes]
        exact h

theorem Balanced.run (original : Storage) (h8037 : common.isActivatedEIP 8037) (events : List Event)
    {tx : Transaction} (h : Balanced tx.evm tx.frames) :
    Balanced (run common original tx events).evm (run common original tx events).frames := by
  induction events generalizing tx with
  | nil => exact h
  | cons event events ih => exact ih (h.step h8037 event)

/-- After a call frame that failed, the used state gas is that of its entry, and the reservoir has
in addition what the frame's charges took out of `gasLeft`, exactly when no charge that ran out of
gas took from the reservoir after others had taken from `gasLeft`. -/
theorem stateGas_conserved_iff (h8037 : common.isActivatedEIP 8037) (isCreate : Bool)
    (gasLimit : ℤ) (evm : EVM) (events : List Event) {error : EVMError}
    (hframes : (run common original (start original isCreate gasLimit evm) events).frames =
      frame :: callers)
    (hcall : frame.isCreate = false) (herror : frame.exceptionError = some error)
    (hstatic : error ≠ .STATIC_STATE_CHANGE) :
    (step common original (run common original (start original isCreate gasLimit evm) events)
        .leave).evm =
        { stateGasReservoir := frame.stateGasSnapshot.stateGasReservoir + frame.stateGasTaken
          executionStateGasUsed := frame.stateGasSnapshot.executionStateGasUsed } ↔
      frame.stateGasLost = 0 ∨ frame.stateGasTaken = 0 := by
  have hstart : Balanced (start original isCreate gasLimit evm).evm
      (start original isCreate gasLimit evm).frames :=
    ⟨rfl, le_refl _, le_refl _, fun _ => rfl, trivial⟩
  have hbalanced := Balanced.run original h8037 events hstart
  rw [hframes] at hbalanced
  obtain ⟨hbooks, htaken, hlost, -, -⟩ := hbalanced
  rw [step, hframes]
  dsimp only
  rw [herror]
  dsimp only
  rw [leaveFrame_evm, herror]
  dsimp only
  rw [restoreStateGas_eq h8037, if_neg hstatic, hcall, EVM.mk.injEq]
  simp only [Bool.false_eq_true, if_false]
  omega

/-- A frame that sets a slot and clears it again. -/
def refilled (events : List Event) : Transaction :=
  run ⟨.amsterdam, []⟩ (fun _ => []) (start (fun _ => []) false 400000 ⟨0, 0⟩)
    ([.call false 150000, .chargeStateGas 97920, .refillStateGasReservoir 97920] ++ events)

theorem stateGas_conserved_iff_reverted :
    (step ⟨.amsterdam, []⟩ (fun _ => []) (refilled [.trap .REVERT (by decide)]) .leave).evm =
        ⟨0 + (0 + (97920 - 0)), 0⟩ ↔
      (0 : ℤ) = 0 ∨ (0 + (97920 - 0) : ℤ) = 0 :=
  stateGas_conserved_iff (by decide) false 400000 ⟨0, 0⟩
    ([.call false 150000, .chargeStateGas 97920, .refillStateGasReservoir 97920] ++
      [.trap .REVERT (by decide)])
    rfl rfl rfl (by decide)

/-- The charge for the beneficiary of a `SELFDESTRUCT` takes the refill out of the reservoir and
then runs out of gas. -/
theorem not_stateGas_conserved :
    ¬∀ (events : List Event) (frame : Frame) (callers : List Frame) (error : EVMError),
      (refilled events).frames = frame :: callers →
      frame.isCreate = false → frame.exceptionError = some error →
      error ≠ .STATIC_STATE_CHANGE →
      (step ⟨.amsterdam, []⟩ (fun _ => []) (refilled events) .leave).evm =
        { stateGasReservoir := frame.stateGasSnapshot.stateGasReservoir + frame.stateGasTaken
          executionStateGasUsed := frame.stateGasSnapshot.executionStateGasUsed } := by
  intro h
  have hlost := h [.chargeStateGas 183600] _ _ _ rfl rfl rfl (by decide)
  revert hlost
  decide

end EthereumJS.Evm
