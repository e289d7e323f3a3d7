import EthereumJS.Evm.Frames
import EthereumJS.Ordered.Covers

/-! # The refund counter

The counter of each frame covers the refund for every slot that was cleared, which is what an
`SSTORE` may take back.
-/

namespace EthereumJS.Evm

open RLP Interpreter Overlay Ordered

section Refunds

variable {α β : Type} {x : Run α} {f : α → Run β} {s : Interpreter} {lo lo' : ℤ}

/-- The counter gets at least this much and is not exhausted. -/
def Refunds (lo : ℤ) (x : Run α) (s : Interpreter) : Prop :=
  match x s with
  | .ok _ s' => s.gasRefund + lo ≤ s'.gasRefund
  | .error e s' =>
    e ≠ .REFUND_EXHAUSTED ∧ (0 ≤ s.gasRefund → 0 ≤ s.gasRefund + lo → 0 ≤ s'.gasRefund)

theorem Refunds.mono (h : Refunds lo x s) (hlo : lo' ≤ lo) : Refunds lo' x s := by
  rw [Refunds] at h ⊢
  split at h
  · omega
  · exact ⟨h.1, fun hbefore hkept => h.2 hbefore (by omega)⟩

theorem refunds_pure (a : α) : Refunds 0 (pure a) s := by
  simp [Refunds, pure, EStateM.pure]

theorem refunds_throw {e : EVMError} (h : e ≠ .REFUND_EXHAUSTED) :
    Refunds lo (throw e : Run α) s :=
  ⟨h, fun hbefore _ => hbefore⟩

theorem refunds_refundGas (amount : ℤ) : Refunds amount (refundGas amount) s := by
  rw [Refunds, refundGas_eq]

theorem refunds_subRefund {amount : ℤ} (h : amount ≤ s.gasRefund) :
    Refunds (-amount) (subRefund amount) s := by
  rw [Refunds, subRefund_eq, if_neg (not_lt.mpr h)]
  exact le_refl _

theorem refunds_useGas (amount : ℤ) : Refunds 0 (useGas amount) s := by
  rw [Refunds, useGas_eq]
  split_ifs
  · simp
  · simp

theorem refunds_addStipend (amount : ℤ) : Refunds 0 (addStipend amount) s := by
  simp [Refunds, addStipend_eq]

theorem refunds_refillStateGasReservoir (amount : ℤ) :
    Refunds 0 (refillStateGasReservoir amount) s := by
  simp [Refunds, refillStateGasReservoir_eq]

theorem refunds_chargeStateGas (amount : ℕ) : Refunds 0 (chargeStateGas amount) s := by
  rw [Refunds, chargeStateGas_eq (Int.natCast_nonneg _)]
  dsimp only
  split_ifs
  · simp
  · simp

theorem Refunds.then (hx : Refunds lo x s) (hf : ∀ a s', Refunds 0 (f a) s') :
    Refunds lo (x >>= f) s := by
  rw [Refunds] at hx
  split at hx
  · next a mid heq =>
    have hrest := hf a mid
    rw [Refunds] at hrest
    rw [Refunds, bind_of_ok heq]
    split at hrest
    · omega
    · exact ⟨hrest.1, fun _ hkept => hrest.2 (by omega) (by omega)⟩
  · next e mid heq =>
    rw [Refunds, bind_of_error heq]
    exact hx

end Refunds

section Amounts

variable {common : Common}

/-- The EIPs with gas parameters. -/
def paramEIPs : List Nat := [1, 1013, 1716, 1679, 2929, 3529, 3860, 7954, 8037]

theorem mem_paramEIPs {eip v : Nat} {name : Param} (h : eipParams eip name = some v) :
    eip ∈ paramEIPs := by
  unfold eipParams at h
  split at h
  all_goals first | decide | cases h

/-- What holds of a parameter at each EIP holds of its value. -/
theorem of_eipParams {eip v : Nat} {name : Param} (h : eipParams eip name = some v) (p : Nat → Bool)
    (hp : ∀ eip ∈ paramEIPs, (eipParams eip name).all p = true) : p v = true := by
  have hall := hp eip (mem_paramEIPs h)
  rwa [h, Option.all_some] at hall

theorem warmstoragereadGas_le (common : Common) : common.param .warmstoragereadGas ≤ 100 := by
  obtain hzero | ⟨eip, -, heq⟩ := common.param_eq_zero_or .warmstoragereadGas
  · omega
  · exact of_decide_eq_true (of_eipParams heq (· ≤ 100) (by decide))

theorem coldsloadGas_le (common : Common) : common.param .coldsloadGas ≤ 2100 := by
  obtain hzero | ⟨eip, -, heq⟩ := common.param_eq_zero_or .coldsloadGas
  · omega
  · exact of_decide_eq_true (of_eipParams heq (· ≤ 2100) (by decide))

theorem sstoreResetGas_eq (common : Common) : common.param .sstoreResetGas = 5000 := by
  obtain ⟨eip, -, heq⟩ := common.exists_chainstart_param .sstoreResetGas rfl
  exact of_decide_eq_true (of_eipParams heq (· = 5000) (by decide))

theorem le_sstoreInitEIP2200Gas (h : common.gteHardfork .istanbul) :
    2900 ≤ common.param .sstoreInitEIP2200Gas := by
  obtain ⟨eip, -, heq⟩ := Common.exists_param .sstoreInitEIP2200Gas
    (Common.eips_subset_activatedEIPs h (List.mem_singleton.mpr rfl)) rfl
  exact of_decide_eq_true (of_eipParams heq (2900 ≤ ·) (by decide))

/-- No refund is negative. -/
structure NetSstore.NonNegative (amounts : NetSstore) : Prop where
  clearRefund : 0 ≤ amounts.clearRefund
  initRefund : 0 ≤ amounts.initRefund
  cleanRefund : 0 ≤ amounts.cleanRefund

theorem nonNegative_EIP1283 : (common.sstoreAmountsEIP1283).NonNegative where
  clearRefund := Int.natCast_nonneg _
  initRefund := Int.natCast_nonneg _
  cleanRefund := Int.natCast_nonneg _

theorem nonNegative_EIP2200 (h : common.gteHardfork .istanbul) (isWarm : Bool) :
    (common.sstoreAmountsEIP2200 isWarm).NonNegative := by
  have hwarm := warmstoragereadGas_le common
  have hcold := coldsloadGas_le common
  have hreset := sstoreResetGas_eq common
  have hinit := le_sstoreInitEIP2200Gas h
  constructor
  · exact Int.natCast_nonneg _
  · simp only [Common.sstoreAmountsEIP2200, Common.adjustSstoreGasEIP2929]
    split <;> omega
  · simp only [Common.sstoreAmountsEIP2200, Common.adjustSstoreGasEIP2929]
    split <;> omega

end Amounts

section Slots

/-- A slot with this original value is cleared when it has this value. -/
def Clears (originalStorage value : Bytes) : Prop := originalStorage ≠ [] ∧ value = []

instance (originalStorage value : Bytes) : Decidable (Clears originalStorage value) :=
  inferInstanceAs (Decidable (_ ∧ _))

/-- What a write changes in the refunds for cleared slots. -/
def clearedBy (clearRefund : ℤ) (currentStorage originalStorage value : Bytes) : ℤ :=
  (if Clears originalStorage value then clearRefund else 0) -
    if Clears originalStorage currentStorage then clearRefund else 0

variable {amounts : NetSstore} {s : Interpreter} {currentStorage originalStorage value : Bytes}

theorem clearedBy_nonneg {clear bound : ℤ} (hclear : 0 ≤ clear) (hbound : 0 ≤ bound)
    (hpaid : Clears originalStorage currentStorage → clear ≤ bound) :
    0 ≤ bound + clearedBy clear currentStorage originalStorage value := by
  rw [clearedBy]
  split_ifs with hnew hold hold
  · omega
  · omega
  · have := hpaid hold
    omega
  · omega

theorem refunds_refundCleared (hsame : currentStorage ≠ value)
    (hpaid : Clears originalStorage currentStorage → amounts.clearRefund ≤ s.gasRefund) :
    Refunds (clearedBy amounts.clearRefund currentStorage originalStorage value)
      (refundCleared amounts currentStorage originalStorage value) s := by
  rw [refundCleared]
  simp only [List.length_eq_zero_iff, ne_eq]
  split
  · next hsome =>
    split
    · next hcleared =>
      have hvalue : value ≠ [] := fun h => hsame (hcleared.trans h.symm)
      have hclears : Clears originalStorage currentStorage := ⟨hsome, hcleared⟩
      rw [clearedBy, if_neg fun h => hvalue h.2, if_pos hclears, Int.zero_sub]
      exact refunds_subRefund (hpaid hclears)
    · next hcurrent =>
      have hdirty : ¬Clears originalStorage currentStorage := fun h => hcurrent h.2
      split
      · next hzero =>
        rw [clearedBy, if_neg hdirty, Int.sub_zero, if_pos ⟨hsome, hzero⟩]
        exact refunds_refundGas _
      · next hvalue =>
        rw [clearedBy, if_neg hdirty, Int.sub_zero, if_neg fun h => hvalue h.2]
        exact refunds_pure _
  · next hnone =>
    rw [clearedBy, if_neg fun h => hnone h.1, if_neg fun h => hnone h.1]
    exact refunds_pure _

theorem refunds_refundRestored (hamounts : amounts.NonNegative) :
    Refunds 0 (refundRestored amounts originalStorage value) s := by
  rw [refundRestored]
  split_ifs
  · exact (refunds_refundGas _).mono hamounts.initRefund
  · exact (refunds_refundGas _).mono hamounts.cleanRefund
  · exact refunds_pure _

theorem refunds_netSstoreGas (hamounts : amounts.NonNegative)
    (hpaid : Clears originalStorage currentStorage → amounts.clearRefund ≤ s.gasRefund) :
    Refunds (clearedBy amounts.clearRefund currentStorage originalStorage value)
      (netSstoreGas amounts currentStorage originalStorage value) s := by
  rw [netSstoreGas]
  simp only [List.length_eq_zero_iff]
  split
  · next hsame =>
    subst hsame
    rw [clearedBy, Int.sub_self]
    exact refunds_pure _
  split
  · next hclean =>
    subst hclean
    have hnone : ¬Clears originalStorage originalStorage := fun h => h.1 h.2
    split
    · next hnew =>
      rw [clearedBy, if_neg hnone, if_neg fun h => h.1 hnew]
      exact refunds_pure _
    · next hsome =>
      split
      · next hzero =>
        rw [clearedBy, if_neg hnone, Int.sub_zero, if_pos ⟨hsome, hzero⟩]
        exact (refunds_refundGas _).then fun _ _ => refunds_pure _
      · next hvalue =>
        rw [clearedBy, if_neg hnone, if_neg fun h => hvalue h.2]
        exact refunds_pure _
  · next hsame hdirty =>
    apply (refunds_refundCleared hsame hpaid).then
    rintro - s'
    exact (refunds_refundRestored hamounts).then fun _ _ => refunds_pure _

theorem refunds_updateSstoreGas (common : Common) :
    Refunds 0 (updateSstoreGas common currentStorage value) s := by
  rw [updateSstoreGas]
  split_ifs
  · exact refunds_pure _
  · exact ((refunds_refundGas _).then fun _ _ => refunds_pure _).mono (Int.natCast_nonneg _)
  · exact refunds_pure _

/-- The slots for whose clearing a refund was given. -/
def clearedSlots (original storage : Storage) : Set Slot :=
  {slot | Clears (setLengthLeftStorage (original slot)) (setLengthLeftStorage (storage slot))}

/-- The refund for clearing a slot, where clearing it again can take it back. -/
def clearRefund (common : Common) : ℤ :=
  if common.hardfork = .constantinople then common.param .netSstoreClearRefundGas
  else if common.gteHardfork .istanbul then
    if common.isStateless then 0 else common.param .sstoreClearRefundEIP2200Gas
  else 0

end Slots

section Paid

variable {common : Common} {original storage : Storage} {s : Interpreter} {op : Sstore}

theorem refunds_updateGas
    (hpaid : op.slot ∈ clearedSlots original storage → clearRefund common ≤ s.gasRefund) :
    Refunds (clearedBy (clearRefund common) (setLengthLeftStorage (storage op.slot))
      (setLengthLeftStorage (original op.slot)) (setLengthLeftStorage op.value))
      (op.updateGas common original storage) s := by
  rw [clearRefund] at hpaid ⊢
  rw [Sstore.updateGas]
  split
  · next hconstantinople =>
    rw [if_pos hconstantinople] at hpaid
    exact refunds_netSstoreGas nonNegative_EIP1283 hpaid
  · next hconstantinople =>
    rw [if_neg hconstantinople] at hpaid
    split
    · next histanbul =>
      rw [if_pos histanbul] at hpaid
      split
      · rw [clearedBy, ite_self, ite_self, Int.sub_zero]
        exact refunds_pure _
      · next hstateless =>
        rw [if_neg hstateless] at hpaid
        rw [updateSstoreGasEIP2200, Refunds, get_bind]
        split_ifs with hsentry
        · exact refunds_throw (α := ℤ) (by decide)
        · exact refunds_netSstoreGas (nonNegative_EIP2200 histanbul _) hpaid
    · rw [clearedBy, ite_self, ite_self, Int.sub_zero]
      exact refunds_updateSstoreGas common

/-- `SSTORE` up to the charge gives what it changes in the refunds for cleared slots. -/
theorem refunds_charge
    (hpaid : op.slot ∈ clearedSlots original storage → clearRefund common ≤ s.gasRefund) :
    Refunds (clearedBy (clearRefund common) (setLengthLeftStorage (storage op.slot))
      (setLengthLeftStorage (original op.slot)) (setLengthLeftStorage op.value))
      (op.charge common original storage) s := by
  rw [Sstore.charge, Sstore.gasHandler]
  refine Refunds.then ?_ fun _ _ => refunds_useGas _
  split
  · exact refunds_throw (by decide)
  · exact (refunds_updateGas hpaid).then fun _ _ => refunds_pure _

theorem clearRefund_nonneg : 0 ≤ clearRefund common := by
  rw [clearRefund]
  split_ifs <;> omega

/-- The counter after a write covers the slots that are cleared then. -/
theorem covers_write {clear bound bound' : ℤ} {slot : Slot} {value : Bytes}
    (hclear : 0 ≤ clear) (h : Covers (clearedSlots original storage) clear bound)
    (hbound : bound + clearedBy clear (setLengthLeftStorage (storage slot))
      (setLengthLeftStorage (original slot)) (setLengthLeftStorage value) ≤ bound') :
    Covers (clearedSlots original fun k => if k = slot then value else storage k) clear
      bound' := by
  have hwritten : ∀ k ∈ clearedSlots original fun k => if k = slot then value else storage k,
      k = slot ∧ Clears (setLengthLeftStorage (original slot)) (setLengthLeftStorage value) ∨
        k ≠ slot ∧ k ∈ clearedSlots original storage := by
    intro k hk
    rw [clearedSlots, Set.mem_ofPred_eq] at hk
    split at hk
    · next heq => exact .inl ⟨heq, heq ▸ hk⟩
    · next hne => exact .inr ⟨hne, hk⟩
  rw [clearedBy] at hbound
  split at hbound
  · split at hbound
    · next hold =>
      refine h.mono (fun k hk => ?_) (by omega)
      obtain ⟨rfl, -⟩ | ⟨-, hk⟩ := hwritten k hk
      · exact hold
      · exact hk
    · refine (h.insert hclear slot).mono (fun k hk => ?_) (by omega)
      obtain ⟨rfl, -⟩ | ⟨-, hk⟩ := hwritten k hk
      · exact Set.mem_insert _ _
      · exact Set.mem_insert_of_mem _ hk
  · next hnew =>
    have hrest : ∀ k ∈ clearedSlots original fun k => if k = slot then value else storage k,
        k ≠ slot ∧ k ∈ clearedSlots original storage :=
      fun k hk => (hwritten k hk).resolve_left fun h => hnew h.2
    split at hbound
    · next hold =>
      exact (h.erase hold).mono (fun k hk => ⟨(hrest k hk).2, (hrest k hk).1⟩) (by omega)
    · exact h.mono (fun k hk => (hrest k hk).2) (by omega)

/-- The counter of each frame covers the slots that were cleared when its callee was entered, and
that of the frame that runs those cleared now. The counter of a frame that was trapped is
forfeited. -/
def Paid (common : Common) (original : Storage) : Storage → List Frame → Prop
  | _, [] => True
  | storage, frame :: callers =>
    (frame.exceptionError = none →
      Covers (clearedSlots original storage) (clearRefund common) frame.gasRefund) ∧
    0 ≤ frame.gasRefund ∧ frame.exceptionError ≠ some .REFUND_EXHAUSTED ∧
    Paid common original frame.checkpoint callers

variable {evm : EVM} {frame : Frame} {callers : List Frame}

/-- What a step leaves in the frame, where the storage is left as it is. -/
theorem Paid.after {x : Run Unit} (h : Paid common original storage (frame :: callers))
    (hrunning : frame.exceptionError = none) (hx : Refunds 0 x (frame.interpreter evm)) :
    Paid common original storage (frame.after (x (frame.interpreter evm)) :: callers) := by
  obtain ⟨hcovers, hnonneg, -, hcallers⟩ := h
  rw [Refunds] at hx
  cases hresult : x (frame.interpreter evm) with
  | ok u s' =>
    rw [hresult, Int.add_zero] at hx
    refine ⟨fun _ => (hcovers hrunning).mono subset_rfl hx, hnonneg.trans hx, ?_, hcallers⟩
    rw [Frame.after, hrunning]
    simp
  | error e s' =>
    rw [hresult] at hx
    refine ⟨fun h => absurd h (Option.some_ne_none e), hx.2 hnonneg ?_,
      fun h => hx.1 (Option.some.inj h), hcallers⟩
    rw [Int.add_zero]
    exact hnonneg

/-- The frames below count as before when only the frame that runs is changed by its caller. -/
theorem Paid.call (h : Paid common original storage (frame :: callers))
    (hrunning : frame.exceptionError = none) (isCreate : Bool) (gasLimit : ℤ) :
    Paid common original storage
      (enter { evm := evm, storage := storage, frames := frame :: callers } isCreate gasLimit
        frame.gasRefund).frames := by
  refine ⟨fun _ => h.1 hrunning, h.2.1, ?_, h⟩
  simp

theorem handOver_exceptionError (common : Common) (caller : Frame) :
    (handOver common frame caller evm).exceptionError = some .OUT_OF_GAS ∨
      (handOver common frame caller evm).exceptionError = caller.exceptionError := by
  simp only [handOver, useGas_eq]
  split_ifs
  · exact .inl rfl
  · exact .inr rfl

theorem handOver_checkpoint (common : Common) (caller : Frame) :
    (handOver common frame caller evm).checkpoint = caller.checkpoint := by
  simp only [handOver, useGas_eq]
  split_ifs <;> rfl

/-- The caller has its own counter or, when neither failed, that of the frame. -/
theorem handOver_gasRefund (common : Common) (caller : Frame) :
    frame.exceptionError = none ∧ (handOver common frame caller evm).gasRefund = frame.gasRefund ∨
      (frame.exceptionError ≠ none ∨ (handOver common frame caller evm).exceptionError ≠ none) ∧
        (handOver common frame caller evm).gasRefund = caller.gasRefund := by
  have hkept : (caller.after (useGas frame.executionGasUsed (caller.interpreter evm))).gasRefund =
      caller.gasRefund := by
    rw [useGas_eq]
    split_ifs <;> rfl
  simp only [handOver]
  split_ifs with h
  · exact .inl ⟨h.2, rfl⟩
  · refine .inr ⟨?_, hkept⟩
    rw [not_and_or] at h
    exact h.symm

/-- A frame without error hands its counter over with its storage, and one that failed leaves
both as they were. -/
theorem Paid.leaveFrame {tx : Transaction}
    (h : Paid common original tx.storage (frame :: callers)) :
    Paid common original (leaveFrame common tx frame callers).storage
      (leaveFrame common tx frame callers).frames := by
  obtain ⟨hcovers, hnonneg, -, hcallers⟩ := h
  cases callers with
  | nil => trivial
  | cons caller callers =>
    obtain ⟨hsaved, hcaller, hexhausted, hrest⟩ := hcallers
    change Paid common original (if frame.exceptionError = none then tx.storage else
      frame.checkpoint) (handOver common frame caller _ :: callers)
    refine ⟨fun hrunning => ?_, ?_, ?_, ?_⟩
    · obtain ⟨hok, heq⟩ | ⟨hfailed, heq⟩ := handOver_gasRefund common caller
      · rw [heq, if_pos hok]
        exact hcovers hok
      · rw [heq, if_neg (hfailed.resolve_right (not_not.mpr hrunning))]
        apply hsaved
        obtain htrapped | hsame := handOver_exceptionError common caller
        · cases htrapped.symm.trans hrunning
        · exact hsame.symm.trans hrunning
    · obtain ⟨-, heq⟩ | ⟨-, heq⟩ := handOver_gasRefund common caller
      · rw [heq]
        exact hnonneg
      · rw [heq]
        exact hcaller
    · obtain htrapped | hsame := handOver_exceptionError common caller
      · rw [htrapped]
        decide
      · rw [hsame]
        exact hexhausted
    · rw [handOver_checkpoint common]
      exact hrest

theorem Paid.perform {tx : Transaction} (h : Paid common original tx.storage (frame :: callers))
    (hrunning : frame.exceptionError = none) (event : Event) :
    Paid common original (perform common original tx frame callers event).storage
      (perform common original tx frame callers event).frames := by
  cases event with
  | spend amount => exact h.after hrunning (refunds_useGas amount)
  | addStipend amount => exact h.after hrunning (refunds_addStipend amount)
  | trap error hne =>
    refine ⟨fun h => absurd h (Option.some_ne_none error), h.2.1,
      fun h => hne (Option.some.inj h), h.2.2.2⟩
  | selfDestruct =>
    exact h.after hrunning ((refunds_refundGas _).mono (Int.natCast_nonneg _))
  | sstore op =>
    have hpaid : op.slot ∈ clearedSlots original tx.storage →
        clearRefund common ≤ (frame.interpreter tx.evm).gasRefund :=
      fun hslot => (h.1 hrunning).le hslot
    have hcharge := refunds_charge hpaid
    rw [Refunds] at hcharge
    rw [Evm.perform]
    dsimp only
    cases hresult : op.charge common original tx.storage (frame.interpreter tx.evm) with
    | ok u s' =>
      rw [hresult] at hcharge
      have hcovers := covers_write clearRefund_nonneg (h.1 hrunning) hcharge
      refine ⟨fun _ => hcovers, hcovers.nonneg, ?_, h.2.2.2⟩
      rw [Frame.after, hrunning]
      simp
    | error e s' =>
      rw [hresult] at hcharge
      refine ⟨fun h => absurd h (Option.some_ne_none e), hcharge.2 h.2.1 ?_,
        fun h => hcharge.1 (Option.some.inj h), h.2.2.2⟩
      exact clearedBy_nonneg clearRefund_nonneg h.2.1 hpaid
  | chargeStateGas amount =>
    have hafter := h.after hrunning (refunds_chargeStateGas (s := frame.interpreter tx.evm) amount)
    rw [Evm.perform]
    dsimp only
    cases hresult : chargeStateGas amount (frame.interpreter tx.evm) with
    | ok u s' =>
      rw [hresult] at hafter
      exact hafter
    | error e s' =>
      rw [hresult] at hafter
      exact hafter
  | refillStateGasReservoir amount =>
    exact h.after hrunning (refunds_refillStateGasReservoir amount)
  | call isCreate gasLimit => exact h.call hrunning isCreate gasLimit
  | leave => exact h.leaveFrame

theorem Paid.step {tx : Transaction} (h : Paid common original tx.storage tx.frames)
    (event : Event) :
    Paid common original (step common original tx event).storage
      (step common original tx event).frames := by
  rw [Evm.step]
  cases hframes : tx.frames with
  | nil =>
    dsimp only
    exact h
  | cons frame callers =>
    rw [hframes] at h
    dsimp only
    cases herror : frame.exceptionError with
    | none => exact h.perform herror event
    | some e =>
      cases event with
      | leave => exact h.leaveFrame
      | _ =>
        dsimp only
        rw [hframes]
        exact h

theorem Paid.run (events : List Event) {tx : Transaction}
    (h : Paid common original tx.storage tx.frames) :
    Paid common original (run common original tx events).storage
      (run common original tx events).frames := by
  induction events generalizing tx with
  | nil => exact h
  | cons event events ih => exact ih (h.step event)

theorem paid_start (isCreate : Bool) (gasLimit : ℤ) :
    Paid common original original (start original isCreate gasLimit evm).frames := by
  refine ⟨fun _ => ?_, le_refl _, ?_, trivial⟩
  · have hnone : clearedSlots original original = ∅ := by
      rw [Set.eq_empty_iff_forall_notMem]
      exact fun slot h => h.1 h.2
    rw [hnone]
    exact covers_empty (le_refl _)
  · simp

theorem Paid.frames (h : Paid common original storage callers) :
    ∀ frame ∈ callers, 0 ≤ frame.gasRefund ∧ frame.exceptionError ≠ some .REFUND_EXHAUSTED := by
  induction callers generalizing storage with
  | nil => exact fun _ h => absurd h List.not_mem_nil
  | cons frame callers ih =>
    obtain ⟨-, hnonneg, hexhausted, hcallers⟩ := h
    intro other hother
    obtain rfl | hother := List.mem_cons.mp hother
    · exact ⟨hnonneg, hexhausted⟩
    · exact ih hcallers other hother

end Paid

/-- In any transaction no refund counter goes below zero, and no `SSTORE` exhausts it. -/
theorem refund_counter_nonneg (common : Common) (original : Storage) (isCreate : Bool)
    (gasLimit : ℤ) (evm : EVM) (events : List Event) :
    ∀ frame ∈ (run common original (start original isCreate gasLimit evm) events).frames,
      0 ≤ frame.gasRefund ∧ frame.exceptionError ≠ some .REFUND_EXHAUSTED :=
  (Paid.run events (paid_start isCreate gasLimit)).frames

/-- A message that clears a slot. -/
def cleared : Transaction :=
  run ⟨.cancun, []⟩ (fun _ => [1]) (start (fun _ => [1]) false 100000 ⟨0, 0⟩)
    [.sstore ⟨([], []), 0, false, true, 0, 0⟩]

theorem cleared_ne_nil : cleared.frames ≠ [] := List.cons_ne_nil _ _

theorem refund_counter_nonneg_cleared :
    0 ≤ (cleared.frames.head cleared_ne_nil).gasRefund ∧
      (cleared.frames.head cleared_ne_nil).exceptionError ≠ some .REFUND_EXHAUSTED := by
  apply refund_counter_nonneg ⟨.cancun, []⟩ (fun _ => [1]) false 100000 ⟨0, 0⟩
    [.sstore ⟨([], []), 0, false, true, 0, 0⟩]
  rw [← cleared]
  exact List.head_mem cleared_ne_nil

end EthereumJS.Evm
