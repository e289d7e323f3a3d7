import EthereumJS.Vm.RunTx

/-! # The gas of a transaction

What `runTx` reports as spent, against the gas used before refunds, the refund counter
and the calldata floor. The block total is right unless a refund lifts it above the floor.
-/

namespace EthereumJS

/-- The price of one gas: what the type of the transaction offers at the base fee. -/
def Transaction.effectiveGasPrice (tx : Transaction) (baseFee : Nat) : Nat :=
  match tx.feeMarket with
  | some (prio, maxFee) => min (baseFee + prio) maxFee
  | none => tx.gasPrice

namespace VM

variable (vm : VM)

/-- The EVM stays within the gas limit of its message. -/
def GasLimited : Prop :=
  ∀ message world, 0 ≤ message.gasLimit →
    ((vm.runCall message world).1.executionGasUsed : Int) ≤ message.gasLimit

/-- The gas that a result reports, from the gas used before refunds, the final refund
counter and the floor. -/
structure GasAccounted (opts : RunTxOpts) (execution : Execution) (result : RunTxResult) :
    Prop where
  totalGasSpent_eq : result.totalGasSpent =
    max (execution.gasUsed vm opts.tx -
      min execution.gasRefund (execution.gasUsed vm opts.tx / vm.common.params.maxRefundQuotient))
      (floorCost vm.common opts.tx)
  floor_le : floorCost vm.common opts.tx ≤ result.totalGasSpent
  le_gasLimit : result.totalGasSpent ≤ opts.tx.gasLimit
  amountSpent_eq : result.amountSpent =
    result.totalGasSpent * opts.tx.effectiveGasPrice ((vm.baseFee opts).getD 0)
  blockGasSpent_eq : result.blockGasSpent =
    if vm.common.isActivatedEIP 7778 then
      max (execution.gasUsed vm opts.tx) (floorCost vm.common opts.tx)
    else result.totalGasSpent

variable {vm}

section Stages

variable {opts : RunTxOpts} {world : World} {execution : Execution}

/-- The stages that a transaction has passed when its EVM call has returned. -/
theorem execute_ok (h : vm.execute opts world = .ok execution) :
    ∃ gasLimit blobGasPrice maxBlobCost account₁ world₁ account₂ world₂,
      vm.splitGasLimit opts.tx = .ok (gasLimit, execution.reservoir) ∧
      vm.checkMaxFee opts = .ok () ∧
      vm.checkUpfrontCost opts (world.accountOrNew vm.hashing opts.tx.sender) world =
        .ok (account₁, world₁) ∧
      vm.blobCosts opts = .ok (execution.totalblobGas, blobGasPrice, maxBlobCost) ∧
      checkMaxCost opts maxBlobCost account₁ world₁ = .ok (account₂, world₂) ∧
      vm.effectivePrice opts = .ok (execution.gasPrice, execution.inclusionFeePerGas) ∧
      vm.chargeAndCall opts account₂ execution.gasPrice
        (execution.totalblobGas * blobGasPrice : Nat) gasLimit execution.reservoir world₂ =
        (execution.auth, execution.results, execution.world) := by
  unfold execute at h
  obtain ⟨⟨gasLimit, reservoir⟩, hsplit, h⟩ := bind_eq_ok.mp h
  obtain ⟨_, hmax, h⟩ := bind_eq_ok.mp h
  obtain ⟨_, -, h⟩ := bind_eq_ok.mp h
  obtain ⟨⟨account₁, world₁⟩, hupfront, h⟩ := bind_eq_ok.mp h
  obtain ⟨⟨totalblobGas, blobGasPrice, maxBlobCost⟩, hblob, h⟩ := bind_eq_ok.mp h
  obtain ⟨⟨account₂, world₂⟩, hcost, h⟩ := bind_eq_ok.mp h
  obtain ⟨_, -, h⟩ := bind_eq_ok.mp h
  obtain ⟨⟨gasPrice, inclusionFeePerGas⟩, hprice, h⟩ := bind_eq_ok.mp h
  obtain rfl := Except.ok.inj h
  exact ⟨gasLimit, blobGasPrice, maxBlobCost, account₁, world₁, account₂, world₂,
    hsplit, hmax, hupfront, hblob, hcost, hprice, rfl⟩

theorem runTx_ok {result : RunTxResult} {after : World}
    (h : vm.runTx opts world = .ok (result, after)) :
    ∃ execution,
      vm.execute opts (world.cleanup vm.hashing vm.common.gteSpuriousDragon) = .ok execution ∧
      vm.finish opts execution = .ok (result, after) := by
  have hinner : vm.runTxInner opts (world.cleanup vm.hashing vm.common.gteSpuriousDragon) =
      .ok (result, after) := by
    unfold runTx at h
    split at h
    · cases h
    · dsimp only at h
      split at h
      · split at h
        · cases h
        · split at h
          · cases h
          · exact h
      · exact h
  exact bind_eq_ok.mp hinner

end Stages

section Refund

variable (caller : Address)

theorem processAuthorization_cases (data : Authorization) (world : World) (st : AuthState) :
    vm.processAuthorization caller data world st = (world, st) ∨
    ∃ authority, vm.processAuthorization caller data world st =
      (vm.writeAuthorization data authority world,
        vm.refundAuthorization data authority world st) := by
  unfold processAuthorization
  split
  · left; rfl
  split
  · left; rfl
  split
  · left; rfl
  split
  · left; rfl
  split
  · left; rfl
  rename_i authority _
  dsimp only
  split
  · left; rfl
  generalize (if caller = authority then _ else _) = nonce
  split
  · left; rfl
  · right
    exact ⟨authority, rfl⟩

/-- An authorization never lowers the refund counter. -/
theorem refundAuthorization_gasRefund (data : Authorization) (authority : Address)
    (world : World) (st : AuthState) :
    st.gasRefund ≤ (vm.refundAuthorization data authority world st).gasRefund := by
  unfold refundAuthorization
  rcases Bool.eq_false_or_eq_true (vm.common.isActivatedEIP 8037) with hactive | hinactive
  · simp only [hactive, not_true_eq_false, and_false, if_false, if_true]
    exact le_rfl
  · have hparams := vm.common.perAuthBaseGas_le hinactive
    simp only [hinactive, Bool.false_eq_true, not_false_eq_true, and_true, if_false]
    split
    · omega
    · exact le_rfl

theorem processAuthorizationList_gasRefund (list : List Authorization) (world : World)
    (st : AuthState) :
    st.gasRefund ≤ (vm.processAuthorizationList caller list world st).2.gasRefund := by
  induction list generalizing world st with
  | nil => exact le_rfl
  | cons data list ih =>
    rcases processAuthorization_cases caller data world st with hskip | ⟨authority, hrun⟩
    · rw [processAuthorizationList, hskip]
      exact ih world st
    · rw [processAuthorizationList, hrun]
      exact le_trans (refundAuthorization_gasRefund data authority world st) (ih _ _)

end Refund

theorem floorCost_inactive {common : Common} (tx : Transaction)
    (h : common.isActivatedEIP 7623 = false) : floorCost common tx = 0 := by
  simp [floorCost, h]

theorem settleGas_ok {used refund : Int} {floor : Nat} {total counter block : Int}
    (hused : 0 ≤ used) (hrefund : 0 ≤ refund)
    (hfloor : vm.common.isActivatedEIP 7623 = false → floor = 0)
    (h : vm.settleGas used refund floor = .ok (total, counter, block)) :
    total = max (used - min refund (used / vm.common.params.maxRefundQuotient)) floor ∧
    block = if vm.common.isActivatedEIP 7778 then max total floor else total := by
  have hcap : 0 ≤ used / (vm.common.params.maxRefundQuotient : Int) :=
    Int.ediv_nonneg hused (Int.natCast_nonneg _)
  have hkept : 0 ≤ used - min refund (used / vm.common.params.maxRefundQuotient) := by
    have hle := Int.ediv_le_self (vm.common.params.maxRefundQuotient : Int) hused
    omega
  -- the capped refund is the minimum also where the source does not compute it
  obtain ⟨refunded, hmin, hresult⟩ : ∃ refunded,
      refunded = used - min refund (used / vm.common.params.maxRefundQuotient) ∧
      vm.floorGas refunded refund floor = (total, counter, block) := by
    unfold settleGas at h
    dsimp only at h
    split at h
    · split at h
      · cases h
      · refine ⟨_, ?_, Except.ok.inj h⟩
        rw [Int.tdiv_eq_ediv_of_nonneg hused]
        split <;> omega
    · refine ⟨_, ?_, Except.ok.inj h⟩
      omega
  simp only [floorGas, Prod.mk.injEq] at hresult
  obtain ⟨rfl, -, rfl⟩ := hresult
  constructor
  · rw [← hmin] at hkept ⊢
    rcases Bool.eq_false_or_eq_true (vm.common.isActivatedEIP 7623) with hactive | hinactive
    · simp only [hactive, true_and, decide_eq_true_eq]
      split <;> omega
    · simp only [hinactive, hfloor hinactive, Bool.false_eq_true, false_and, decide_false, if_false]
      omega
  · rfl

/-- The gas that is paid for is not negative and within the gas limit. -/
theorem settleGas_bounds {tx : Transaction} {used refund total counter block : Int}
    (hused : 0 ≤ used) (hlimit : used ≤ tx.gasLimit)
    (hfloor : floorCost vm.common tx ≤ tx.gasLimit) (hrefund : 0 ≤ refund)
    (h : vm.settleGas used refund (floorCost vm.common tx) = .ok (total, counter, block)) :
    0 ≤ total ∧ total ≤ tx.gasLimit := by
  obtain ⟨rfl, -⟩ := settleGas_ok hused hrefund (floorCost_inactive _) h
  have hcap : 0 ≤ used / (vm.common.params.maxRefundQuotient : Int) :=
    Int.ediv_nonneg hused (Int.natCast_nonneg _)
  omega

section Execution

variable {opts : RunTxOpts} {world : World} {execution : Execution}

theorem effectivePrice_ok {gasPrice inclusionFeePerGas : Int}
    (h : vm.effectivePrice opts = .ok (gasPrice, inclusionFeePerGas)) :
    gasPrice = opts.tx.effectiveGasPrice ((vm.baseFee opts).getD 0) := by
  unfold effectivePrice at h
  unfold Transaction.effectiveGasPrice
  rcases hmarket : opts.tx.feeMarket with _ | ⟨prio, maxFee⟩
  · simp only [hmarket, Except.ok.injEq, Prod.mk.injEq] at h
    exact h.1.symm
  · simp only [hmarket] at h
    obtain ⟨inclusion, hinclusion, h⟩ := bind_eq_ok.mp h
    simp only [Except.ok.injEq, Prod.mk.injEq] at h
    obtain ⟨rfl, rfl⟩ := h
    unfold getEffectivePriorityFee at hinclusion
    split at hinclusion
    · cases hinclusion
    · rename_i baseFee hfee
      split at hinclusion
      · cases hinclusion
      · obtain rfl := Except.ok.inj hinclusion
        simp only [hfee, Option.getD_some]
        split <;> omega

/-- Without EIP-8037 the gas used is that of the EVM and the intrinsic gas. -/
theorem gasUsed_eq (h : vm.common.isActivatedEIP 8037 = false) (tx : Transaction) :
    execution.gasUsed vm tx = execution.results.executionGasUsed + tx.intrinsicGas := by
  simp [Execution.gasUsed, gasBeforeRefund, h]

theorem splitGasLimit_ok (h : vm.common.isActivatedEIP 8037 = false) {tx : Transaction}
    {gasLimit reservoir : Int} (hsplit : vm.splitGasLimit tx = .ok (gasLimit, reservoir)) :
    gasLimit = (tx.gasLimit : Int) - tx.intrinsicGas ∧ tx.intrinsicGas ≤ tx.gasLimit ∧
      floorCost vm.common tx ≤ tx.gasLimit := by
  simp only [splitGasLimit, computeIntrinsicGasDimensions8037, h, Bool.false_eq_true,
    if_false, Nat.add_zero] at hsplit
  split at hsplit
  · cases hsplit
  · simp only [Except.ok.injEq, Prod.mk.injEq] at hsplit
    omega

theorem execute_gasRefund (hrun : vm.execute opts world = .ok execution) :
    0 ≤ execution.gasRefund := by
  obtain ⟨_, _, _, _, _, _, _, -, -, -, -, -, -, hcall⟩ := execute_ok hrun
  simp only [chargeAndCall, Prod.mk.injEq] at hcall
  have hrefund : 0 ≤ execution.auth.gasRefund := by
    rw [← hcall.1]
    exact processAuthorizationList_gasRefund opts.tx.sender opts.tx.authorizationList _ ⟨0, 0, []⟩
  unfold Execution.gasRefund
  omega

theorem execute_bounds (h : vm.common.isActivatedEIP 8037 = false) (hlimited : vm.GasLimited)
    (hrun : vm.execute opts world = .ok execution) :
    0 ≤ execution.gasUsed vm opts.tx ∧ execution.gasUsed vm opts.tx ≤ opts.tx.gasLimit ∧
      floorCost vm.common opts.tx ≤ opts.tx.gasLimit ∧
      execution.gasPrice = opts.tx.effectiveGasPrice ((vm.baseFee opts).getD 0) := by
  obtain ⟨gasLimit, _, _, _, _, _, _, hsplit, -, -, -, -, hprice, hcall⟩ := execute_ok hrun
  obtain ⟨hgasLimit, hintrinsic, hfloor⟩ := splitGasLimit_ok h hsplit
  simp only [chargeAndCall, Prod.mk.injEq] at hcall
  have hused : (execution.results.executionGasUsed : Int) ≤ gasLimit := by
    rw [← hcall.2.1]
    apply hlimited
    dsimp only
    omega
  rw [gasUsed_eq h]
  exact ⟨by omega, by omega, hfloor, effectivePrice_ok hprice⟩

end Execution

/-- The gas of a transaction is accounted for as specified unless EIP-7778 is active and
a refund lowers a total above the floor: the block total is taken after the refund. -/
theorem runTx_gasAccounted_iff (h : vm.common.isActivatedEIP 8037 = false)
    (hlimited : vm.GasLimited) {opts : RunTxOpts} {world after : World} {result : RunTxResult}
    (hrun : vm.runTx opts world = .ok (result, after)) :
    ∃ execution,
      vm.execute opts (world.cleanup vm.hashing vm.common.gteSpuriousDragon) = .ok execution ∧
      vm.finish opts execution = .ok (result, after) ∧
      (vm.GasAccounted opts execution result ↔
        vm.common.isActivatedEIP 7778 = false ∨ execution.gasRefund = 0 ∨
        execution.gasUsed vm opts.tx / vm.common.params.maxRefundQuotient = 0 ∨
        execution.gasUsed vm opts.tx ≤ floorCost vm.common opts.tx) := by
  obtain ⟨execution, hexecute, hfinish⟩ := runTx_ok hrun
  refine ⟨execution, hexecute, hfinish, ?_⟩
  obtain ⟨hused, hlimit, hfloor, hprice⟩ := execute_bounds h hlimited hexecute
  have hrefund := execute_gasRefund hexecute
  have hcap : 0 ≤ execution.gasUsed vm opts.tx / (vm.common.params.maxRefundQuotient : Int) :=
    Int.ediv_nonneg hused (Int.natCast_nonneg _)
  obtain ⟨⟨total, counter, block⟩, hsettle, hfinish⟩ := bind_eq_ok.mp hfinish
  obtain ⟨htotal, hblock⟩ := settleGas_ok hused hrefund (floorCost_inactive _) hsettle
  simp only [Except.ok.injEq, Prod.mk.injEq] at hfinish
  obtain ⟨rfl, -⟩ := hfinish
  constructor
  · intro haccounted
    have hwanted := haccounted.blockGasSpent_eq
    dsimp only at hwanted
    rcases Bool.eq_false_or_eq_true (vm.common.isActivatedEIP 7778) with hactive | hinactive
    · simp only [hactive, if_true] at hblock hwanted
      omega
    · left
      exact hinactive
  · intro hcondition
    constructor
    · exact htotal
    · dsimp only
      omega
    · dsimp only
      omega
    · dsimp only
      rw [hprice]
    · dsimp only
      rcases Bool.eq_false_or_eq_true (vm.common.isActivatedEIP 7778) with hactive | hinactive
      · simp only [hactive, if_true, Bool.true_eq_false, false_or] at hblock hcondition ⊢
        omega
      · simp only [hinactive, Bool.false_eq_true, if_false] at hblock ⊢
        exact hblock

/-- A chain with the calldata floor and the block total without refunds, whose EVM uses
29000 gas when it may and refunds 4800. -/
def refunding : VM where
  common := {
    chainId := 1
    isActivatedEIP := fun eip => eip ∈ [1559, 2718, 2930, 7623, 7778]
    gteSpuriousDragon := true
    proofOfAuthority := false
    params := ⟨21000, 10, 5, 131072, 25000, 12500, 112, 23, 1174, 16777216⟩
    perAuthBaseGas_le := fun _ => by decide }
  hashing := polynomialHash
  runCall := fun message world =>
    (⟨if 29000 ≤ message.gasLimit then 29000 else 0, some 4800, false, none, [], 0, 0, false⟩, world)
  defaultHeader := ⟨30000000, some 7, 0, 0, 1⟩

/-- A legacy transaction with gas limit 100000 from a funded sender. -/
def fundedTx : RunTxOpts where
  tx := ⟨.legacy 10, 1, some 2, 0, 100000, 0, [], [], 21000⟩
  block := none
  skipBalance := false
  skipNonce := false
  skipBlockGasLimitValidation := false

def fundedWorld : World where
  accounts := fun address => if address = 1 then some ⟨0, 2000000, keccakNull polynomialHash⟩ else none
  code := fun _ => []
  touched := []
  history := []

theorem refunding_gasLimited : refunding.GasLimited := by
  intro message world h
  dsimp only [refunding]
  split
  · assumption
  · exact h

/-- The block is charged 45200 gas although 50000 were used before the refund. -/
theorem not_gasAccounted_refunded :
    ∃ result after execution, refunding.runTx fundedTx fundedWorld = .ok (result, after) ∧
      refunding.execute fundedTx (fundedWorld.cleanup polynomialHash true) = .ok execution ∧
      ¬ refunding.GasAccounted fundedTx execution result := by
  refine ⟨_, _, _, rfl, rfl, ?_⟩
  intro h
  exact absurd h.blockGasSpent_eq (by decide)

theorem runTx_gasAccounted_iff_refunding :
    ∃ result after, refunding.runTx fundedTx fundedWorld = .ok (result, after) ∧
      ∃ execution,
        refunding.execute fundedTx (fundedWorld.cleanup polynomialHash true) = .ok execution ∧
        refunding.finish fundedTx execution = .ok (result, after) ∧
        (refunding.GasAccounted fundedTx execution result ↔
          refunding.common.isActivatedEIP 7778 = false ∨ execution.gasRefund = 0 ∨
          execution.gasUsed refunding fundedTx.tx /
            refunding.common.params.maxRefundQuotient = 0 ∨
          execution.gasUsed refunding fundedTx.tx ≤ floorCost refunding.common fundedTx.tx) :=
  ⟨_, _, rfl, runTx_gasAccounted_iff (by decide) refunding_gasLimited rfl⟩

end VM
end EthereumJS
