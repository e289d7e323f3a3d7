import Mathlib.Algebra.BigOperators.Group.Finset.Piecewise
import EthereumJS.Vm.GasAccounting

/-! # The balances over a transaction

Each stage of `runTx` moves the total of all balances by a known amount and leaves no
balance negative. The sum over the stages is what the fees burn.
-/

namespace EthereumJS

/-- The balance behind an entry of the state, zero for a missing account. -/
def balanceOf (account : Option VmAccount) : Int := (account.map VmAccount.balance).getD 0

theorem total_update (accounts : Accounts) (address : Address) (account : Option VmAccount) :
    Accounts.total (Function.update accounts address account) =
      accounts.total + (balanceOf account - balanceOf (accounts address)) := by
  have hcomp : (fun a => balanceOf (Function.update accounts address account a)) =
      Function.update (fun a => balanceOf (accounts a)) address (balanceOf account) := by
    funext a
    exact Function.apply_update (fun _ => balanceOf) accounts address account a
  change ∑ a, balanceOf (Function.update accounts address account a) =
    ∑ a, balanceOf (accounts a) + _
  rw [hcomp, Finset.sum_update_of_mem (Finset.mem_univ address),
    Finset.sum_eq_add_sum_sdiff_singleton_of_mem (Finset.mem_univ address)
      (fun a => balanceOf (accounts a))]
  omega

namespace World

/-- No balance is negative, now and after any write recorded so far. -/
structure NonNegative (world : World) : Prop where
  accounts : world.accounts.NonNegative
  history : ∀ accounts ∈ world.history, accounts.NonNegative

/-- A step that moves the total of all balances by an amount and keeps them from
becoming negative. -/
structure Moves (amount : Int) (world after : World) : Prop where
  total_eq : after.accounts.total = world.accounts.total + amount
  nonNegative : world.NonNegative → after.NonNegative

theorem Moves.refl (world : World) : Moves 0 world world :=
  ⟨(Int.add_zero _).symm, id⟩

theorem Moves.trans {a b : Int} {world between after : World} (h₁ : Moves a world between)
    (h₂ : Moves b between after) : Moves (a + b) world after := by
  constructor
  · rw [h₂.total_eq, h₁.total_eq, Int.add_assoc]
  · intro h
    exact h₂.nonNegative (h₁.nonNegative h)

theorem Moves.cast {a b : Int} {world after : World} (h : Moves a world after) (heq : a = b) :
    Moves b world after := by
  rwa [← heq]

/-- Only the accounts and their history matter. -/
theorem Moves.congr {a : Int} {world after after' : World} (h : Moves a world after)
    (haccounts : after'.accounts = after.accounts) (hhistory : after'.history = after.history) :
    Moves a world after' := by
  constructor
  · rw [haccounts, h.total_eq]
  · intro hworld
    have hafter := h.nonNegative hworld
    constructor
    · rw [haccounts]
      exact hafter.accounts
    · rw [hhistory]
      exact hafter.history

variable {H : HashKeysFunction} {world : World} {address : Address}

theorem moves_set {account : Option VmAccount}
    (h : world.NonNegative → 0 ≤ balanceOf account) :
    Moves (balanceOf account - balanceOf (world.accounts address)) world
      (world.set address account) := by
  constructor
  · exact total_update world.accounts address account
  · intro hworld
    have hset : Accounts.NonNegative (Function.update world.accounts address account) := by
      intro a entry hentry
      rcases Classical.em (a = address) with rfl | hne
      · rw [Function.update_self] at hentry
        subst hentry
        exact h hworld
      · rw [Function.update_of_ne hne] at hentry
        exact hworld.accounts a entry hentry
    constructor
    · exact hset
    · rintro accounts (_ | ⟨_, hmem⟩)
      · exact hset
      · exact hworld.history accounts hmem

theorem moves_putAccount {account : VmAccount} (h : world.NonNegative → 0 ≤ account.balance) :
    Moves (account.balance - balanceOf (world.accounts address)) world
      (world.putAccount address account) := by
  have hmoves : Moves (balanceOf (some account) - balanceOf (world.accounts address)) world
    (world.set address (some account)) := moves_set h
  apply hmoves.congr
  · simp [set]
  · simp [set]

theorem balance_accountOrNew :
    (world.accountOrNew H address).balance = balanceOf (world.accounts address) := by
  unfold accountOrNew balanceOf
  cases world.accounts address <;> rfl

theorem NonNegative.balance_nonneg (h : world.NonNegative) (address : Address) :
    0 ≤ balanceOf (world.accounts address) := by
  unfold balanceOf
  cases haccount : world.accounts address with
  | none => exact le_rfl
  | some account => exact h.accounts address account haccount

/-- A write of an account with the balance it had. -/
theorem moves_putAccount_same {account : VmAccount}
    (h : account.balance = balanceOf (world.accounts address)) :
    Moves 0 world (world.putAccount address account) := by
  apply (moves_putAccount _).cast
  · omega
  · intro hworld
    have := hworld.balance_nonneg address
    omega

/-- A payment to an account. -/
theorem moves_addBalance {amount : Int} (h : 0 ≤ amount) :
    Moves amount world (world.putAccount address
      { world.accountOrNew H address with
        balance := (world.accountOrNew H address).balance + amount }) := by
  have hbalance : (world.accountOrNew H address).balance = balanceOf (world.accounts address) :=
    balance_accountOrNew
  apply (moves_putAccount _).cast
  · dsimp only
    omega
  · intro hworld
    have := hworld.balance_nonneg address
    dsimp only
    omega

/-- A payment from an account that covers it. -/
theorem moves_deduct {txCost blobGasCost : Int}
    (h : txCost + blobGasCost ≤ (world.accountOrNew H address).balance) :
    Moves (-txCost - blobGasCost) world (world.putAccount address
      { world.accountOrNew H address with
        balance := (world.accountOrNew H address).balance - txCost - blobGasCost }) := by
  have hbalance : (world.accountOrNew H address).balance = balanceOf (world.accounts address) :=
    balance_accountOrNew
  apply (moves_putAccount _).cast
  · dsimp only
    omega
  · intro _
    dsimp only
    omega

theorem moves_putCode (value : Bytes) : Moves 0 world (world.putCode H address value) := by
  let account := { world.accountOrNew H address with codeHash := H.hash value }
  have hbalance : balanceOf (some account) = balanceOf (world.accounts address) :=
    balance_accountOrNew
  have hmoves : Moves (balanceOf (some account) - balanceOf (world.accounts address)) world
      (world.set address (some account)) := by
    apply moves_set
    intro hworld
    rw [hbalance]
    exact hworld.balance_nonneg address
  have hput : Moves (balanceOf (some account) - balanceOf (world.accounts address)) world
    (world.putCode H address value) := hmoves.congr rfl rfl
  apply hput.cast
  omega

/-- A deleted account that holds nothing. -/
theorem moves_deleteAccount (h : balanceOf (world.accounts address) = 0) :
    Moves 0 world (world.deleteAccount address) := by
  have hmoves : Moves (balanceOf none - balanceOf (world.accounts address)) world
    (world.set address none) := moves_set fun _ => le_rfl
  apply (hmoves.congr _ _).cast
  · rw [h]
    rfl
  · simp [deleteAccount, set]
  · simp [deleteAccount, set]

theorem moves_deleteEmpty (touched : List Address) :
    Moves 0 world (world.deleteEmpty H touched) := by
  induction touched generalizing world with
  | nil => exact Moves.refl world
  | cons address touched ih =>
    unfold deleteEmpty
    split
    · rename_i hmissing
      exact (moves_deleteAccount (by rw [hmissing]; rfl)).trans ih
    · rename_i account haccount
      split
      · rename_i hempty
        simp only [VmAccount.isEmpty, decide_eq_true_eq] at hempty
        exact (moves_deleteAccount (by rw [haccount]; exact hempty.1)).trans ih
      · exact ih

theorem moves_cleanup (spuriousDragon : Bool) : Moves 0 world (world.cleanup H spuriousDragon) := by
  unfold cleanup
  split
  · exact (moves_deleteEmpty world.touched).congr rfl rfl
  · exact (Moves.refl world).congr rfl rfl

end World

namespace VM

open World (Moves)

/-- What a transaction may assume of the EVM: it keeps the sum of all balances, makes none
negative, stays within its gas limit and destroys no account. It may hand back the state
gas that it took from the regular gas, and that of a creation that failed. -/
structure Conserving (vm : VM) : Prop where
  total_eq : ∀ message world,
    (vm.runCall message world).2.accounts.total = world.accounts.total
  nonNegative : ∀ message world, world.accounts.NonNegative →
    (vm.runCall message world).2.accounts.NonNegative
  gasLimited : vm.GasLimited
  reservoir_le : ∀ message world, vm.common.isActivatedEIP 8037 = true →
    ((vm.runCall message world).1.stateGasReservoir : Int) ≤
      message.stateGasReservoir + (vm.runCall message world).1.executionGasUsed +
        (if message.toAddress.isNone then
          vm.common.params.stateBytesPerNewAccount * vm.common.params.costPerStateByte else 0 : Nat)
  selfdestruct : ∀ message world, (vm.runCall message world).1.selfdestruct.getD [] = []

variable {vm : VM}

theorem moves_writeAuthorization (data : Authorization) (authority : Address) (world : World) :
    Moves 0 world (vm.writeAuthorization data authority world) := by
  unfold writeAuthorization
  have hput : Moves 0 world (world.putAccount authority
      { world.accountOrNew vm.hashing authority with
        nonce := (world.accountOrNew vm.hashing authority).nonce + 1 }) :=
    World.moves_putAccount_same World.balance_accountOrNew
  exact hput.trans (World.moves_putCode _)

/-- The most state gas that one authorization gives back. -/
def authRefill (common : Common) : Nat :=
  (common.params.stateBytesPerNewAccount + common.params.stateBytesPerAuthBase) *
    common.params.costPerStateByte

variable (vm) in
theorem refundAuthorization_refill (data : Authorization) (authority : Address) (world : World)
    (st : AuthState) :
    st.existingAuthStateGasRefund ≤
        (vm.refundAuthorization data authority world st).existingAuthStateGasRefund ∧
      (vm.refundAuthorization data authority world st).existingAuthStateGasRefund ≤
        st.existingAuthStateGasRefund + authRefill vm.common := by
  have hle (p : Prop) [Decidable p] (n : Nat) : (if p then n else 0) ≤ n ∧
      (if p then 0 else n) ≤ n := by
    split <;> simp
  unfold refundAuthorization
  dsimp only
  split
  · have hrefill (p q : Prop) [Decidable p] [Decidable q] :
        ((if p then 0 else vm.common.params.stateBytesPerNewAccount) +
          if q then vm.common.params.stateBytesPerAuthBase else 0) *
          vm.common.params.costPerStateByte ≤ authRefill vm.common := by
      apply Nat.mul_le_mul_right
      exact Nat.add_le_add (hle p _).2 (hle q _).1
    dsimp only
    constructor
    · omega
    · exact Int.add_le_add_left (Int.ofNat_le.mpr (hrefill _ _)) _
  · dsimp only
    omega

variable (vm) in
theorem processAuthorizationList_moves (caller : Address) (list : List Authorization)
    (world : World) (st : AuthState) :
    Moves 0 world (vm.processAuthorizationList caller list world st).1 ∧
      st.existingAuthStateGasRefund ≤
        (vm.processAuthorizationList caller list world st).2.existingAuthStateGasRefund ∧
      (vm.processAuthorizationList caller list world st).2.existingAuthStateGasRefund ≤
        st.existingAuthStateGasRefund + (list.length * authRefill vm.common : Nat) := by
  induction list generalizing world st with
  | nil =>
    refine ⟨Moves.refl world, le_rfl, ?_⟩
    simp [processAuthorizationList]
  | cons data list ih =>
    have hmore : ((list.length + 1) * authRefill vm.common : Nat) =
        list.length * authRefill vm.common + authRefill vm.common := Nat.succ_mul _ _
    rw [List.length_cons, hmore]
    rcases processAuthorization_cases caller data world st with hskip | ⟨authority, hrun⟩
    · rw [processAuthorizationList, hskip]
      dsimp only
      obtain ⟨hmoves, hlow, hhigh⟩ := ih world st
      exact ⟨hmoves, hlow, by omega⟩
    · rw [processAuthorizationList, hrun]
      dsimp only
      obtain ⟨hmoves, hlow, hhigh⟩ := ih (vm.writeAuthorization data authority world)
        (vm.refundAuthorization data authority world st)
      have hrefill := refundAuthorization_refill vm data authority world st
      refine ⟨(moves_writeAuthorization data authority world).trans hmoves, ?_, ?_⟩
      · omega
      · omega

/-- What the checks of the gas limit give the EVM call. -/
theorem splitGasLimit_bounds {tx : Transaction} {gasLimit reservoir : Int}
    (h : vm.splitGasLimit tx = .ok (gasLimit, reservoir)) :
    0 ≤ gasLimit ∧ 0 ≤ reservoir ∧ floorCost vm.common tx ≤ tx.gasLimit ∧
      gasLimit + reservoir + (computeIntrinsicGasDimensions8037 vm.common tx).1 +
        (computeIntrinsicGasDimensions8037 vm.common tx).2 = tx.gasLimit := by
  unfold splitGasLimit at h
  dsimp only at h
  split at h
  · cases h
  rename_i henough
  rcases Bool.eq_false_or_eq_true (vm.common.isActivatedEIP 8037) with hactive | hinactive
  · simp only [hactive, if_true] at h
    split at h
    · cases h
    · simp only [Except.ok.injEq, Prod.mk.injEq] at h
      omega
  · simp only [hinactive, Bool.false_eq_true, if_false, Except.ok.injEq, Prod.mk.injEq] at h
    simp only [computeIntrinsicGasDimensions8037, hinactive, Bool.false_eq_true, if_false]
      at henough ⊢
    omega

/-- The state gas of a transaction that is not charged to the EVM call covers what its
authorizations and its creation may give back. -/
theorem intrinsicStateGas_eq (tx : Transaction) (h : vm.common.isActivatedEIP 8037 = true) :
    (computeIntrinsicGasDimensions8037 vm.common tx).2 =
      (if tx.toAddress.isNone then
        vm.common.params.stateBytesPerNewAccount * vm.common.params.costPerStateByte else 0) +
      tx.authorizationList.length * authRefill vm.common := by
  simp only [computeIntrinsicGasDimensions8037, h, if_true, authRefill, Nat.mul_assoc]

theorem Conserving.reservoir (hvm : vm.Conserving) (hactive : vm.common.isActivatedEIP 8037 = true)
    (message : CallMessage) (h : 0 ≤ message.stateGasReservoir) (world : World) :
    ((vm.callEVM message world).1.stateGasReservoir : Int) ≤
      message.stateGasReservoir + (vm.callEVM message world).1.executionGasUsed +
        (if message.toAddress.isNone then
          vm.common.params.stateBytesPerNewAccount * vm.common.params.costPerStateByte
          else 0 : Nat) := by
  have hle := hvm.reservoir_le message world hactive
  unfold callEVM
  dsimp only
  split
  · omega
  · exact hle

/-- The blob gas fee of a transaction. -/
def blobGasFee (vm : VM) (opts : RunTxOpts) : Nat :=
  match opts.tx.type with
  | .blob4844 _ _ _ numBlobs =>
    (vm.header opts).blobGasPrice * (vm.common.params.blobGasPerBlob * numBlobs)
  | _ => 0

section Run

variable {opts : RunTxOpts} {world : World} {execution : Execution}

/-- The gas used before refunds is not negative and within the gas limit. -/
theorem Conserving.gasUsed (hvm : vm.Conserving) (h : vm.execute opts world = .ok execution) :
    0 ≤ execution.gasUsed vm opts.tx ∧ execution.gasUsed vm opts.tx ≤ opts.tx.gasLimit ∧
      floorCost vm.common opts.tx ≤ opts.tx.gasLimit := by
  rcases Bool.eq_false_or_eq_true (vm.common.isActivatedEIP 8037) with hactive | hinactive
  · obtain ⟨gasLimit, _, _, _, _, account, world₂, hsplit, -, -, -, -, -, hcall⟩ := execute_ok h
    obtain ⟨hgasLimit, hreservoir, hfloor, hsum⟩ := splitGasLimit_bounds hsplit
    simp only [chargeAndCall, Prod.mk.injEq] at hcall
    obtain ⟨hauth, hresults, -⟩ := hcall
    generalize hcharged : world₂.putAccount opts.tx.sender _ = charged at hauth hresults
    obtain ⟨-, hlow, hhigh⟩ := processAuthorizationList_moves vm opts.tx.sender
      opts.tx.authorizationList charged ⟨0, 0, []⟩
    generalize vm.processAuthorizationList opts.tx.sender opts.tx.authorizationList charged
      ⟨0, 0, []⟩ = list at hauth hresults hlow hhigh
    have hused : (execution.results.executionGasUsed : Int) ≤ gasLimit := by
      rw [← hresults]
      exact hvm.gasLimited _ _ hgasLimit
    have hback := hvm.reservoir hactive
      ⟨opts.tx.sender, execution.gasPrice, gasLimit, opts.tx.toAddress, opts.tx.value,
        opts.tx.data, execution.reservoir + list.2.existingAuthStateGasRefund,
        -list.2.existingAuthStateGasRefund⟩ (by dsimp only at hlow ⊢; omega) list.1
    rw [hresults] at hback
    have hstate := intrinsicStateGas_eq opts.tx hactive
    simp only [Execution.gasUsed, gasBeforeRefund, hactive, if_true]
    dsimp only at hback hhigh
    refine ⟨?_, ?_, hfloor⟩
    · omega
    · omega
  · obtain ⟨hlow, hhigh, hfloor, -⟩ := execute_bounds hinactive hvm.gasLimited h
    exact ⟨hlow, hhigh, hfloor⟩

theorem blobCosts_ok {totalblobGas blobGasPrice maxBlobCost : Nat}
    (h : vm.blobCosts opts = .ok (totalblobGas, blobGasPrice, maxBlobCost)) :
    totalblobGas * blobGasPrice = vm.blobGasFee opts ∧
      totalblobGas * blobGasPrice ≤ maxBlobCost ∧
      (opts.tx.feeMarket = none → totalblobGas * blobGasPrice = 0) := by
  unfold blobCosts at h
  unfold blobGasFee Transaction.feeMarket
  cases htype : opts.tx.type with
  | blob4844 prio max maxFeePerBlobGas numBlobs =>
    simp only [htype] at h
    split at h
    · cases h
    · split at h
      · cases h
      · simp only [Except.ok.injEq, Prod.mk.injEq] at h
        obtain ⟨rfl, rfl, rfl⟩ := h
        refine ⟨Nat.mul_comm _ _, Nat.mul_le_mul_left _ (by omega), ?_⟩
        intro hnone
        cases hnone
  | legacy | accessList2930 | feeMarket1559 | eoaCode7702 =>
    simp only [htype, Except.ok.injEq, Prod.mk.injEq] at h
    obtain ⟨rfl, rfl, rfl⟩ := h
    exact ⟨rfl, le_rfl, fun _ => rfl⟩

/-- Without the option to skip it, the checks of the balance change nothing. -/
theorem checkUpfrontCost_ok (hskip : opts.skipBalance = false) {account account' : VmAccount}
    {world' : World} (h : vm.checkUpfrontCost opts account world = .ok (account', world')) :
    account' = account ∧ world' = world ∧
      opts.tx.getUpfrontCost ((vm.baseFee opts).getD 0) ≤ account.balance := by
  unfold checkUpfrontCost at h
  simp only [hskip, Bool.false_eq_true, if_false] at h
  split at h
  · cases h
  · simp only [Except.ok.injEq, Prod.mk.injEq] at h
    exact ⟨h.1.symm, h.2.symm, by omega⟩

theorem checkMaxCost_ok (hskip : opts.skipBalance = false) {maxBlobCost : Nat}
    {account account' : VmAccount} {world' : World}
    (h : checkMaxCost opts maxBlobCost account world = .ok (account', world')) :
    account' = account ∧ world' = world ∧
      ∀ prio maxFee, opts.tx.feeMarket = some (prio, maxFee) →
        opts.tx.gasLimit * maxFee + maxBlobCost ≤ account.balance := by
  unfold checkMaxCost at h
  rcases hmarket : opts.tx.feeMarket with _ | ⟨prio, maxFee⟩
  · simp only [hmarket, hskip, Bool.false_eq_true, if_false] at h
    split at h
    · cases h
    · simp only [Except.ok.injEq, Prod.mk.injEq] at h
      refine ⟨h.1.symm, h.2.symm, ?_⟩
      rintro prio maxFee ⟨⟩
  · simp only [hmarket, hskip, Bool.false_eq_true, if_false] at h
    split at h
    · cases h
    · rename_i hcost
      simp only [Except.ok.injEq, Prod.mk.injEq] at h
      refine ⟨h.1.symm, h.2.symm, ?_⟩
      rintro _ _ ⟨⟩
      push_cast at hcost
      omega

/-- The account of the sender covers what is deducted from it. -/
theorem deduction_le {balance gasPrice inclusionFeePerGas : Int}
    {totalblobGas blobGasPrice maxBlobCost : Nat}
    (hupfront : opts.tx.getUpfrontCost ((vm.baseFee opts).getD 0) ≤ balance)
    (hmax : ∀ prio maxFee, opts.tx.feeMarket = some (prio, maxFee) →
      opts.tx.gasLimit * maxFee + maxBlobCost ≤ balance)
    (hblob : vm.blobCosts opts = .ok (totalblobGas, blobGasPrice, maxBlobCost))
    (hprice : vm.effectivePrice opts = .ok (gasPrice, inclusionFeePerGas)) :
    opts.tx.gasLimit * gasPrice + (totalblobGas * blobGasPrice : Nat) ≤ balance := by
  obtain ⟨-, hblobmax, hfree⟩ := blobCosts_ok hblob
  rw [effectivePrice_ok hprice]
  unfold Transaction.effectiveGasPrice
  unfold Transaction.getUpfrontCost at hupfront
  rcases hmarket : opts.tx.feeMarket with _ | ⟨prio, maxFee⟩
  · rw [hmarket] at hupfront
    dsimp only at hupfront ⊢
    rw [hfree hmarket]
    omega
  · have hcost := hmax prio maxFee hmarket
    have hgas : opts.tx.gasLimit * min ((vm.baseFee opts).getD 0 + prio) maxFee ≤
      opts.tx.gasLimit * maxFee := Nat.mul_le_mul_left _ (Nat.min_le_right _ _)
    dsimp only
    zify at hgas hblobmax
    push_cast
    omega

theorem callEVM_moves (hvm : vm.Conserving) (message : CallMessage) (world : World) :
    Moves 0 world (vm.callEVM message world).2 := by
  constructor
  · exact (hvm.total_eq message world).trans (Int.add_zero _).symm
  · intro hworld
    have hafter := hvm.nonNegative message world hworld.accounts
    constructor
    · exact hafter
    · rintro accounts (_ | ⟨_, hmem⟩)
      · exact hafter
      · exact hworld.history accounts hmem

/-- Up to the end of the EVM call the sender has paid for all of its gas and its blobs. -/
theorem execute_moves (hvm : vm.Conserving) (hskip : opts.skipBalance = false)
    (h : vm.execute opts world = .ok execution) :
    Moves (-(opts.tx.gasLimit * execution.gasPrice) - vm.blobGasFee opts) world
      execution.world := by
  obtain ⟨gasLimit, blobGasPrice, maxBlobCost, _, _, _, _, -, -, hupfront, hblob, hmax, hprice,
    hcall⟩ := execute_ok h
  obtain ⟨haccount, hworld, hupfront⟩ := checkUpfrontCost_ok hskip hupfront
  rw [haccount, hworld] at hmax
  obtain ⟨haccount, hworld, hmax⟩ := checkMaxCost_ok hskip hmax
  rw [haccount, hworld] at hcall
  have hcost := deduction_le hupfront hmax hblob hprice
  have hcharge := World.moves_deduct (H := vm.hashing) hcost
  simp only [chargeAndCall, hskip, Bool.false_eq_true, false_and, if_false, Prod.mk.injEq] at hcall
  rw [← hcall.2.2]
  generalize world.putAccount opts.tx.sender _ = charged at hcharge ⊢
  have hlist := (processAuthorizationList_moves vm opts.tx.sender opts.tx.authorizationList
    charged ⟨0, 0, []⟩).1
  apply ((hcharge.trans hlist).trans (callEVM_moves hvm _ _)).cast
  have hfee := (blobCosts_ok hblob).1
  omega

/-- Behind the EVM call the sender gets back the gas that is left and the miner its fee. -/
theorem settle_moves {gasPrice inclusionFeePerGas totalGasSpent : Int} {results : EVMResult}
    (world : World) (hselfdestruct : results.selfdestruct.getD [] = [])
    (hprice : 0 ≤ gasPrice) (hspent : 0 ≤ totalGasSpent)
    (hlimit : totalGasSpent ≤ opts.tx.gasLimit)
    (hinclusion : vm.common.isActivatedEIP 1559 = true → 0 ≤ inclusionFeePerGas) :
    Moves (opts.tx.gasLimit * gasPrice - totalGasSpent * gasPrice +
      if vm.common.isActivatedEIP 1559 then totalGasSpent * inclusionFeePerGas
      else totalGasSpent * gasPrice) world
      (vm.settle opts gasPrice inclusionFeePerGas totalGasSpent results world).2 := by
  have hdiff : totalGasSpent * gasPrice ≤ opts.tx.gasLimit * gasPrice :=
    Int.mul_le_mul_of_nonneg_right hlimit hprice
  simp only [settle, hselfdestruct, updateMinerBalance, processSelfdestructs]
  have hrefund : Moves (opts.tx.gasLimit * gasPrice - totalGasSpent * gasPrice) world
      (world.putAccount opts.tx.sender
        { world.accountOrNew vm.hashing opts.tx.sender with
          balance := (world.accountOrNew vm.hashing opts.tx.sender).balance +
            (opts.tx.gasLimit * gasPrice - totalGasSpent * gasPrice) }) :=
    World.moves_addBalance (by omega)
  apply ((hrefund.trans (World.moves_addBalance _)).trans (World.moves_cleanup _)).cast
  · omega
  · split
    · rename_i hactive
      exact Int.mul_nonneg hspent (hinclusion hactive)
    · exact Int.mul_nonneg hspent hprice

/-- The price of a gas is the base fee and what is left for the proposer. -/
theorem inclusionFee_ok {gasPrice inclusionFeePerGas : Int}
    (hmax : vm.checkMaxFee opts = .ok ())
    (h : vm.effectivePrice opts = .ok (gasPrice, inclusionFeePerGas)) :
    gasPrice = inclusionFeePerGas + (vm.baseFee opts).getD 0 ∧
      (vm.common.isActivatedEIP 1559 = true → 0 ≤ inclusionFeePerGas) := by
  unfold effectivePrice at h
  unfold checkMaxFee at hmax
  rcases hmarket : opts.tx.feeMarket with _ | ⟨prio, maxFee⟩
  · simp only [hmarket, Except.ok.injEq, Prod.mk.injEq] at h hmax
    obtain ⟨rfl, rfl⟩ := h
    refine ⟨by omega, ?_⟩
    intro hactive
    simp only [hactive, true_and] at hmax
    split at hmax
    · cases hmax
    · omega
  · simp only [hmarket] at h
    obtain ⟨inclusion, -, h⟩ := bind_eq_ok.mp h
    simp only [Except.ok.injEq, Prod.mk.injEq] at h
    obtain ⟨rfl, rfl⟩ := h
    exact ⟨Int.add_comm _ _ ▸ rfl, fun _ => Int.natCast_nonneg _⟩

end Run

/-- A transaction burns the base fee of the gas that it spent and the fee of its blobs,
and no balance is negative at any step. -/
theorem runTx_conserves (hvm : vm.Conserving) {opts : RunTxOpts} {world after : World}
    {result : RunTxResult} (hskip : opts.skipBalance = false) (hworld : world.NonNegative)
    (hrun : vm.runTx opts world = .ok (result, after)) :
    after.accounts.total = world.accounts.total -
        (if vm.common.isActivatedEIP 1559 then (vm.baseFee opts).getD 0 else 0 : Nat) *
          result.totalGasSpent - vm.blobGasFee opts ∧
      after.NonNegative := by
  obtain ⟨execution, hexecute, hfinish⟩ := runTx_ok hrun
  obtain ⟨_, _, _, _, _, _, _, -, hmaxFee, -, -, -, hprice, hcall⟩ := execute_ok hexecute
  obtain ⟨hused, hlimit, hfloor⟩ := hvm.gasUsed hexecute
  obtain ⟨hsum, hinclusion⟩ := inclusionFee_ok hmaxFee hprice
  have hrefund := execute_gasRefund hexecute
  obtain ⟨⟨total, counter, block⟩, hsettle, hfinish⟩ := bind_eq_ok.mp hfinish
  obtain ⟨hspent, hspentLimit⟩ := settleGas_bounds hused hlimit hfloor hrefund hsettle
  simp only [Except.ok.injEq, Prod.mk.injEq] at hfinish
  obtain ⟨rfl, rfl⟩ := hfinish
  have hselfdestruct : execution.results.selfdestruct.getD [] = [] := by
    simp only [chargeAndCall, Prod.mk.injEq] at hcall
    rw [← hcall.2.1]
    exact hvm.selfdestruct _ _
  have hgasPrice : 0 ≤ execution.gasPrice := by
    rw [effectivePrice_ok hprice]
    exact Int.natCast_nonneg _
  have hpaid := execute_moves hvm hskip hexecute
  have hsettled := settle_moves execution.world hselfdestruct hgasPrice hspent hspentLimit
    hinclusion
  have hprices : total * execution.gasPrice =
      total * execution.inclusionFeePerGas + ((vm.baseFee opts).getD 0 : Nat) * total := by
    rw [hsum, Int.mul_add, Int.mul_comm _ total]
  have hmoves := (((World.moves_cleanup _).trans hpaid).trans hsettled).cast
    (b := -((if vm.common.isActivatedEIP 1559 then (vm.baseFee opts).getD 0 else 0 : Nat) *
      total) - vm.blobGasFee opts) (by
    split
    · omega
    · simp only [Nat.cast_zero, Int.zero_mul]
      omega)
  have hsplit (t a b : Int) : t + (-a - b) = t - a - b := by omega
  exact ⟨hmoves.total_eq.trans (hsplit _ _ _), hmoves.nonNegative hworld⟩

theorem refunding_conserving : refunding.Conserving where
  total_eq _ _ := rfl
  nonNegative _ _ h := h
  gasLimited := refunding_gasLimited
  reservoir_le := by
    rintro _ _ ⟨⟩
  selfdestruct _ _ := rfl

theorem fundedWorld_nonNegative : fundedWorld.NonNegative := by
  constructor
  · intro address account haccount
    dsimp only [fundedWorld] at haccount
    split at haccount
    · obtain rfl := Option.some.inj haccount
      decide
    · cases haccount
  · rintro _ ⟨⟩

/-- 45200 gas at a base fee of 7 are burnt. -/
theorem runTx_conserves_refunding :
    ∃ result after, refunding.runTx fundedTx fundedWorld = .ok (result, after) ∧
      after.accounts.total = fundedWorld.accounts.total -
        (if refunding.common.isActivatedEIP 1559 then (refunding.baseFee fundedTx).getD 0
          else 0 : Nat) * result.totalGasSpent - refunding.blobGasFee fundedTx ∧
      after.NonNegative :=
  ⟨_, _, rfl, runTx_conserves refunding_conserving rfl fundedWorld_nonNegative rfl⟩

end VM
end EthereumJS
