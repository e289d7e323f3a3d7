import EthereumJS.Common.Hardfork
import EthereumJS.Vm.GasAccounting

/-! # The minimum gas of a transaction

`getIntrinsicGas` and `getValidationErrors` of the transactions, against the check of the gas
limit in `_runTx`. The run asks for the state gas of EIP-8037 and for the calldata floor of the
access list; `getValidationErrors` knows neither.
-/

namespace EthereumJS

/-- What the price of the data reads of `Common` beside the parameters of a run. -/
structure DataParams where
  hardfork : Hardfork
  txDataZeroGas : Nat
  txDataNonZeroGas : Nat
  initCodeWordGas : Nat
  txCreationGas : Nat
  accessListStorageKeyGas : Nat
  accessListAddressGas : Nat

structure DataFee where
  value : Nat
  hardfork : Hardfork

/-- The errors of `getValidationErrors`; the second is "gasLimit is too low" with the two
numbers of its text. -/
inductive ValidationError
  | invalidSignature
  | gasLimitTooLow (intrinsicGas gasLimit : Nat)
  deriving DecidableEq

namespace Transaction

variable (common : Common) (params : DataParams) (tx : Transaction)

/-- The body of `Legacy.getDataGas` behind its cache. -/
def dataCost : Nat :=
  let cost :=
    (tx.data.map fun b => if b = 0 then params.txDataZeroGas else params.txDataNonZeroGas).sum
  if tx.toAddress.isNone ∧ common.isActivatedEIP 3860 then
    cost + params.initCodeWordGas * ((tx.data.length + 31) / 32)
  else cost

/-- `Legacy.getDataGas`, by what is cached. -/
def legacyDataGas (dataFee : Option DataFee) : Nat :=
  match dataFee with
  | some fee => if fee.hardfork = params.hardfork then fee.value else tx.dataCost common params
  | none => tx.dataCost common params

/-- The cache behind `Legacy.getDataGas`, which a frozen transaction writes. -/
def cachedDataFee (frozen : Bool) (dataFee : Option DataFee) : Option DataFee :=
  if (dataFee.any fun fee => fee.hardfork = params.hardfork) ∨ ¬ frozen then dataFee
  else some ⟨tx.dataCost common params, params.hardfork⟩

def totalSlots : Nat := (tx.accessList.map fun item => item.2.length).sum

def getAccessListDataGas : Nat :=
  let addresses := tx.accessList.length
  let cost := addresses * params.accessListAddressGas +
    tx.totalSlots * params.accessListStorageKeyGas
  if common.isActivatedEIP 7981 then
    let accessListBytes := addresses * 20 + tx.totalSlots * 32
    cost + common.params.totalCostFloorPerToken * accessListBytes * 4
  else cost

def getDataGas (dataFee : Option DataFee) : Nat :=
  let legacy := tx.legacyDataGas common params dataFee
  match tx.type with
  | .legacy _ => legacy
  | .eoaCode7702 _ _ authorizationList =>
    legacy + tx.getAccessListDataGas common params +
      authorizationList.length * common.params.perEmptyAccountCost
  | _ => legacy + tx.getAccessListDataGas common params

def getIntrinsicGas (dataFee : Option DataFee) : Nat :=
  let fee := tx.getDataGas common params dataFee + common.params.txGas
  if params.hardfork.gteHardfork .homestead ∧ tx.toAddress.isNone then fee + params.txCreationGas
  else fee

/-- The tokens of the data under EIP-7623. -/
def dataTokens : Nat :=
  if common.isActivatedEIP 7976 then tx.data.length * 4
  else (tx.data.map fun b => if b = 0 then 1 else 4).sum

/-- The gas that `getValidationErrors` asks for. -/
def validationMinimum (dataFee : Option DataFee) : Nat :=
  let intrinsicGas := tx.getIntrinsicGas common params dataFee
  if common.isActivatedEIP 7623 then
    let floorCost :=
      common.params.txGas + common.params.totalCostFloorPerToken * tx.dataTokens common
    max intrinsicGas floorCost
  else intrinsicGas

/-- The first argument says whether the signature verifies, if there is one. -/
def getValidationErrors (signature : Option Bool) (dataFee : Option DataFee) :
    List ValidationError :=
  let errors := if signature = some false then [.invalidSignature] else []
  if tx.validationMinimum common params dataFee > tx.gasLimit then
    errors ++ [.gasLimitTooLow (tx.getIntrinsicGas common params dataFee) tx.gasLimit]
  else errors

/-- What a second call of `getDataGas` returns is what the first returned. -/
theorem legacyDataGas_cached (frozen : Bool) (dataFee : Option DataFee) :
    tx.legacyDataGas common params (tx.cachedDataFee common params frozen dataFee) =
      tx.legacyDataGas common params dataFee := by
  rw [cachedDataFee]
  split
  · rfl
  · rename_i hmiss
    have hold : tx.legacyDataGas common params dataFee = tx.dataCost common params := by
      cases dataFee with
      | none => rfl
      | some fee =>
        apply if_neg
        intro hhit
        apply hmiss
        left
        simpa using hhit
    rw [hold]
    exact if_pos rfl

theorem getIntrinsicGas_cached (frozen : Bool) (dataFee : Option DataFee) :
    tx.getIntrinsicGas common params (tx.cachedDataFee common params frozen dataFee) =
      tx.getIntrinsicGas common params dataFee := by
  simp only [getIntrinsicGas, getDataGas, legacyDataGas_cached]

theorem tooLow_iff (signature : Option Bool) (dataFee : Option DataFee) :
    (∃ intrinsicGas gasLimit, .gasLimitTooLow intrinsicGas gasLimit ∈
      tx.getValidationErrors common params signature dataFee) ↔
      tx.gasLimit < tx.validationMinimum common params dataFee := by
  have hsignature (intrinsicGas gasLimit : Nat) : .gasLimitTooLow intrinsicGas gasLimit ∉
      if signature = some false then [ValidationError.invalidSignature] else [] := by
    split <;> simp
  rw [getValidationErrors]
  split
  · rename_i hlow
    constructor
    · intro _
      exact hlow
    · intro _
      exact ⟨_, _, List.mem_append_right _ (List.mem_singleton.mpr rfl)⟩
  · rename_i hhigh
    constructor
    · rintro ⟨_, _, hmem⟩
      exact absurd hmem (hsignature _ _)
    · intro hlow
      exact absurd hlow hhigh

end Transaction

/-- A transaction on the `Common` of a VM, with what it has cached. -/
structure PricedTx (common : Common) (params : DataParams) where
  tx : Transaction
  dataFee : Option DataFee
  frozen : Bool
  legacy_accessList : tx.isTyped = false → tx.accessList = []
  intrinsicGas_eq : tx.intrinsicGas = tx.getIntrinsicGas common params dataFee

namespace PricedTx

variable {common : Common} {params : DataParams} (priced : PricedTx common params)

/-- The transaction that `getIntrinsicGas` leaves. -/
def cached : PricedTx common params where
  tx := priced.tx
  dataFee := priced.tx.cachedDataFee common params priced.frozen priced.dataFee
  frozen := priced.frozen
  legacy_accessList := priced.legacy_accessList
  intrinsicGas_eq := by
    rw [Transaction.getIntrinsicGas_cached]
    exact priced.intrinsicGas_eq

/-- The regular and the state gas of EIP-8037 that `getIntrinsicGas` lacks. -/
def gas8037 : Nat :=
  if common.isActivatedEIP 8037 then
    let p := common.params
    let authCount := priced.tx.authorizationList.length
    let create :=
      if priced.tx.toAddress.isNone then p.stateBytesPerNewAccount * p.costPerStateByte else 0
    authCount * p.perAuthBaseGas + (create +
      authCount * (p.stateBytesPerNewAccount + p.stateBytesPerAuthBase) * p.costPerStateByte)
  else 0

/-- The calldata floor of the access list, which the floor of `getValidationErrors` lacks. -/
def floor7981 : Nat :=
  if common.isActivatedEIP 7981 then
    common.params.totalCostFloorPerToken *
      ((priced.tx.accessList.length * 20 + priced.tx.totalSlots * 32) * 4)
  else 0

/-- The calldata floor of the data. -/
def dataFloor : Nat :=
  common.params.txGas + common.params.totalCostFloorPerToken * priced.tx.dataTokens common

/-- A calldata floor, which is none before EIP-7623. -/
def floor7623 (common : Common) (floor : Nat) : Nat :=
  if common.isActivatedEIP 7623 then floor else 0

theorem validationMinimum_eq :
    priced.tx.validationMinimum common params priced.dataFee =
      max priced.tx.intrinsicGas (floor7623 common priced.dataFloor) := by
  rw [Transaction.validationMinimum, ← priced.intrinsicGas_eq, floor7623]
  split
  · rfl
  · exact (Nat.max_eq_left (Nat.zero_le _)).symm

theorem totalIntrinsic_eq :
    (computeIntrinsicGasDimensions8037 common priced.tx).1 +
      (computeIntrinsicGasDimensions8037 common priced.tx).2 =
      priced.tx.intrinsicGas + priced.gas8037 := by
  rw [computeIntrinsicGasDimensions8037, gas8037]
  split
  · exact Nat.add_assoc _ _ _
  · rfl

theorem floorCost_eq :
    floorCost common priced.tx = floor7623 common (priced.dataFloor + priced.floor7981) := by
  by_cases hactive : common.isActivatedEIP 7623
  · calc
      _ = common.params.txGas + common.params.totalCostFloorPerToken *
          (priced.tx.dataTokens common + if common.isActivatedEIP 7981 then
            (priced.tx.accessList.length * 20 + priced.tx.totalSlots * 32) * 4 else 0) :=
        if_pos hactive
      _ = priced.dataFloor + priced.floor7981 := by
        rw [dataFloor, floor7981, Nat.mul_add, mul_ite, Nat.mul_zero, Nat.add_assoc]
      _ = _ := (if_pos hactive).symm
  · calc
      _ = 0 := if_neg hactive
      _ = _ := (if_neg hactive).symm

/-- The gas limit pays for what `getValidationErrors` asks, but not for the further gas of
EIP-8037 or for the calldata floor of the access list. -/
def InGap : Prop :=
  priced.tx.intrinsicGas ≤ priced.tx.gasLimit ∧
  floor7623 common priced.dataFloor ≤ priced.tx.gasLimit ∧
  (priced.tx.gasLimit < priced.tx.intrinsicGas + priced.gas8037 ∨
    priced.tx.gasLimit < floor7623 common (priced.dataFloor + priced.floor7981))

theorem gas8037_pos (h : 0 < priced.gas8037) :
    common.isActivatedEIP 8037 ∧
      (priced.tx.toAddress.isNone ∨ priced.tx.authorizationList ≠ []) := by
  rw [gas8037] at h
  split at h
  · rename_i hactive
    refine ⟨hactive, ?_⟩
    by_contra hneither
    obtain ⟨hcall, hauths⟩ := not_or.mp hneither
    rw [not_not.mp hauths] at h
    simp [hcall] at h
  · exact absurd h (Nat.lt_irrefl 0)

theorem floor7981_pos (h : 0 < priced.floor7981) :
    common.isActivatedEIP 7981 ∧ priced.tx.accessList ≠ [] := by
  rw [floor7981] at h
  split at h
  · rename_i hactive
    refine ⟨hactive, ?_⟩
    intro hempty
    simp [Transaction.totalSlots, hempty] at h
  · exact absurd h (Nat.lt_irrefl 0)

/-- There is a gap only for transactions that create an account or carry authorizations under
EIP-8037, or that carry an access list under EIP-7623 and EIP-7981. -/
theorem InGap.cause (h : priced.InGap) :
    (common.isActivatedEIP 8037 ∧
      (priced.tx.toAddress.isNone ∨ priced.tx.authorizationList ≠ [])) ∨
    (common.isActivatedEIP 7623 ∧ common.isActivatedEIP 7981 ∧ priced.tx.accessList ≠ []) := by
  obtain ⟨hintrinsic, hfloor, hlow | hlow⟩ := h
  · left
    exact priced.gas8037_pos (by omega)
  · right
    rw [floor7623] at hfloor hlow
    split at hlow
    · rename_i hactive
      rw [if_pos hactive] at hfloor
      exact ⟨hactive, priced.floor7981_pos (by omega)⟩
    · exact absurd hlow (Nat.not_lt_zero _)

end PricedTx

/-- A stage of a run that does not reject for a gas limit below the minimum. -/
def KeepsMinimum {α : Type} (x : Except RunTxError α) : Prop :=
  x ≠ .error .intrinsicGasTooLow

theorem KeepsMinimum.bind {α β : Type} {x : Except RunTxError α} {f : α → Except RunTxError β}
    (hx : KeepsMinimum x) (hf : ∀ a, KeepsMinimum (f a)) : KeepsMinimum (x >>= f) := by
  cases x with
  | error e =>
    intro h
    cases h
    exact hx rfl
  | ok a => exact hf a

theorem KeepsMinimum.ite {α : Type} {p : Prop} [Decidable p] {x y : Except RunTxError α}
    (hx : KeepsMinimum x) (hy : KeepsMinimum y) : KeepsMinimum (if p then x else y) := by
  split
  · exact hx
  · exact hy

theorem keepsMinimum_ok {α : Type} (a : α) : KeepsMinimum (.ok a) := by
  intro h
  cases h

theorem keepsMinimum_error {α : Type} {e : RunTxError} (h : e ≠ .intrinsicGasTooLow) :
    KeepsMinimum (.error e : Except RunTxError α) := by
  intro herror
  cases herror
  exact h rfl

namespace VM

variable (vm : VM) (opts : RunTxOpts) (world : World)

section Stages

theorem keepsMinimum_checkMaxFee : KeepsMinimum (vm.checkMaxFee opts) := by
  apply KeepsMinimum.ite
  · exact keepsMinimum_error (by decide)
  · exact keepsMinimum_ok _

theorem keepsMinimum_checkEOA : KeepsMinimum (vm.checkEOA opts world) := by
  apply KeepsMinimum.ite
  · exact keepsMinimum_error (by decide)
  · exact keepsMinimum_ok _

theorem keepsMinimum_checkUpfrontCost (fromAccount : VmAccount) :
    KeepsMinimum (vm.checkUpfrontCost opts fromAccount world) := by
  apply KeepsMinimum.ite
  · apply KeepsMinimum.ite
    · apply KeepsMinimum.ite
      · exact keepsMinimum_ok _
      · exact keepsMinimum_ok _
    · exact keepsMinimum_error (by decide)
  · exact keepsMinimum_ok _

theorem keepsMinimum_blobCosts : KeepsMinimum (vm.blobCosts opts) := by
  rw [blobCosts]
  split
  · apply KeepsMinimum.ite
    · exact keepsMinimum_error (by decide)
    · apply KeepsMinimum.ite
      · exact keepsMinimum_error (by decide)
      · exact keepsMinimum_ok _
  · exact keepsMinimum_ok _

theorem keepsMinimum_checkMaxCost (maxBlobCost : Nat) (fromAccount : VmAccount) :
    KeepsMinimum (checkMaxCost opts maxBlobCost fromAccount world) := by
  apply KeepsMinimum.ite
  · apply KeepsMinimum.ite
    · exact keepsMinimum_ok _
    · exact keepsMinimum_error (by decide)
  · exact keepsMinimum_ok _

theorem keepsMinimum_checkNonce (nonce : Nat) : KeepsMinimum (checkNonce opts nonce) := by
  apply KeepsMinimum.ite
  · exact keepsMinimum_error (by decide)
  · exact keepsMinimum_ok _

theorem keepsMinimum_getEffectivePriorityFee (prio maxFee : Nat) (baseFee : Option Nat) :
    KeepsMinimum (getEffectivePriorityFee prio maxFee baseFee) := by
  cases baseFee with
  | none => exact keepsMinimum_error (by decide)
  | some baseFee =>
    apply KeepsMinimum.ite
    · exact keepsMinimum_error (by decide)
    · exact keepsMinimum_ok _

theorem keepsMinimum_effectivePrice : KeepsMinimum (vm.effectivePrice opts) := by
  rw [effectivePrice]
  split
  · apply (keepsMinimum_getEffectivePriorityFee _ _ _).bind
    intro _
    exact keepsMinimum_ok _
  · exact keepsMinimum_ok _

theorem keepsMinimum_settleGas (used refund : Int) (floor : Nat) :
    KeepsMinimum (vm.settleGas used refund floor) := by
  apply KeepsMinimum.ite
  · apply KeepsMinimum.ite
    · exact keepsMinimum_error (by decide)
    · exact keepsMinimum_ok _
  · exact keepsMinimum_ok _

end Stages

theorem splitGasLimit_tooLow_iff (tx : Transaction) :
    vm.splitGasLimit tx = .error .intrinsicGasTooLow ↔
      tx.gasLimit < max ((computeIntrinsicGasDimensions8037 vm.common tx).1 +
        (computeIntrinsicGasDimensions8037 vm.common tx).2) (floorCost vm.common tx) := by
  by_cases hlow : tx.gasLimit < max ((computeIntrinsicGasDimensions8037 vm.common tx).1 +
    (computeIntrinsicGasDimensions8037 vm.common tx).2) (floorCost vm.common tx)
  · exact iff_of_true (if_pos hlow) hlow
  · refine iff_of_false ?_ hlow
    rw [splitGasLimit]
    dsimp only
    rw [if_neg hlow]
    apply KeepsMinimum.ite
    · apply KeepsMinimum.ite
      · exact keepsMinimum_error (by decide)
      · exact keepsMinimum_ok _
    · exact keepsMinimum_ok _

/-- No check behind that of the gas limit reports a gas limit that is too low. -/
theorem runTxInner_tooLow_iff :
    vm.runTxInner opts world = .error .intrinsicGasTooLow ↔
      vm.splitGasLimit opts.tx = .error .intrinsicGasTooLow := by
  rw [runTxInner, execute]
  cases vm.splitGasLimit opts.tx with
  | error e => exact ⟨fun h => by cases h; rfl, fun h => by cases h; rfl⟩
  | ok gas =>
    constructor
    · intro h
      refine absurd h (KeepsMinimum.bind ?_ ?_)
      · refine (vm.keepsMinimum_checkMaxFee opts).bind fun _ => ?_
        refine (vm.keepsMinimum_checkEOA opts world).bind fun _ => ?_
        refine (vm.keepsMinimum_checkUpfrontCost opts world _).bind fun _ => ?_
        refine (vm.keepsMinimum_blobCosts opts).bind fun _ => ?_
        refine (keepsMinimum_checkMaxCost opts _ _ _).bind fun _ => ?_
        refine (keepsMinimum_checkNonce opts _).bind fun _ => ?_
        refine (vm.keepsMinimum_effectivePrice opts).bind fun _ => ?_
        exact keepsMinimum_ok _
      · intro execution
        refine (vm.keepsMinimum_settleGas _ _ _).bind fun _ => ?_
        exact keepsMinimum_ok _
    · intro h
      cases h

/-- The checks of `runTx` before that of the gas limit against its minimum. -/
def ReachesMinimum : Prop :=
  (opts.skipBlockGasLimitValidation ∨ opts.tx.gasLimit ≤ (vm.header opts).gasLimit) ∧
    (opts.tx.isTyped ∧ vm.common.isActivatedEIP 2718 → vm.common.isActivatedEIP 2930 ∧
      (opts.tx.feeMarket.isSome → vm.common.isActivatedEIP 1559))

instance : Decidable (vm.ReachesMinimum opts) :=
  inferInstanceAs (Decidable (_ ∧ (_ ∧ _ → _ ∧ (_ → _))))

theorem runTx_tooLow_iff :
    vm.runTx opts world = .error .intrinsicGasTooLow ↔
      vm.ReachesMinimum opts ∧ vm.splitGasLimit opts.tx = .error .intrinsicGasTooLow := by
  rw [runTx, ReachesMinimum]
  dsimp only
  split
  · rename_i hblock
    refine iff_of_false (keepsMinimum_error (by decide)) ?_
    rintro ⟨⟨hlimit, -⟩, -⟩
    obtain ⟨hskip, hlimit'⟩ := hblock
    obtain hskip' | hle := hlimit
    · exact hskip hskip'
    · exact absurd hlimit' (Nat.not_lt.mpr hle)
  · rename_i hblock
    have hlimit : opts.skipBlockGasLimitValidation ∨
        opts.tx.gasLimit ≤ (vm.header opts).gasLimit := by
      by_contra hboth
      obtain ⟨hskip, hlt⟩ := not_or.mp hboth
      exact hblock ⟨hskip, Nat.not_le.mp hlt⟩
    split
    · rename_i htyped
      split
      · rename_i h2930
        refine iff_of_false (keepsMinimum_error (by decide)) ?_
        rintro ⟨⟨-, hactive⟩, -⟩
        exact h2930 (hactive htyped).1
      · split
        · rename_i h1559
          refine iff_of_false (keepsMinimum_error (by decide)) ?_
          rintro ⟨⟨-, hactive⟩, -⟩
          exact h1559.2 ((hactive htyped).2 h1559.1)
        · rename_i h2930 h1559
          rw [runTxInner_tooLow_iff]
          constructor
          · intro hlow
            refine ⟨⟨hlimit, fun _ => ⟨not_not.mp h2930, ?_⟩⟩, hlow⟩
            intro hmarket
            by_contra hinactive
            exact h1559 ⟨hmarket, hinactive⟩
          · exact And.right
    · rename_i htyped
      rw [runTxInner_tooLow_iff]
      constructor
      · intro hlow
        exact ⟨⟨hlimit, fun h => absurd h htyped⟩, hlow⟩
      · exact And.right

end VM

/-- The parameters of Amsterdam. -/
def amsterdamParams : DataParams := ⟨.amsterdam, 4, 16, 2, 9000, 1900, 2400⟩

def amsterdamVM : VM where
  common := {
    chainId := 1
    isActivatedEIP := Hardfork.amsterdam.isActivatedEIP
    gteSpuriousDragon := true
    proofOfAuthority := false
    params := ⟨21000, 16, 5, 131072, 0, 7500, 120, 23, 1530, 16777216⟩
    perAuthBaseGas_le := fun h => absurd h (by decide) }
  hashing := polynomialHash
  runCall := fun _ world => (⟨0, none, false, none, [], 0, 0, false⟩, world)
  defaultHeader := ⟨30000000, some 7, 0, 0, 1⟩

/-- A legacy transaction without data that creates a contract with gas limit 30000. -/
def createTx : PricedTx amsterdamVM.common amsterdamParams where
  tx := ⟨.legacy 10, 1, none, 0, 30000, 0, [], [], 30000⟩
  dataFee := none
  frozen := true
  legacy_accessList := fun _ => rfl
  intrinsicGas_eq := by decide

end EthereumJS
