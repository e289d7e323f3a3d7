import EthereumJS.Vm.World

/-! # Running a transaction

`runTx` of `runTx.ts` with its fee checks, the EIP-7702 authorizations, the gas
settlement and the payments. The EVM is a parameter. Warm addresses, access lists,
witnesses, logs, receipts and events are left out.
-/

namespace EthereumJS

/-- The parameters of `Common` that a transaction reads. -/
structure TxParams where
  txGas : Nat
  totalCostFloorPerToken : Nat
  maxRefundQuotient : Nat
  blobGasPerBlob : Nat
  perEmptyAccountCost : Nat
  perAuthBaseGas : Nat
  stateBytesPerNewAccount : Nat
  stateBytesPerAuthBase : Nat
  costPerStateByte : Nat
  maxTransactionGasLimit : Nat

/-- The parameter sets refund an authority that exists at most what it was charged;
under EIP-8037 this refund is not used. -/
structure Common where
  chainId : Nat
  isActivatedEIP : Nat → Bool
  gteSpuriousDragon : Bool
  proofOfAuthority : Bool
  params : TxParams
  perAuthBaseGas_le : isActivatedEIP 8037 = false →
    params.perAuthBaseGas ≤ params.perEmptyAccountCost

/-- The fields of a header that a transaction reads, with the results of
`cliqueSigner` and `getBlobGasPrice`. -/
structure TxHeader where
  gasLimit : Nat
  baseFeePerGas : Option Nat
  coinbase : Address
  cliqueSigner : Address
  blobGasPrice : Nat

/-- A tuple of an authorization list; the authority is what
`eoaCode7702RecoverAuthority` returns, if it does not throw. -/
structure Authorization where
  chainId : Nat
  address : Bytes
  nonce : Nat
  yParity : Nat
  s : Nat
  authority : Option Address

inductive TxType
  | legacy (gasPrice : Nat)
  | accessList2930 (gasPrice : Nat)
  | feeMarket1559 (maxPriorityFeePerGas maxFeePerGas : Nat)
  | blob4844 (maxPriorityFeePerGas maxFeePerGas maxFeePerBlobGas numBlobs : Nat)
  | eoaCode7702 (maxPriorityFeePerGas maxFeePerGas : Nat)
    (authorizationList : List Authorization)

structure Transaction where
  type : TxType
  sender : Address
  toAddress : Option Address
  nonce : Nat
  gasLimit : Nat
  value : Nat
  data : Bytes
  accessList : List (Address × List Bytes)
  /-- What `getIntrinsicGas` returns. -/
  intrinsicGas : Nat

inductive RunTxError
  | higherGasLimitThanBlock
  | eip2930NotActivated
  | eip1559NotActivated
  | intrinsicGasTooLow
  | intrinsicRegularGasExceedsCap
  | maxFeeBelowBaseFee
  | senderNotEOA
  | insufficientFunds
  | eip4844NotActivated
  | maxFeePerBlobGasTooLow
  | insufficientFundsMaxCost
  | incorrectNonce
  | cannotPayBaseFee
  | divisionByZero
  deriving DecidableEq

structure RunTxOpts where
  tx : Transaction
  block : Option TxHeader
  skipBalance : Bool
  skipNonce : Bool
  skipBlockGasLimitValidation : Bool

structure CallMessage where
  caller : Address
  gasPrice : Int
  gasLimit : Int
  toAddress : Option Address
  value : Nat
  data : Bytes
  stateGasReservoir : Int
  executionStateGasUsed : Int

structure EVMResult where
  executionGasUsed : Nat
  gasRefund : Option Nat
  exceptionOutOfGas : Bool
  selfdestruct : Option (List Address)
  createdAddresses : List Address
  stateGasReservoir : Nat
  executionStateGasUsed : Int
  eip7928CallPostTargetOog : Bool

structure VM where
  common : Common
  hashing : HashKeysFunction
  runCall : CallMessage → World → EVMResult × World
  defaultHeader : TxHeader

structure RunTxResult where
  totalGasSpent : Int
  gasRefund : Int
  blockGasSpent : Int
  amountSpent : Int
  minerValue : Int
  blobGasUsed : Option Nat
  txRegularGas : Option Int
  txStateGas : Option Int

namespace Transaction

variable (tx : Transaction)

/-- `supports(Capability.EIP2718TypedTransaction)`. -/
def isTyped : Bool :=
  match tx.type with
  | .legacy _ => false
  | _ => true

/-- `maxPriorityFeePerGas` and `maxFeePerGas` of a transaction that
supports `Capability.EIP1559FeeMarket`. -/
def feeMarket : Option (Nat × Nat) :=
  match tx.type with
  | .legacy _ => none
  | .accessList2930 _ => none
  | .feeMarket1559 prio max => some (prio, max)
  | .blob4844 prio max _ _ => some (prio, max)
  | .eoaCode7702 prio max _ => some (prio, max)

/-- `gasPrice`, which fee market transactions lack. -/
def gasPrice : Nat :=
  match tx.type with
  | .legacy price => price
  | .accessList2930 price => price
  | _ => 0

def authorizationList : List Authorization :=
  match tx.type with
  | .eoaCode7702 _ _ list => list
  | _ => []

def getUpfrontCost (baseFee : Nat) : Int :=
  match tx.feeMarket with
  | none => tx.gasLimit * tx.gasPrice + tx.value
  | some (prio, maxFee) =>
    let maxBase : Int := maxFee - baseFee
    let inclusionFeePerGas : Int := if prio < maxBase then prio else maxBase
    let gasPrice := inclusionFeePerGas + baseFee
    tx.gasLimit * gasPrice + tx.value

end Transaction

def getEffectivePriorityFee (prio maxFee : Nat) (baseFee : Option Nat) : Except RunTxError Nat :=
  match baseFee with
  | none => .error .cannotPayBaseFee
  | some baseFee =>
    if baseFee > maxFee then .error .cannotPayBaseFee
    else
      let remainingFee := maxFee - baseFee
      .ok (if prio < remainingFee then prio else remainingFee)

/-- The EIP-7623 floor; zero when it is not active. -/
def floorCost (common : Common) (tx : Transaction) : Nat :=
  if common.isActivatedEIP 7623 then
    let dataTokens :=
      if common.isActivatedEIP 7976 then tx.data.length * 4
      else (tx.data.map fun b => if b = 0 then 1 else 4).sum
    let totalSlots := (tx.accessList.map fun item => item.2.length).sum
    let accessTokens :=
      if common.isActivatedEIP 7981 then (tx.accessList.length * 20 + totalSlots * 32) * 4 else 0
    common.params.txGas + common.params.totalCostFloorPerToken * (dataTokens + accessTokens)
  else 0

def computeIntrinsicGasDimensions8037 (common : Common) (tx : Transaction) : Nat × Nat :=
  if common.isActivatedEIP 8037 then
    let p := common.params
    let authCount := tx.authorizationList.length
    let regular := tx.intrinsicGas + authCount * p.perAuthBaseGas
    let create := if tx.toAddress.isNone then p.stateBytesPerNewAccount * p.costPerStateByte else 0
    let auth :=
      authCount * (p.stateBytesPerNewAccount + p.stateBytesPerAuthBase) * p.costPerStateByte
    (regular, create + auth)
  else (tx.intrinsicGas, 0)

def DELEGATION_7702_FLAG : Bytes := [0xef, 0x01, 0x00]

def SECP256K1_ORDER_DIV_2 : Nat :=
  0x7fffffffffffffffffffffffffffffff5d576e7357a4501ddfe92f46681b20a0

def MAX_UINT64 : Nat := 2 ^ 64 - 1

def isDelegation (code : Bytes) : Bool := code.take 3 = DELEGATION_7702_FLAG

/-- The refunds of an authorization list and the delegations seen before it. -/
structure AuthState where
  gasRefund : Int
  existingAuthStateGasRefund : Int
  preDelegatedByAuthority : List (Address × Bool)

namespace VM

variable (vm : VM)

/-- The refunds for an authority whose nonce matches. -/
def refundAuthorization (data : Authorization) (authority : Address) (world : World)
    (st : AuthState) : AuthState :=
  let accountExists := (world.accounts authority).isSome
  let account := world.accountOrNew vm.hashing authority
  let p := vm.common.params
  let gasRefund :=
    if accountExists ∧ ¬ vm.common.isActivatedEIP 8037 then
      st.gasRefund + ((p.perEmptyAccountCost : Int) - p.perAuthBaseGas)
    else st.gasRefund
  let curDelegated := isDelegation (world.code authority)
  let preDelegatedByAuthority :=
    if (st.preDelegatedByAuthority.lookup authority).isSome then st.preDelegatedByAuthority
    else (authority, curDelegated) :: st.preDelegatedByAuthority
  let preDelegated := (preDelegatedByAuthority.lookup authority).getD false
  let leafRefill := if account.isEmpty vm.hashing then 0 else p.stateBytesPerNewAccount
  let delegationRefill :=
    if data.address = List.replicate 20 0 ∨ curDelegated ∨ preDelegated then
      p.stateBytesPerAuthBase
    else 0
  if vm.common.isActivatedEIP 8037 then
    ⟨gasRefund, st.existingAuthStateGasRefund +
      ((leafRefill + delegationRefill) * p.costPerStateByte : Nat), preDelegatedByAuthority⟩
  else { st with gasRefund := gasRefund }

/-- The writes for an authority whose nonce matches. -/
def writeAuthorization (data : Authorization) (authority : Address) (world : World) : World :=
  let account := world.accountOrNew vm.hashing authority
  let world := world.putAccount authority { account with nonce := account.nonce + 1 }
  let code :=
    if data.address = List.replicate 20 0 then [] else DELEGATION_7702_FLAG ++ data.address
  world.putCode vm.hashing authority code

/-- One round of the loop of `processAuthorizationList`. -/
def processAuthorization (caller : Address) (data : Authorization) (world : World)
    (st : AuthState) : World × AuthState :=
  if data.chainId ≠ 0 ∧ data.chainId ≠ vm.common.chainId then (world, st)
  else if MAX_UINT64 ≤ data.nonce then (world, st)
  else if SECP256K1_ORDER_DIV_2 < data.s then (world, st)
  else if 1 < data.yParity then (world, st)
  else match data.authority with
  | none => (world, st)
  | some authority =>
    let account := world.accountOrNew vm.hashing authority
    if account.isContract vm.hashing ∧ ¬ isDelegation (world.code authority) then (world, st)
    else
      let nonce := if caller = authority then account.nonce + 1 else account.nonce
      if nonce ≠ data.nonce then (world, st)
      else
        (vm.writeAuthorization data authority world,
          vm.refundAuthorization data authority world st)

def processAuthorizationList (caller : Address) : List Authorization → World → AuthState →
    World × AuthState
  | [], world, st => (world, st)
  | data :: list, world, st =>
    let (world, st) := vm.processAuthorization caller data world st
    processAuthorizationList caller list world st

/-- The calldata floor and the total of the block. -/
def floorGas (totalGasSpent gasRefund : Int) (floor : Nat) : Int × Int × Int :=
  let floored : Bool := vm.common.isActivatedEIP 7623 ∧ totalGasSpent < floor
  let totalGasSpent := if floored then (floor : Int) else totalGasSpent
  let gasRefund := if floored then 0 else gasRefund
  let blockGasSpent :=
    if vm.common.isActivatedEIP 7778 then max totalGasSpent floor else totalGasSpent
  (totalGasSpent, gasRefund, blockGasSpent)

/-- The refund, the calldata floor and the total of the block. -/
def settleGas (totalGasSpentBeforeRefund gasRefund : Int) (floor : Nat) :
    Except RunTxError (Int × Int × Int) :=
  let quotient := vm.common.params.maxRefundQuotient
  if gasRefund ≠ 0 then
    if quotient = 0 then .error .divisionByZero
    else
      let maxRefund := totalGasSpentBeforeRefund.tdiv quotient
      let refund := if gasRefund < maxRefund then gasRefund else maxRefund
      .ok (vm.floorGas (totalGasSpentBeforeRefund - refund) gasRefund floor)
  else .ok (vm.floorGas totalGasSpentBeforeRefund gasRefund floor)

/-- `block?.header ?? DEFAULT_HEADER`, field by field. -/
def header (opts : RunTxOpts) : TxHeader := opts.block.getD vm.defaultHeader

def baseFee (opts : RunTxOpts) : Option Nat :=
  match opts.block with
  | none => vm.defaultHeader.baseFeePerGas
  | some header => header.baseFeePerGas.orElse fun _ => vm.defaultHeader.baseFeePerGas

/-- The effective gas price and the fee per gas for the block's proposer. -/
def effectivePrice (opts : RunTxOpts) : Except RunTxError (Int × Int) :=
  match opts.tx.feeMarket with
  | some (prio, maxFee) => do
    let inclusionFeePerGas ← getEffectivePriorityFee prio maxFee (vm.baseFee opts)
    .ok ((inclusionFeePerGas : Int) + (vm.baseFee opts).getD 0, inclusionFeePerGas)
  | none => .ok (opts.tx.gasPrice, opts.tx.gasPrice - (vm.baseFee opts).getD 0)

/-- The blob gas of the transaction, the price of it and the most the sender offers. -/
def blobCosts (opts : RunTxOpts) : Except RunTxError (Nat × Nat × Nat) :=
  match opts.tx.type with
  | .blob4844 _ _ maxFeePerBlobGas numBlobs =>
    if ¬ vm.common.isActivatedEIP 4844 then .error .eip4844NotActivated
    else
      let totalblobGas := vm.common.params.blobGasPerBlob * numBlobs
      let blobGasPrice := (vm.header opts).blobGasPrice
      if maxFeePerBlobGas < blobGasPrice then .error .maxFeePerBlobGasTooLow
      else .ok (totalblobGas, blobGasPrice, totalblobGas * maxFeePerBlobGas)
  | _ => .ok (0, 0, 0)

/-- The gas limits of the EVM call: the regular gas and the state-gas reservoir. -/
def splitGasLimit (tx : Transaction) : Except RunTxError (Int × Int) :=
  let (intrinsicRegularGas, intrinsicStateGas) :=
    computeIntrinsicGasDimensions8037 vm.common tx
  let totalIntrinsic := intrinsicRegularGas + intrinsicStateGas
  let floor := floorCost vm.common tx
  if tx.gasLimit < max totalIntrinsic floor then .error .intrinsicGasTooLow
  else if vm.common.isActivatedEIP 8037 then
    let txMaxGasLimit := vm.common.params.maxTransactionGasLimit
    if max intrinsicRegularGas floor > txMaxGasLimit then .error .intrinsicRegularGasExceedsCap
    else
      let executionGas : Int := tx.gasLimit - totalIntrinsic
      let regularBudget : Int :=
        if txMaxGasLimit > intrinsicRegularGas then txMaxGasLimit - intrinsicRegularGas else 0
      let gasLeft := if executionGas < regularBudget then executionGas else regularBudget
      .ok (gasLeft, executionGas - gasLeft)
  else .ok ((tx.gasLimit : Int) - tx.intrinsicGas, 0)

/-- The check for an account without code (EIP-3607). -/
def checkEOA (opts : RunTxOpts) (world : World) : Except RunTxError Unit :=
  let fromAccount := world.accountOrNew vm.hashing opts.tx.sender
  if fromAccount.codeHash ≠ keccakNull vm.hashing ∧
      ¬ (vm.common.isActivatedEIP 7702 ∧ isDelegation (world.code opts.tx.sender)) then
    .error .senderNotEOA
  else .ok ()

/-- The check of the balance against the upfront cost. -/
def checkUpfrontCost (opts : RunTxOpts) (fromAccount : VmAccount) (world : World) :
    Except RunTxError (VmAccount × World) :=
  let upFrontCost := opts.tx.getUpfrontCost ((vm.baseFee opts).getD 0)
  if fromAccount.balance < upFrontCost then
    if opts.skipBalance then
      if opts.tx.feeMarket.isNone then
        let fromAccount := { fromAccount with balance := upFrontCost }
        .ok (fromAccount, world.putAccount opts.tx.sender fromAccount)
      else .ok (fromAccount, world)
    else .error .insufficientFunds
  else .ok (fromAccount, world)

/-- The check of the balance against the most that the transaction may cost. -/
def checkMaxCost (opts : RunTxOpts) (maxBlobCost : Nat) (fromAccount : VmAccount)
    (world : World) : Except RunTxError (VmAccount × World) :=
  let maxFeeCost : Nat :=
    match opts.tx.feeMarket with
    | some (_, maxFee) => opts.tx.gasLimit * maxFee
    | none => 0
  let maxCost : Int := opts.tx.value + maxFeeCost + maxBlobCost
  if fromAccount.balance < maxCost then
    if opts.skipBalance then
      let fromAccount := { fromAccount with balance := maxCost }
      .ok (fromAccount, world.putAccount opts.tx.sender fromAccount)
    else .error .insufficientFundsMaxCost
  else .ok (fromAccount, world)

def checkNonce (opts : RunTxOpts) (nonce : Nat) : Except RunTxError Unit :=
  if ¬ opts.skipNonce ∧ nonce ≠ opts.tx.nonce then .error .incorrectNonce else .ok ()

def checkMaxFee (opts : RunTxOpts) : Except RunTxError Unit :=
  let maxFeePerGas :=
    match opts.tx.feeMarket with
    | some (_, maxFee) => maxFee
    | none => opts.tx.gasPrice
  if vm.common.isActivatedEIP 1559 ∧ maxFeePerGas < (vm.baseFee opts).getD 0 then
    .error .maxFeeBelowBaseFee
  else .ok ()

/-- `updateMinerBalance`. -/
def updateMinerBalance (opts : RunTxOpts) (world : World)
    (totalGasSpent amountSpent inclusionFeePerGas : Int) : Int × World :=
  let header := vm.header opts
  let miner := if vm.common.proofOfAuthority then header.cliqueSigner else header.coinbase
  let minerAccount := world.accountOrNew vm.hashing miner
  let minerValue :=
    if vm.common.isActivatedEIP 1559 then totalGasSpent * inclusionFeePerGas else amountSpent
  (minerValue,
    world.putAccount miner { minerAccount with balance := minerAccount.balance + minerValue })

/-- The loop of `processSelfdestructs`. -/
def processSelfdestructs (created : List Address) : List Address → World → World
  | [], world => world
  | address :: rest, world =>
    if vm.common.isActivatedEIP 6780 ∧ address ∉ created then
      processSelfdestructs created rest world
    else processSelfdestructs created rest (world.deleteAccount address)

/-- `runCall` with the state-gas reservoir of EIP-8037, which a call that ran out of gas
after its target was found loses. -/
def callEVM (message : CallMessage) (world : World) : EVMResult × World :=
  let (results, after) := vm.runCall message world
  let lost := vm.common.isActivatedEIP 8037 ∧ results.exceptionOutOfGas ∧
    results.eip7928CallPostTargetOog
  ({ results with stateGasReservoir := if lost then 0 else results.stateGasReservoir },
    { after with history := after.accounts :: world.history })

/-- The deduction of the costs, the authorizations and the EVM call. -/
def chargeAndCall (opts : RunTxOpts) (fromAccount : VmAccount) (gasPrice blobGasCost : Int)
    (gasLimit reservoir : Int) (world : World) : AuthState × EVMResult × World :=
  let tx := opts.tx
  let txCost := tx.gasLimit * gasPrice
  let deducted := fromAccount.balance - txCost - blobGasCost
  let balance := if opts.skipBalance ∧ deducted < 0 then 0 else deducted
  let world := world.putAccount tx.sender { fromAccount with balance := balance }
  let (world, auth) :=
    vm.processAuthorizationList tx.sender tx.authorizationList world ⟨0, 0, []⟩
  let (results, world) := vm.callEVM
    { caller := tx.sender, gasPrice := gasPrice, gasLimit := gasLimit,
      toAddress := tx.toAddress, value := tx.value, data := tx.data,
      stateGasReservoir := reservoir + auth.existingAuthStateGasRefund,
      executionStateGasUsed := -auth.existingAuthStateGasRefund } world
  (auth, results, world)

/-- `totalGasSpentBeforeRefund`. -/
def gasBeforeRefund (tx : Transaction) (results : EVMResult) (reservoir : Int) : Int :=
  let (intrinsicRegularGas, intrinsicStateGas) :=
    computeIntrinsicGasDimensions8037 vm.common tx
  if vm.common.isActivatedEIP 8037 then
    results.executionGasUsed + intrinsicRegularGas + intrinsicStateGas +
      (reservoir - results.stateGasReservoir)
  else results.executionGasUsed + tx.intrinsicGas

/-- The gas of a transaction by the two dimensions of EIP-8037. -/
def gasDimensions (tx : Transaction) (results : EVMResult) (reservoir : Int) : Option (Int × Int) :=
  let (intrinsicRegularGas, intrinsicStateGas) :=
    computeIntrinsicGasDimensions8037 vm.common tx
  if vm.common.isActivatedEIP 8037 then
    let reservoirDelta := reservoir - results.stateGasReservoir
    let stateGasFromGasLeft := results.executionStateGasUsed - reservoirDelta
    let executionRegularGasUsed := results.executionGasUsed - stateGasFromGasLeft
    let txRegularGasRaw := intrinsicRegularGas + executionRegularGasUsed
    let floor := floorCost vm.common tx
    some (if txRegularGasRaw > floor then txRegularGasRaw else floor,
      intrinsicStateGas + results.executionStateGasUsed)
  else none

/-- The refund of the sender, the fee of the miner and the clean-up. -/
def settle (opts : RunTxOpts) (gasPrice inclusionFeePerGas totalGasSpent : Int)
    (results : EVMResult) (world : World) : Int × World :=
  let tx := opts.tx
  let fromAccount := world.accountOrNew vm.hashing tx.sender
  let txCostDiff := tx.gasLimit * gasPrice - totalGasSpent * gasPrice
  let world := world.putAccount tx.sender
    { fromAccount with balance := fromAccount.balance + txCostDiff }
  let (minerValue, world) := vm.updateMinerBalance opts world totalGasSpent
    (totalGasSpent * gasPrice) inclusionFeePerGas
  let world := vm.processSelfdestructs results.createdAddresses
    (results.selfdestruct.getD []) world
  (minerValue, world.cleanup vm.hashing vm.common.gteSpuriousDragon)

/-- What `_runTx` knows when the EVM call has returned. -/
structure Execution where
  gasPrice : Int
  inclusionFeePerGas : Int
  totalblobGas : Nat
  reservoir : Int
  auth : AuthState
  results : EVMResult
  world : World

/-- `_runTx` up to the EVM call. -/
def execute (opts : RunTxOpts) (world : World) : Except RunTxError Execution := do
  let tx := opts.tx
  let (gasLimit, reservoir) ← vm.splitGasLimit tx
  vm.checkMaxFee opts
  let fromAccount := world.accountOrNew vm.hashing tx.sender
  let nonce := fromAccount.nonce
  vm.checkEOA opts world
  let (fromAccount, world) ← vm.checkUpfrontCost opts fromAccount world
  let (totalblobGas, blobGasPrice, maxBlobCost) ← vm.blobCosts opts
  let (fromAccount, world) ← checkMaxCost opts maxBlobCost fromAccount world
  checkNonce opts nonce
  let (gasPrice, inclusionFeePerGas) ← vm.effectivePrice opts
  let (auth, results, world) :=
    vm.chargeAndCall opts fromAccount gasPrice (totalblobGas * blobGasPrice : Nat) gasLimit
      reservoir world
  .ok ⟨gasPrice, inclusionFeePerGas, totalblobGas, reservoir, auth, results, world⟩

/-- The gas used before refunds. -/
def Execution.gasUsed (vm : VM) (execution : Execution) (tx : Transaction) : Int :=
  vm.gasBeforeRefund tx execution.results execution.reservoir

/-- The final refund counter. -/
def Execution.gasRefund (execution : Execution) : Int :=
  execution.auth.gasRefund + (execution.results.gasRefund.getD 0 : Nat)

/-- `_runTx` behind the EVM call. -/
def finish (opts : RunTxOpts) (execution : Execution) :
    Except RunTxError (RunTxResult × World) := do
  let tx := opts.tx
  let (totalGasSpent, gasRefund, blockGasSpent) ←
    vm.settleGas (execution.gasUsed vm tx) execution.gasRefund (floorCost vm.common tx)
  let (minerValue, world) := vm.settle opts execution.gasPrice execution.inclusionFeePerGas
    totalGasSpent execution.results execution.world
  let dimensions := vm.gasDimensions tx execution.results execution.reservoir
  .ok ({
    totalGasSpent := totalGasSpent
    gasRefund := gasRefund
    blockGasSpent := blockGasSpent
    amountSpent := totalGasSpent * execution.gasPrice
    minerValue := minerValue
    blobGasUsed :=
      match tx.type with
      | .blob4844 _ _ _ _ => some execution.totalblobGas
      | _ => none
    txRegularGas := dimensions.map Prod.fst
    txStateGas := dimensions.map Prod.snd }, world)

/-- `_runTx`. -/
def runTxInner (opts : RunTxOpts) (world : World) : Except RunTxError (RunTxResult × World) := do
  let execution ← vm.execute opts world
  vm.finish opts execution

/-- `runTx`; a transaction that throws leaves the state to the revert of its checkpoint. -/
def runTx (opts : RunTxOpts) (world : World) : Except RunTxError (RunTxResult × World) :=
  if ¬ opts.skipBlockGasLimitValidation ∧ (vm.header opts).gasLimit < opts.tx.gasLimit then
    .error .higherGasLimitThanBlock
  else
    let world := world.cleanup vm.hashing vm.common.gteSpuriousDragon
    if opts.tx.isTyped ∧ vm.common.isActivatedEIP 2718 then
      if ¬ vm.common.isActivatedEIP 2930 then .error .eip2930NotActivated
      else if opts.tx.feeMarket.isSome ∧ ¬ vm.common.isActivatedEIP 1559 then
        .error .eip1559NotActivated
      else vm.runTxInner opts world
    else vm.runTxInner opts world

end VM

end EthereumJS
