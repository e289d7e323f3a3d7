import EthereumJS.Evm.Common
import EthereumJS.Util.Account
import EthereumJS.Util.Bal

/-! # Creating contracts

`_executeCreate` and `runInterpreter` of `evm.ts` with the methods that they call. What the
interpreter does with the init code is a parameter, and so are the gas that an access witness
charges and the hash.
-/

namespace EthereumJS.Evm

open RLP

/-- `EVMError.errorMessages`. -/
inductive EVMErrorMessage
  | OUT_OF_GAS
  | CODESTORE_OUT_OF_GAS
  | CODESIZE_EXCEEDS_MAXIMUM
  | STACK_UNDERFLOW
  | STACK_OVERFLOW
  | INVALID_JUMP
  | INVALID_OPCODE
  | OUT_OF_RANGE
  | REVERT
  | STATIC_STATE_CHANGE
  | INTERNAL_ERROR
  | CREATE_COLLISION
  | STOP
  | REFUND_EXHAUSTED
  | VALUE_OVERFLOW
  | INSUFFICIENT_BALANCE
  | INVALID_BYTECODE_RESULT
  | INITCODE_SIZE_VIOLATION
  | INVALID_INPUT_LENGTH
  | INVALID_EOF_FORMAT
  | BLS_12_381_INVALID_INPUT_LENGTH
  | BLS_12_381_POINT_NOT_ON_CURVE
  | BLS_12_381_INPUT_EMPTY
  | BLS_12_381_FP_NOT_IN_FIELD
  | BN254_FP_NOT_IN_FIELD
  | INVALID_COMMITMENT
  | INVALID_INPUTS
  | INVALID_PROOF
  deriving DecidableEq

/-- What `_executeCreate` throws. -/
inductive CreateError
  | evm (error : EVMErrorMessage)
  | text (message : String)
  deriving DecidableEq

/-- The parameters of the active EIPs that a create reads. -/
structure CreateParams where
  createDataGas : Nat
  codeDepositHashWordGas : Nat
  costPerStateByte : Nat
  stateBytesPerNewAccount : Nat
  maxCodeSize : Nat
  maxInitCodeSize : Nat

structure Log where
  address : Bytes
  topics : List Bytes
  data : Bytes
  deriving DecidableEq

structure Message where
  toAddress : Option Bytes
  value : Nat
  caller : Bytes
  gasLimit : Nat
  data : Bytes
  eofCallData : Option Bytes
  depth : Nat
  code : Option Bytes
  salt : Option Bytes
  createdAddresses : List Bytes
  selfdestruct : List (Bytes × Bytes)
  gasRefund : Int

structure ExecResult where
  exceptionError : Option EVMErrorMessage
  gas : Option Int
  executionGasUsed : Int
  returnValue : Bytes
  logs : Option (List Log)
  selfdestruct : Option (List (Bytes × Bytes))
  createdAddresses : Option (List Bytes)
  gasRefund : Option Int
  deriving DecidableEq

structure EVMResult where
  createdAddress : Option Bytes
  execResult : ExecResult
  deriving DecidableEq

/-- What the EVM has of the state, and its accounting of state gas. -/
structure CreateState where
  accounts : Bytes → Option Account
  code : Bytes → Bytes
  transientStorage : List (Bytes × Bytes × Bytes)
  blockLevelAccessList : BlockLevelAccessList
  stateGasReservoir : Int
  executionStateGasUsed : Int
  createdAccountStateGas : Bytes → Option Int
  createdAccountIntrinsicStateGas : Bytes → Option Int

/-- What is left when the interpreter has run. It never leaves less than no gas. -/
structure InterpreterOutcome where
  exceptionError : Option EVMErrorMessage
  gasLeft : Nat
  gasRefund : Int
  returnValue : Option Bytes
  logs : List Log
  selfdestruct : List (Bytes × Bytes)
  createdAddresses : List Bytes

/-- What the code of a contract is run with. -/
structure CreateEnv where
  common : Common
  params : CreateParams
  H : HashKeysFunction
  allowUnlimitedContractSize : Bool
  allowUnlimitedInitCodeSize : Bool
  /-- `writeAccountBasicData` and `readAccountCodeHash`. -/
  createInitGas : Bytes → Nat
  /-- `writeAccountHeader`. -/
  createCompleteGas : Bytes → Nat
  /-- `writeAccountCodeChunks` from the first to a last byte. -/
  codeChunksGas : Bytes → Nat → Nat
  /-- The run of the message with its gas limit and the logs from before it. -/
  interpreter : Message → Nat → List Log → CreateState → InterpreterOutcome × CreateState

def FORMAT : UInt8 := 0xef

def EOFBYTES : Bytes := [FORMAT, 0x00]

def isEOF (code : Bytes) : Bool := code.take EOFBYTES.length = EOFBYTES

namespace ExecResult

/-- A result of an early return. -/
def early (exceptionError : Option EVMErrorMessage) (executionGasUsed : Int) : ExecResult :=
  { exceptionError := exceptionError, gas := none, executionGasUsed := executionGasUsed
    returnValue := [], logs := none, selfdestruct := none, createdAddresses := none
    gasRefund := none }

/-- A result over which that of an error is spread. -/
def fails (result : ExecResult) (error : EVMErrorMessage) (gasUsed : Int) : ExecResult :=
  { result with returnValue := [], executionGasUsed := gasUsed, exceptionError := some error }

def OOGResult (result : ExecResult) (gasLimit : Int) : ExecResult :=
  result.fails .OUT_OF_GAS gasLimit

def COOGResult (result : ExecResult) (gasUsedCreateCode : Int) : ExecResult :=
  result.fails .CODESTORE_OUT_OF_GAS gasUsedCreateCode

def INVALID_BYTECODE_RESULT (result : ExecResult) (gasLimit : Int) : ExecResult :=
  result.fails .INVALID_BYTECODE_RESULT gasLimit

def CodesizeExceedsMaximumError (result : ExecResult) (gasUsed : Int) : ExecResult :=
  result.fails .CODESIZE_EXCEEDS_MAXIMUM gasUsed

end ExecResult

section Before

variable (env : CreateEnv)

def newAccountOf : Account := ⟨0, 0, keccakRlp env.H, keccakNull env.H⟩

def CreateState.getAccount (state : CreateState) (address : Bytes) : Option Account :=
  state.accounts address

def CreateState.putAccount (state : CreateState) (address : Bytes) (account : Account) :
    CreateState :=
  { state with accounts := Function.update state.accounts address (some account) }

def CreateState.clearStorage (state : CreateState) (address : Bytes) : CreateState :=
  let account := (state.getAccount address).getD (newAccountOf env)
  state.putAccount address { account with storageRoot := keccakRlp env.H }

def CreateState.putCode (state : CreateState) (address code : Bytes) : CreateState :=
  let account := (state.getAccount address).getD (newAccountOf env)
  { state.putAccount address { account with codeHash := env.H.hash code } with
    code := Function.update state.code address code }

/-- A step of the access list, if blocks have one. -/
def CreateState.record (state : CreateState)
    (change : BlockLevelAccessList → BlockLevelAccessList) : CreateState :=
  if env.common.isActivatedEIP 7928 then
    { state with blockLevelAccessList := change state.blockLevelAccessList }
  else state

def lastBytes (n : Nat) (bytes : Bytes) : Bytes := bytes.drop (bytes.length - n)

def generateAddress2 (source salt initCode : Bytes) : Except CreateError Bytes :=
  if source.length ≠ 20 then .error (.text "Expected from to be of length 20")
  else if salt.length ≠ 32 then .error (.text "Expected salt to be of length 32")
  else .ok (lastBytes 20 (env.H.hash (0xff :: (source ++ salt ++ env.H.hash initCode))))

def generateAddress (source : Bytes) (nonce : Nat) : Bytes :=
  let nonceBytes := if nonce = 0 then [] else bigIntToBytes nonce
  lastBytes 20 (env.H.hash (encode (.list [.bytes source, .bytes nonceBytes])))

/-- The nonce of the caller was incremented before. -/
def generateMessageAddress (message : Message) (state : CreateState) : Except CreateError Bytes :=
  match message.salt with
  | some salt => generateAddress2 env message.caller salt (message.code.getD [])
  | none =>
    let account := (state.getAccount message.caller).getD (newAccountOf env)
    if account.nonce = 0 then .error (.text
      "Cannot convert string to Uint8Array. toBytes only supports 0x-prefixed hex strings and this string was given: 0x-1")
    else .ok (generateAddress env message.caller (account.nonce - 1))

def reduceSenderBalance (message : Message) (state : CreateState) :
    Except CreateError CreateState :=
  let account := (state.getAccount message.caller).getD (newAccountOf env)
  if account.balance < message.value then .error (.evm .INSUFFICIENT_BALANCE)
  else
    let balance := account.balance - message.value
    let state := state.record env fun bal =>
      bal.addBalanceChange message.caller balance bal.blockAccessIndex (some account.balance)
    .ok (state.putAccount message.caller { account with balance := balance })

def MAX_INTEGER : Nat := 2 ^ 256 - 1

/-- The state is as before where the value overflows. -/
def addToBalance (toAddress : Bytes) (toAccount : Account) (value : Nat) (state : CreateState) :
    Option EVMErrorMessage × CreateState :=
  let newBalance := toAccount.balance + value
  if newBalance > MAX_INTEGER then (some .VALUE_OVERFLOW, state)
  else
    let state := state.record env fun bal =>
      let bal := bal.addAddress toAddress
      if value ≠ 0 then
        bal.addBalanceChange toAddress newBalance bal.blockAccessIndex (some toAccount.balance)
      else bal
    (none, state.putAccount toAddress { toAccount with balance := newBalance })

def EIP7708_SYSTEM_ADDRESS : Bytes := List.replicate 19 0xff ++ [0xfe]

def EIP7708_TRANSFER_TOPIC : Bytes :=
  [0xdd, 0xf2, 0x52, 0xad, 0x1b, 0xe2, 0xc8, 0x9b, 0x69, 0xc2, 0xb0, 0x68, 0xfc, 0x37, 0x8d, 0xaa,
    0x95, 0x2b, 0xa7, 0xf1, 0x63, 0xc4, 0xa1, 0x16, 0x28, 0xf5, 0x5a, 0x4d, 0xf5, 0x23, 0xb3, 0xef]

/-- Addresses and values are no longer than a word. -/
def padLeft (bytes : Bytes) (length : Nat) : Bytes :=
  List.replicate (length - bytes.length) 0 ++ bytes

def createEIP7708TransferLog (source target : Bytes) (value : Nat) : Log where
  address := EIP7708_SYSTEM_ADDRESS
  topics := [EIP7708_TRANSFER_TOPIC, padLeft source 32, padLeft target 32]
  data := padLeft (bigIntToBytes value) 32

/-- An account that a contract cannot be created at. -/
def collides (toAccount : Account) : Bool :=
  decide (toAccount.nonce > 0) || toAccount.codeHash != keccakNull env.H ||
    toAccount.storageRoot != keccakRlp env.H

/-- Where `_executeCreate` is before its init code may run. -/
inductive Prepared
  | exits (result : EVMResult) (state : CreateState)
  | runs (message : Message) (toAddress : Bytes) (gasLimit : Nat) (initialLogs : List Log)
    (state : CreateState)

def Prepared.gasLimit? : Prepared → Option Nat
  | .exits _ _ => none
  | .runs _ _ gasLimit _ _ => some gasLimit

/-- The result where there is no code or the value overflows. -/
def exitCreate (message : Message) (toAddress : Bytes) (gasLimit : Nat)
    (errorMessage : Option EVMErrorMessage) (logs : List Log) : EVMResult :=
  let completeGas := if env.common.isStateless then env.createCompleteGas toAddress else 0
  if gasLimit < completeGas then ⟨none, .early (some .OUT_OF_GAS) message.gasLimit⟩
  else ⟨some toAddress, { ExecResult.early errorMessage
      (message.gasLimit - (gasLimit - completeGas : Nat)) with
    gasRefund := some message.gasRefund
    logs := if logs = [] then none else some logs }⟩

/-- From the collision check to the run of the init code. -/
def prepareAccount (message : Message) (toAddress : Bytes) (gasLimit : Nat) (state : CreateState) :
    Prepared :=
  let toAccount := (state.getAccount toAddress).getD (newAccountOf env)
  if collides env toAccount then
    .exits ⟨some toAddress, .early (some .CREATE_COLLISION) message.gasLimit⟩
      (state.record env (·.addAddress toAddress))
  else
    let state := (state.putAccount toAddress toAccount).clearStorage env toAddress
    let toAccount := (state.getAccount toAddress).getD (newAccountOf env)
    let toAccount :=
      if env.common.gteHardfork .spuriousDragon then { toAccount with nonce := toAccount.nonce + 1 }
      else toAccount
    let state := state.record env fun bal =>
      bal.addNonceChange toAddress toAccount.nonce bal.blockAccessIndex
    let (errorMessage, state) := addToBalance env toAddress toAccount message.value state
    let logs :=
      if env.common.isActivatedEIP 7708 && decide (message.value > 0) && message.caller != toAddress &&
          errorMessage.isNone then
        [createEIP7708TransferLog message.caller toAddress message.value]
      else []
    if (message.code.getD []).length = 0 || errorMessage.isSome then
      .exits (exitCreate env message toAddress gasLimit errorMessage logs) state
    else .runs message toAddress gasLimit logs state

def prepareCreate (message : Message) (state : CreateState) : Except CreateError Prepared := do
  let state ← reduceSenderBalance env message state
  if env.common.isActivatedEIP 3860 && decide (message.data.length > env.params.maxInitCodeSize) &&
      !env.allowUnlimitedInitCodeSize then
    .ok (.exits ⟨message.toAddress, .early (some .INITCODE_SIZE_VIOLATION) message.gasLimit⟩ state)
  else
    let message := { message with code := some message.data, data := message.eofCallData.getD [] }
    let toAddress ← generateMessageAddress env message state
    let message :=
      { message with
        toAddress := some toAddress
        createdAddresses :=
          if env.common.isActivatedEIP 6780 && !message.createdAddresses.contains toAddress then
            message.createdAddresses ++ [toAddress]
          else message.createdAddresses }
    let initGas := if env.common.isStateless then env.createInitGas toAddress else 0
    if message.gasLimit < initGas then
      .ok (.exits ⟨none, .early (some .OUT_OF_GAS) message.gasLimit⟩ state)
    else .ok (prepareAccount env message toAddress (message.gasLimit - initGas) state)

end Before

section After

variable (env : CreateEnv)

/-- `REVERT` and `INVALID_EOF_FORMAT` leave the gas that was not used, other errors none. -/
def runInterpreter (message : Message) (gasLimit : Nat) (initialLogs : List Log)
    (state : CreateState) : ExecResult × CreateState :=
  let (outcome, state) := env.interpreter message gasLimit initialLogs state
  let gasUsed : Int :=
    match outcome.exceptionError with
    | none | some .REVERT | some .INVALID_EOF_FORMAT => gasLimit - outcome.gasLeft
    | some _ => gasLimit
  let failed := outcome.exceptionError.isSome
  ({ exceptionError := outcome.exceptionError
     gas := some outcome.gasLeft
     executionGasUsed := gasUsed
     returnValue := outcome.returnValue.getD []
     logs := some (if failed then [] else outcome.logs)
     selfdestruct := some (if failed then [] else outcome.selfdestruct)
     createdAddresses := some (if failed then [] else outcome.createdAddresses)
     gasRefund := some outcome.gasRefund }, state)

/-- The gas of the return value, and how its state gas is split. -/
structure DepositGas where
  totalGas : Int
  returnFee : Int
  stateGasCreate : Int
  stateGasFromReservoir : Int

def depositGas (result : ExecResult) (stateGasReservoir : Int) : DepositGas :=
  let L : Int := result.returnValue.length
  if result.exceptionError.isSome || env.common.isActivatedEIP 6800 then
    { totalGas := result.executionGasUsed, returnFee := 0, stateGasCreate := 0
      stateGasFromReservoir := 0 }
  else if env.common.isActivatedEIP 8037 then
    let returnFee := (L + 31) / 32 * env.params.codeDepositHashWordGas
    let stateGasCreate := L * env.params.costPerStateByte
    let fromReservoir :=
      if stateGasCreate < stateGasReservoir then stateGasCreate else stateGasReservoir
    { totalGas := result.executionGasUsed + returnFee + (stateGasCreate - fromReservoir)
      returnFee := returnFee
      stateGasCreate := stateGasCreate
      stateGasFromReservoir := fromReservoir }
  else
    let returnFee := L * env.params.createDataGas
    { totalGas := result.executionGasUsed + returnFee, returnFee := returnFee, stateGasCreate := 0
      stateGasFromReservoir := 0 }

/-- The limit of EIP-170 is for runs that succeeded. -/
def allowedCodeSize (result : ExecResult) : Bool :=
  !(result.exceptionError.isNone && env.common.gteHardfork .spuriousDragon &&
    decide (result.returnValue.length > env.params.maxCodeSize))

/-- What the checks of the return value make of a result. -/
structure Checked where
  result : ExecResult
  codestoreOOG : Bool
  createSucceeded : Bool

def checkReturnValue (message : Message) (result : ExecResult) (gas : DepositGas) : Checked :=
  if gas.totalGas ≤ message.gasLimit ∧
      (env.allowUnlimitedContractSize || allowedCodeSize env result) then
    -- EIP-3541 looks at the first byte, whether the run succeeded or not
    if env.common.isActivatedEIP 3541 && result.returnValue.head? == some FORMAT then
      if !env.common.isActivatedEIP 3540 then
        ⟨result.INVALID_BYTECODE_RESULT message.gasLimit, false, false⟩
      else if !isEOF (message.code.getD []) then
        ⟨result.INVALID_BYTECODE_RESULT message.gasLimit, false, false⟩
      else ⟨{ result with executionGasUsed := gas.totalGas }, false, true⟩
    else ⟨{ result with executionGasUsed := gas.totalGas }, false, true⟩
  else if env.common.gteHardfork .homestead then
    if !allowedCodeSize env result then
      ⟨result.CodesizeExceedsMaximumError message.gasLimit, false, false⟩
    else ⟨result.OOGResult message.gasLimit, false, false⟩
  else if gas.totalGas - gas.returnFee ≤ message.gasLimit then
    ⟨result.COOGResult (gas.totalGas - gas.returnFee), true, false⟩
  else ⟨result.OOGResult message.gasLimit, false, false⟩

/-- The state gas of a create that the checks let pass. -/
def commitStateGas (message : Message) (toAddress : Bytes) (gas : DepositGas) (state : CreateState) :
    CreateState :=
  let newAccountGas : Int := env.params.stateBytesPerNewAccount * env.params.costPerStateByte
  let state :=
    if gas.stateGasCreate > 0 then
      { state with
        stateGasReservoir := state.stateGasReservoir - gas.stateGasFromReservoir
        executionStateGasUsed := state.executionStateGasUsed + gas.stateGasCreate }
    else state
  let prior := (state.createdAccountStateGas toAddress).getD 0
  let bakedIn := gas.stateGasCreate + (if message.depth > 0 then newAccountGas else 0)
  { state with
    createdAccountStateGas :=
      Function.update state.createdAccountStateGas toAddress (some (prior + bakedIn))
    createdAccountIntrinsicStateGas :=
      if message.depth = 0 then
        Function.update state.createdAccountIntrinsicStateGas toAddress (some newAccountGas)
      else state.createdAccountIntrinsicStateGas }

/-- The access of the header of a new account. -/
def chargeComplete (message : Message) (toAddress : Bytes) (result : ExecResult) (gasLimit : Int) :
    ExecResult × Int :=
  if result.exceptionError.isNone && env.common.isStateless then
    let gasLimit := gasLimit - env.createCompleteGas toAddress
    if gasLimit < 0 then (result.OOGResult message.gasLimit, gasLimit)
    else ({ result with
      executionGasUsed := result.executionGasUsed + env.createCompleteGas toAddress }, gasLimit)
  else (result, gasLimit)

/-- The code that is deployed; even that of a write that is out of gas is put. -/
def saveCode (message : Message) (toAddress : Bytes) (codestoreOOG : Bool) (result : ExecResult)
    (gasLimit : Int) (state : CreateState) : ExecResult × CreateState :=
  if result.exceptionError.isNone && result.returnValue.length != 0 then
    let result :=
      if env.common.isStateless then
        let fee := env.codeChunksGas toAddress (result.returnValue.length - 1)
        if gasLimit - fee < 0 then result.OOGResult message.gasLimit
        else { result with executionGasUsed := result.executionGasUsed + fee }
      else result
    let state := state.putCode env toAddress result.returnValue
    (result, state.record env fun bal =>
      bal.addCodeChange toAddress result.returnValue bal.blockAccessIndex none)
  else if codestoreOOG && !env.common.gteHardfork .homestead then
    (result, state.putAccount toAddress ((state.getAccount toAddress).getD (newAccountOf env)))
  else (result, state)

/-- What follows the run of the init code. -/
def finishCreate (message : Message) (toAddress : Bytes) (gasLimit : Nat) (result : ExecResult)
    (state : CreateState) : EVMResult × CreateState :=
  let result :=
    { result with
      executionGasUsed := result.executionGasUsed + ((message.gasLimit : Int) - gasLimit) }
  let gas := depositGas env result state.stateGasReservoir
  let checked := checkReturnValue env message result gas
  let state :=
    if env.common.isActivatedEIP 8037 && checked.createSucceeded then
      commitStateGas env message toAddress gas state
    else state
  let (result, gasLimit) := chargeComplete env message toAddress checked.result
    (message.gasLimit - checked.result.executionGasUsed)
  let (result, state) := saveCode env message toAddress checked.codestoreOOG result gasLimit state
  let state :=
    if message.depth = 0 && env.common.isActivatedEIP 1153 then { state with transientStorage := [] }
    else state
  (⟨some toAddress, result⟩, state)

def executeCreate (message : Message) (state : CreateState) :
    Except CreateError (EVMResult × CreateState) := do
  match ← prepareCreate env message state with
  | .exits result state => .ok (result, state)
  | .runs message toAddress gasLimit initialLogs state =>
    let (result, state) := runInterpreter env message gasLimit initialLogs state
    .ok (finishCreate env message toAddress gasLimit result state)

end After

section PassedThrough

variable {env : CreateEnv} {message message' : Message} {state state' : CreateState}
  {toAddress : Bytes} {gasLimit gasLimit' : Nat} {initialLogs : List Log} {result : ExecResult}
  {gas : DepositGas} {error : EVMErrorMessage} {n : Nat}

theorem prepareAccount_runs {toAddress' : Bytes}
    (h : prepareAccount env message toAddress gasLimit state =
      .runs message' toAddress' gasLimit' initialLogs state') :
    message' = message ∧ gasLimit' = gasLimit := by
  unfold prepareAccount at h
  dsimp only at h
  by_cases hcollides : collides env ((state.getAccount toAddress).getD (newAccountOf env)) = true
  · rw [if_pos hcollides] at h
    cases h
  · rw [if_neg hcollides] at h
    generalize addToBalance env toAddress _ message.value _ = added at h
    by_cases hexits : (decide ((message.code.getD []).length = 0) || added.1.isSome) = true
    · rw [if_pos hexits] at h
      cases h
    · rw [if_neg hexits] at h
      cases h
      exact ⟨rfl, rfl⟩

/-- The data of a message are run as code; without an access witness it has its whole gas limit. -/
theorem prepareCreate_runs (hstateless : env.common.isStateless = false)
    (h : prepareCreate env message state =
      .ok (.runs message' toAddress gasLimit initialLogs state')) :
    gasLimit = message'.gasLimit ∧ message'.code = some message.data := by
  unfold prepareCreate at h
  obtain ⟨reduced, -, h⟩ := bind_eq_ok.mp h
  by_cases hsize : (env.common.isActivatedEIP 3860 &&
      decide (message.data.length > env.params.maxInitCodeSize) &&
      !env.allowUnlimitedInitCodeSize) = true
  · rw [if_pos hsize] at h
    cases h
  · rw [if_neg hsize] at h
    obtain ⟨address, -, h⟩ := bind_eq_ok.mp h
    rw [hstateless] at h
    dsimp only at h
    rw [if_neg Bool.false_ne_true, if_neg (Nat.not_lt_zero _)] at h
    obtain ⟨rfl, rfl⟩ := prepareAccount_runs (Except.ok.inj h)
    exact ⟨rfl, rfl⟩

theorem executeCreate_runs
    (h : prepareCreate env message state =
      .ok (.runs message' toAddress gasLimit initialLogs state')) :
    executeCreate env message state =
      .ok (finishCreate env message' toAddress gasLimit
        (runInterpreter env message' gasLimit initialLogs state').1
        (runInterpreter env message' gasLimit initialLogs state').2) := by
  unfold executeCreate
  rw [h]
  rfl

/-- No run uses more gas than its limit. -/
theorem executionGasUsed_le :
    (runInterpreter env message gasLimit initialLogs state).1.executionGasUsed ≤ gasLimit := by
  unfold runInterpreter
  dsimp only
  split <;> omega

/-- A failed run whose return value is taken for the code of an EOF contract. -/
def RejectsReturnValue (common : Common) (initCode returnValue : Bytes) : Prop :=
  common.isActivatedEIP 3541 = true ∧ returnValue.head? = some FORMAT ∧
    ¬ (common.isActivatedEIP 3540 = true ∧ isEOF initCode = true)

theorem depositGas_failed (hfailed : result.exceptionError = some error) {reservoir : Int} :
    depositGas env result reservoir =
      { totalGas := result.executionGasUsed, returnFee := 0, stateGasCreate := 0
        stateGasFromReservoir := 0 } := by
  unfold depositGas
  rw [hfailed]
  rfl

theorem allowedCodeSize_failed (hfailed : result.exceptionError = some error) :
    allowedCodeSize env result = true := by
  unfold allowedCodeSize
  rw [hfailed]
  rfl

/-- What the checks make of a failed run. -/
theorem checkReturnValue_failed (hfailed : result.exceptionError = some error)
    (hgas : gas.totalGas = result.executionGasUsed)
    (hle : result.executionGasUsed ≤ message.gasLimit) :
    (¬ RejectsReturnValue env.common (message.code.getD []) result.returnValue ∧
      (checkReturnValue env message result gas).result = result) ∨
    (RejectsReturnValue env.common (message.code.getD []) result.returnValue ∧
      (checkReturnValue env message result gas).result =
        result.INVALID_BYTECODE_RESULT message.gasLimit) := by
  have hpaid : gas.totalGas ≤ message.gasLimit ∧
      (env.allowUnlimitedContractSize || allowedCodeSize env result) = true := by
    rw [hgas, allowedCodeSize_failed hfailed, Bool.or_true]
    exact ⟨hle, rfl⟩
  have hsame : { result with executionGasUsed := gas.totalGas } = result := by
    rw [hgas]
  unfold RejectsReturnValue checkReturnValue
  rw [if_pos hpaid]
  by_cases hformat : (env.common.isActivatedEIP 3541 &&
      result.returnValue.head? == some FORMAT) = true
  · rw [if_pos hformat]
    rw [Bool.and_eq_true, beq_iff_eq] at hformat
    by_cases heof : env.common.isActivatedEIP 3540 = true ∧ isEOF (message.code.getD []) = true
    · left
      refine ⟨fun hrejects => hrejects.2.2 heof, ?_⟩
      rw [heof.1, heof.2]
      exact hsame
    · right
      refine ⟨⟨hformat.1, hformat.2, heof⟩, ?_⟩
      split
      · rfl
      · next h3540 =>
        rw [if_pos]
        rw [not_and, Bool.not_eq_true] at heof
        rw [heof (by simpa using h3540)]
        rfl
  · left
    rw [if_neg hformat]
    rw [Bool.and_eq_true, beq_iff_eq, not_and] at hformat
    exact ⟨fun hrejects => hformat hrejects.1 hrejects.2.1, hsame⟩

theorem chargeComplete_failed (hfailed : result.exceptionError = some error) {left : Int} :
    chargeComplete env message toAddress result left = (result, left) := by
  unfold chargeComplete
  rw [hfailed]
  rfl

theorem saveCode_failed (hfailed : result.exceptionError = some error) {left : Int}
    {codestoreOOG : Bool} :
    (saveCode env message toAddress codestoreOOG result left state).1 = result := by
  unfold saveCode
  rw [hfailed]
  split
  · next h => cases h
  · split <;> rfl

/-- The result of a failed run, whose gas no step of `finishCreate` changes. -/
theorem finishCreate_failed (hfailed : result.exceptionError = some error)
    (hle : result.executionGasUsed ≤ message.gasLimit) :
    (¬ RejectsReturnValue env.common (message.code.getD []) result.returnValue ∧
      (finishCreate env message toAddress message.gasLimit result state).1.execResult = result) ∨
    (RejectsReturnValue env.common (message.code.getD []) result.returnValue ∧
      (finishCreate env message toAddress message.gasLimit result state).1.execResult =
        result.INVALID_BYTECODE_RESULT message.gasLimit) := by
  have hsame : { result with
      executionGasUsed := result.executionGasUsed + ((message.gasLimit : Int) - message.gasLimit) } =
      result := by
    rw [Int.sub_self, Int.add_zero]
  unfold finishCreate
  dsimp only
  rw [hsame, depositGas_failed hfailed]
  obtain ⟨hpasses, hresult⟩ | ⟨hrejects, hresult⟩ :=
    @checkReturnValue_failed env message result ⟨result.executionGasUsed, 0, 0, 0⟩ error hfailed
      rfl hle
  · left
    refine ⟨hpasses, ?_⟩
    rw [hresult, chargeComplete_failed hfailed]
    exact saveCode_failed hfailed
  · right
    refine ⟨hrejects, ?_⟩
    rw [hresult, chargeComplete_failed rfl]
    exact saveCode_failed rfl

/-- What is asked of a create: the result of a run that failed is the result of the create. -/
def PassesThrough (env : CreateEnv) (message : Message) (state : CreateState) : Prop :=
  ∀ message' toAddress gasLimit initialLogs state' error,
    prepareCreate env message state =
      .ok (.runs message' toAddress gasLimit initialLogs state') →
    let result := (runInterpreter env message' gasLimit initialLogs state').1
    result.exceptionError = some error →
    ∃ created final, executeCreate env message state = .ok (created, final) ∧
      created.execResult.exceptionError = some error ∧
      created.execResult.returnValue = result.returnValue ∧
      created.execResult.executionGasUsed = result.executionGasUsed

/-- The result of a create whose init code failed. -/
theorem executeCreate_failed (hstateless : env.common.isStateless = false)
    (hruns : prepareCreate env message state =
      .ok (.runs message' toAddress gasLimit initialLogs state'))
    (hfailed : (runInterpreter env message' gasLimit initialLogs state').1.exceptionError =
      some error) :
    ∃ created final, executeCreate env message state = .ok (created, final) ∧
      ((¬ RejectsReturnValue env.common message.data
          (runInterpreter env message' gasLimit initialLogs state').1.returnValue ∧
        created.execResult = (runInterpreter env message' gasLimit initialLogs state').1) ∨
      (RejectsReturnValue env.common message.data
          (runInterpreter env message' gasLimit initialLogs state').1.returnValue ∧
        created.execResult = (runInterpreter env message' gasLimit initialLogs
          state').1.INVALID_BYTECODE_RESULT message'.gasLimit)) := by
  obtain ⟨rfl, hcode⟩ := prepareCreate_runs hstateless hruns
  have hfinish := @finishCreate_failed env message'
    (runInterpreter env message' message'.gasLimit initialLogs state').2 toAddress _ error
    hfailed executionGasUsed_le
  rw [hcode, Option.getD_some] at hfinish
  exact ⟨_, _, executeCreate_runs hruns, hfinish⟩

/-- When the result of a failed init code is passed through. -/
theorem executeCreate_passes_iff (env : CreateEnv) (message message' : Message)
    (state state' : CreateState) (toAddress : Bytes) (gasLimit : Nat) (initialLogs : List Log)
    (error : EVMErrorMessage) (hstateless : env.common.isStateless = false)
    (hruns : prepareCreate env message state =
      .ok (.runs message' toAddress gasLimit initialLogs state'))
    (hfailed : (runInterpreter env message' gasLimit initialLogs state').1.exceptionError =
      some error) :
    PassesThrough env message state ↔ ¬ RejectsReturnValue env.common message.data
      (runInterpreter env message' gasLimit initialLogs state').1.returnValue := by
  obtain ⟨created, final, hcreated, hresult⟩ := executeCreate_failed hstateless hruns hfailed
  constructor
  · intro hpasses hrejects
    obtain ⟨created', final', hcreated', -, hreturn, -⟩ :=
      hpasses _ _ _ _ _ error hruns hfailed
    rw [hcreated] at hcreated'
    cases hcreated'
    obtain ⟨hnot, -⟩ | ⟨-, hresult⟩ := hresult
    · exact hnot hrejects
    · -- the bytes that were returned are replaced by none
      rw [hresult] at hreturn
      have hhead := hrejects.2.1
      rw [← hreturn] at hhead
      cases hhead
  · rintro hpasses message'' toAddress' gasLimit' initialLogs' state'' error' hruns' result hfailed'
    rw [hruns] at hruns'
    cases hruns'
    rw [hfailed] at hfailed'
    cases hfailed'
    obtain ⟨-, hresult⟩ | ⟨hrejects, -⟩ := hresult
    · refine ⟨created, final, hcreated, ?_⟩
      rw [hresult]
      exact ⟨hfailed, rfl, rfl⟩
    · exact absurd hrejects hpasses

/-- A caller with the nonce 1 and nothing else. -/
def callerState (caller : Bytes) : CreateState where
  accounts := fun address =>
    if address = caller then some ⟨1, 0, keccakRlp polynomialHash, keccakNull polynomialHash⟩ else none
  code := fun _ => []
  transientStorage := []
  blockLevelAccessList := createBlockLevelAccessList
  stateGasReservoir := 0
  executionStateGasUsed := 0
  createdAccountStateGas := fun _ => none
  createdAccountIntrinsicStateGas := fun _ => none

/-- Init code that reverts with one byte when 982 of its 1000 gas are left. -/
def revertingEnv (byte : UInt8) : CreateEnv where
  common := ⟨.london, []⟩
  params := { createDataGas := 200, codeDepositHashWordGas := 0, costPerStateByte := 0
              stateBytesPerNewAccount := 0, maxCodeSize := 24576, maxInitCodeSize := 0 }
  H := polynomialHash
  allowUnlimitedContractSize := false
  allowUnlimitedInitCodeSize := false
  createInitGas := fun _ => 0
  createCompleteGas := fun _ => 0
  codeChunksGas := fun _ _ => 0
  interpreter := fun _ _ _ state =>
    ({ exceptionError := some .REVERT, gasLeft := 982, gasRefund := 0, returnValue := some [byte]
       logs := [], selfdestruct := [], createdAddresses := [] }, state)

/-- `PUSH1 byte PUSH1 0 MSTORE8 PUSH1 1 PUSH1 0 REVERT` as init code. -/
def revertingMessage (byte : UInt8) : Message where
  toAddress := none
  value := 0
  caller := List.replicate 20 1
  gasLimit := 1000
  data := [0x60, byte, 0x60, 0x00, 0x53, 0x60, 0x01, 0x60, 0x00, 0xfd]
  eofCallData := none
  depth := 1
  code := none
  salt := none
  createdAddresses := []
  selfdestruct := []
  gasRefund := 0

theorem exists_runs {prepared : Except CreateError Prepared}
    (h : (prepared.toOption.bind Prepared.gasLimit?) = some n) :
    ∃ message' toAddress initialLogs state',
      prepared = .ok (.runs message' toAddress n initialLogs state') := by
  cases prepared with
  | error e => cases h
  | ok prepared =>
    cases prepared with
    | exits result state => cases h
    | runs message' toAddress gasLimit initialLogs state' =>
      cases h
      exact ⟨message', toAddress, initialLogs, state', rfl⟩

/-- A byte that no contract may begin with, and another one. -/
theorem executeCreate_passes_sample :
    PassesThrough (revertingEnv 0x01) (revertingMessage 0x01) (callerState (List.replicate 20 1)) ∧
    ¬ RejectsReturnValue ⟨.london, []⟩ (revertingMessage 0x01).data [0x01] := by
  obtain ⟨message', toAddress, initialLogs, state', hruns⟩ :=
    @exists_runs 1000 (prepareCreate (revertingEnv 0x01) (revertingMessage 0x01)
      (callerState (List.replicate 20 1))) (by decide +kernel)
  have hpasses : ¬ RejectsReturnValue ⟨.london, []⟩ (revertingMessage 0x01).data [0x01] :=
    fun hrejects => absurd hrejects.2.1 (by decide)
  exact ⟨(executeCreate_passes_iff _ _ message' _ state' toAddress 1000 initialLogs .REVERT
    (by decide +kernel) hruns rfl).mpr hpasses, hpasses⟩

/-- The byte `0xef` turns a revert into an error that uses all gas. -/
theorem not_passesThrough :
    ¬ PassesThrough (revertingEnv 0xef) (revertingMessage 0xef)
      (callerState (List.replicate 20 1)) := by
  intro hpasses
  obtain ⟨message', toAddress, initialLogs, state', hruns⟩ :=
    @exists_runs 1000 (prepareCreate (revertingEnv 0xef) (revertingMessage 0xef)
      (callerState (List.replicate 20 1))) (by decide +kernel)
  obtain ⟨created, final, hcreated, herror, -⟩ := hpasses _ _ _ _ _ .REVERT hruns rfl
  have hother : ((executeCreate (revertingEnv 0xef) (revertingMessage 0xef)
      (callerState (List.replicate 20 1))).toOption.bind fun r => r.1.execResult.exceptionError) =
      some .INVALID_BYTECODE_RESULT := by
    decide +kernel
  rw [hcreated] at hother
  rw [show (Except.ok (created, final) : Except CreateError _).toOption.bind
    (fun r => r.1.execResult.exceptionError) = created.execResult.exceptionError from rfl,
    herror] at hother
  cases hother

end PassedThrough

end EthereumJS.Evm
