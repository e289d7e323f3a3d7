import EthereumJS.Tx.Doubles
import EthereumJS.Tx.WireForm

/-! # Signing legacy transactions

`sign` of `capabilities/legacy.ts` with the methods of `LegacyTx` that it calls. `ecsign` and
`keccak256` are parameters; the capabilities of a transaction are a list of their own, since `sign`
changes it for a while.
-/

namespace EthereumJS.Tx

open RLP

/-- A signature in the form `recovered`. -/
structure Signature where
  recovery : Nat
  r : Nat
  s : Nat
  recovery_le : recovery ≤ 1
  r_lt : r < 2 ^ 256
  s_lt : s < 2 ^ 256

/-- `Capability.EIP155ReplayProtection`. -/
def EIP155ReplayProtection : Nat := 155

section Sign

variable (opts : TxOptions) (keccak256 : Bytes → Bytes) (ecsign : Bytes → Bytes → Signature)

/-- The capabilities of a new transaction. -/
def LegacyTx.activeCapabilities (tx : LegacyTx) : List Nat :=
  if opts.common.hardfork.gteHardfork .spuriousDragon then
    if !tx.isSigned then [EIP155ReplayProtection]
    else if meetsEIP155 (tx.v.bind toDouble) opts.common.chainId then [EIP155ReplayProtection]
    else []
  else []

def supports (activeCapabilities : List Nat) (capability : Nat) : Bool :=
  activeCapabilities.contains capability

def LegacyTx.getMessageToSign (tx : LegacyTx) (activeCapabilities : List Nat) : List Item :=
  let message := [integerItem tx.nonce, integerItem tx.gasPrice, integerItem tx.gasLimit,
    .bytes (tx.toAddress.getD []), integerItem tx.value, .bytes tx.data]
  if supports activeCapabilities EIP155ReplayProtection then
    message ++ [integerItem opts.common.chainId, .bytes (unpadBytes [0]), .bytes (unpadBytes [0])]
  else message

def LegacyTx.getHashedMessageToSign (tx : LegacyTx) (activeCapabilities : List Nat) : Bytes :=
  keccak256 (encode (.list (tx.getMessageToSign opts activeCapabilities)))

def LegacyTx.getMessageToVerifySignature (tx : LegacyTx) (activeCapabilities : List Nat) :
    Except String Bytes :=
  if !tx.isSigned then .error "This transaction is not signed"
  else .ok (tx.getHashedMessageToSign opts keccak256 activeCapabilities)

/-- A bigint as a part of the input. -/
def bigIntInput (value : Nat) : Option Item := some (.bytes (bigIntToBytes value))

def LegacyTx.signedData (tx : LegacyTx) (v r s : Nat) : TxData :=
  { TxData.empty with
    nonce := bigIntInput tx.nonce, gasPrice := bigIntInput tx.gasPrice
    gasLimit := bigIntInput tx.gasLimit, toAddress := tx.toAddress.map .bytes
    value := bigIntInput tx.value, data := some (.bytes tx.data)
    v := bigIntInput v, r := bigIntInput r, s := bigIntInput s }

def LegacyTx.addSignature (tx : LegacyTx) (activeCapabilities : List Nat) (v r s : Nat)
    (convertV : Bool) : Except String LegacyTx :=
  let v :=
    if convertV && supports activeCapabilities EIP155ReplayProtection then
      v + (35 + opts.common.chainId * 2)
    else if convertV then v + 27
    else v
  createLegacyTx opts (tx.signedData v r s)

/-- The signed transaction, and the capabilities of the unsigned one as they are left behind. -/
def LegacyTx.sign (tx : LegacyTx) (activeCapabilities : List Nat) (privateKey : Bytes) :
    Except String LegacyTx × List Nat :=
  if privateKey.length ≠ 32 then
    (.error "Private key must be 32 bytes in length.", activeCapabilities)
  else
    let hackApplied := opts.common.hardfork.gteHardfork .spuriousDragon &&
      !supports activeCapabilities EIP155ReplayProtection
    let patched :=
      if hackApplied then activeCapabilities ++ [EIP155ReplayProtection] else activeCapabilities
    let msgHash := tx.getHashedMessageToSign opts keccak256 patched
    let signature := ecsign msgHash privateKey
    match tx.addSignature opts patched signature.recovery signature.r signature.s true with
    | .error e => (.error e, patched)
    | .ok signedTx =>
      (.ok signedTx, if hackApplied then patched.erase EIP155ReplayProtection else patched)

end Sign

section Claims

/-- What is asked of signing on a chain. -/
def SigningWorks (chainId : Nat) : Prop :=
  ∀ (keccak256 : Bytes → Bytes) (ecsign : Bytes → Bytes → Signature) (opts : TxOptions)
    (txData : TxData) (tx : LegacyTx) (privateKey : Bytes),
    opts.common.chainId = chainId → opts.common.hardfork.gteHardfork .spuriousDragon = true →
    createLegacyTx opts txData = .ok tx → tx.isSigned = false → privateKey.length = 32 →
    let digest := tx.getHashedMessageToSign opts keccak256 (tx.activeCapabilities opts)
    let signature := ecsign digest privateKey
    ∃ signedTx, (tx.sign opts keccak256 ecsign (tx.activeCapabilities opts) privateKey).1 =
        .ok signedTx ∧
      signedTx.v = some (2 * chainId + 35 + signature.recovery) ∧
      signedTx.r = some signature.r ∧ signedTx.s = some signature.s ∧
      signedTx.getMessageToVerifySignature opts keccak256 (signedTx.activeCapabilities opts) =
        .ok digest

/-- What is asked of the `v` of the transactions of a chain. -/
def OnlyOwnV (chainId : Nat) : Prop :=
  ∀ (opts : TxOptions) (txData : TxData) (tx : LegacyTx) (v : Nat),
    opts.common.chainId = chainId → opts.common.hardfork.gteHardfork .spuriousDragon = true →
    createLegacyTx opts txData = .ok tx → tx.v = some v → v ≠ 27 → v ≠ 28 →
    v = 2 * chainId + 35 ∨ v = 2 * chainId + 36

end Claims

section Checks

variable {opts : TxOptions} {tx : TransactionInterface} {v chainId : Nat}

/-- A chain id with exact doubles. -/
theorem meetsEIP155_iff {double : Option Nat} (h : 2 * chainId + 36 < 2 ^ 53) :
    meetsEIP155 double chainId = true ↔
      double = some (2 * chainId + 35) ∨ double = some (2 * chainId + 36) := by
  have hdoubled : (toDouble chainId).bind (fun n => toDouble (n * 2)) = some (2 * chainId) := by
    rw [toDouble_of_lt (by omega), Option.bind_some, toDouble_of_lt (by omega), Nat.mul_comm]
  have hadd : ∀ n, n ≤ 36 → addDouble (some (2 * chainId)) n = some (2 * chainId + n) := by
    intro n hn
    unfold addDouble
    rw [Option.bind_some, toDouble_of_lt (by omega)]
  unfold meetsEIP155
  dsimp only
  rw [hdoubled, hadd 35 (by decide), hadd 36 le_rfl, Bool.or_eq_true, beq_iff_eq, beq_iff_eq]

theorem legacyVChecks_eq_ok (hchain : opts.common.chainId = chainId)
    (hfork : opts.common.hardfork.gteHardfork .spuriousDragon = true) (hpos : 1 ≤ chainId)
    (h : 2 * chainId + 36 < 2 ^ 53) {recovery : Nat} (hrecovery : recovery ≤ 1)
    (hv : tx.v = some (2 * chainId + 35 + recovery)) :
    throwFirst (legacyVChecks opts tx) = .ok () := by
  have hdouble : toDouble (2 * chainId + 35 + recovery) = some (2 * chainId + 35 + recovery) :=
    toDouble_of_lt (by omega)
  have hmeets : meetsEIP155 (some (2 * chainId + 35 + recovery)) chainId = true := by
    rw [meetsEIP155_iff h]
    obtain rfl | rfl := Nat.le_one_iff_eq_zero_or_eq_one.mp hrecovery
    · exact .inl rfl
    · exact .inr rfl
  have hsubtract : ∀ n, n ≤ 36 → toDouble (2 * chainId + 35 + recovery - n) =
      some (2 * chainId + 35 + recovery - n) := fun n hn => toDouble_of_lt (by omega)
  have hderived : (2 * chainId + 35 + recovery -
      (if (2 * chainId + 35 + recovery - 35) % 2 = 0 then 35 else 36)) / 2 = chainId := by
    split <;> omega
  rw [throwFirst_eq_ok]
  unfold legacyVChecks
  rw [hv, Option.map_some, hdouble, hchain, hfork]
  dsimp only
  rw [hmeets]
  simp only [List.forall_mem_cons, List.not_mem_nil, false_implies, implies_true, and_true,
    Option.any_some, Option.isNone_some, Option.getD_some, Bool.and_false, Bool.not_true,
    hsubtract 35 (by decide), Bool.and_eq_false_iff, decide_eq_false_iff_not, true_and]
  refine ⟨.inl (by omega), ?_⟩
  right
  split
  · next heven =>
    rw [hsubtract 35 (by decide), Option.getD_some]
    rw [if_pos heven] at hderived
    rw [hderived]
    exact bne_self_eq_false _
  · next hodd =>
    rw [hsubtract 36 le_rfl, Option.getD_some]
    rw [if_neg hodd] at hderived
    rw [hderived]
    exact bne_self_eq_false _

/-- What the checks of `v` let pass from Spurious Dragon on. -/
theorem legacyVChecks_passed (hfork : opts.common.hardfork.gteHardfork .spuriousDragon = true)
    (hv : tx.v = some v) (h27 : toDouble v ≠ some 27) (h28 : toDouble v ≠ some 28)
    (h : throwFirst (legacyVChecks opts tx) = .ok ()) :
    (toDouble v).isSome ∧ meetsEIP155 (toDouble v) opts.common.chainId = true := by
  rw [throwFirst_eq_ok] at h
  unfold legacyVChecks at h
  rw [hv, Option.map_some, hfork] at h
  dsimp only at h
  have hprotected : (toDouble v == some 27 || toDouble v == some 28) = false := by
    rw [Bool.or_eq_false_iff]
    exact ⟨beq_false_of_ne h27, beq_false_of_ne h28⟩
  rw [hprotected] at h
  simp only [List.forall_mem_cons, Bool.not_false, Bool.and_true, Bool.true_and] at h
  obtain ⟨-, hfinite, hmeets, -⟩ := h
  refine ⟨?_, by rw [Bool.not_eq_false'] at hmeets; exact hmeets⟩
  cases hdouble : toDouble v with
  | none => rw [hdouble] at hfinite; cases hfinite
  | some r => rfl

theorem v_of_legacyVChecks (hchain : opts.common.chainId = chainId)
    (hfork : opts.common.hardfork.gteHardfork .spuriousDragon = true)
    (h : 2 * chainId + 36 < 2 ^ 53) (hv : tx.v = some v) (h27 : v ≠ 27) (h28 : v ≠ 28)
    (hpassed : throwFirst (legacyVChecks opts tx) = .ok ()) :
    v = 2 * chainId + 35 ∨ v = 2 * chainId + 36 := by
  have hmeets := (legacyVChecks_passed hfork hv
    (fun heq => h27 ((toDouble_eq_some_iff (by decide)).mp heq))
    (fun heq => h28 ((toDouble_eq_some_iff (by decide)).mp heq)) hpassed).2
  rw [hchain, meetsEIP155_iff h, toDouble_eq_some_iff (by omega),
    toDouble_eq_some_iff h] at hmeets
  exact hmeets

/-- The checks see no more of `v` than its double. -/
theorem legacyVChecks_congr {tx' : TransactionInterface}
    (h : tx'.v.map toDouble = tx.v.map toDouble) : legacyVChecks opts tx' = legacyVChecks opts tx := by
  unfold legacyVChecks
  rw [h]

end Checks

section Signed

variable {opts : TxOptions} {txData : TxData} {tx : LegacyTx} {v r s : Nat}

theorem inputBigInt_bigIntInput (n : Nat) : inputBigInt (bigIntInput n) = n :=
  bytesToNumber_bigIntToBytes n

theorem bigIntToBytes_ne_nil (n : Nat) : bigIntToBytes n ≠ [] := by
  intro hnil
  have hback := bytesToNumber_bigIntToBytes n
  rw [hnil] at hback
  -- only zero is read from no bytes
  rw [← hback] at hnil
  revert hnil
  decide

theorem signatureValue_bigIntInput (n : Nat) : signatureValue (bigIntInput n) = some n := by
  have hpos : (inputBytes (bigIntInput n)).length > 0 :=
    List.length_pos_iff.mpr (bigIntToBytes_ne_nil n)
  unfold signatureValue
  rw [if_pos hpos, inputBigInt_bigIntInput]

/-- A transaction with another signature. -/
def LegacyTx.withSignature (tx : LegacyTx) (v r s : Nat) : LegacyTx :=
  { tx with v := some v, r := some r, s := some s }

theorem ofData_signedData (hto : tx.toAddress ≠ some []) :
    LegacyTx.ofData (tx.signedData v r s) = tx.withSignature v r s := by
  have haddress : (if (inputBytes (tx.toAddress.map Item.bytes)).length > 0
      then some (inputBytes (tx.toAddress.map Item.bytes)) else none) = tx.toAddress := by
    cases haddr : tx.toAddress with
    | none => rfl
    | some address =>
      refine if_pos (List.length_pos_iff.mpr fun hnil => hto ?_)
      rw [haddr]
      exact congrArg some hnil
  have hdata : inputBytes (some (.bytes tx.data)) = tx.data := rfl
  unfold LegacyTx.ofData TransactionInterface.ofData LegacyTx.signedData LegacyTx.withSignature
  dsimp only
  rw [haddress, hdata, inputBigInt_bigIntInput, inputBigInt_bigIntInput, inputBigInt_bigIntInput,
    inputBigInt_bigIntInput, signatureValue_bigIntInput, signatureValue_bigIntInput,
    signatureValue_bigIntInput]

theorem noArrays_signedData : NoArrays (tx.signedData v r s) where
  nonce := rfl
  gasPrice := rfl
  maxFeePerGas := rfl
  gasLimit := rfl
  toAddress := by
    unfold LegacyTx.signedData
    cases tx.toAddress <;> rfl
  value := rfl
  data := rfl
  v := rfl
  r := rfl
  s := rfl
  chainId := rfl

theorem valueOverflowCheck_eq_ok {values : List (String × Option Nat)} :
    throwFirst (valueOverflowCheck values 256 false) = .ok () ↔
      ∀ value ∈ values, value.2.getD 0 ≤ MAX_INTEGER := by
  rw [throwFirst_eq_ok]
  unfold valueOverflowCheck
  simp only [List.forall_mem_map, Bool.false_eq_true, if_false, show (256 = 64) = False by decide,
    decide_eq_false_iff_not, not_lt, gt_iff_lt]

theorem sharedChecks_withSignature
    (h : throwFirst (sharedChecks opts txData tx.toTransactionInterface) = .ok ())
    (hr : r < 2 ^ 256) (hs : s < 2 ^ 256) :
    throwFirst (sharedChecks opts (tx.signedData v r s)
      (tx.withSignature v r s).toTransactionInterface) = .ok () := by
  unfold sharedChecks at h ⊢
  simp only [throwFirst_append] at h ⊢
  refine ⟨⟨⟨⟨⟨noArrays_iff.mpr noArrays_signedData, h.1.1.1.1.2⟩, ?_⟩, h.1.1.2⟩, h.1.2⟩, h.2⟩
  have hvalue := valueOverflowCheck_eq_ok.mp h.1.1.1.2 _ List.mem_cons_self
  have hmax : MAX_INTEGER = 2 ^ 256 - 1 := rfl
  rw [valueOverflowCheck_eq_ok]
  simp only [List.forall_mem_cons, List.not_mem_nil, false_implies, implies_true, and_true]
  refine ⟨hvalue, ?_, ?_⟩
  · change r ≤ MAX_INTEGER
    omega
  · change s ≤ MAX_INTEGER
    omega

/-- A transaction takes every signature with a `v` that passes the checks. -/
theorem createLegacyTx_signedData (h : createLegacyTx opts txData = .ok tx) (hr : r < 2 ^ 256)
    (hs : s < 2 ^ 256) {signedTx : LegacyTx} :
    createLegacyTx opts (tx.signedData v r s) = .ok signedTx ↔
      tx.withSignature v r s = signedTx ∧
        throwFirst (legacyVChecks opts (tx.withSignature v r s).toTransactionInterface) =
          .ok () := by
  obtain ⟨hdata, hchecks⟩ := construct_eq_ok.mp h
  have hto : tx.toAddress ≠ some [] := hdata ▸ toAddress_ne_nil txData
  unfold createLegacyTx
  rw [construct_eq_ok, ofData_signedData hto]
  rw [hdata, throwFirst_append] at hchecks
  obtain ⟨hshared, hown⟩ := hchecks
  unfold LegacyTx.checks at hown ⊢
  simp only [throwFirst_append] at hown ⊢
  constructor
  · rintro ⟨rfl, -, ⟨-, hv⟩, -⟩
    exact ⟨rfl, hv⟩
  · rintro ⟨rfl, hv⟩
    exact ⟨rfl, sharedChecks_withSignature hshared hr hs, ⟨hown.1.1, hv⟩, hown.2⟩

end Signed

section Signing

variable {opts : TxOptions} {txData : TxData} {tx : LegacyTx} {chainId : Nat}
  {keccak256 : Bytes → Bytes} {ecsign : Bytes → Bytes → Signature} {privateKey : Bytes}

theorem activeCapabilities_unsigned
    (hfork : opts.common.hardfork.gteHardfork .spuriousDragon = true)
    (hunsigned : tx.isSigned = false) :
    tx.activeCapabilities opts = [EIP155ReplayProtection] := by
  unfold LegacyTx.activeCapabilities
  rw [if_pos hfork, if_pos (by rw [hunsigned]; rfl)]

theorem activeCapabilities_signed (hfork : opts.common.hardfork.gteHardfork .spuriousDragon = true)
    (hsigned : tx.isSigned = true)
    (hmeets : meetsEIP155 (tx.v.bind toDouble) opts.common.chainId = true) :
    tx.activeCapabilities opts = [EIP155ReplayProtection] := by
  unfold LegacyTx.activeCapabilities
  rw [if_pos hfork, if_neg (by rw [hsigned]; decide), if_pos hmeets]

/-- Signing of an unsigned transaction is one call of the constructor. -/
theorem sign_unsigned (hfork : opts.common.hardfork.gteHardfork .spuriousDragon = true)
    (hunsigned : tx.isSigned = false) (hkey : privateKey.length = 32) :
    (tx.sign opts keccak256 ecsign (tx.activeCapabilities opts) privateKey).1 =
      let digest := tx.getHashedMessageToSign opts keccak256 (tx.activeCapabilities opts)
      let signature := ecsign digest privateKey
      createLegacyTx opts (tx.signedData
        (signature.recovery + (35 + opts.common.chainId * 2)) signature.r signature.s) := by
  rw [activeCapabilities_unsigned hfork hunsigned]
  have hsupports : supports [EIP155ReplayProtection] EIP155ReplayProtection = true := by decide
  have hfst : ∀ (created : Except String LegacyTx) (capabilities : List Nat),
      (match created with
        | .error e => (Except.error e, capabilities)
        | .ok signedTx => (Except.ok signedTx, capabilities)).1 = created := by
    intro created capabilities
    cases created <;> rfl
  unfold LegacyTx.sign LegacyTx.addSignature
  rw [if_neg (not_not.mpr hkey), hsupports, hfork]
  dsimp only
  simp only [Bool.not_true, Bool.and_false, Bool.false_eq_true, if_false, if_true]
  exact hfst _ _

theorem signingWorks_of_lt (hpos : 1 ≤ chainId) (h : 2 * chainId + 36 < 2 ^ 53) :
    SigningWorks chainId := by
  intro keccak256 ecsign opts txData tx privateKey hchain hfork htx hunsigned hkey digest signature
  have hsign := @sign_unsigned opts tx keccak256 ecsign privateKey hfork hunsigned hkey
  have hv : signature.recovery + (35 + opts.common.chainId * 2) =
      2 * chainId + 35 + signature.recovery := by
    rw [hchain]
    omega
  change _ = createLegacyTx opts (tx.signedData
    (signature.recovery + (35 + opts.common.chainId * 2)) signature.r signature.s) at hsign
  rw [hv] at hsign
  have hcreate := (createLegacyTx_signedData htx signature.r_lt signature.s_lt).mpr
    ⟨rfl, legacyVChecks_eq_ok hchain hfork hpos h signature.recovery_le rfl⟩
  refine ⟨_, hsign.trans hcreate, rfl, rfl, rfl, ?_⟩
  have hmeets : meetsEIP155 ((some (2 * chainId + 35 + signature.recovery)).bind toDouble)
      opts.common.chainId = true := by
    have hrecovery := signature.recovery_le
    rw [Option.bind_some, hchain, meetsEIP155_iff h, toDouble_eq_some_iff (by omega),
      toDouble_eq_some_iff h]
    omega
  unfold LegacyTx.getMessageToVerifySignature
  have hsigned : (tx.withSignature (2 * chainId + 35 + signature.recovery) signature.r
      signature.s).isSigned = true := rfl
  rw [activeCapabilities_signed hfork hsigned hmeets]
  change Except.ok _ = Except.ok (tx.getHashedMessageToSign opts keccak256
    (tx.activeCapabilities opts))
  rw [activeCapabilities_unsigned hfork hunsigned]
  rfl

/-- A chain without parameters. -/
def plainOptions (chainId : Nat) : TxOptions :=
  { common := { chainId := chainId, hardfork := .spuriousDragon, eips := [], param := fun _ => 0
                kzg := false }
    allowUnlimitedInitCodeSize := false }

theorem createLegacyTx_empty (chainId : Nat) :
    createLegacyTx (plainOptions chainId) TxData.empty = .ok (LegacyTx.ofData TxData.empty) := by
  refine construct_eq_ok.mpr ⟨rfl, ?_⟩
  -- no check without a `v` reads the chain id
  change throwFirst (sharedChecks (plainOptions 1) TxData.empty _ ++
    LegacyTx.checks (plainOptions 1) (LegacyTx.ofData TxData.empty)) = .ok ()
  decide +kernel

/-- A signer whose signatures have a fixed recovery bit. -/
def fixedSigner (recovery : Nat) (h : recovery ≤ 1) (_ _ : Bytes) : Signature :=
  { recovery := recovery, r := 1, s := 1, recovery_le := h
    r_lt := Nat.one_lt_two_pow (by decide), s_lt := Nat.one_lt_two_pow (by decide) }

/-- The empty transaction of a chain with a `v`. -/
def emptySigned (v : Nat) : LegacyTx := (LegacyTx.ofData TxData.empty).withSignature v 1 1

theorem createLegacyTx_emptySigned {v : Nat} (h : throwFirst (legacyVChecks (plainOptions chainId)
      (emptySigned v).toTransactionInterface) = .ok ()) :
    createLegacyTx (plainOptions chainId) ((LegacyTx.ofData TxData.empty).signedData v 1 1) =
      .ok (emptySigned v) :=
  (createLegacyTx_signedData (createLegacyTx_empty chainId) (Nat.one_lt_two_pow (by decide))
    (Nat.one_lt_two_pow (by decide))).mpr ⟨rfl, h⟩

/-- Where signing works, the `v` of either recovery bit passes the checks. -/
theorem SigningWorks.passed (h : SigningWorks chainId) {recovery : Nat} (hrecovery : recovery ≤ 1) :
    throwFirst (legacyVChecks (plainOptions chainId)
      (emptySigned (2 * chainId + 35 + recovery)).toTransactionInterface) = .ok () := by
  have hkey : (List.replicate 32 (0 : UInt8)).length = 32 := by decide
  obtain ⟨signedTx, hsign, -⟩ := h id (fixedSigner recovery hrecovery) (plainOptions chainId)
    TxData.empty _ _ rfl rfl (createLegacyTx_empty chainId) rfl hkey
  rw [sign_unsigned rfl rfl hkey] at hsign
  have hv : recovery + (35 + chainId * 2) = 2 * chainId + 35 + recovery := by omega
  change createLegacyTx _ ((LegacyTx.ofData TxData.empty).signedData
    (recovery + (35 + chainId * 2)) 1 1) = _ at hsign
  rw [hv, createLegacyTx_signedData (createLegacyTx_empty chainId)
    (Nat.one_lt_two_pow (by decide)) (Nat.one_lt_two_pow (by decide))] at hsign
  exact hsign.2

/-- No two `v` of a chain have the same double but its own. -/
theorem OnlyOwnV.eq_of_double (h : OnlyOwnV chainId) {v other : Nat}
    (hpassed : throwFirst (legacyVChecks (plainOptions chainId)
      (emptySigned v).toTransactionInterface) = .ok ())
    (hdouble : toDouble other = toDouble v) (hlarge : 2 ^ 53 ≤ other) :
    other = 2 * chainId + 35 ∨ other = 2 * chainId + 36 := by
  have hmap : (emptySigned other).v.map toDouble = (emptySigned v).v.map toDouble := by
    change (some other).map toDouble = (some v).map toDouble
    rw [Option.map_some, Option.map_some, hdouble]
  have hchecks := @legacyVChecks_congr (plainOptions chainId) _ _ hmap
  rw [← hchecks] at hpassed
  exact h _ _ _ other rfl rfl (createLegacyTx_emptySigned hpassed) rfl (by omega) (by omega)

theorem lt_of_signing (hsigning : SigningWorks chainId) (hown : OnlyOwnV chainId) :
    2 * chainId + 36 < 2 ^ 53 := by
  by_contra hnot
  obtain heq | hlarge := (not_lt.mp hnot).eq_or_lt
  · -- the greater `v` is `2 ^ 53`, and its successor has the same double
    have hpassed := hsigning.passed le_rfl
    rw [show 2 * chainId + 35 + 1 = 2 ^ 53 by omega] at hpassed
    have hother := hown.eq_of_double hpassed
      (toDouble_two_pow.2.trans toDouble_two_pow.1.symm) (Nat.le_succ _)
    omega
  · have hpassed := hsigning.passed (Nat.zero_le 1)
    rw [Nat.add_zero] at hpassed
    have hsmall : ∀ k, k < 2 ^ 53 → toDouble (2 * chainId + 35) ≠ some k := by
      intro k hk hdouble
      rw [toDouble_eq_some_iff hk] at hdouble
      omega
    obtain ⟨hfinite, -⟩ := legacyVChecks_passed rfl rfl (hsmall 27 (by decide))
      (hsmall 28 (by decide)) hpassed
    obtain ⟨r, hdouble⟩ := Option.isSome_iff_exists.mp hfinite
    obtain ⟨other, hne, hne', hother, hsame⟩ :=
      exists_same_double (by omega) (by omega) hdouble
    have hownV := hown.eq_of_double hpassed (hsame.trans hdouble.symm) hother
    omega

/-- Signing works for the chain ids whose `v` are below `2 ^ 53`. -/
theorem legacySigning_iff (chainId : Nat) (hpos : 1 ≤ chainId) :
    SigningWorks chainId ∧ OnlyOwnV chainId ↔ 2 * chainId + 36 < 2 ^ 53 := by
  constructor
  · rintro ⟨hsigning, hown⟩
    exact lt_of_signing hsigning hown
  · intro h
    refine ⟨signingWorks_of_lt hpos h, ?_⟩
    intro opts txData tx v hchain hfork htx hv h27 h28
    obtain ⟨rfl, hchecks⟩ := construct_eq_ok.mp htx
    rw [throwFirst_append] at hchecks
    have hown := hchecks.2
    unfold LegacyTx.checks at hown
    simp only [throwFirst_append] at hown
    exact v_of_legacyVChecks hchain hfork h hv h27 h28 hown.1.2

/-- The main chain. -/
theorem legacySigning_iff_mainnet : SigningWorks 1 ∧ OnlyOwnV 1 :=
  (legacySigning_iff 1 le_rfl).mpr (by decide)

/-- On the chain with the id `2 ^ 52 - 17` no signature with the recovery bit 0 is accepted. -/
theorem not_signingWorks : ¬ (SigningWorks (2 ^ 52 - 17) ∧ OnlyOwnV (2 ^ 52 - 17)) := by
  rw [not_and_or]
  left
  intro h
  have hpassed := h.passed (Nat.zero_le 1)
  have hthrows : throwFirst (legacyVChecks (plainOptions (2 ^ 52 - 17))
      (emptySigned (2 * (2 ^ 52 - 17) + 35 + 0)).toTransactionInterface) ≠ .ok () := by
    decide +kernel
  exact hthrows hpassed

end Signing

end EthereumJS.Tx
