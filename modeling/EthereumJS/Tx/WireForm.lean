import EthereumJS.Tx.TransactionFactory

/-! # The wire form of transactions

A signed transaction is found again in its encoding, and which encodings are those of the
transaction that they are decoded to.
-/

namespace EthereumJS.Tx

open RLP

section Values

variable {x : Item} {opts : TxOptions} {txData : TxData}

theorem eq_bytes_of_isArray (h : isArray (some x) = false) : ∃ bytes, x = .bytes bytes := by
  cases x with
  | bytes bytes => exact ⟨bytes, rfl⟩
  | list items => cases h

theorem integerItem_eq_iff (hzero : NoLeadingZero (some x)) :
    integerItem (inputBigInt (some x)) = x ↔ isArray (some x) = false := by
  cases x with
  | list items => exact iff_of_false (fun h => by cases h) (fun h => by cases h)
  | bytes bytes =>
    refine iff_of_true ?_ rfl
    exact congrArg Item.bytes ((unpadded_bytesToNumber_iff bytes).mpr (hzero bytes rfl))

theorem noLeadingZero_iff {n : Nat} {bytes : Bytes} (hn : bytesToNumber bytes = n) :
    integerItem n = .bytes bytes ↔ NoLeadingZero (some (.bytes bytes)) := by
  rw [integerItem, Item.bytes.injEq, ← hn, unpadded_bytesToNumber_iff]
  constructor
  · intro h _ heq
    cases heq
    exact h
  · intro h
    exact h bytes rfl

theorem bytesItem_eq (h : isArray (some x) = false) : .bytes (inputBytes (some x)) = x := by
  obtain ⟨bytes, rfl⟩ := eq_bytes_of_isArray h
  rfl

theorem signatureItem_eq (h : isArray (some x) = false) (hzero : NoLeadingZero (some x)) :
    signatureItem (signatureValue (some x)) = x := by
  obtain ⟨bytes, rfl⟩ := eq_bytes_of_isArray h
  unfold signatureItem signatureValue
  split
  · exact (integerItem_eq_iff hzero).mpr h
  · rename_i hlen
    have hnil : bytes = [] := List.eq_nil_of_length_eq_zero (Nat.le_zero.mp (Nat.not_lt.mp hlen))
    subst hnil
    rfl

theorem length_bigIntToBytes (n : Nat) : 0 < (bigIntToBytes n).length := by
  rw [List.length_pos_iff]
  intro h
  have hn : bytesToNumber (bigIntToBytes n) = n := bytesToNumber_bigIntToBytes n
  rw [h] at hn
  subst hn
  cases h

/-- An integer in place of its bytes is there even if it is zero. -/
theorem signatureValue_bigIntValue (x : Item) :
    signatureValue (bigIntValue (some x)) = some (toBigInt x) := by
  have hpos : (inputBytes (bigIntValue (some x))).length > 0 := length_bigIntToBytes _
  rw [signatureValue, if_pos hpos]
  exact congrArg some (bytesToNumber_bigIntToBytes _)

theorem signatureItem_bigIntValue (h : isArray (some x) = false) (hzero : NoLeadingZero (some x)) :
    signatureItem (signatureValue (bigIntValue (some x))) = x := by
  rw [signatureValue_bigIntValue]
  exact (integerItem_eq_iff hzero).mpr h

theorem toItem_eq (h : isArray txData.toAddress = false) (hto : txData.toAddress = some x) :
    toItem (TransactionInterface.ofData txData) = x := by
  rw [hto] at h
  obtain ⟨bytes, rfl⟩ := eq_bytes_of_isArray h
  unfold toItem TransactionInterface.ofData
  rw [hto]
  dsimp only
  split
  · rfl
  · rename_i hlen
    have hnil : bytes = [] := List.eq_nil_of_length_eq_zero (Nat.le_zero.mp (Nat.not_lt.mp hlen))
    subst hnil
    rfl

end Values

section Inversion

variable {opts : TxOptions} {txData : TxData}

theorem construct_eq_ok {α : Type} {tx tx' : α} {checks : List (Bool × String)} :
    construct tx checks = .ok tx' ↔ tx = tx' ∧ throwFirst checks = .ok () := by
  unfold construct
  rw [bind_eq_ok]
  constructor
  · rintro ⟨u, hchecks, htx⟩
    cases htx
    exact ⟨rfl, hchecks⟩
  · rintro ⟨rfl, hchecks⟩
    exact ⟨(), hchecks, rfl⟩

/-- The values that a constructor refuses as arrays. -/
structure NoArrays (txData : TxData) : Prop where
  nonce : isArray txData.nonce = false
  gasPrice : isArray txData.gasPrice = false
  maxFeePerGas : isArray txData.maxFeePerGas = false
  gasLimit : isArray txData.gasLimit = false
  toAddress : isArray txData.toAddress = false
  value : isArray txData.value = false
  data : isArray txData.data = false
  v : isArray txData.v = false
  r : isArray txData.r = false
  s : isArray txData.s = false
  chainId : isArray txData.chainId = false

theorem noArrays_iff :
    throwFirst (validateNotArray txData.entries) = .ok () ↔ NoArrays txData := by
  have hkeys : throwFirst (validateNotArray txData.entries) = .ok () ↔
      isArray txData.chainId = false ∧ isArray txData.nonce = false ∧
      isArray txData.gasPrice = false ∧ isArray txData.maxFeePerGas = false ∧
      isArray txData.gasLimit = false ∧ isArray txData.toAddress = false ∧
      isArray txData.value = false ∧ isArray txData.data = false ∧ isArray txData.v = false ∧
      isArray txData.r = false ∧ isArray txData.s = false := by
    simp [throwFirst_eq_ok, validateNotArray, TxData.entries, txDataKeys]
  rw [hkeys]
  constructor
  · rintro ⟨h1, h2, h3, h4, h5, h6, h7, h8, h9, h10, h11⟩
    exact ⟨h2, h3, h4, h5, h6, h7, h8, h9, h10, h11, h1⟩
  · rintro ⟨h2, h3, h4, h5, h6, h7, h8, h9, h10, h11, h1⟩
    exact ⟨h1, h2, h3, h4, h5, h6, h7, h8, h9, h10, h11⟩

theorem noArrays_of_checks {tx : TransactionInterface}
    (h : throwFirst (sharedChecks opts txData tx) = .ok ()) : NoArrays txData := by
  unfold sharedChecks at h
  simp only [throwFirst_append] at h
  exact noArrays_iff.mp h.1.1.1.1.1

theorem chainId_of_check {x : Item} (h : txData.chainId = bigIntValue (some x))
    (hcheck : throwFirst [chainIdCheck opts txData] = .ok ()) : toBigInt x = opts.common.chainId := by
  have hfalse := throwFirst_eq_ok.mp hcheck _ List.mem_cons_self
  unfold chainIdCheck at hfalse
  rw [h] at hfalse
  have hback : toBigInt (.bytes (bigIntToBytes (toBigInt x))) = toBigInt x :=
    bytesToNumber_bigIntToBytes _
  simpa [bigIntValue, hback] using hfalse

end Inversion

section Raw

variable {opts : TxOptions} {values : List Item}

theorem raw_legacy {tx : LegacyTx} (hlen : values.length = 9)
    (h : createLegacyTxFromBytesArray opts values = .ok tx) : tx.raw = values := by
  match values, hlen with
  | [nonce, gasPrice, gasLimit, toAddress, value, data, v, r, s], _ =>
    obtain ⟨_, -, h⟩ := bind_eq_ok.mp h
    obtain ⟨_, hzero, h⟩ := bind_eq_ok.mp h
    obtain ⟨rfl, hchecks⟩ := construct_eq_ok.mp h
    have hplain := noArrays_of_checks (throwFirst_append.mp hchecks).1
    have hzero := validateNoLeadingZeroes_eq_ok.mp hzero
    simp only [List.forall_mem_cons] at hzero
    obtain ⟨z1, z2, z3, z4, z5, z6, z7, -⟩ := hzero
    simp only [LegacyTx.raw, signatureItems, List.cons_append, List.nil_append, List.cons.injEq,
      and_true]
    exact ⟨(integerItem_eq_iff z1).mpr hplain.nonce, (integerItem_eq_iff z2).mpr hplain.gasPrice,
      (integerItem_eq_iff z3).mpr hplain.gasLimit, toItem_eq hplain.toAddress rfl,
      (integerItem_eq_iff z4).mpr hplain.value, bytesItem_eq hplain.data,
      signatureItem_eq hplain.v z5, signatureItem_eq hplain.r z6, signatureItem_eq hplain.s z7⟩

theorem isArray_chainId_v {chainId v : Option Item}
    (h : throwFirst (validateNotArray [("chainId", chainId), ("v", v)]) = .ok ()) :
    isArray chainId = false ∧ isArray v = false := by
  simpa [throwFirst_eq_ok, validateNotArray, txDataKeys] using h

/-- The chain id among the values is that of the chain, if it has no zeros in front. -/
theorem chainId_eq_iff {txData : TxData} {x : Item} (hx : isArray (some x) = false)
    (h : txData.chainId = bigIntValue (some x))
    (hcheck : throwFirst [chainIdCheck opts txData] = .ok ()) :
    integerItem opts.common.chainId = x ↔ NoLeadingZero (some x) := by
  have hn := chainId_of_check h hcheck
  obtain ⟨bytes, rfl⟩ := eq_bytes_of_isArray hx
  exact noLeadingZero_iff hn

theorem raw_accessList2930 {tx : AccessList2930Tx} (hlen : values.length = 11)
    (h : createAccessList2930TxFromBytesArray opts values = .ok tx) :
    tx.raw = values ↔ NoLeadingZero values[0]? := by
  match values, hlen with
  | [chainId, nonce, gasPrice, gasLimit, toAddress, value, data, accessList, v, r, s], _ =>
    obtain ⟨_, -, h⟩ := bind_eq_ok.mp h
    obtain ⟨_, harray, h⟩ := bind_eq_ok.mp h
    obtain ⟨_, hzero, h⟩ := bind_eq_ok.mp h
    obtain ⟨rfl, hchecks⟩ := construct_eq_ok.mp h
    simp only [throwFirst_append] at hchecks
    have hplain := noArrays_of_checks hchecks.1.1
    obtain ⟨hchain, hv⟩ := isArray_chainId_v harray
    have hzero := validateNoLeadingZeroes_eq_ok.mp hzero
    simp only [List.forall_mem_cons] at hzero
    obtain ⟨z1, z2, z3, z4, z5, z6, z7, -⟩ := hzero
    simp only [AccessList2930Tx.raw, signatureItems, List.cons_append, List.nil_append,
      List.cons.injEq, and_true]
    refine Iff.trans (and_iff_left ?_) (chainId_eq_iff hchain rfl hchecks.1.2)
    exact ⟨(integerItem_eq_iff z1).mpr hplain.nonce, (integerItem_eq_iff z2).mpr hplain.gasPrice,
      (integerItem_eq_iff z3).mpr hplain.gasLimit, toItem_eq hplain.toAddress rfl,
      (integerItem_eq_iff z4).mpr hplain.value, bytesItem_eq hplain.data, rfl,
      signatureItem_bigIntValue hv z5, signatureItem_eq hplain.r z6, signatureItem_eq hplain.s z7⟩

/-- The values of a fee market transaction up to its access list: the priority fee is no key that
may hold no array. -/
theorem raw_feeMarket_iff {txData : TxData}
    {chainId nonce priorityFee fee gasLimit toAddress value data accessList : Item}
    (hdata : txData.chainId = bigIntValue (some chainId) ∧ txData.nonce = some nonce ∧
      txData.maxPriorityFeePerGas = some priorityFee ∧ txData.maxFeePerGas = some fee ∧
      txData.gasLimit = some gasLimit ∧ txData.toAddress = some toAddress ∧
      txData.value = some value ∧ txData.data = some data ∧ txData.accessList = some accessList)
    (hchain : isArray (some chainId) = false)
    (hcheck : throwFirst [chainIdCheck opts txData] = .ok ()) (hplain : NoArrays txData)
    (hzero : NoLeadingZero (some nonce) ∧ NoLeadingZero (some priorityFee) ∧
      NoLeadingZero (some fee) ∧ NoLeadingZero (some gasLimit) ∧ NoLeadingZero (some value)) :
    (FeeMarketTx.ofData opts txData).raw =
        [chainId, nonce, priorityFee, fee, gasLimit, toAddress, value, data, accessList] ↔
      NoLeadingZero (some chainId) ∧ isArray (some priorityFee) = false := by
  obtain ⟨h1, h2, h3, h4, h5, h6, h7, h8, h9⟩ := hdata
  obtain ⟨z2, z3, z4, z5, z7⟩ := hzero
  obtain ⟨p2, -, p4, p5, p6, p7, p8, -, -, -, -⟩ := hplain
  have haddress := toItem_eq p6 h6
  rw [h2] at p2
  rw [h4] at p4
  rw [h5] at p5
  rw [h7] at p7
  rw [h8] at p8
  have hnonce := (integerItem_eq_iff z2).mpr p2
  have hfee := (integerItem_eq_iff z4).mpr p4
  have hgasLimit := (integerItem_eq_iff z5).mpr p5
  have hvalue := (integerItem_eq_iff z7).mpr p7
  have hbytes := bytesItem_eq p8
  unfold FeeMarketTx.raw FeeMarketTx.ofData
  simp only [TransactionInterface.ofData, h2, h3, h4, h5, h7, h8, h9, Option.getD_some,
    List.cons.injEq, and_true] at haddress ⊢
  rw [chainId_eq_iff hchain h1 hcheck, integerItem_eq_iff z3]
  exact ⟨fun h => ⟨h.1, h.2.2.1⟩, fun h =>
    ⟨h.1, hnonce, h.2, hfee, hgasLimit, haddress, hvalue, hbytes⟩⟩

theorem signatureItems_eq {txData : TxData} {v r s : Item}
    (hdata : txData.v = bigIntValue (some v) ∧ txData.r = some r ∧ txData.s = some s)
    (hv : isArray (some v) = false) (hplain : NoArrays txData)
    (hzero : NoLeadingZero (some v) ∧ NoLeadingZero (some r) ∧ NoLeadingZero (some s)) :
    signatureItems (TransactionInterface.ofData txData) = [v, r, s] := by
  obtain ⟨h1, h2, h3⟩ := hdata
  have hr := hplain.r
  have hs := hplain.s
  rw [h2] at hr
  rw [h3] at hs
  unfold signatureItems TransactionInterface.ofData
  dsimp only
  rw [h1, h2, h3, signatureItem_bigIntValue hv hzero.1, signatureItem_eq hr hzero.2.1,
    signatureItem_eq hs hzero.2.2]

theorem append_eq_iff {raw tail tail' : List Item} (values : List Item) (h : tail = tail') :
    raw ++ tail = values ++ tail' ↔ raw = values := by
  rw [h, List.append_left_inj]

theorem append_pair_eq_iff {raw : List Item} {x y : Item} (values : List Item) (x' y' : Item) :
    raw ++ [x, y] = values ++ [x', y'] ↔ raw = values ∧ x = x' ∧ y = y' := by
  constructor
  · intro h
    obtain ⟨hraw, htail⟩ := List.append_inj' h rfl
    cases htail
    exact ⟨hraw, rfl, rfl⟩
  · rintro ⟨rfl, rfl, rfl⟩
    rfl

theorem raw_feeMarket1559 {tx : FeeMarket1559Tx} (hlen : values.length = 12)
    (h : create1559FeeMarketTxFromBytesArray opts values = .ok tx) :
    tx.raw = values ↔ NoLeadingZero values[0]? ∧ isArray values[2]? = false := by
  match values, hlen with
  | [chainId, nonce, priorityFee, fee, gasLimit, toAddress, value, data, accessList, v, r, s], _ =>
    obtain ⟨_, -, h⟩ := bind_eq_ok.mp h
    obtain ⟨_, harray, h⟩ := bind_eq_ok.mp h
    obtain ⟨_, hzero, h⟩ := bind_eq_ok.mp h
    obtain ⟨rfl, hchecks⟩ := construct_eq_ok.mp h
    simp only [throwFirst_append] at hchecks
    have hplain := noArrays_of_checks hchecks.1.1
    obtain ⟨hchain, hv⟩ := isArray_chainId_v harray
    have hzero := validateNoLeadingZeroes_eq_ok.mp hzero
    simp only [List.forall_mem_cons] at hzero
    obtain ⟨z1, z2, z3, z4, z5, z6, z7, z8, -⟩ := hzero
    have hsignature := signatureItems_eq ⟨rfl, rfl, rfl⟩ hv hplain ⟨z6, z7, z8⟩
    have hraw := raw_feeMarket_iff ⟨rfl, rfl, rfl, rfl, rfl, rfl, rfl, rfl, rfl⟩ hchain
      hchecks.1.2 hplain ⟨z1, z2, z3, z4, z5⟩
    refine Iff.trans ?_ hraw
    exact append_eq_iff [chainId, nonce, priorityFee, fee, gasLimit, toAddress, value, data,
      accessList] hsignature

theorem raw_eoaCode7702 {tx : EOACode7702Tx} (hlen : values.length = 13)
    (h : createEOACode7702TxFromBytesArray opts values = .ok tx) :
    tx.raw = values ↔ NoLeadingZero values[0]? ∧ isArray values[2]? = false := by
  match values, hlen with
  | [chainId, nonce, priorityFee, fee, gasLimit, toAddress, value, data, accessList,
      authorizationList, v, r, s], _ =>
    obtain ⟨_, -, h⟩ := bind_eq_ok.mp h
    obtain ⟨_, harray, h⟩ := bind_eq_ok.mp h
    obtain ⟨_, hzero, h⟩ := bind_eq_ok.mp h
    obtain ⟨rfl, hchecks⟩ := construct_eq_ok.mp h
    simp only [throwFirst_append] at hchecks
    have hplain := noArrays_of_checks hchecks.1.1
    obtain ⟨hchain, hv⟩ := isArray_chainId_v harray
    have hzero := validateNoLeadingZeroes_eq_ok.mp hzero
    simp only [List.forall_mem_cons] at hzero
    obtain ⟨z1, z2, z3, z4, z5, z6, z7, z8, -⟩ := hzero
    have hsignature := signatureItems_eq ⟨rfl, rfl, rfl⟩ hv hplain ⟨z6, z7, z8⟩
    have hraw := raw_feeMarket_iff ⟨rfl, rfl, rfl, rfl, rfl, rfl, rfl, rfl, rfl⟩ hchain
      hchecks.1.2 hplain ⟨z1, z2, z3, z4, z5⟩
    refine Iff.trans ?_ hraw
    unfold EOACode7702Tx.raw
    rw [List.append_assoc]
    exact append_eq_iff [chainId, nonce, priorityFee, fee, gasLimit, toAddress, value, data,
      accessList] (congrArg (authorizationList :: ·) hsignature)

theorem bytesItem_eq_iff (x : Item) : .bytes (toBytes x) = x ↔ isArray (some x) = false := by
  cases x with
  | bytes bytes => exact iff_of_true rfl rfl
  | list items => exact iff_of_false (fun h => by cases h) (fun h => by cases h)

/-- The versioned hashes among the values; an array in the place of a hash becomes bytes. -/
theorem hashesItem_eq_iff {txData : TxData} {hashes : Item}
    (hdata : txData.blobVersionedHashes = some hashes)
    (hchecks : throwFirst ((Blob4844Tx.ofData opts txData).checks opts txData) = .ok ()) :
    .list ((Blob4844Tx.ofData opts txData).blobVersionedHashes.map .bytes) = hashes ↔
      ∀ hash ∈ elements (some hashes), isArray hash = false := by
  have hfound : (Blob4844Tx.ofData opts txData).blobVersionedHashes =
      (elements (some hashes)).map inputBytes := by
    rw [← hdata]
    rfl
  cases hashes with
  | list items =>
    have hmap : ((elements (some (.list items))).map inputBytes).map Item.bytes =
        items.map fun x => .bytes (toBytes x) := by
      unfold elements
      rw [List.map_map, List.map_map]
      rfl
    rw [hfound, hmap, Item.list.injEq]
    conv_lhs => rhs; rw [← List.map_id items]
    rw [List.map_inj_left]
    simp only [id_eq, bytesItem_eq_iff, elements, List.forall_mem_map]
  | bytes bytes =>
    -- a byte string for the hashes is refused: it has none, or a number for a hash
    exfalso
    unfold Blob4844Tx.checks at hchecks
    simp only [throwFirst_append] at hchecks
    have hlengths := throwFirst_eq_ok.mp hchecks.1.2
    have hcount := throwFirst_eq_ok.mp hchecks.2
    rw [hfound] at hcount
    unfold versionedHashChecks at hlengths
    rw [hfound] at hlengths
    cases bytes with
    | nil => simp [elements] at hcount
    | cons b bytes => simp [elements, inputBytes] at hlengths

theorem raw_blob4844 {tx : Blob4844Tx} (hlen : values.length = 14)
    (h : createBlob4844TxFromBytesArray opts values = .ok tx) :
    tx.raw = values ↔ (NoLeadingZero values[0]? ∧ isArray values[2]? = false) ∧
      isArray values[9]? = false ∧ ∀ hash ∈ elements values[10]?, isArray hash = false := by
  match values, hlen with
  | [chainId, nonce, priorityFee, fee, gasLimit, toAddress, value, data, accessList, blobFee,
      hashes, v, r, s], _ =>
    obtain ⟨_, -, h⟩ := bind_eq_ok.mp h
    obtain ⟨_, -, h⟩ := bind_eq_ok.mp h
    obtain ⟨_, harray, h⟩ := bind_eq_ok.mp h
    obtain ⟨_, hzero, h⟩ := bind_eq_ok.mp h
    obtain ⟨rfl, hchecks⟩ := construct_eq_ok.mp h
    simp only [throwFirst_append] at hchecks
    have hplain := noArrays_of_checks hchecks.1.1.2
    obtain ⟨hchain, hv⟩ := isArray_chainId_v harray
    have hzero := validateNoLeadingZeroes_eq_ok.mp hzero
    simp only [List.forall_mem_cons] at hzero
    obtain ⟨z1, z2, z3, z4, z5, z6, z7, z8, z9, -⟩ := hzero
    have hsignature := signatureItems_eq ⟨rfl, rfl, rfl⟩ hv hplain ⟨z7, z8, z9⟩
    have hraw := raw_feeMarket_iff ⟨rfl, rfl, rfl, rfl, rfl, rfl, rfl, rfl, rfl⟩ hchain
      hchecks.1.2 hplain ⟨z1, z2, z3, z4, z5⟩
    have hblobFee := integerItem_eq_iff z6
    have hhashes := hashesItem_eq_iff rfl hchecks.2
    unfold Blob4844Tx.raw
    refine (append_eq_iff [chainId, nonce, priorityFee, fee, gasLimit, toAddress, value, data,
      accessList, blobFee, hashes] hsignature).trans ?_
    refine Iff.trans ?_ (and_congr hraw (and_congr hblobFee hhashes))
    exact append_pair_eq_iff [chainId, nonce, priorityFee, fee, gasLimit, toAddress, value, data,
      accessList] blobFee hashes

end Raw

section Decode

variable {opts : TxOptions} {values : List Item} {b : Bytes} {tx : Transaction}

/-- The number of values of a signed transaction. -/
def TransactionType.signedCount : TransactionType → Nat
  | .legacy => 9
  | .accessListEIP2930 => 11
  | .feeMarketEIP1559 => 12
  | .blobEIP4844 => 14
  | .eoaCodeEIP7702 => 13

/-- A string of bytes that decodes to values of a type. -/
def Decodes (type : TransactionType) (values : List Item) (b : Bytes) : Prop :=
  match type with
  | .legacy => decode b = .ok (.list values)
  | _ => ∃ payload, b = txTypeBytes type ++ payload ∧ decode payload = .ok (.list values)

/-- Values that are the only ones of their transaction, beyond what the constructors check. -/
def WireValues (type : TransactionType) (values : List Item) : Prop :=
  match type with
  | .legacy => True
  | .accessListEIP2930 => NoLeadingZero values[0]?
  | .feeMarketEIP1559 => NoLeadingZero values[0]? ∧ isArray values[2]? = false
  | .eoaCodeEIP7702 => NoLeadingZero values[0]? ∧ isArray values[2]? = false
  | .blobEIP4844 => (NoLeadingZero values[0]? ∧ isArray values[2]? = false) ∧
      isArray values[9]? = false ∧ ∀ hash ∈ elements values[10]?, isArray hash = false

/-- The transaction that the values of its type make. -/
def FromValues (opts : TxOptions) (values : List Item) : Transaction → Prop
  | .legacy tx => createLegacyTxFromBytesArray opts values = .ok tx
  | .accessList2930 tx => createAccessList2930TxFromBytesArray opts values = .ok tx
  | .feeMarket1559 tx => create1559FeeMarketTxFromBytesArray opts values = .ok tx
  | .blob4844 tx => createBlob4844TxFromBytesArray opts values = .ok tx
  | .eoaCode7702 tx => createEOACode7702TxFromBytesArray opts values = .ok tx

theorem decodeValues_eq_ok {notArray : String} :
    decodeValues b notArray = .ok values ↔ decode b = .ok (.list values) := by
  unfold decodeValues
  rcases hdecode : decode b with e | x
  · exact iff_of_false (fun h => by cases h) (fun h => by cases h)
  · cases x with
    | bytes bytes => exact iff_of_false (fun h => by cases h) (fun h => by cases h)
    | list items =>
      constructor
      · intro h
        cases h
        rfl
      · intro h
        cases h
        rfl

/-- What a typed branch of `createTxFromRLP` has found out. -/
theorem decodeValues_map_eq_ok {α : Type} {make : α → Transaction} {notArray : String}
    {create : List Item → Except String α}
    (h : (decodeValues b notArray >>= fun values => make <$> create values) = .ok tx) :
    ∃ values found, decode b = .ok (.list values) ∧ create values = .ok found ∧
      make found = tx := by
  obtain ⟨values, hvalues, h⟩ := bind_eq_ok.mp h
  cases hfound : create values with
  | error e =>
    rw [hfound] at h
    cases h
  | ok found =>
    rw [hfound] at h
    cases h
    exact ⟨values, found, decodeValues_eq_ok.mp hvalues, hfound, rfl⟩

theorem createTxFromRLP_eq_ok (h : createTxFromRLP opts b = .ok tx) :
    ∃ values, Decodes tx.type values b ∧ FromValues opts values tx := by
  have hlegacy : ∀ {data : Bytes} {notArray : String},
      (decodeValues data notArray >>= fun values =>
        Transaction.legacy <$> createLegacyTxFromBytesArray opts values) = .ok tx →
      ∃ values, Decodes tx.type values data ∧ FromValues opts values tx := by
    intro data notArray h
    obtain ⟨values, found, hdecode, hcreate, rfl⟩ := decodeValues_map_eq_ok h
    exact ⟨values, hdecode, hcreate⟩
  unfold createTxFromRLP at h
  cases b with
  | nil => exact hlegacy h
  | cons type payload =>
    dsimp only at h
    by_cases htype : type > 0x7f
    · rw [if_pos htype] at h
      exact hlegacy h
    rw [if_neg htype] at h
    by_cases h1 : type = 1
    · rw [if_pos h1] at h
      obtain ⟨values, found, hdecode, hcreate, rfl⟩ := decodeValues_map_eq_ok h
      exact ⟨values, ⟨payload, congrArg (· :: payload) h1, hdecode⟩, hcreate⟩
    rw [if_neg h1] at h
    by_cases h2 : type = 2
    · rw [if_pos h2] at h
      obtain ⟨values, found, hdecode, hcreate, rfl⟩ := decodeValues_map_eq_ok h
      exact ⟨values, ⟨payload, congrArg (· :: payload) h2, hdecode⟩, hcreate⟩
    rw [if_neg h2] at h
    by_cases h3 : type = 3
    · rw [if_pos h3] at h
      obtain ⟨-, -, h⟩ := bind_eq_ok.mp h
      obtain ⟨values, found, hdecode, hcreate, rfl⟩ := decodeValues_map_eq_ok h
      exact ⟨values, ⟨payload, congrArg (· :: payload) h3, hdecode⟩, hcreate⟩
    rw [if_neg h3] at h
    by_cases h4 : type = 4
    · rw [if_pos h4] at h
      obtain ⟨values, found, hdecode, hcreate, rfl⟩ := decodeValues_map_eq_ok h
      exact ⟨values, ⟨payload, congrArg (· :: payload) h4, hdecode⟩, hcreate⟩
    rw [if_neg h4] at h
    cases h

/-- The values are read off the bytes. -/
theorem Decodes.unique {type : TransactionType} {values' : List Item}
    (h : Decodes type values b) (h' : Decodes type values' b) : values = values' := by
  have hsame : ∀ {payload : Bytes}, decode payload = .ok (.list values) →
      decode payload = .ok (.list values') → values = values' := by
    intro payload hv hv'
    cases hv.symm.trans hv'
    rfl
  cases type with
  | legacy => exact hsame h h'
  | accessListEIP2930 | feeMarketEIP1559 | blobEIP4844 | eoaCodeEIP7702 =>
    obtain ⟨payload, rfl, h⟩ := h
    obtain ⟨payload', heq, h'⟩ := h'
    cases heq
    exact hsame h h'

theorem serialize_eq_iff_raw (hb : b.length < maxLength) (h : Decodes tx.type values b) :
    tx.serialize = b ↔ tx.raw = values := by
  cases tx with
  | legacy tx => exact encode_list_eq_iff hb h
  | accessList2930 tx | feeMarket1559 tx | blob4844 tx | eoaCode7702 tx =>
    obtain ⟨payload, rfl, h⟩ := h
    have hlen : payload.length < maxLength := by
      rw [List.length_append] at hb
      omega
    exact (List.append_right_inj _).trans (encode_list_eq_iff hlen h)

theorem raw_eq_iff (hlen : values.length = tx.type.signedCount) (h : FromValues opts values tx) :
    tx.raw = values ↔ WireValues tx.type values := by
  cases tx with
  | legacy tx => exact iff_of_true (raw_legacy hlen h) trivial
  | accessList2930 tx => exact raw_accessList2930 hlen h
  | feeMarket1559 tx => exact raw_feeMarket1559 hlen h
  | blob4844 tx => exact raw_blob4844 hlen h
  | eoaCode7702 tx => exact raw_eoaCode7702 hlen h

/-- A decoded transaction encodes to the bytes that it came from iff its values are in wire
form. -/
theorem serialize_eq_iff_wire (hb : b.length < maxLength) (h : createTxFromRLP opts b = .ok tx)
    (hvalues : Decodes tx.type values b) (hlen : values.length = tx.type.signedCount) :
    tx.serialize = b ↔ WireValues tx.type values := by
  obtain ⟨values', hdecodes, hfrom⟩ := createTxFromRLP_eq_ok h
  cases hdecodes.unique hvalues
  rw [serialize_eq_iff_raw hb hvalues, raw_eq_iff hlen hfrom]

end Decode

section RoundTrip

variable {opts : TxOptions} {txData txData' : TxData}

theorem inputBigInt_integerItem (n : Nat) : inputBigInt (some (integerItem n)) = n :=
  bytesToNumber_unpadded n

theorem noLeadingZero_integerItem (n : Nat) : NoLeadingZero (some (integerItem n)) := by
  intro bytes h
  cases h
  exact head_unpadBytes _

theorem noLeadingZero_signatureItem (value : Option Nat) :
    NoLeadingZero (some (signatureItem value)) := by
  cases value with
  | none =>
    intro bytes h
    cases h
    exact Option.some_ne_none 0 |>.symm
  | some n => exact noLeadingZero_integerItem n

/-- A part of a signature comes back from its bytes unless it is zero. -/
theorem signatureValue_signatureItem {value : Option Nat} (h : value ≠ some 0) :
    signatureValue (some (signatureItem value)) = value := by
  cases value with
  | none => rfl
  | some n =>
    have hpos : (inputBytes (some (signatureItem (some n)))).length > 0 := by
      rw [gt_iff_lt, List.length_pos_iff]
      intro hnil
      have hn := inputBigInt_integerItem n
      have hzero : inputBigInt (some (integerItem n)) = 0 := congrArg bytesToNumber hnil
      exact h (congrArg some (hn.symm.trans hzero))
    rw [signatureValue, if_pos hpos]
    exact congrArg some (inputBigInt_integerItem n)

theorem signatureValue_v (n : Nat) :
    signatureValue (bigIntValue (some (signatureItem (some n)))) = some n := by
  rw [signatureValue_bigIntValue]
  exact congrArg some (bytesToNumber_unpadded n)

theorem toAddress_ne_nil (txData : TxData) :
    (TransactionInterface.ofData txData).toAddress ≠ some [] := by
  unfold TransactionInterface.ofData
  dsimp only
  split
  · rename_i hpos
    intro h
    rw [Option.some.inj h] at hpos
    cases hpos
  · exact (Option.some_ne_none []).symm

/-- An input of the values of a transaction up to those of its type. -/
structure Reads (txData : TxData) (tx : TransactionInterface) : Prop where
  nonce : txData.nonce = some (integerItem tx.nonce)
  gasLimit : txData.gasLimit = some (integerItem tx.gasLimit)
  toAddress : txData.toAddress = some (toItem tx)
  value : txData.value = some (integerItem tx.value)
  data : txData.data = some (.bytes tx.data)
  v : signatureValue txData.v = tx.v
  r : txData.r = some (signatureItem tx.r)
  s : txData.s = some (signatureItem tx.s)

theorem Reads.ofData {tx : TransactionInterface} (h : Reads txData tx) (hto : tx.toAddress ≠ some [])
    (hr : tx.r ≠ some 0) (hs : tx.s ≠ some 0) : TransactionInterface.ofData txData = tx := by
  have haddress : (if (inputBytes (some (toItem tx))).length > 0
      then some (inputBytes (some (toItem tx))) else none) = tx.toAddress := by
    unfold toItem inputBytes
    cases haddr : tx.toAddress with
    | none => rfl
    | some address =>
      cases address with
      | nil => exact absurd haddr hto
      | cons b address => rfl
  unfold TransactionInterface.ofData
  dsimp only
  rw [h.nonce, h.gasLimit, h.toAddress, h.value, h.data, h.v, h.r, h.s, haddress,
    inputBigInt_integerItem, inputBigInt_integerItem, inputBigInt_integerItem,
    signatureValue_signatureItem hr, signatureValue_signatureItem hs]
  rfl

theorem sharedChecks_of_noArrays {tx : TransactionInterface}
    (h : throwFirst (sharedChecks opts txData tx) = .ok ()) (harrays : NoArrays txData') :
    throwFirst (sharedChecks opts txData' tx) = .ok () := by
  unfold sharedChecks at h ⊢
  simp only [throwFirst_append] at h ⊢
  exact ⟨⟨⟨⟨⟨noArrays_iff.mpr harrays, h.1.1.1.1.2⟩, h.1.1.1.2⟩, h.1.1.2⟩, h.1.2⟩, h.2⟩

theorem chainIdCheck_of_bigInt
    (h : txData.chainId = bigIntValue (some (integerItem opts.common.chainId))) :
    throwFirst [chainIdCheck opts txData] = .ok () := by
  have hback : toBigInt (.bytes (bigIntToBytes (toBigInt (integerItem opts.common.chainId)))) =
      opts.common.chainId :=
    (bytesToNumber_bigIntToBytes _).trans (bytesToNumber_unpadded _)
  rw [throwFirst_eq_ok]
  intro c hc
  rw [List.mem_singleton] at hc
  subst hc
  unfold chainIdCheck
  rw [h]
  simp [bigIntValue, hback]

theorem doubleLimit_pos : 0 < doubleLimit := by
  unfold doubleLimit
  positivity

theorem toDouble_zero : toDouble 0 = some 0 := by
  unfold toDouble
  simp only [Nat.zero_mod, Nat.zero_div, Nat.zero_mul, Nat.not_lt_zero, Nat.zero_ne_one, and_false,
    or_false, if_false, if_pos doubleLimit_pos]

theorem legacy_v_ne_zero {tx : TransactionInterface}
    (h : throwFirst (legacyVChecks opts tx) = .ok ()) : tx.v ≠ some 0 := by
  intro hv
  unfold legacyVChecks at h
  rw [hv, Option.map_some, toDouble_zero] at h
  have hcheck := throwFirst_eq_ok.mp h _ List.mem_cons_self
  cases hcheck

theorem decoded_legacy {tx : LegacyTx} (h : createLegacyTx opts txData = .ok tx)
    (hr : tx.r ≠ some 0) (hs : tx.s ≠ some 0) :
    createLegacyTxFromBytesArray opts tx.raw = .ok tx := by
  obtain ⟨hdata, hchecks⟩ := construct_eq_ok.mp h
  have hto : tx.toAddress ≠ some [] := hdata ▸ toAddress_ne_nil txData
  rw [hdata, throwFirst_append] at hchecks
  have hv : tx.v ≠ some 0 := legacy_v_ne_zero (by
    have htype := hchecks.2
    unfold LegacyTx.checks at htype
    simp only [throwFirst_append] at htype
    exact htype.1.2)
  refine bind_eq_ok.mpr ⟨(), rfl, bind_eq_ok.mpr ⟨(), ?_, ?_⟩⟩
  · rw [validateNoLeadingZeroes_eq_ok]
    simp only [List.forall_mem_cons, List.not_mem_nil, false_implies, implies_true, and_true]
    exact ⟨noLeadingZero_integerItem _, noLeadingZero_integerItem _, noLeadingZero_integerItem _,
      noLeadingZero_integerItem _, noLeadingZero_signatureItem _, noLeadingZero_signatureItem _,
      noLeadingZero_signatureItem _⟩
  · have hreads : Reads (legacyTxData tx.raw) tx.toTransactionInterface :=
      ⟨rfl, rfl, rfl, rfl, rfl, signatureValue_signatureItem hv, rfl, rfl⟩
    have hback : LegacyTx.ofData (legacyTxData tx.raw) = tx := by
      have hprice : inputBigInt (legacyTxData tx.raw).gasPrice = tx.gasPrice :=
        inputBigInt_integerItem _
      unfold LegacyTx.ofData
      rw [hreads.ofData hto hr hs, hprice]
    have harrays : NoArrays (legacyTxData tx.raw) :=
      ⟨rfl, rfl, rfl, rfl, rfl, rfl, rfl, rfl, rfl, rfl, rfl⟩
    refine construct_eq_ok.mpr ⟨hback, ?_⟩
    rw [hback, throwFirst_append]
    exact ⟨sharedChecks_of_noArrays hchecks.1 harrays, hchecks.2⟩

theorem decoded_accessList2930 {tx : AccessList2930Tx} {n : Nat}
    (h : createAccessList2930Tx opts txData = .ok tx) (hv : tx.v = some n) (hr : tx.r ≠ some 0)
    (hs : tx.s ≠ some 0) : createAccessList2930TxFromBytesArray opts tx.raw = .ok tx := by
  obtain ⟨hdata, hchecks⟩ := construct_eq_ok.mp h
  have hto : tx.toAddress ≠ some [] := hdata ▸ toAddress_ne_nil txData
  have hchain : tx.chainId = opts.common.chainId := hdata ▸ rfl
  simp only [hdata, throwFirst_append] at hchecks
  refine bind_eq_ok.mpr ⟨(), rfl, bind_eq_ok.mpr ⟨(), rfl, bind_eq_ok.mpr ⟨(), ?_, ?_⟩⟩⟩
  · rw [validateNoLeadingZeroes_eq_ok]
    simp only [List.forall_mem_cons, List.not_mem_nil, false_implies, implies_true, and_true]
    exact ⟨noLeadingZero_integerItem _, noLeadingZero_integerItem _, noLeadingZero_integerItem _,
      noLeadingZero_integerItem _, noLeadingZero_signatureItem _, noLeadingZero_signatureItem _,
      noLeadingZero_signatureItem _⟩
  · have hsign : signatureValue (accessList2930TxData tx.raw).v = tx.v := by
      rw [hv, ← signatureValue_v n, ← hv]
      rfl
    have hreads : Reads (accessList2930TxData tx.raw) tx.toTransactionInterface :=
      ⟨rfl, rfl, rfl, rfl, rfl, hsign, rfl, rfl⟩
    have hback : AccessList2930Tx.ofData opts (accessList2930TxData tx.raw) = tx := by
      have hprice : inputBigInt (accessList2930TxData tx.raw).gasPrice = tx.gasPrice :=
        inputBigInt_integerItem _
      have hlist : (accessList2930TxData tx.raw).accessList.getD (.list []) = tx.accessList := rfl
      unfold AccessList2930Tx.ofData
      rw [hreads.ofData hto hr hs, hprice, hlist, ← hchain]
    have harrays : NoArrays (accessList2930TxData tx.raw) :=
      ⟨rfl, rfl, rfl, rfl, rfl, rfl, rfl, rfl, rfl, rfl, rfl⟩
    refine construct_eq_ok.mpr ⟨hback, ?_⟩
    simp only [hback, throwFirst_append]
    exact ⟨⟨sharedChecks_of_noArrays hchecks.1.1 harrays,
      chainIdCheck_of_bigInt (hchain ▸ rfl)⟩, hchecks.2⟩

/-- An input of the values of a fee market transaction. -/
structure ReadsFeeMarket (txData : TxData) (tx : FeeMarketTx) : Prop
    extends Reads txData tx.toTransactionInterface where
  chainId : txData.chainId = bigIntValue (some (integerItem tx.chainId))
  maxPriorityFeePerGas : txData.maxPriorityFeePerGas = some (integerItem tx.maxPriorityFeePerGas)
  maxFeePerGas : txData.maxFeePerGas = some (integerItem tx.maxFeePerGas)
  accessList : txData.accessList = some tx.accessList

theorem ReadsFeeMarket.ofData_feeMarket {tx : FeeMarketTx} (h : ReadsFeeMarket txData tx)
    (hchain : tx.chainId = opts.common.chainId) (hto : tx.toAddress ≠ some [])
    (hr : tx.r ≠ some 0) (hs : tx.s ≠ some 0) : FeeMarketTx.ofData opts txData = tx := by
  unfold FeeMarketTx.ofData
  rw [h.toReads.ofData hto hr hs, h.maxPriorityFeePerGas, h.maxFeePerGas, h.accessList,
    inputBigInt_integerItem, inputBigInt_integerItem, ← hchain]
  rfl

theorem decoded_feeMarket1559 {tx : FeeMarket1559Tx} {n : Nat}
    (h : createFeeMarket1559Tx opts txData = .ok tx) (hv : tx.v = some n) (hr : tx.r ≠ some 0)
    (hs : tx.s ≠ some 0) : create1559FeeMarketTxFromBytesArray opts tx.raw = .ok tx := by
  obtain ⟨hdata, hchecks⟩ := construct_eq_ok.mp h
  have hto : tx.toAddress ≠ some [] := hdata ▸ toAddress_ne_nil txData
  have hchain : tx.chainId = opts.common.chainId := hdata ▸ rfl
  simp only [hdata, throwFirst_append] at hchecks
  refine bind_eq_ok.mpr ⟨(), rfl, bind_eq_ok.mpr ⟨(), rfl, bind_eq_ok.mpr ⟨(), ?_, ?_⟩⟩⟩
  · rw [validateNoLeadingZeroes_eq_ok]
    simp only [List.forall_mem_cons, List.not_mem_nil, false_implies, implies_true, and_true]
    exact ⟨noLeadingZero_integerItem _, noLeadingZero_integerItem _, noLeadingZero_integerItem _,
      noLeadingZero_integerItem _, noLeadingZero_integerItem _, noLeadingZero_signatureItem _,
      noLeadingZero_signatureItem _, noLeadingZero_signatureItem _⟩
  · have hsign : signatureValue (feeMarket1559TxData tx.raw).v = tx.v := by
      rw [hv, ← signatureValue_v n, ← hv]
      rfl
    have hreads : ReadsFeeMarket (feeMarket1559TxData tx.raw) tx.toFeeMarketTx :=
      ⟨⟨rfl, rfl, rfl, rfl, rfl, hsign, rfl, rfl⟩, rfl, rfl, rfl, rfl⟩
    have hback : FeeMarket1559Tx.ofData opts (feeMarket1559TxData tx.raw) = tx := by
      unfold FeeMarket1559Tx.ofData
      rw [hreads.ofData_feeMarket hchain hto hr hs]
    have harrays : NoArrays (feeMarket1559TxData tx.raw) :=
      ⟨rfl, rfl, rfl, rfl, rfl, rfl, rfl, rfl, rfl, rfl, rfl⟩
    refine construct_eq_ok.mpr ⟨hback, ?_⟩
    simp only [hback, throwFirst_append]
    exact ⟨⟨sharedChecks_of_noArrays hchecks.1.1 harrays,
      chainIdCheck_of_bigInt (hchain ▸ rfl)⟩, hchecks.2⟩

theorem feeChecks_of_noArrays {tx : FeeMarketTx}
    (h : throwFirst (tx.checks (validateNotArray txData.entries)) = .ok ())
    (harrays : NoArrays txData') :
    throwFirst (tx.checks (validateNotArray txData'.entries)) = .ok () := by
  unfold FeeMarketTx.checks at h ⊢
  simp only [throwFirst_append] at h ⊢
  exact ⟨⟨h.1.1, noArrays_iff.mpr harrays⟩, h.2⟩

theorem decoded_eoaCode7702 {tx : EOACode7702Tx} {n : Nat}
    (h : createEOACode7702Tx opts txData = .ok tx) (hv : tx.v = some n) (hr : tx.r ≠ some 0)
    (hs : tx.s ≠ some 0) : createEOACode7702TxFromBytesArray opts tx.raw = .ok tx := by
  obtain ⟨hdata, hchecks⟩ := construct_eq_ok.mp h
  have hto : tx.toAddress ≠ some [] := hdata ▸ toAddress_ne_nil txData
  have hchain : tx.chainId = opts.common.chainId := hdata ▸ rfl
  simp only [hdata, throwFirst_append] at hchecks
  refine bind_eq_ok.mpr ⟨(), rfl, bind_eq_ok.mpr ⟨(), rfl, bind_eq_ok.mpr ⟨(), ?_, ?_⟩⟩⟩
  · rw [validateNoLeadingZeroes_eq_ok]
    simp only [List.forall_mem_cons, List.not_mem_nil, false_implies, implies_true, and_true]
    exact ⟨noLeadingZero_integerItem _, noLeadingZero_integerItem _, noLeadingZero_integerItem _,
      noLeadingZero_integerItem _, noLeadingZero_integerItem _, noLeadingZero_signatureItem _,
      noLeadingZero_signatureItem _, noLeadingZero_signatureItem _⟩
  · have hsign : signatureValue (eoaCode7702TxData tx.raw).v = tx.v := by
      rw [hv, ← signatureValue_v n, ← hv]
      rfl
    have hreads : ReadsFeeMarket (eoaCode7702TxData tx.raw) tx.toFeeMarketTx :=
      ⟨⟨rfl, rfl, rfl, rfl, rfl, hsign, rfl, rfl⟩, rfl, rfl, rfl, rfl⟩
    have hback : EOACode7702Tx.ofData opts (eoaCode7702TxData tx.raw) = tx := by
      have hlist : (eoaCode7702TxData tx.raw).authorizationList.getD (.list []) =
          tx.authorizationList := rfl
      unfold EOACode7702Tx.ofData
      rw [hreads.ofData_feeMarket hchain hto hr hs, hlist]
    have harrays : NoArrays (eoaCode7702TxData tx.raw) :=
      ⟨rfl, rfl, rfl, rfl, rfl, rfl, rfl, rfl, rfl, rfl, rfl⟩
    refine construct_eq_ok.mpr ⟨hback, ?_⟩
    simp only [hback, throwFirst_append]
    refine ⟨⟨sharedChecks_of_noArrays hchecks.1.1 harrays,
      chainIdCheck_of_bigInt (hchain ▸ rfl)⟩, ?_⟩
    have htype := hchecks.2
    unfold EOACode7702Tx.checks at htype ⊢
    simp only [throwFirst_append] at htype ⊢
    exact ⟨⟨htype.1.1, feeChecks_of_noArrays htype.1.2 harrays⟩, htype.2⟩

/-- A blob transaction without its network wrapper, which has an encoding of its own. -/
def Blob4844Tx.canonical (tx : Blob4844Tx) : Blob4844Tx :=
  { tx with networkWrapperVersion := none, blobs := none, kzgCommitments := none, kzgProofs := none }

theorem checks_canonical {tx : Blob4844Tx} (h : throwFirst (tx.checks opts txData) = .ok ())
    (harrays : NoArrays txData') : throwFirst (tx.canonical.checks opts txData') = .ok () := by
  unfold Blob4844Tx.checks at h ⊢
  simp only [throwFirst_append] at h ⊢
  refine ⟨⟨⟨⟨h.1.1.1.1, feeChecks_of_noArrays h.1.1.1.2 harrays⟩, h.1.1.2⟩, h.1.2⟩, ?_⟩
  have hlast := throwFirst_eq_ok.mp h.2
  rw [throwFirst_eq_ok]
  simp only [List.forall_mem_cons] at hlast ⊢
  exact ⟨hlast.1, hlast.2.1, hlast.2.2.1, hlast.2.2.2.1, rfl, rfl, rfl, fun _ h => by cases h⟩

theorem decoded_blob4844 {tx : Blob4844Tx} {n : Nat} (h : createBlob4844Tx opts txData = .ok tx)
    (hv : tx.v = some n) (hr : tx.r ≠ some 0) (hs : tx.s ≠ some 0) :
    createBlob4844TxFromBytesArray opts tx.raw = .ok tx.canonical := by
  obtain ⟨_, hkzg, h⟩ := bind_eq_ok.mp h
  obtain ⟨hdata, hchecks⟩ := construct_eq_ok.mp h
  have hto : tx.toAddress ≠ some [] := hdata ▸ toAddress_ne_nil txData
  have hchain : tx.chainId = opts.common.chainId := hdata ▸ rfl
  simp only [hdata, throwFirst_append] at hchecks
  refine bind_eq_ok.mpr ⟨(), hkzg, bind_eq_ok.mpr ⟨(), rfl, bind_eq_ok.mpr ⟨(), rfl,
    bind_eq_ok.mpr ⟨(), ?_, ?_⟩⟩⟩⟩
  · rw [validateNoLeadingZeroes_eq_ok]
    simp only [List.forall_mem_cons, List.not_mem_nil, false_implies, implies_true, and_true]
    exact ⟨noLeadingZero_integerItem _, noLeadingZero_integerItem _, noLeadingZero_integerItem _,
      noLeadingZero_integerItem _, noLeadingZero_integerItem _, noLeadingZero_integerItem _,
      noLeadingZero_signatureItem _, noLeadingZero_signatureItem _, noLeadingZero_signatureItem _⟩
  · have hsign : signatureValue (blob4844TxData tx.raw).v = tx.v := by
      rw [hv, ← signatureValue_v n, ← hv]
      rfl
    have hreads : ReadsFeeMarket (blob4844TxData tx.raw) tx.toFeeMarketTx :=
      ⟨⟨rfl, rfl, rfl, rfl, rfl, hsign, rfl, rfl⟩, rfl, rfl, rfl, rfl⟩
    have hback : Blob4844Tx.ofData opts (blob4844TxData tx.raw) = tx.canonical := by
      have hfee : inputBigInt (blob4844TxData tx.raw).maxFeePerBlobGas = tx.maxFeePerBlobGas :=
        inputBigInt_integerItem _
      have hhashes : (elements (blob4844TxData tx.raw).blobVersionedHashes).map inputBytes =
          tx.blobVersionedHashes := by
        change (((tx.blobVersionedHashes.map Item.bytes).map some).map inputBytes) = _
        rw [List.map_map, List.map_map]
        exact List.map_id _
      unfold Blob4844Tx.ofData
      dsimp only
      rw [hreads.ofData_feeMarket hchain hto hr hs, hfee, hhashes]
      rfl
    have harrays : NoArrays (blob4844TxData tx.raw) :=
      ⟨rfl, rfl, rfl, rfl, rfl, rfl, rfl, rfl, rfl, rfl, rfl⟩
    refine construct_eq_ok.mpr ⟨hback, ?_⟩
    simp only [hback, throwFirst_append]
    exact ⟨⟨⟨rfl, sharedChecks_of_noArrays hchecks.1.1.2 harrays⟩,
      chainIdCheck_of_bigInt (hchain ▸ rfl)⟩, checks_canonical hchecks.2 harrays⟩

/-- The input that a transaction is made of, by the constructor of its type. -/
def Created (opts : TxOptions) (txData : TxData) : Transaction → Prop
  | .legacy tx => createLegacyTx opts txData = .ok tx
  | .accessList2930 tx => createAccessList2930Tx opts txData = .ok tx
  | .feeMarket1559 tx => createFeeMarket1559Tx opts txData = .ok tx
  | .blob4844 tx => createBlob4844Tx opts txData = .ok tx
  | .eoaCode7702 tx => createEOACode7702Tx opts txData = .ok tx

/-- The transaction itself, without the network wrapper that one with blobs may carry. -/
def Transaction.canonical : Transaction → Transaction
  | .blob4844 tx => .blob4844 tx.canonical
  | tx => tx

/-- The encoding of a list begins beyond the bytes of types. -/
theorem encode_list_cons {items : List Item} (h : (encode (.list items)).length < maxLength) :
    ∃ type payload, encode (.list items) = type :: payload ∧ type > 0x7f := by
  have hdecode := decode_encode (.list items) h
  cases hencode : encode (.list items) with
  | nil => exact absurd hencode (encode_ne_nil _)
  | cons type payload =>
    refine ⟨type, payload, rfl, ?_⟩
    by_contra hsmall
    have hlt : type < 128 := by
      rw [UInt8.lt_iff_toNat_lt]
      rw [gt_iff_lt, UInt8.lt_iff_toNat_lt] at hsmall
      simp only [UInt8.reduceToNat] at hsmall ⊢
      omega
    rw [hencode, decode, List.length_cons, if_neg (Nat.succ_ne_zero _), Nat.mul_succ,
      decodeFirst_small _ _ _ hlt] at hdecode
    simp only [bind, Except.bind] at hdecode
    split at hdecode <;> cases hdecode

theorem decodeValues_encode {α : Type} {make : α → Transaction} {notArray : String} {found : α}
    {create : List Item → Except String α} {raw : List Item}
    (hlen : (encode (.list raw)).length < maxLength) (h : create raw = .ok found) :
    (decodeValues (encode (.list raw)) notArray >>= fun values => make <$> create values) =
      .ok (make found) := by
  rw [bind_eq_ok]
  refine ⟨raw, decodeValues_eq_ok.mpr (decode_encode _ hlen), ?_⟩
  rw [h]
  rfl

/-- A signed transaction is decoded from its encoding. -/
theorem createTxFromRLP_serialize {tx : Transaction} (h : Created opts txData tx)
    (hsigned : tx.base.isSigned) (hr : tx.base.r ≠ some 0) (hs : tx.base.s ≠ some 0)
    (hlen : tx.serialize.length < maxLength) :
    createTxFromRLP opts tx.serialize = .ok tx.canonical := by
  obtain ⟨n, hv⟩ : ∃ n, tx.base.v = some n := by
    unfold TransactionInterface.isSigned at hsigned
    rw [Bool.and_eq_true, Bool.and_eq_true] at hsigned
    exact Option.isSome_iff_exists.mp hsigned.1.1
  cases tx with
  | legacy tx =>
    obtain ⟨type, payload, hencode, htype⟩ := encode_list_cons hlen
    have hbranch : (decodeValues (encode (.list (Transaction.legacy tx).raw))
        "Invalid serialized tx input. Must be array" >>= fun values =>
          Transaction.legacy <$> createLegacyTxFromBytesArray opts values) = .ok (.legacy tx) :=
      decodeValues_encode hlen (decoded_legacy h hr hs)
    change createTxFromRLP opts (encode (.list (Transaction.legacy tx).raw)) = .ok (.legacy tx)
    rw [hencode] at hbranch ⊢
    exact (if_pos htype).trans hbranch
  | accessList2930 tx =>
    exact decodeValues_encode (Nat.lt_of_succ_lt hlen) (decoded_accessList2930 h hv hr hs)
  | feeMarket1559 tx =>
    exact decodeValues_encode (Nat.lt_of_succ_lt hlen) (decoded_feeMarket1559 h hv hr hs)
  | blob4844 tx =>
    obtain ⟨u, hkzg, -⟩ := bind_eq_ok.mp h
    refine bind_eq_ok.mpr ⟨u, hkzg, ?_⟩
    exact decodeValues_encode (Nat.lt_of_succ_lt hlen) (decoded_blob4844 h hv hr hs)
  | eoaCode7702 tx =>
    exact decodeValues_encode (Nat.lt_of_succ_lt hlen) (decoded_eoaCode7702 h hv hr hs)

/-- Every signed transaction is decoded from its encoding, and a decoded transaction encodes to what
was received iff that was in wire form. -/
theorem transaction_wireForm (opts : TxOptions) :
    (∀ txData tx, Created opts txData tx → tx.base.isSigned → tx.base.r ≠ some 0 →
      tx.base.s ≠ some 0 → tx.serialize.length < maxLength →
        createTxFromRLP opts tx.serialize = .ok tx.canonical) ∧
    ∀ b tx values, b.length < maxLength → createTxFromRLP opts b = .ok tx →
      Decodes tx.type values b → values.length = tx.type.signedCount →
        (tx.serialize = b ↔ WireValues tx.type values) :=
  ⟨fun _ _ h hsigned hr hs hlen => createTxFromRLP_serialize h hsigned hr hs hlen,
    fun _ _ _ hb h hvalues hlen => serialize_eq_iff_wire hb h hvalues hlen⟩

end RoundTrip

section Samples

def sampleOptions : TxOptions where
  common :=
    { chainId := 1, hardfork := .cancun, eips := [], kzg := true
      param := fun name =>
        if name = "blobCommitmentVersionKzg" then 1
        else if name = "maxBlobGasPerBlock" then 786432
        else if name = "blobGasPerBlob" then 131072
        else 49152 }
  allowUnlimitedInitCodeSize := false

/-- The values of a signed transaction with a fee market, with the given chain id and priority
fee. -/
def sampleValues (chainId priorityFee : Item) : List Item :=
  [chainId, .bytes [], priorityFee, .bytes [2], .bytes [0x52, 0x08],
    .bytes (List.replicate 20 0x11), .bytes [5], .bytes [], .list [], .bytes [1], .bytes [7],
    .bytes [9]]

def sampleBytes (chainId priorityFee : Item) : Bytes :=
  2 :: encode (.list (sampleValues chainId priorityFee))

def sampleData : TxData :=
  feeMarket1559TxData (sampleValues (.bytes [1]) (.bytes [1]))

/-- A transaction and its encoding. -/
theorem transaction_wireForm_sample :
    createTxFromRLP sampleOptions
        (Transaction.feeMarket1559 (.ofData sampleOptions sampleData)).serialize =
      .ok (.feeMarket1559 (.ofData sampleOptions sampleData)) ∧
    ((Transaction.feeMarket1559 (.ofData sampleOptions sampleData)).serialize =
        sampleBytes (.bytes [1]) (.bytes [1]) ↔
      WireValues .feeMarketEIP1559 (sampleValues (.bytes [1]) (.bytes [1]))) := by
  have hcreated : Created sampleOptions sampleData
      (.feeMarket1559 (.ofData sampleOptions sampleData)) :=
    construct_eq_ok.mpr ⟨rfl, by decide +kernel⟩
  have hdecoded : createTxFromRLP sampleOptions (sampleBytes (.bytes [1]) (.bytes [1])) =
      .ok (.feeMarket1559 (.ofData sampleOptions sampleData)) := by
    decide +kernel
  have hvalues : Decodes .feeMarketEIP1559 (sampleValues (.bytes [1]) (.bytes [1]))
      (sampleBytes (.bytes [1]) (.bytes [1])) :=
    ⟨encode (.list (sampleValues (.bytes [1]) (.bytes [1]))), rfl,
      decode_encode _ (by decide +kernel)⟩
  exact ⟨(transaction_wireForm sampleOptions).1 sampleData _ hcreated (by decide +kernel)
      (by decide +kernel) (by decide +kernel) (by decide +kernel),
    (transaction_wireForm sampleOptions).2 _ _ _ (by decide +kernel) hdecoded hvalues rfl⟩

/-- A chain id with a zero in front, and an empty list for the priority fee zero, are lost. -/
theorem not_transaction_wireForm :
    (∃ tx, createTxFromRLP sampleOptions (sampleBytes (.bytes [0, 1]) (.bytes [1])) = .ok tx ∧
      tx.serialize ≠ sampleBytes (.bytes [0, 1]) (.bytes [1])) ∧
    ∃ tx, createTxFromRLP sampleOptions (sampleBytes (.bytes [1]) (.list [])) = .ok tx ∧
      tx.serialize ≠ sampleBytes (.bytes [1]) (.list []) := by
  exact ⟨⟨.feeMarket1559 (.ofData sampleOptions sampleData), by decide +kernel, by decide +kernel⟩,
    .feeMarket1559 (.ofData sampleOptions (feeMarket1559TxData (sampleValues (.bytes [1]) (.list [])))),
    by decide +kernel, by decide +kernel⟩

end Samples

end EthereumJS.Tx
