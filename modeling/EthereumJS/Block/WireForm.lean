import EthereumJS.Block.Header

/-! # The wire form of block headers

A header is found again in its encoding, and which encodings are those of the header that they
are decoded to.
-/

namespace EthereumJS.Block

open RLP

section Fields

/-- The positions of the integers among the values. -/
def integerFields : List Nat := [7, 8, 9, 10, 11, 15, 17, 18, 22]

/-- A value that is the only one of its meaning: bytes, without a leading zero in an integer. -/
def WireField (i : Nat) : Item → Prop
  | .bytes bytes => i ∈ integerFields → bytes.head? ≠ some 0
  | .list _ => False

/-- What a value becomes in the header and back. -/
def wireValue (i : Nat) (value : Item) : Item :=
  .bytes (if i ∈ integerFields then bigIntToUnpaddedBytes (toBigInt value) else toBytes value)

theorem wireValue_eq_iff (i : Nat) (value : Item) : wireValue i value = value ↔ WireField i value := by
  cases value with
  | list items => exact iff_of_false (fun h => by cases h) id
  | bytes bytes =>
    unfold wireValue WireField toBigInt toBytes
    by_cases hi : i ∈ integerFields
    · rw [if_pos hi, Item.bytes.injEq, unpadded_bytesToNumber_iff]
      exact ⟨fun h _ => h, fun h => h hi⟩
    · rw [if_neg hi]
      exact iff_of_true rfl fun h => absurd h hi

theorem map_wireValue_eq_iff (values : List Item) :
    (values.zipIdx.map fun v => wireValue v.2 v.1) = values ↔
      ∀ i value, values[i]? = some value → WireField i value := by
  rw [List.ext_getElem?_iff]
  refine forall_congr' fun i => ?_
  rw [List.getElem?_map, List.getElem?_zipIdx]
  cases values[i]? with
  | none => simp
  | some value =>
    simp only [Option.map_some, Option.some.injEq, Nat.zero_add, wireValue_eq_iff]
    exact ⟨fun h w heq => heq ▸ h, fun h => h value rfl⟩

variable (common : Common)

/-- The number of values of a header. -/
def Common.fieldCount : Nat :=
  15 + (if common.isActivatedEIP 1559 then 1 else 0) + (if common.isActivatedEIP 4895 then 1 else 0) +
    (if common.isActivatedEIP 4844 then 2 else 0) + (if common.isActivatedEIP 4788 then 1 else 0) +
    (if common.isActivatedEIP 7685 then 1 else 0) + (if common.isActivatedEIP 7928 then 1 else 0) +
    (if common.isActivatedEIP 7843 then 1 else 0)

/-- The EIPs with header fields come in the order of the fields. -/
theorem isActivatedEIP_cases (hardfork : Hardfork) :
    [1559, 4895, 4844, 4788, 7685, 7928, 7843].map hardfork.isActivatedEIP ∈
      [[false, false, false, false, false, false, false],
        [true, false, false, false, false, false, false],
        [true, true, false, false, false, false, false],
        [true, true, true, true, false, false, false],
        [true, true, true, true, true, false, false],
        [true, true, true, true, true, true, true]] := by
  cases hardfork <;> decide

theorem length_raw (header : BlockHeader) : (header.raw common).length = common.fieldCount := by
  unfold BlockHeader.raw Common.fieldCount
  simp only [List.length_append, apply_ite List.length, List.length_cons, List.length_nil]

/-- A string of bytes that has one value for each field of the header and no other form. -/
def WireForm (b : Bytes) : Prop :=
  ∃ values, decode b = .ok (.list values) ∧ values.length = common.fieldCount ∧
    ∀ i value, values[i]? = some value → WireField i value

end Fields

section Decode

variable {common : Common} {data : HeaderData} {values : List Item} {header : BlockHeader}

theorem createBlockHeader_eq_ok :
    createBlockHeader common data = .ok header ↔
      BlockHeader.ofData common data = header ∧ throwFirst (headerChecks common header) = .ok () := by
  unfold createBlockHeader
  dsimp only
  cases hchecks : throwFirst (headerChecks common (BlockHeader.ofData common data)) with
  | error e =>
    refine iff_of_false (fun h => by cases h) ?_
    rintro ⟨rfl, hok⟩
    rw [hchecks] at hok
    cases hok
  | ok u =>
    constructor
    · intro h
      cases h
      exact ⟨rfl, hchecks⟩
    · rintro ⟨rfl, -⟩
      rfl

theorem fromBytesArray_eq_ok (h : createBlockHeaderFromBytesArray common values = .ok header) :
    ∃ data, valuesArrayToHeaderData values = .ok data ∧ BlockHeader.ofData common data = header := by
  unfold createBlockHeaderFromBytesArray at h
  cases hdata : valuesArrayToHeaderData values with
  | error e =>
    rw [hdata] at h
    cases h
  | ok data =>
    rw [hdata] at h
    cases hheader : createBlockHeader common data with
    | error e =>
      simp only [bind, Except.bind, hheader] at h
      cases h
    | ok found =>
      simp only [bind, Except.bind, hheader] at h
      split at h
      · cases h
      · cases h
        exact ⟨data, rfl, (createBlockHeader_eq_ok.mp hheader).1⟩

/-- The values of a header that was made of as many values. -/
theorem raw_ofData (hdata : valuesArrayToHeaderData values = .ok data)
    (hlen : values.length = common.fieldCount) :
    (BlockHeader.ofData common data).raw common =
      values.zipIdx.map fun v => wireValue v.2 v.1 := by
  have hforks := isActivatedEIP_cases common.hardfork
  simp only [List.map_cons, List.map_nil, List.mem_cons, List.cons.injEq, List.not_mem_nil,
    or_false, and_true] at hforks
  unfold Common.fieldCount at hlen
  unfold BlockHeader.raw BlockHeader.ofData
  unfold Common.isActivatedEIP at hlen ⊢
  rcases hforks with h | h | h | h | h | h <;> obtain ⟨h1, h2, h3, h4, h5, h6, h7⟩ := h <;>
    simp only [h1, h2, h3, h4, h5, h6, h7, if_true, Bool.false_eq_true, if_false] at hlen ⊢
  · match values, hlen with
    | [_, _, _, _, _, _, _, _, _, _, _, _, _, _, _], _ =>
      cases hdata
      rfl
  · match values, hlen with
    | [_, _, _, _, _, _, _, _, _, _, _, _, _, _, _, _], _ =>
      cases hdata
      rfl
  · match values, hlen with
    | [_, _, _, _, _, _, _, _, _, _, _, _, _, _, _, _, _], _ =>
      cases hdata
      rfl
  · match values, hlen with
    | [_, _, _, _, _, _, _, _, _, _, _, _, _, _, _, _, _, _, _, _], _ =>
      cases hdata
      rfl
  · match values, hlen with
    | [_, _, _, _, _, _, _, _, _, _, _, _, _, _, _, _, _, _, _, _, _], _ =>
      cases hdata
      rfl
  · match values, hlen with
    | [_, _, _, _, _, _, _, _, _, _, _, _, _, _, _, _, _, _, _, _, _, _, _], _ =>
      cases hdata
      rfl

/-- A decoded header encodes to the bytes that it came from iff they are in wire form. -/
theorem serialize_eq_iff {b : Bytes} (hb : b.length < maxLength)
    (h : createBlockHeaderFromRLP common b = .ok header) :
    header.serialize common = b ↔ WireForm common b := by
  unfold createBlockHeaderFromRLP at h
  split at h
  · cases h
  · cases h
  · rename_i values hdecode
    obtain ⟨data, hdata, rfl⟩ := fromBytesArray_eq_ok h
    have hraw : (BlockHeader.ofData common data).serialize common = b ↔
        (BlockHeader.ofData common data).raw common = values := encode_list_eq_iff hb hdecode
    rw [hraw]
    constructor
    · intro heq
      have hlen : values.length = common.fieldCount := heq ▸ length_raw common _
      rw [raw_ofData hdata hlen, map_wireValue_eq_iff] at heq
      exact ⟨values, hdecode, hlen, heq⟩
    · rintro ⟨values', hdecode', hlen, hfields⟩
      cases hdecode.symm.trans hdecode'
      rw [raw_ofData hdata hlen, map_wireValue_eq_iff]
      exact hfields

end Decode

section RoundTrip

variable {common : Common} {data : HeaderData} {header : BlockHeader}

/-- The fields of the hardfork are there iff their EIP is active. -/
theorem fields_of_created (h : createBlockHeader common data = .ok header) :
    header.baseFeePerGas.isSome = common.isActivatedEIP 1559 ∧
      header.withdrawalsRoot.isSome = common.isActivatedEIP 4895 ∧
      header.blobGasUsed.isSome = common.isActivatedEIP 4844 ∧
      header.excessBlobGas.isSome = common.isActivatedEIP 4844 ∧
      header.parentBeaconBlockRoot.isSome = common.isActivatedEIP 4788 ∧
      header.requestsHash.isSome = common.isActivatedEIP 7685 ∧
      header.blockAccessListHash.isSome = common.isActivatedEIP 7928 ∧
      header.slotNumber.isSome = common.isActivatedEIP 7843 := by
  obtain ⟨hheader, hchecks⟩ := createBlockHeader_eq_ok.mp h
  have hfork : ∀ c ∈ forkFieldChecks common header, c.1 = false := fun c hc =>
    throwFirst_eq_ok.mp hchecks c (by
      unfold headerChecks
      simp only [List.mem_append]
      exact .inl (.inl (.inl (.inr hc))))
  simp only [forkFieldChecks, List.mem_cons, List.not_mem_nil, or_false, forall_eq_or_imp,
    forall_eq] at hfork
  obtain ⟨h1, h2, h3, h4, h5, h6, h7, h8⟩ := hfork
  -- an inactive field is refused, an active one has its default
  have hfield : ∀ {α : Type} {eip : Nat} {field given : Option α} {value : α},
      (!common.isActivatedEIP eip && field.isSome) = false →
      field = (given <|> if common.isActivatedEIP eip then some value else none) →
      field.isSome = common.isActivatedEIP eip := by
    intro α eip field given value hcheck heq
    cases hactive : common.isActivatedEIP eip with
    | false => simpa [hactive] using hcheck
    | true =>
      rw [heq, hactive]
      cases given <;> rfl
  subst hheader
  exact ⟨hfield h1 rfl, hfield h2 rfl, hfield h3 rfl, hfield h4 rfl, hfield h5 rfl, hfield h6 rfl,
    hfield h7 rfl, hfield h8 rfl⟩

/-- The values of a header give its fields again. -/
theorem ofData_raw (h : createBlockHeader common data = .ok header) :
    ∃ data', valuesArrayToHeaderData (header.raw common) = .ok data' ∧
      BlockHeader.ofData common data' = header ∧
      ∀ values, throwFirst (missingFieldChecks common values data' header) = .ok () := by
  obtain ⟨f1, f2, f3, f4, f5, f6, f7, f8⟩ := fields_of_created h
  have hforks := isActivatedEIP_cases common.hardfork
  simp only [List.map_cons, List.map_nil, List.mem_cons, List.cons.injEq, List.not_mem_nil,
    or_false, and_true] at hforks
  have hint : ∀ n : Nat, toBigInt (.bytes (bigIntToUnpaddedBytes n)) = n := bytesToNumber_unpadded
  obtain ⟨a0, a1, a2, a3, a4, a5, a6, a7, a8, a9, a10, a11, a12, a13, a14, b1, b2, b3, b4, b5, b6,
    b7, b8⟩ := header
  unfold Common.isActivatedEIP at f1 f2 f3 f4 f5 f6 f7 f8
  unfold BlockHeader.raw BlockHeader.ofData missingFieldChecks Common.isActivatedEIP
  rcases hforks with h | h | h | h | h | h <;> obtain ⟨h1, h2, h3, h4, h5, h6, h7⟩ := h <;>
    simp only [h1, h2, h3, h4, h5, h6, h7, Option.isSome_iff_exists, Option.isSome_eq_false_iff,
      Option.isNone_iff_eq_none] at f1 f2 f3 f4 f5 f6 f7 f8 <;>
    simp only [h1, h2, h3, h4, h5, h6, h7, if_true, Bool.false_eq_true, if_false]
  · subst f1 f2 f3 f4 f5 f6 f7 f8
    simp only [List.append_nil]
    refine ⟨_, rfl, ?_, fun values => rfl⟩
    simp [toBytes, hint]
  · obtain ⟨c1, rfl⟩ := f1
    subst f2 f3 f4 f5 f6 f7 f8
    simp only [List.cons_append, List.nil_append, List.append_nil, Option.getD_some]
    refine ⟨_, rfl, ?_, fun values => rfl⟩
    simp [toBytes, hint]
  · obtain ⟨c1, rfl⟩ := f1
    obtain ⟨c2, rfl⟩ := f2
    subst f3 f4 f5 f6 f7 f8
    simp only [List.cons_append, List.nil_append, List.append_nil, Option.getD_some]
    refine ⟨_, rfl, ?_, fun values => rfl⟩
    simp [toBytes, hint]
  · obtain ⟨c1, rfl⟩ := f1
    obtain ⟨c2, rfl⟩ := f2
    obtain ⟨c3, rfl⟩ := f3
    obtain ⟨c4, rfl⟩ := f4
    obtain ⟨c5, rfl⟩ := f5
    subst f6 f7 f8
    simp only [List.cons_append, List.nil_append, List.append_nil, Option.getD_some]
    refine ⟨_, rfl, ?_, fun values => rfl⟩
    simp [toBytes, hint]
  · obtain ⟨c1, rfl⟩ := f1
    obtain ⟨c2, rfl⟩ := f2
    obtain ⟨c3, rfl⟩ := f3
    obtain ⟨c4, rfl⟩ := f4
    obtain ⟨c5, rfl⟩ := f5
    obtain ⟨c6, rfl⟩ := f6
    subst f7 f8
    simp only [List.cons_append, List.nil_append, List.append_nil, Option.getD_some]
    refine ⟨_, rfl, ?_, fun values => rfl⟩
    simp [toBytes, hint]
  · obtain ⟨c1, rfl⟩ := f1
    obtain ⟨c2, rfl⟩ := f2
    obtain ⟨c3, rfl⟩ := f3
    obtain ⟨c4, rfl⟩ := f4
    obtain ⟨c5, rfl⟩ := f5
    obtain ⟨c6, rfl⟩ := f6
    obtain ⟨c7, rfl⟩ := f7
    obtain ⟨c8, rfl⟩ := f8
    simp only [List.cons_append, List.nil_append, Option.getD_some]
    refine ⟨_, rfl, ?_, fun values => rfl⟩
    simp [toBytes, hint]

/-- A header of the constructor is decoded from its encoding. -/
theorem createBlockHeaderFromRLP_serialize (h : createBlockHeader common data = .ok header)
    (hlen : (header.serialize common).length < maxLength) :
    createBlockHeaderFromRLP common (header.serialize common) = .ok header := by
  obtain ⟨data', hdata, hheader, hmissing⟩ := ofData_raw h
  have hdecode : decode (header.serialize common) = .ok (.list (header.raw common)) :=
    decode_encode _ hlen
  have hcreated : createBlockHeader common data' = .ok header :=
    createBlockHeader_eq_ok.mpr ⟨hheader, (createBlockHeader_eq_ok.mp h).2⟩
  unfold createBlockHeaderFromRLP
  rw [hdecode]
  dsimp only
  unfold createBlockHeaderFromBytesArray
  simp only [bind, Except.bind, hdata, hcreated, hmissing]
  rfl

/-- Every header is decoded from its encoding, and a decoded header encodes to what was received
iff that was in wire form. -/
theorem header_wireForm (common : Common) :
    (∀ data header, createBlockHeader common data = .ok header →
      (header.serialize common).length < maxLength →
        createBlockHeaderFromRLP common (header.serialize common) = .ok header) ∧
    ∀ b header, b.length < maxLength → createBlockHeaderFromRLP common b = .ok header →
      (header.serialize common = b ↔ WireForm common b) :=
  ⟨fun _ _ h hlen => createBlockHeaderFromRLP_serialize h hlen,
    fun _ _ hb h => serialize_eq_iff hb h⟩

end RoundTrip

section Samples

/-- A chain before its first fork with header fields. -/
def sampleCommon : Common where
  hardfork := .berlin
  algorithm := .ethash
  epoch := 30000
  hardforkBlock := fun _ => none
  initialBaseFee := 1000000000
  maxExtraDataSize := 32

def noData : HeaderData :=
  { parentHash := none, uncleHash := none, coinbase := none, stateRoot := none
    transactionsTrie := none, receiptTrie := none, logsBloom := none, difficulty := none
    number := none, gasLimit := none, gasUsed := none, timestamp := none, extraData := none
    mixHash := none, nonce := none, baseFeePerGas := none, withdrawalsRoot := none
    blobGasUsed := none, excessBlobGas := none, parentBeaconBlockRoot := none
    requestsHash := none, blockAccessListHash := none, slotNumber := none }

/-- The values of a header whose number is written with given bytes. -/
def sampleValues (number : Bytes) : List Item :=
  ((BlockHeader.ofData sampleCommon noData).raw sampleCommon).set 8 (.bytes number)

theorem decodes_sample {number : Bytes}
    (h : (createBlockHeaderFromRLP sampleCommon
      (encode (.list (sampleValues number)))).toOption.isSome) :
    ∃ header, createBlockHeaderFromRLP sampleCommon (encode (.list (sampleValues number))) =
      .ok header := by
  cases hdecode : createBlockHeaderFromRLP sampleCommon (encode (.list (sampleValues number))) with
  | ok header => exact ⟨header, rfl⟩
  | error e =>
    rw [hdecode] at h
    cases h

/-- The default header and one with the number 1. -/
theorem header_wireForm_sample :
    createBlockHeaderFromRLP sampleCommon
        ((BlockHeader.ofData sampleCommon noData).serialize sampleCommon) =
      .ok (BlockHeader.ofData sampleCommon noData) ∧
    ∃ header, createBlockHeaderFromRLP sampleCommon (encode (.list (sampleValues [1]))) =
        .ok header ∧
      (header.serialize sampleCommon = encode (.list (sampleValues [1])) ↔
        WireForm sampleCommon (encode (.list (sampleValues [1])))) := by
  obtain ⟨header, hdecode⟩ := @decodes_sample [1] (by decide +kernel)
  refine ⟨(header_wireForm sampleCommon).1 noData _
      (createBlockHeader_eq_ok.mpr ⟨rfl, by rfl⟩) (by decide +kernel), header, hdecode, ?_⟩
  exact (header_wireForm sampleCommon).2 _ header (by decide +kernel) hdecode

/-- A number with a leading zero is accepted and lost. -/
theorem not_header_wireForm : ∃ (b : Bytes) (header : BlockHeader),
    createBlockHeaderFromRLP sampleCommon b = .ok header ∧ header.serialize sampleCommon ≠ b := by
  obtain ⟨header, hdecode⟩ := @decodes_sample [0, 1] (by decide +kernel)
  refine ⟨_, header, hdecode, fun heq => ?_⟩
  have hlost : ((createBlockHeaderFromRLP sampleCommon
      (encode (.list (sampleValues [0, 1])))).map fun header =>
        decide (header.serialize sampleCommon = encode (.list (sampleValues [0, 1])))).toOption =
      some false := by
    decide +kernel
  rw [hdecode] at hlost
  exact of_decide_eq_false (Option.some.inj hlost) heq

end Samples

end EthereumJS.Block
