import EthereumJS.Util.Bal

/-! # The order of the slots in a block access list

Slots are sorted by their bytes without the leading zeros, which is the order of the numbers as
long as no shorter slot comes after a longer one.
-/

namespace EthereumJS

open RLP Ordered

section Numbers

theorem bytesToBigInt_cons (b : UInt8) (bytes : Bytes) :
    bytesToBigInt (b :: bytes) = b.toNat * 256 ^ bytes.length + bytesToBigInt bytes := by
  rw [bytesToBigInt, bytesToNumber, List.foldl_cons, bytesToNumber_foldl]
  simp [bytesToBigInt]

theorem bytesToBigInt_lt (bytes : Bytes) : bytesToBigInt bytes < 256 ^ bytes.length := by
  induction bytes with
  | nil => simp [bytesToBigInt, bytesToNumber]
  | cons b bytes ih =>
    have hb := b.toNat_lt
    rw [bytesToBigInt_cons, List.length_cons, Nat.pow_succ]
    calc b.toNat * 256 ^ bytes.length + bytesToBigInt bytes
        < b.toNat * 256 ^ bytes.length + 256 ^ bytes.length := by omega
      _ = (b.toNat + 1) * 256 ^ bytes.length := by ring
      _ ≤ 256 ^ bytes.length * 256 := by
        rw [Nat.mul_comm]
        exact Nat.mul_le_mul_left _ (by omega)

/-- Byte strings of one length are in the order of their numbers. -/
theorem bytesToBigInt_lt_of_compare : ∀ {a b : Bytes}, a.length = b.length →
    compareLexicographicHexOrBytes a b = .lt → bytesToBigInt a < bytesToBigInt b
  | [], [], _, h => by simp [compareLists] at h
  | [], _ :: _, hlength, _ => by simp at hlength
  | _ :: _, [], hlength, _ => by simp at hlength
  | x :: a, y :: b, hlength, h => by
    have hlength : a.length = b.length := by simpa using hlength
    have ha := bytesToBigInt_lt a
    rw [bytesToBigInt_cons, bytesToBigInt_cons, ← hlength]
    simp only [compareLexicographicHexOrBytes, compareLists] at h
    split_ifs at h with hlt hgt
    · calc x.toNat * 256 ^ a.length + bytesToBigInt a
          < (x.toNat + 1) * 256 ^ a.length := by rw [Nat.add_mul]; omega
        _ ≤ y.toNat * 256 ^ a.length := Nat.mul_le_mul_right _ hlt
        _ ≤ _ := Nat.le_add_right _ _
    · have hxy : x.toNat = y.toNat := by omega
      have hrest := bytesToBigInt_lt_of_compare hlength h
      rw [hxy]
      omega

end Numbers

section Strings

theorem hexChar_lt (m n : Nibble) : (hexChar m).toNat < (hexChar n).toNat ↔ m.val < n.val := by
  revert m n
  decide

theorem hexDigit_hexChar (n : Nibble) : hexDigit (hexChar n) = some n := by
  revert n
  decide

theorem hexChar_injective : Function.Injective hexChar := by
  intro m n h
  have hdigit := congrArg hexDigit h
  rw [hexDigit_hexChar, hexDigit_hexChar] at hdigit
  exact Option.some.inj hdigit

theorem bytesToHex_injective : Function.Injective bytesToHex := by
  intro a b h
  rw [bytesToHex, bytesToHex, List.cons.injEq, List.cons.injEq] at h
  exact bytesToNibbles_injective (hexChar_injective.list_map h.2.2)

/-- Hex strings are in the order of the bytes they stand for. -/
theorem localeCompare_bytesToHex (a b : Bytes) :
    localeCompare (bytesToHex a) (bytesToHex b) = compareLexicographicHexOrBytes a b := by
  have hdigits : ∀ a b : Bytes,
      compareStrings ((bytesToNibbles a).map hexChar) ((bytesToNibbles b).map hexChar) =
        compareLexicographicHexOrBytes a b := by
    intro a
    induction a with
    | nil =>
      intro b
      cases b <;> simp [bytesToNibbles, compareLists]
    | cons x a ih =>
      intro b
      cases b with
      | nil => simp [bytesToNibbles, compareLists]
      | cons y b =>
        have hx : x.toNat = (highNibble x).val * 16 + (lowNibble x).val := by
          simp only [highNibble, lowNibble]
          omega
        have hy : y.toNat = (highNibble y).val * 16 + (lowNibble y).val := by
          simp only [highNibble, lowNibble]
          omega
        have hxlow := (lowNibble x).isLt
        have hylow := (lowNibble y).isLt
        have hrest := ih b
        simp only [compareStrings, compareLexicographicHexOrBytes] at hrest
        simp only [bytesToNibbles, List.map_cons, compareStrings, compareLexicographicHexOrBytes,
          compareLists, hexChar_lt, hrest]
        split_ifs <;> first | rfl | omega
  simp [localeCompare, compareStrings, bytesToHex, compareLists, hdigits]

theorem mapM_hexDigit_hexChar (nibbles : Nibbles) :
    (nibbles.map hexChar).mapM hexDigit = some nibbles := by
  induction nibbles with
  | nil => rfl
  | cons n nibbles ih => simp [List.mapM_cons, hexDigit_hexChar, ih]

theorem hexToBigInt_bytesToHex {bytes : Bytes} (h : bytes ≠ []) :
    hexToBigInt (bytesToHex bytes) = .ok (bytesToBigInt bytes) := by
  rw [bytesToHex, hexToBigInt, mapM_hexDigit_hexChar]
  cases bytes with
  | nil => exact absurd rfl h
  | cons b bytes =>
    have hpacked := foldl_packedBytes (bytesToNibbles (b :: bytes)) (by simp) 0
    rw [packedBytes_bytesToNibbles] at hpacked
    rw [bytesToNibbles]
    exact congrArg Except.ok hpacked.symm

theorem slotNumber_bytesToHex (key : Bytes) :
    BlockLevelAccessList.slotNumber (bytesToHex key) = bytesToBigInt key := by
  rw [BlockLevelAccessList.slotNumber]
  cases key with
  | nil => rfl
  | cons b key => rw [hexToBigInt_bytesToHex (List.cons_ne_nil b key)]

end Strings

/-- Of two keys of different length, the one that comes first is the smaller number. -/
def InNumericOrder (keys : List Bytes) : Prop :=
  ∀ a ∈ keys, ∀ b ∈ keys, a.length < b.length →
    compareLexicographicHexOrBytes a b = .lt ∧ bytesToBigInt a < bytesToBigInt b ∨
    compareLexicographicHexOrBytes a b = .gt ∧ bytesToBigInt b < bytesToBigInt a

instance (keys : List Bytes) : Decidable (InNumericOrder keys) :=
  inferInstanceAs (Decidable (∀ a ∈ keys, ∀ b ∈ keys, _ → _))

theorem antisymm_lexicographic :
    Std.Antisymm fun a b : Bytes => compareLexicographicHexOrBytes a b ≠ .gt :=
  antisymm_compareLists fun _ _ h => UInt8.toNat_inj.mp h

/-- The keys sorted by their bytes ascend strictly as numbers. -/
theorem strict_iff_inNumericOrder {keys : List Bytes} :
    ((keys.insertionSort fun a b => compareLexicographicHexOrBytes a b ≠ .gt).map
      bytesToBigInt).Pairwise (· < ·) ↔ keys.Nodup ∧ InNumericOrder keys := by
  have hantisymm := antisymm_lexicographic
  have hlt : ∀ {a b : Bytes}, a ≠ b → compareLexicographicHexOrBytes a b ≠ .gt →
      compareLexicographicHexOrBytes a b = .lt := by
    intro a b hab hle
    cases hcompare : compareLexicographicHexOrBytes a b with
    | lt => rfl
    | gt => exact absurd hcompare hle
    | eq =>
      refine absurd (hantisymm.antisymm a b hle ?_) hab
      rw [ne_eq, compareLists_eq_gt, ← compareLists_eq_lt]
      simp [hcompare]
  rw [strict_map_insertionSort]
  refine and_congr_right fun _ => ⟨?_, ?_⟩
  · intro hagree a ha b hb hlength
    have hab : a ≠ b := by
      rintro rfl
      exact lt_irrefl _ hlength
    by_cases hle : compareLexicographicHexOrBytes a b = .gt
    · refine .inr ⟨hle, hagree b hb a ha hab.symm ?_⟩
      rw [compareLists_ne_gt]
      exact (compareLists_eq_gt a b).mp hle |>.le
    · exact .inl ⟨hlt hab hle, hagree a ha b hb hab hle⟩
  · intro horder a ha b hb hab hle
    obtain hlength | hlength | hlength := lt_trichotomy a.length b.length
    · obtain ⟨-, hnumber⟩ | ⟨hgt, -⟩ := horder a ha b hb hlength
      · exact hnumber
      · exact absurd hgt hle
    · exact bytesToBigInt_lt_of_compare hlength (hlt hab hle)
    · obtain ⟨hba, -⟩ | ⟨-, hnumber⟩ := horder b hb a ha hlength
      · refine absurd ?_ hle
        rw [compareLists_eq_gt, ← compareLists_eq_lt]
        exact hba
      · exact hnumber

/-- Of two keys without leading zeros the shorter one is the smaller number, so that it has to
come first. -/
theorem inNumericOrder_stripped {keys : List Bytes} (hstripped : ∀ key ∈ keys, key.head? ≠ some 0) :
    InNumericOrder keys ↔ ∀ a ∈ keys, ∀ b ∈ keys, a.length < b.length →
      compareLexicographicHexOrBytes a b = .lt := by
  have hnumber : ∀ a ∈ keys, ∀ b ∈ keys, a.length < b.length →
      bytesToBigInt a < bytesToBigInt b := by
    intro a _ b hb hlength
    have hhead := hstripped b hb
    cases b with
    | nil => simp at hlength
    | cons y b =>
      have hy : y.toNat ≠ 0 := fun hzero => hhead (by
        rw [List.head?_cons, UInt8.toNat_inj.mp (hzero.trans UInt8.toNat_zero.symm)])
      rw [List.length_cons, Nat.lt_succ_iff] at hlength
      rw [bytesToBigInt_cons]
      calc bytesToBigInt a < 256 ^ a.length := bytesToBigInt_lt a
        _ ≤ 256 ^ b.length := Nat.pow_le_pow_right (by decide) hlength
        _ ≤ y.toNat * 256 ^ b.length := Nat.le_mul_of_pos_left _ (by omega)
        _ ≤ _ := Nat.le_add_right _ _
  refine forall₂_congr fun a ha => forall₂_congr fun b hb => imp_congr_right fun hlength => ?_
  have hless := hnumber a ha b hb hlength
  constructor
  · rintro (⟨hlt, -⟩ | ⟨-, hgreater⟩)
    · exact hlt
    · exact absurd hless hgreater.asymm
  · exact fun hlt => .inl ⟨hlt, hless⟩

namespace Access

/-- The slots without leading zeros are known by their bytes and in the order of the numbers. -/
def SlotsInOrder (access : Access) : Prop :=
  InNumericOrder access.slotKeys ∧
    (access.readKeys.map unpadBytes).Nodup ∧ InNumericOrder (access.readKeys.map unpadBytes)

instance (access : Access) : Decidable access.SlotsInOrder :=
  inferInstanceAs (Decidable (_ ∧ _ ∧ _))

end Access

namespace BlockLevelAccessList

section Account

variable (address : Bytes) (access : Access)

def rawSlots (account : RawAccountChanges) : List Nat × List Nat :=
  (account.storageChanges.map fun change => bytesToBigInt change.1,
    account.storageReads.map bytesToBigInt)

def jsonSlots (account : JSONAccountChanges) : List Nat × List Nat :=
  (account.storageChanges.map fun change => slotNumber change.slot,
    account.storageReads.map slotNumber)

theorem rawSlots_changes : (rawSlots (rawAccount address access)).1 =
    (access.slotKeys.insertionSort fun a b => compareLexicographicHexOrBytes a b ≠ .gt).map
      bytesToBigInt := by
  rw [Access.slotKeys, ← List.map_insertionSort (fun a b : Bytes × List IndexedChange =>
    compareLexicographicHexOrBytes a.1 b.1 ≠ .gt) _ Prod.fst _ fun _ _ _ _ => Iff.rfl]
  simp only [rawSlots, rawAccount, List.map_map]
  refine List.map_congr_left fun entry _ => ?_
  exact bytesToNumber_unpadBytes entry.1

/-- The changes stand in the same order in both forms. -/
theorem jsonSlots_changes : (jsonSlots (jsonAccount address access)).1 =
    (rawSlots (rawAccount address access)).1 := by
  simp only [jsonSlots, jsonAccount, rawSlots, rawAccount, List.map_map, localeCompare_bytesToHex]
  refine List.map_congr_left fun entry _ => ?_
  simp only [Function.comp_apply, slotNumber_bytesToHex]
  exact (bytesToNumber_unpadBytes entry.1).symm

theorem jsonSlots_reads : (jsonSlots (jsonAccount address access)).2 =
    (access.readKeys.map bytesToBigInt).insertionSort (· ≤ ·) := by
  simp only [jsonSlots, jsonAccount]
  rw [List.map_insertionSort _ (· ≤ ·) slotNumber _ fun _ _ _ _ => Iff.rfl, List.map_map]
  congr 1
  exact List.map_congr_left fun key _ => slotNumber_bytesToHex key

theorem slots_account :
    ((rawSlots (rawAccount address access)).1.Pairwise (· < ·) ∧
      (rawSlots (rawAccount address access)).2.Pairwise (· < ·) ∧
      jsonSlots (jsonAccount address access) = rawSlots (rawAccount address access)) ↔
    access.SlotsInOrder := by
  have hchanges : (rawSlots (rawAccount address access)).1.Pairwise (· < ·) ↔
      InNumericOrder access.slotKeys := by
    rw [rawSlots_changes, strict_iff_inNumericOrder]
    exact and_iff_right access.storageChanges.nodup
  have hreads : (rawSlots (rawAccount address access)).2.Pairwise (· < ·) ↔
      (access.readKeys.map unpadBytes).Nodup ∧ InNumericOrder (access.readKeys.map unpadBytes) :=
    strict_iff_inNumericOrder
  rw [Access.SlotsInOrder, ← hchanges, ← hreads]
  constructor
  · rintro ⟨hstrictChanges, hstrictReads, -⟩
    exact ⟨hstrictChanges, hstrictReads⟩
  · rintro ⟨hstrictChanges, hstrictReads⟩
    refine ⟨hstrictChanges, hstrictReads, Prod.ext (jsonSlots_changes address access) ?_⟩
    -- both are the same numbers in ascending order
    rw [jsonSlots_reads]
    refine List.Perm.eq_of_pairwise ?_ (List.pairwise_insertionSort (· ≤ ·) _)
      (hstrictReads.imp le_of_lt) ?_
    · exact fun a b _ _ => le_antisymm
    · refine (List.perm_insertionSort _ _).trans ?_
      have hnumbers : access.readKeys.map bytesToBigInt =
          (access.readKeys.map unpadBytes).map bytesToBigInt := by
        rw [List.map_map]
        exact List.map_congr_left fun key _ => (bytesToNumber_unpadBytes key).symm
      rw [hnumbers]
      exact ((List.perm_insertionSort _ _).map _).symm

end Account

/-- The slots of each account ascend strictly in the raw form and the JSON form lists them in the
same order, if and only if their bytes without leading zeros are in the order of the numbers. -/
theorem slots_in_order (self : BlockLevelAccessList) :
    ((∀ account ∈ self.raw, (rawSlots account).1.Pairwise (· < ·) ∧
      (rawSlots account).2.Pairwise (· < ·)) ∧
      self.toJSON.map jsonSlots = self.raw.map rawSlots) ↔
    ∀ entry ∈ self.accesses.entries, entry.2.SlotsInOrder := by
  simp only [raw, toJSON, List.map_map, List.forall_mem_map]
  rw [List.map_inj_left]
  simp only [List.mem_insertionSort, Function.comp_apply]
  rw [← forall₂_and]
  refine forall₂_congr fun entry _ => ?_
  rw [and_assoc]
  exact slots_account entry.1 entry.2

/-- The slots 2 and 256. -/
def twoSlots : BlockLevelAccessList :=
  (createBlockLevelAccessList.addStorageRead [1] [2]).addStorageRead [1] [1, 0]

theorem not_slots_in_order :
    ¬ ∀ self : BlockLevelAccessList, (∀ account ∈ self.raw,
      (rawSlots account).1.Pairwise (· < ·) ∧ (rawSlots account).2.Pairwise (· < ·)) ∧
      self.toJSON.map jsonSlots = self.raw.map rawSlots := by
  intro h
  have horder := (h twoSlots).1
  revert horder
  decide

end BlockLevelAccessList

end EthereumJS
