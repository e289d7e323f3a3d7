import Mathlib.Data.List.DropRight
import EthereumJS.Util.BalCodec
import EthereumJS.Util.BalFinal
import EthereumJS.Util.BalOrder

/-! # Round trips of block access lists

A list that is read back from its RLP or JSON form has the accesses in another order and the values
without leading zeros, and the form that it is serialized to depends on neither.
-/

namespace EthereumJS

open RLP Ordered

section Keys

variable {β γ : Type}

/-- Entries in the order of their keys. -/
abbrev sortKeys (entries : List (Bytes × β)) : List (Bytes × β) :=
  entries.insertionSort fun a b => compareLexicographicHexOrBytes a.1 b.1 ≠ .gt

instance total_keys :
    Std.Total fun a b : Bytes × β => compareLexicographicHexOrBytes a.1 b.1 ≠ .gt :=
  ⟨fun a b => total_compareLists.total a.1 b.1⟩

instance trans_keys :
    IsTrans (Bytes × β) fun a b => compareLexicographicHexOrBytes a.1 b.1 ≠ .gt :=
  ⟨fun a b c => trans_compareLists.trans a.1 b.1 c.1⟩

theorem sortKeys_map (f : Bytes × β → γ) (entries : List (Bytes × β)) :
    sortKeys (entries.map fun entry => (entry.1, f entry)) =
      (sortKeys entries).map fun entry => (entry.1, f entry) :=
  (List.map_insertionSort _ _ (fun entry : Bytes × β => (entry.1, f entry)) entries
    fun _ _ _ _ => Iff.rfl).symm

theorem sortKeys_perm {entries entries' : List (Bytes × β)} (h : entries.Perm entries')
    (hnodup : (entries.map Prod.fst).Nodup) : sortKeys entries = sortKeys entries' := by
  refine insertionSort_eq_of_perm h fun a ha b hb hab hba => ?_
  exact List.inj_on_of_nodup_map hnodup ha hb (antisymm_lexicographic.antisymm _ _ hab hba)

end Keys

namespace BlockLevelAccessList

section Normal

instance total_indices {α : Type} : Std.Total fun a b : Nat × α => a.1 ≤ b.1 :=
  ⟨fun a b => le_total a.1 b.1⟩

instance trans_indices {α : Type} : IsTrans (Nat × α) fun a b => a.1 ≤ b.1 :=
  ⟨fun _ _ _ => le_trans⟩

theorem sortIndices_sortIndices (changes : List IndexedChange) :
    sortIndices (sortIndices changes) = sortIndices changes :=
  List.Pairwise.insertionSort_eq (List.pairwise_insertionSort _ changes)

/-- Changes in the order of their indices and with the numbers as RLP has them. -/
def normalChanges (changes : List IndexedChange) : List IndexedChange :=
  (sortIndices changes).map fun change => (change.1, unpadBytes change.2)

theorem unpadBytes_unpadBytes (bytes : Bytes) : unpadBytes (unpadBytes bytes) = unpadBytes bytes :=
  List.dropWhile_idempotent _ bytes

theorem sortIndices_map (f : Bytes → Bytes) (changes : List IndexedChange) :
    sortIndices (changes.map fun change => (change.1, f change.2)) =
      (sortIndices changes).map fun change => (change.1, f change.2) :=
  (List.map_insertionSort _ _ (fun change : IndexedChange => (change.1, f change.2)) changes
    fun _ _ _ _ => Iff.rfl).symm

theorem normalChanges_sortIndices (changes : List IndexedChange) :
    normalChanges (sortIndices changes) = normalChanges changes := by
  rw [normalChanges, sortIndices_sortIndices, normalChanges]

theorem normalChanges_normalChanges (changes : List IndexedChange) :
    normalChanges (normalChanges changes) = normalChanges changes := by
  rw [normalChanges, normalChanges, sortIndices_map, sortIndices_sortIndices, List.map_map]
  refine List.map_congr_left fun change _ => ?_
  simp only [Function.comp_apply, unpadBytes_unpadBytes]

theorem keys_sortIndices (changes : List IndexedChange) :
    ((sortIndices changes).map Prod.fst).Perm (changes.map Prod.fst) :=
  (List.perm_insertionSort _ changes).map Prod.fst

theorem keys_normalChanges (changes : List IndexedChange) :
    ((normalChanges changes).map Prod.fst).Perm (changes.map Prod.fst) := by
  rw [normalChanges, List.map_map]
  exact keys_sortIndices changes

/-- An account as `raw` gives it. -/
def normal (account : RawAccountChanges) : RawAccountChanges :=
  { address := account.address
    storageChanges := (sortKeys account.storageChanges).map fun entry =>
      (unpadBytes entry.1, normalChanges entry.2)
    storageReads := (account.storageReads.map unpadBytes).insertionSort fun a b =>
      compareLexicographicHexOrBytes a b ≠ .gt
    balanceChanges := normalChanges account.balanceChanges
    nonceChanges := normalChanges account.nonceChanges
    codeChanges := sortIndices account.codeChanges }

/-- An account as the list has it. -/
def stored (address : Bytes) (access : Access) : RawAccountChanges :=
  { address := address
    storageChanges := access.storageChanges.entries
    storageReads := access.readKeys
    balanceChanges := access.balanceChanges.entries
    nonceChanges := access.nonceChanges.entries
    codeChanges := access.codeChanges }

theorem rawAccount_eq (address : Bytes) (access : Access) :
    rawAccount address access = normal (stored address access) := rfl

theorem raw_eq (self : BlockLevelAccessList) :
    self.raw = (sortKeys self.accesses.entries).map fun entry => rawAccount entry.1 entry.2 := by
  have hcompare : ∀ a b : Bytes, compareStrings (bytesToHex a) (bytesToHex b) =
      compareLexicographicHexOrBytes a b := localeCompare_bytesToHex
  simp only [raw, hcompare]

end Normal

section Load

/-- No slot and no index is there twice. -/
structure Distinct (account : RawAccountChanges) : Prop where
  slots : (account.storageChanges.map Prod.fst).Nodup
  reads : account.storageReads.Nodup
  balances : (account.balanceChanges.map Prod.fst).Nodup
  nonces : (account.nonceChanges.map Prod.fst).Nodup

theorem entries_pushChanges (items : List (Bytes × List IndexedChange)) :
    ∀ map : InsertionMap Bytes (List IndexedChange),
      (map.entries.map Prod.fst ++ items.map Prod.fst).Nodup →
        (pushChanges map items).entries = map.entries ++ items := by
  induction items with
  | nil => exact fun map _ => (List.append_nil _).symm
  | cons item items ih =>
    intro map hnodup
    have hnew : item.1 ∉ map.entries.map Prod.fst := fun hmem =>
      (List.nodup_append.mp hnodup).2.2 _ hmem _ List.mem_cons_self rfl
    have hnone : map.get item.1 = none := lookupEntry_eq_none hnew
    have hset : (map.set item.1 ((map.get item.1).getD [] ++ item.2)).entries =
        map.entries ++ [item] := by
      rw [hnone]
      exact insertEntry_of_not_mem hnew
    have hrest := ih (map.set item.1 ((map.get item.1).getD [] ++ item.2)) (by
      rw [hset]
      simpa using hnodup)
    rw [hset, List.append_assoc, List.singleton_append] at hrest
    exact hrest

theorem entries_setChanges {changes : List IndexedChange} (h : (changes.map Prod.fst).Nodup) :
    (setChanges .empty changes).entries = changes := by
  have hentries := InsertionMap.entries_foldl_set Prod.fst Prod.snd changes
    (.empty : InsertionMap Nat Bytes) h
  exact hentries.trans (List.map_id' changes)

/-- A new access has what was loaded in the order in which it was. -/
theorem stored_loadAccess {account : RawAccountChanges} (h : Distinct account) :
    stored account.address (loadAccess .empty account) = account := by
  have hreads := InsertionMap.entries_foldl_set (fun slot => slot) (fun _ => ())
    account.storageReads (.empty : InsertionMap Bytes Unit)
    (by rw [List.map_id']; exact h.reads)
  have hkeys : (loadAccess .empty account).readKeys = account.storageReads := by
    refine (congrArg (List.map Prod.fst) hreads).trans ?_
    exact (List.map_map ..).trans (List.map_id' _)
  have hslots := entries_pushChanges account.storageChanges .empty h.slots
  cases account
  simp only [stored, RawAccountChanges.mk.injEq]
  exact ⟨trivial, hslots, hkeys, entries_setChanges h.balances, entries_setChanges h.nonces, rfl⟩

theorem entries_load (accounts : List RawAccountChanges) : ∀ self : BlockLevelAccessList,
    (self.accesses.entries.map Prod.fst ++ accounts.map RawAccountChanges.address).Nodup →
      (self.load accounts).accesses.entries = self.accesses.entries ++
        accounts.map fun account => (account.address, loadAccess .empty account) := by
  induction accounts with
  | nil => exact fun self _ => (List.append_nil _).symm
  | cons account accounts ih =>
    intro self hnodup
    have hnew : account.address ∉ self.accesses.entries.map Prod.fst := fun hmem =>
      (List.nodup_append.mp hnodup).2.2 _ hmem _ List.mem_cons_self rfl
    have hnone : self.accesses.get account.address = none := lookupEntry_eq_none hnew
    have hset : (self.modifyAccess account.address fun access =>
        loadAccess access account).accesses.entries =
          self.accesses.entries ++ [(account.address, loadAccess .empty account)] := by
      rw [modifyAccess, hnone]
      exact insertEntry_of_not_mem hnew
    have hrest := ih (self.modifyAccess account.address fun access => loadAccess access account)
      (by
        rw [hset]
        simpa using hnodup)
    rw [hset, List.append_assoc, List.singleton_append] at hrest
    exact hrest

/-- A list that is made of the accounts of another one, in any order, has its raw form, if each of
the accounts has the normal form of the account that it stands for. -/
theorem raw_load {self : BlockLevelAccessList} {entries : List (Bytes × Access)}
    (hperm : entries.Perm self.accesses.entries) {f : Bytes × Access → RawAccountChanges}
    (haddress : ∀ entry, (f entry).address = entry.1)
    (hdistinct : ∀ entry ∈ entries, Distinct (f entry))
    (hnormal : ∀ entry ∈ entries, normal (f entry) = rawAccount entry.1 entry.2) :
    (createBlockLevelAccessList.load (entries.map f)).raw = self.raw := by
  have hnodup : (entries.map Prod.fst).Nodup :=
    (hperm.map Prod.fst).nodup_iff.mpr self.accesses.nodup
  have hkeys : (entries.map f).map RawAccountChanges.address = entries.map Prod.fst := by
    rw [List.map_map]
    exact List.map_congr_left fun entry _ => haddress entry
  have hloaded : (createBlockLevelAccessList.load (entries.map f)).accesses.entries =
      entries.map fun entry => (entry.1, loadAccess .empty (f entry)) := by
    rw [entries_load _ _ (hkeys ▸ hnodup), List.map_map]
    refine List.map_congr_left fun entry _ => ?_
    rw [Function.comp_apply, haddress]
  rw [raw_eq, raw_eq, hloaded, sortKeys_map, List.map_map, sortKeys_perm hperm.symm self.accesses.nodup]
  refine List.map_congr_left fun entry hentry => ?_
  have hmem : entry ∈ entries := (List.mem_insertionSort _).mp hentry
  have hstored := stored_loadAccess (hdistinct entry hmem)
  rw [haddress] at hstored
  rw [Function.comp_apply, rawAccount_eq, hstored, hnormal entry hmem]

end Load

section Reordered

/-- An account with its slots in order and its changes as `g` gives them. -/
def reordered (g : List IndexedChange → List IndexedChange) (reads : List Bytes)
    (codeChanges : List IndexedChange) (entry : Bytes × Access) : RawAccountChanges :=
  { address := entry.1
    storageChanges := (sortKeys entry.2.storageChanges.entries).map fun slot => (slot.1, g slot.2)
    storageReads := reads
    balanceChanges := g entry.2.balanceChanges.entries
    nonceChanges := g entry.2.nonceChanges.entries
    codeChanges := codeChanges }

variable {g : List IndexedChange → List IndexedChange} {reads : List Bytes}
  {codeChanges : List IndexedChange} {entry : Bytes × Access}

theorem distinct_reordered (hg : ∀ changes, ((g changes).map Prod.fst).Perm (changes.map Prod.fst))
    (hreads : reads.Perm entry.2.readKeys) : Distinct (reordered g reads codeChanges entry) where
  slots := by
    rw [reordered, List.map_map]
    exact ((List.perm_insertionSort _ _).map Prod.fst).nodup_iff.mpr entry.2.storageChanges.nodup
  reads := hreads.nodup_iff.mpr entry.2.storageReads.nodup
  balances := (hg _).nodup_iff.mpr entry.2.balanceChanges.nodup
  nonces := (hg _).nodup_iff.mpr entry.2.nonceChanges.nodup

theorem normal_reordered (hg : ∀ changes, normalChanges (g changes) = normalChanges changes)
    (hreads : reads.Perm entry.2.readKeys)
    (hcode : sortIndices codeChanges = sortIndices entry.2.codeChanges) :
    normal (reordered g reads codeChanges entry) = rawAccount entry.1 entry.2 := by
  have hsorted : sortKeys (sortKeys entry.2.storageChanges.entries) =
      sortKeys entry.2.storageChanges.entries :=
    List.Pairwise.insertionSort_eq (List.pairwise_insertionSort _ _)
  rw [rawAccount_eq]
  simp only [normal, reordered, stored, RawAccountChanges.mk.injEq, hg, hcode, true_and, and_true]
  constructor
  · rw [sortKeys_map (fun slot => g slot.2), hsorted, List.map_map]
    refine List.map_congr_left fun slot _ => ?_
    rw [Function.comp_apply, hg]
  · refine insertionSort_eq_of_perm (hreads.map unpadBytes) fun a _ b _ => ?_
    exact antisymm_lexicographic.antisymm a b

end Reordered

section OfRLP

/-- The index is a safe integer. -/
def SafeIndex (index : Nat) : Prop := index < 2 ^ 53

theorem bytesToInt_unpadded {index : Nat} (h : SafeIndex index) :
    bytesToInt (bigIntToUnpaddedBytes index) = .ok index := by
  rw [bytesToInt, bytesToBigInt, bytesToNumber_unpadded]
  exact if_neg (not_le.mpr h)

theorem changesOfItem_changesItem {changes : List IndexedChange}
    (h : ∀ change ∈ changes, SafeIndex change.1) :
    changesOfItem (changesItem changes) = .ok changes := by
  have hchanges := mapM_map_eq_ok (f := indexedChangeOf) (h := id)
    (g := fun change => .list [.bytes (bigIntToUnpaddedBytes change.1), .bytes change.2])
    fun change (hchange : change ∈ changes) => by
      rw [indexedChangeOf, bytesOf, bytesOf]
      show (bytesToInt _ >>= _) = _
      rw [bytesToInt_unpadded (h change hchange)]
      rfl
  rw [List.map_id] at hchanges
  exact hchanges

/-- All indices of the account are safe integers. -/
structure SafeAccount (account : RawAccountChanges) : Prop where
  slots : ∀ slot ∈ account.storageChanges, ∀ change ∈ slot.2, SafeIndex change.1
  balances : ∀ change ∈ account.balanceChanges, SafeIndex change.1
  nonces : ∀ change ∈ account.nonceChanges, SafeIndex change.1
  codes : ∀ change ∈ account.codeChanges, SafeIndex change.1

theorem accountOfItem_item {account : RawAccountChanges} (h : SafeAccount account) :
    accountOfItem account.item = .ok account := by
  have hslots := mapM_map_eq_ok (f := slotChangesOf) (h := id)
    (g := fun slot => .list [.bytes slot.1, changesItem slot.2])
    fun slot (hslot : slot ∈ account.storageChanges) => by
      rw [slotChangesOf, bytesOf, changesOfItem_changesItem (h.slots slot hslot)]
      rfl
  have hreads := mapM_map_eq_ok (f := bytesOf) (g := Item.bytes) (h := id)
    fun slot (_ : slot ∈ account.storageReads) => rfl
  rw [List.map_id] at hslots hreads
  rw [RawAccountChanges.item, accountOfItem]
  simp only [bytesOf, itemsOf, bind, Except.bind, hslots, hreads,
    changesOfItem_changesItem h.balances, changesOfItem_changesItem h.nonces,
    changesOfItem_changesItem h.codes]

end OfRLP

section OfJSON

theorem bytesOfHex_bytesToHex (bytes : Bytes) : bytesOfHex (bytesToHex bytes) = .ok bytes := by
  have heven : padToEven (bytesToNibbles bytes) = bytesToNibbles bytes := by
    rw [padToEven, if_neg (by simp)]
  rw [bytesOfHex, bytesToHex, hexToBytes, mapM_hexDigit_hexChar]
  dsimp only
  rw [heven, packedBytes_bytesToNibbles]
  rfl

theorem parseIndex_indexToHex (index : Nat) : parseIndex (indexToHex index) = .ok index := by
  have hne : bigIntToBytes index ≠ [] := by
    intro hnil
    have hvalue := bytesToNumber_bigIntToBytes index
    rw [hnil] at hvalue
    subst hvalue
    revert hnil
    decide
  rw [parseIndex, indexToHex, hexToBigInt_bytesToHex hne, bytesToBigInt,
    bytesToNumber_bigIntToBytes]
  rfl

theorem indexedChangeOfJSON_change (change : IndexedChange) :
    indexedChangeOfJSON (indexToHex change.1, bytesToHex change.2) = .ok change := by
  rw [indexedChangeOfJSON, parseIndex_indexToHex, bytesOfHex_bytesToHex]
  rfl

/-- An account as `toJSON` has it, with bytes for its hex strings. -/
def jsonOrdered (entry : Bytes × Access) : RawAccountChanges :=
  reordered sortIndices
    (entry.2.readKeys.insertionSort fun a b => bytesToBigInt a ≤ bytesToBigInt b)
    entry.2.codeChanges entry

theorem jsonAccount_reads (access : Access) :
    ((access.readKeys.map bytesToHex).insertionSort fun a b => slotNumber a ≤ slotNumber b) =
      (access.readKeys.insertionSort fun a b => bytesToBigInt a ≤ bytesToBigInt b).map
        bytesToHex := by
  refine (List.map_insertionSort _ _ bytesToHex _ fun a _ b _ => ?_).symm
  rw [slotNumber_bytesToHex, slotNumber_bytesToHex]

/-- The slot changes as `toJSON` has them. -/
def jsonSlot (slot : Bytes × List IndexedChange) : JSONSlotChanges :=
  { slot := bytesToHex slot.1
    slotChanges := (sortIndices slot.2).map fun change =>
      { blockAccessIndex := indexToHex change.1, postValue := bytesToHex change.2 } }

theorem slotChangesOfJSON_jsonSlot (slot : Bytes × List IndexedChange) :
    slotChangesOfJSON (jsonSlot slot) = .ok (slot.1, sortIndices slot.2) := by
  have hchanges := @mapM_map_eq_ok _ _ _ _
    (fun change : JSONStorageChange =>
      indexedChangeOfJSON (change.blockAccessIndex, change.postValue)) (sortIndices slot.2)
    (fun change : IndexedChange =>
      (⟨indexToHex change.1, bytesToHex change.2⟩ : JSONStorageChange)) id
    fun change _ => indexedChangeOfJSON_change change
  rw [List.map_id] at hchanges
  rw [slotChangesOfJSON, jsonSlot, bytesOfHex_bytesToHex]
  simp only [bind, Except.bind, hchanges]

theorem accountOfJSON_jsonAccount (entry : Bytes × Access) :
    accountOfJSON (jsonAccount entry.1 entry.2) = .ok (jsonOrdered entry) := by
  have hslots : (jsonAccount entry.1 entry.2).storageChanges =
      (sortKeys entry.2.storageChanges.entries).map jsonSlot := by
    simp only [jsonAccount, localeCompare_bytesToHex]
    rfl
  have hreads : (jsonAccount entry.1 entry.2).storageReads =
      (entry.2.readKeys.insertionSort fun a b => bytesToBigInt a ≤ bytesToBigInt b).map
        bytesToHex := jsonAccount_reads entry.2
  have hchanges : ∀ changes : List IndexedChange,
      (jsonChanges changes).mapM indexedChangeOfJSON = .ok changes := fun changes =>
    (mapM_map_eq_ok fun change _ => indexedChangeOfJSON_change change).trans
      (congrArg Except.ok (List.map_id' changes))
  rw [accountOfJSON, hslots, hreads, mapM_map_eq_ok fun slot _ => slotChangesOfJSON_jsonSlot slot,
    mapM_map_eq_ok fun slot _ => bytesOfHex_bytesToHex slot]
  simp only [jsonAccount, bytesOfHex_bytesToHex, bind, Except.bind, hchanges, List.map_id']
  rfl

end OfJSON

section Reachable

/-- The slots have no leading zeros and the indices are safe integers. -/
structure Stripped (access : Access) : Prop where
  slots : ∀ slot, (access.storageChanges.get slot).isSome → unpadBytes slot = slot
  reads : ∀ slot, (access.storageReads.get slot).isSome → unpadBytes slot = slot
  indices : ∀ kind, ∀ change ∈ access.changes kind, SafeIndex change.1

variable {access : Access} {key : Bytes} {index : Nat}

theorem stripped_empty : Stripped .empty where
  slots _ h := by cases h
  reads _ h := by cases h
  indices kind change h := by
    rw [Access.changes_empty] at h
    exact absurd h List.not_mem_nil

theorem safe_insertEntry {value : Bytes} {changes : List IndexedChange}
    (h : ∀ change ∈ changes, SafeIndex change.1) (hindex : SafeIndex index) :
    ∀ change ∈ insertEntry index value changes, SafeIndex change.1 := by
  intro change hchange
  obtain rfl | hchange := mem_insertEntry hchange
  · exact hindex
  · exact h change hchange

theorem Stripped.addStorageRead (h : Stripped access) (hkey : unpadBytes key = key) :
    Stripped (access.addStorageRead key) := by
  refine ⟨?_, ?_, fun kind => ?_⟩
  · rw [Access.addStorageRead]
    split
    · exact h.slots
    · exact h.slots
  · rw [Access.addStorageRead]
    split
    · intro slot hslot
      rw [InsertionMap.get_set] at hslot
      split at hslot
      · next heq =>
        rw [heq]
        exact hkey
      · exact h.reads slot hslot
    · exact h.reads
  · rw [Access.changes_addStorageRead]
    exact h.indices kind

theorem Stripped.addStorageWrite (h : Stripped access) (hkey : unpadBytes key = key)
    (hindex : SafeIndex index) (value : Bytes) :
    Stripped (access.addStorageWrite key value index) where
  slots slot hslot := by
    simp only [Access.addStorageWrite, InsertionMap.get_set] at hslot
    split at hslot
    · next heq =>
      rw [heq]
      exact hkey
    · exact h.slots slot hslot
  reads slot hslot := by
    simp only [Access.addStorageWrite, InsertionMap.get_delete] at hslot
    split at hslot
    · cases hslot
    · exact h.reads slot hslot
  indices kind change hchange := by
    cases kind with
    | storage slot =>
      simp only [Access.changes, Access.addStorageWrite, InsertionMap.get_set] at hchange
      split at hchange
      · rw [Option.getD_some] at hchange
        exact safe_insertEntry (h.indices (.storage key)) hindex change hchange
      · exact h.indices (.storage slot) change hchange
    | balance => exact h.indices .balance change hchange
    | nonce => exact h.indices .nonce change hchange
    | code => exact h.indices .code change hchange

/-- A slot that keeps only some of its changes. -/
theorem Stripped.setSlot (h : Stripped access) {slotChanges remaining : List IndexedChange}
    (hchanges : access.storageChanges.get key = some slotChanges)
    (hremaining : ∀ change ∈ remaining, change ∈ slotChanges) :
    Stripped { access with storageChanges := access.storageChanges.set key remaining } where
  slots slot hslot := by
    rw [InsertionMap.get_set] at hslot
    split at hslot
    · next heq =>
      rw [heq]
      exact h.slots key (by rw [hchanges]; rfl)
    · exact h.slots slot hslot
  reads := h.reads
  indices kind change hchange := by
    cases kind with
    | storage slot =>
      simp only [Access.changes, InsertionMap.get_set] at hchange
      split at hchange
      · refine h.indices (.storage key) change ?_
        rw [Access.changes, hchanges]
        exact hremaining change hchange
      · exact h.indices (.storage slot) change hchange
    | balance => exact h.indices .balance change hchange
    | nonce => exact h.indices .nonce change hchange
    | code => exact h.indices .code change hchange

theorem Stripped.deleteSlot (h : Stripped access) (key : Bytes) :
    Stripped { access with storageChanges := access.storageChanges.delete key } where
  slots slot hslot := by
    rw [InsertionMap.get_delete] at hslot
    split at hslot
    · cases hslot
    · exact h.slots slot hslot
  reads := h.reads
  indices kind change hchange := by
    cases kind with
    | storage slot =>
      simp only [Access.changes, InsertionMap.get_delete] at hchange
      split at hchange
      · exact absurd hchange List.not_mem_nil
      · exact h.indices (.storage slot) change hchange
    | balance => exact h.indices .balance change hchange
    | nonce => exact h.indices .nonce change hchange
    | code => exact h.indices .code change hchange

theorem Stripped.addStorageNoOp (h : Stripped access) (hkey : unpadBytes key = key)
    (index : Nat) : Stripped (access.addStorageNoOp key index) := by
  rw [Access.addStorageNoOp]
  split
  · next slotChanges hchanges =>
    dsimp only
    split
    · exact (h.deleteSlot key).addStorageRead hkey
    · exact h.setSlot hchanges fun change hchange => (List.mem_filter.mp hchange).1
  · exact h.addStorageRead hkey

theorem Stripped.setBalance (h : Stripped access) (hindex : SafeIndex index) (value : Bytes) :
    Stripped { access with balanceChanges := access.balanceChanges.set index value } where
  slots := h.slots
  reads := h.reads
  indices kind change hchange := by
    cases kind with
    | balance => exact safe_insertEntry (h.indices .balance) hindex change hchange
    | storage slot => exact h.indices (.storage slot) change hchange
    | nonce => exact h.indices .nonce change hchange
    | code => exact h.indices .code change hchange

theorem Stripped.setNonce (h : Stripped access) (hindex : SafeIndex index) (value : Bytes) :
    Stripped { access with nonceChanges := access.nonceChanges.set index value } where
  slots := h.slots
  reads := h.reads
  indices kind change hchange := by
    cases kind with
    | nonce => exact safe_insertEntry (h.indices .nonce) hindex change hchange
    | storage slot => exact h.indices (.storage slot) change hchange
    | balance => exact h.indices .balance change hchange
    | code => exact h.indices .code change hchange

theorem Stripped.setCode (h : Stripped access) {codeChanges : List IndexedChange}
    (hcode : ∀ change ∈ codeChanges, SafeIndex change.1) :
    Stripped { access with codeChanges := codeChanges } where
  slots := h.slots
  reads := h.reads
  indices kind change hchange := by
    cases kind with
    | code => exact hcode change hchange
    | storage slot => exact h.indices (.storage slot) change hchange
    | balance => exact h.indices .balance change hchange
    | nonce => exact h.indices .nonce change hchange

theorem Stripped.ite {other other' : Access} {condition : Prop} [Decidable condition]
    (h : Stripped other) (h' : Stripped other') :
    Stripped (if condition then other else other') := by
  split
  · exact h
  · exact h'

/-- What adds to a block access list. -/
inductive AddOp
  | addAddress (address : Bytes)
  | addStorageRead (address storageKey : Bytes)
  | addStorageWrite (address storageKey value : Bytes) (blockAccessIndex : Nat)
      (originalValue : Option Bytes)
  | addBalanceChange (address : Bytes) (balance blockAccessIndex : Nat)
      (originalBalance : Option Nat)
  | addNonceChange (address : Bytes) (nonce blockAccessIndex : Nat)
  | addCodeChange (address code : Bytes) (blockAccessIndex : Nat) (originalCode : Option Bytes)

/-- The index of the operation is a safe integer, as a number of transactions is. -/
def AddOp.Safe : AddOp → Prop
  | .addStorageWrite _ _ _ blockAccessIndex _ | .addBalanceChange _ _ blockAccessIndex _
  | .addNonceChange _ _ blockAccessIndex | .addCodeChange _ _ blockAccessIndex _ =>
    SafeIndex blockAccessIndex
  | .addAddress _ | .addStorageRead _ _ => True

def add (self : BlockLevelAccessList) : AddOp → BlockLevelAccessList
  | .addAddress address => self.addAddress address
  | .addStorageRead address storageKey => self.addStorageRead address storageKey
  | .addStorageWrite address storageKey value blockAccessIndex originalValue =>
    self.addStorageWrite address storageKey value blockAccessIndex originalValue
  | .addBalanceChange address balance blockAccessIndex originalBalance =>
    self.addBalanceChange address balance blockAccessIndex originalBalance
  | .addNonceChange address nonce blockAccessIndex =>
    self.addNonceChange address nonce blockAccessIndex
  | .addCodeChange address code blockAccessIndex originalCode =>
    self.addCodeChange address code blockAccessIndex originalCode

def addAll (self : BlockLevelAccessList) (ops : List AddOp) : BlockLevelAccessList :=
  ops.foldl add self

def AllStripped (accesses : Accesses) : Prop :=
  ∀ address access, accesses.get address = some access → Stripped access

variable {self : BlockLevelAccessList}

theorem AllStripped.getD {accesses : Accesses} (h : AllStripped accesses) (address : Bytes) :
    Stripped ((accesses.get address).getD .empty) :=
  InsertionMap.getD_of_all h stripped_empty address

theorem AllStripped.set {accesses : Accesses} (h : AllStripped accesses) (address : Bytes)
    {access : Access} (haccess : Stripped access) : AllStripped (accesses.set address access) :=
  InsertionMap.all_set h address haccess

theorem AllStripped.add (h : AllStripped self.accesses) {op : AddOp} (hop : op.Safe) :
    AllStripped (self.add op).accesses := by
  cases op with
  | addAddress address => exact h.set address (h.getD address)
  | addStorageRead address storageKey =>
    exact h.set address ((h.getD address).addStorageRead (unpadBytes_unpadBytes storageKey))
  | addStorageWrite address storageKey value blockAccessIndex originalValue =>
    have hstripped := h.getD address
    have hkey := unpadBytes_unpadBytes storageKey
    exact h.set address ((hstripped.addStorageNoOp hkey blockAccessIndex).ite
      (hstripped.addStorageWrite hkey hop _))
  | addBalanceChange address balance blockAccessIndex originalBalance =>
    have hchanged := h.set address
      ((h.getD address).setBalance hop (stripLeadingZeros (bigIntToBytes balance)))
    dsimp only [BlockLevelAccessList.add, BlockLevelAccessList.addBalanceChange]
    split
    · exact hchanged
    · exact hchanged
  | addNonceChange address nonce blockAccessIndex =>
    exact h.set address ((h.getD address).setNonce hop (bigIntToBytes nonce))
  | addCodeChange address code blockAccessIndex originalCode =>
    have hstripped := h.getD address
    refine h.set address (.ite (.ite ?_ ?_) (.ite hstripped ?_))
    · exact hstripped.setCode fun change hchange =>
        hstripped.indices .code change (List.mem_of_mem_eraseP hchange)
    · exact hstripped.setCode (safe_insertEntry (hstripped.indices .code) hop)
    · refine hstripped.setCode fun change hchange => ?_
      obtain hchange | hchange := List.mem_append.mp hchange
      · exact hstripped.indices .code change hchange
      · rw [List.mem_singleton.mp hchange]
        exact hop

theorem AllStripped.addAll (ops : List AddOp) : ∀ {self : BlockLevelAccessList},
    AllStripped self.accesses → (∀ op ∈ ops, op.Safe) → AllStripped (self.addAll ops).accesses := by
  induction ops with
  | nil => exact fun h _ => h
  | cons op ops ih =>
    intro self h hops
    obtain ⟨hop, hops⟩ := List.forall_mem_cons.mp hops
    exact ih (h.add hop) hops

end Reachable

section Codecs

variable {self : BlockLevelAccessList}

theorem Stripped.rawAccount_eq {entry : Bytes × Access} (h : Stripped entry.2) :
    rawAccount entry.1 entry.2 = reordered normalChanges
      ((entry.2.readKeys.map unpadBytes).insertionSort fun a b =>
        compareLexicographicHexOrBytes a b ≠ .gt)
      (sortIndices entry.2.codeChanges) entry := by
  have hslots : (rawAccount entry.1 entry.2).storageChanges =
      (sortKeys entry.2.storageChanges.entries).map fun slot => (slot.1, normalChanges slot.2) := by
    refine List.map_congr_left fun slot hslot => ?_
    have hmem := (List.mem_insertionSort _).mp hslot
    have hkey := h.slots slot.1 (lookupEntry_isSome.mpr (List.mem_map_of_mem hmem))
    exact Prod.ext hkey rfl
  rw [reordered, ← hslots]
  rfl

theorem Stripped.reads_perm (h : Stripped access) :
    ((access.readKeys.map unpadBytes).insertionSort fun a b =>
      compareLexicographicHexOrBytes a b ≠ .gt).Perm access.readKeys := by
  refine (List.perm_insertionSort _ _).trans (List.Perm.of_eq ?_)
  refine (List.map_congr_left fun slot hslot => ?_).trans (List.map_id _)
  exact h.reads slot (Access.mem_readKeys.mp hslot)

theorem safe_normalChanges {changes : List IndexedChange}
    (h : ∀ change ∈ changes, SafeIndex change.1) :
    ∀ change ∈ normalChanges changes, SafeIndex change.1 := by
  intro change hchange
  obtain ⟨original, horiginal, rfl⟩ := List.mem_map.mp hchange
  exact h original ((List.mem_insertionSort _).mp horiginal)

theorem Stripped.safe_rawAccount {entry : Bytes × Access} (h : Stripped entry.2) :
    SafeAccount (rawAccount entry.1 entry.2) where
  slots slot hslot := by
    obtain ⟨original, horiginal, rfl⟩ := List.mem_map.mp hslot
    have hmem := (List.mem_insertionSort _).mp horiginal
    refine safe_normalChanges fun change hchange => h.indices (.storage original.1) change ?_
    rw [Access.changes, InsertionMap.get, lookupEntry_of_mem entry.2.storageChanges.nodup hmem]
    exact hchange
  balances := safe_normalChanges (h.indices .balance)
  nonces := safe_normalChanges (h.indices .nonce)
  codes change hchange := h.indices .code change ((List.mem_insertionSort _).mp hchange)

theorem AllStripped.of_mem (h : AllStripped self.accesses) {entry : Bytes × Access}
    (hentry : entry ∈ sortKeys self.accesses.entries) : Stripped entry.2 :=
  h entry.1 entry.2 (lookupEntry_of_mem self.accesses.nodup ((List.mem_insertionSort _).mp hentry))

/-- What is read back from the RLP form is serialized to the same bytes. -/
theorem serialize_ofRLP (h : AllStripped self.accesses)
    (hlength : self.serialize.length < maxLength) :
    (createBlockLevelAccessListFromRLP self.serialize).map serialize = .ok self.serialize := by
  have hraw : (createBlockLevelAccessList.load self.raw).raw = self.raw := by
    rw [congrArg createBlockLevelAccessList.load self.raw_eq]
    refine raw_load (List.perm_insertionSort _ _) (fun _ => rfl) (fun entry hentry => ?_)
      fun entry hentry => ?_
    · rw [(h.of_mem hentry).rawAccount_eq]
      exact distinct_reordered keys_normalChanges (h.of_mem hentry).reads_perm
    · rw [(h.of_mem hentry).rawAccount_eq]
      rw [normal_reordered normalChanges_normalChanges (h.of_mem hentry).reads_perm
        (sortIndices_sortIndices _)]
      exact (h.of_mem hentry).rawAccount_eq
  have haccounts := mapM_map_eq_ok (f := accountOfItem) (g := RawAccountChanges.item) (h := id)
    fun account (haccount : account ∈ self.raw) => by
      rw [raw_eq] at haccount
      obtain ⟨entry, hentry, rfl⟩ := List.mem_map.mp haccount
      exact accountOfItem_item (h.of_mem hentry).safe_rawAccount
  rw [List.map_id] at haccounts
  have hdecoded : decode self.serialize = .ok (.list (self.raw.map RawAccountChanges.item)) :=
    RLP.decode_encode _ hlength
  rw [createBlockLevelAccessListFromRLP, hdecoded]
  simp only [Except.mapError, itemsOf, bind, Except.bind, haccounts, Except.map]
  rw [serialize, hraw, serialize]

/-- What is read back from the JSON form is serialized to the same bytes. -/
theorem serialize_ofJSON (self : BlockLevelAccessList) :
    (createBlockLevelAccessListFromJSON self.toJSON).map serialize = .ok self.serialize := by
  have hraw : (createBlockLevelAccessList.load
      ((sortKeys self.accesses.entries).map jsonOrdered)).raw = self.raw := by
    refine raw_load (List.perm_insertionSort _ _) (fun _ => rfl) (fun entry _ => ?_)
      fun entry _ => ?_
    · exact distinct_reordered keys_sortIndices (List.perm_insertionSort _ _)
    · exact normal_reordered normalChanges_sortIndices (List.perm_insertionSort _ _) rfl
  have hjson : self.toJSON =
      (sortKeys self.accesses.entries).map fun entry => jsonAccount entry.1 entry.2 := by
    simp only [toJSON, localeCompare_bytesToHex]
  rw [createBlockLevelAccessListFromJSON, hjson,
    mapM_map_eq_ok fun entry _ => accountOfJSON_jsonAccount entry]
  simp only [bind, Except.bind, Except.map]
  rw [serialize, hraw, serialize]

/-- A slot and a nonce of zero, and a slot that is read. -/
def zeroValues : List AddOp :=
  [.addStorageWrite [1] [0, 0] [0] 0 (some [7]), .addNonceChange [1] 0 0,
    .addBalanceChange [1] 0 1 none, .addStorageRead [0] [0, 5], .addCodeChange [2] [] 1 none]

end Codecs

end BlockLevelAccessList

end EthereumJS
