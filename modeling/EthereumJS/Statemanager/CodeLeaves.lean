import EthereumJS.Statemanager.StateMap
import EthereumJS.Util.CodeChunks

/-! # The leaves of a code

What `putCode` writes beside the same leaves put one by one.
-/

namespace EthereumJS.BinaryTreeState

open Binarytree RLP StatefulBinaryTreeStateManager

section Spec

variable (K : HashKeysFunction) (fuel : Nat) (manager : StatefulBinaryTreeStateManager)
  (address : TreeAddress) (value : Bytes)

/-- The account with the hash and the size of a new code. -/
def codeAccount : LeafAccount :=
  ((manager.getAccount K fuel address).toOption.join.getD (emptyAccount K)).modify
    ⟨none, none, none, some (K.hash value), some value.length⟩

def codeHeader : Bytes :=
  (encodeBinaryTreeLeafBasicData
    (codeAccount K fuel manager address value).basicData).toOption.getD []

/-- Each chunk under its own key, and the two leaves of the header. -/
def codeLeaves : List (Bytes × Bytes) :=
  (chunkifyBinaryTreeCode value).zipIdx.map
      (fun e => (getBinaryTreeKeyForCodeChunk manager.hashFunction address e.2, e.1)) ++
    [(getBinaryTreeStem manager.hashFunction address (.number 0) ++ [0],
        codeHeader K fuel manager address value),
      (getBinaryTreeStem manager.hashFunction address (.number 0) ++ [1], K.hash value)]

/-- One value under one key. -/
def putLeaf (leaf : Bytes × Bytes) : TreeOp :=
  .put (leaf.1.take 31) [leaf.1.getD 31 0] [some leaf.2]

/-- What `putCode` writes, stem by stem. An account that does not exist is put before. -/
def putCodeWrites : List TreeOp :=
  (if (manager.getAccount K fuel address).toOption.join = none then
      [headerWrite manager.hashFunction K address .empty] else []) ++
    (codeWrites manager.hashFunction address value ++
      [write manager.hashFunction address 0 [0, 1]
        (headerValue (codeHeader K fuel manager address value) (K.hash value))])

/-- A tree after a code was put into the one of a manager. -/
structure WritesCodeLeaves (after : BinaryTree) : Prop where
  account : ∃ account, manager.getAccount K fuel address = .ok account
  header : encodeBinaryTreeLeafBasicData (codeAccount K fuel manager address value).basicData =
    .ok (codeHeader K fuel manager address value)
  count : (chunkifyBinaryTreeCode value).length = (value.length + 30) / 31
  chunk : ∀ i chunk, (chunkifyBinaryTreeCode value)[i]? = some chunk → IsCodeChunk value i chunk
  root : ∃ single, runOps fuel manager.tree
      ((codeLeaves K fuel manager address value).map putLeaf) = .ok single ∧
    after.root = single.root
  others : ∀ (stem : Bytes) (suffixes : List UInt8), stem.length = 31 →
    stem ∉ (codeLeaves K fuel manager address value).map (fun leaf => leaf.1.take 31) →
      after.get fuel stem suffixes = manager.tree.get fuel stem suffixes

end Spec

variable {H K : HashKeysFunction} {E : Set (TreeAddress × Nat)} {S : Set Bytes}
  {tree tree' : BinaryTree} {done done' ops : List TreeOp} {a b : TreeAddress}
  {bytes value : Bytes} {fuel j m n q : Nat}

section Runs

/-- A run of `put` of values goes through. -/
theorem Filled.run (h : Filled H tree done) (hfuel : 248 ≤ fuel) (hS : NoCollision H S)
    (hops : ∀ op ∈ ops, op.Valid ∧ none ∉ op.values ∧ op.suffixes ≠ [])
    (hmsg : Hashed H S (done ++ ops)) :
    ∃ tree', runOps fuel tree ops = .ok tree' ∧ Filled H tree' (done ++ ops) := by
  induction ops generalizing tree done with
  | nil => exact ⟨tree, rfl, by rwa [List.append_nil]⟩
  | cons op ops ih =>
    obtain ⟨hvalid, hnone, hne⟩ := hops op List.mem_cons_self
    rw [List.append_cons] at hmsg ⊢
    have hput : ∃ tree', op.run fuel tree = .ok tree' ∧ Filled H tree' (done ++ [op]) := by
      cases op with
      | put stem suffixes values =>
        exact h.put hvalid hnone hfuel hS (hmsg.before (List.prefix_append _ _)) (.inl hne)
      | del stem suffixes =>
        have hlength : suffixes.length ≠ 0 := fun hzero => hne (List.length_eq_zero_iff.mp hzero)
        exact absurd (List.mem_replicate.mpr ⟨hlength, rfl⟩) hnone
    obtain ⟨tree₁, hok, hfilled⟩ := hput
    obtain ⟨tree₂, hrun, hfinal⟩ := ih hfilled
      (fun o ho => hops o (List.mem_cons_of_mem _ ho)) hmsg
    refine ⟨tree₂, ?_, hfinal⟩
    rw [runOps, List.foldlM_cons, hok]
    exact hrun

/-- The root is that of the map. -/
theorem Filled.root_congr (h : Filled H tree done) (h' : Filled H tree' done')
    (hmap : ∀ key : Bytes, key.length = 31 →
      Binarytree.mapAfter done key = Binarytree.mapAfter done' key) : tree.root = tree'.root := by
  obtain ⟨hstems, hvalues⟩ := h.holds.stemsOf h.full h.value
  obtain ⟨hstems', hvalues'⟩ := h'.holds.stemsOf h'.full
    fun key hkey => (h'.value key hkey).trans (hmap key hkey).symm
  have hroot := h.holds.represents.atRoot.root_of_stems (H := H) hvalues
    (rfl : 248 + ([] : Bits).length = 248) hstems.nodup fun s => Iff.rfl
  have hroot' := h'.holds.represents.atRoot.root_of_stems (H := H) hvalues'
    (rfl : 248 + ([] : Bits).length = 248) hstems.nodup fun s =>
      (hstems.mem_iff s).trans (hstems'.mem_iff s).symm
  rw [h.holds.represents.root_eq, h'.holds.represents.root_eq, h.hash, h'.hash, hroot, hroot']

/-- A stem is in the tree when one of its values is. -/
theorem Filled.find_none (h : Filled H tree done) {stem : Bytes} (hstem : stem.length = 31)
    (hnone : ∀ i, Binarytree.mapAfter done stem i = none) :
    (Binarytree.treeAfter H done).find stem = none := by
  cases hfind : (Binarytree.treeAfter H done).find stem with
  | none => rfl
  | some node =>
    have hAt := h.holds.represents.atRoot
    obtain ⟨hmem, -⟩ := (find_eq_some_iff hstem hAt).mp hfind
    obtain ⟨i, hi⟩ := exists_getValue_of_full (hAt.prefix_of_mem hmem).1 (h.full node hmem)
    have hvalue := congrFun (h.value stem hstem) i
    rw [StemTree.value, hfind, hnone i] at hvalue
    exact absurd hvalue hi

theorem Filled.find_some (h : Filled H tree done) {stem : Bytes} (hstem : stem.length = 31)
    {i : UInt8} (hsome : Binarytree.mapAfter done stem i ≠ none) :
    ∃ node, (Binarytree.treeAfter H done).find stem = some node ∧
      node.getValue = Binarytree.mapAfter done stem := by
  have hvalue := h.value stem hstem
  cases hfind : (Binarytree.treeAfter H done).find stem with
  | none =>
    rw [← hvalue, StemTree.value, hfind] at hsome
    exact absurd rfl hsome
  | some node =>
    refine ⟨node, rfl, ?_⟩
    rw [← hvalue]
    funext i
    rw [StemTree.value, hfind]
    rfl

/-- Trees with one map read a stem alike. -/
theorem Filled.get_congr (h : Filled H tree done) (h' : Filled H tree' done') (hfuel : 248 ≤ fuel)
    {stem : Bytes} (hstem : stem.length = 31)
    (hmap : Binarytree.mapAfter done stem = Binarytree.mapAfter done' stem)
    (suffixes : List UInt8) : tree.get fuel stem suffixes = tree'.get fuel stem suffixes := by
  rw [h.holds.represents.get hstem hfuel, h'.holds.represents.get hstem hfuel]
  by_cases hnone : ∀ i, Binarytree.mapAfter done stem i = none
  · rw [h.find_none hstem hnone, h'.find_none hstem fun i => hmap ▸ hnone i]
  · obtain ⟨i, hi⟩ := not_forall.mp hnone
    obtain ⟨node, hfind, hvalues⟩ := h.find_some hstem hi
    obtain ⟨node', hfind', hvalues'⟩ := h'.find_some hstem (i := i) (hmap ▸ hi)
    rw [hfind, hfind', Option.map_some, Option.map_some, hvalues, hvalues', hmap]

/-- The values in the tree have 32 bytes. -/
theorem Filled.cell_length (h : Filled H tree done) (hcell : cell H done a q = some bytes) :
    bytes.length = 32 := by
  have hAt := h.holds.represents.atRoot
  rw [cell, ← h.value _ (length_stemAt _ _ _), StemTree.value] at hcell
  obtain ⟨node, hfind, hvalue⟩ := Option.bind_eq_some_iff.mp hcell
  obtain ⟨hmem, -⟩ := (find_eq_some_iff (length_stemAt _ _ _) hAt).mp hfind
  refine (hAt.prefix_of_mem hmem).1.2.2 bytes ?_
  rw [StemBinaryNode.getValue, List.getD_eq_getElem?_getD] at hvalue
  cases hget : node.values[(UInt8.ofNat q).toNat]? with
  | none =>
    rw [hget] at hvalue
    cases hvalue
  | some v =>
    rw [hget, Option.getD_some] at hvalue
    exact hvalue ▸ List.mem_of_getElem? hget

end Runs

section Header

/-- The hash of a code as `getAccount` reads it. -/
def leafCodeHash (K : HashKeysFunction) : Option Bytes → Bytes
  | none => keccakNull K
  | some codeHash => if codeHash = List.replicate 32 0 then keccakNull K else codeHash

/-- The account that the leaves of a header stand for. -/
def leafAccount (K : HashKeysFunction) (basicDataBytes : Bytes) (codeHash : Option Bytes) :
    LeafAccount where
  nonce := (decodeBinaryTreeLeafBasicData basicDataBytes).nonce
  balance := (decodeBinaryTreeLeafBasicData basicDataBytes).balance
  storageRoot := keccakNull K
  codeHash := leafCodeHash K codeHash
  codeSize := (decodeBinaryTreeLeafBasicData basicDataBytes).codeSize
  version := (decodeBinaryTreeLeafBasicData basicDataBytes).version

theorem decode_fits (bytes : Bytes) : (decodeBinaryTreeLeafBasicData bytes).Fits := by
  have hnumber : ∀ (width : Nat) (part : Bytes), part.length ≤ width →
      bytesToNumber part < 256 ^ width := fun width part hle =>
    (bytesToNumber_lt part).trans_le (Nat.pow_le_pow_right (by decide) hle)
  have hint : ∀ (width : Nat) (part : Bytes), part.length ≤ width → width ≤ 4 →
      bytesToInt32 part < 256 ^ width := by
    intro width part hle hwidth
    rw [bytesToInt32_of_le (by omega)]
    exact hnumber width part hle
  constructor
  · exact hint 1 _ (List.length_take_le _ _) (by decide)
  · exact hnumber 8 _ (List.length_take_le _ _)
  · exact hnumber 16 _ (List.length_take_le _ _)
  · exact hint 3 _ (List.length_take_le _ _) (by decide)

/-- An account is read from the two leaves of its header. -/
theorem getAccount_leaves (h : Filled H tree done) (hfuel : 248 ≤ fuel) :
    getAccount K fuel ⟨H, tree⟩ a = .ok ((cell H done a 0).map fun basicDataBytes =>
      leafAccount K basicDataBytes (cell H done a 1)) := by
  obtain ⟨values, hget, hvalues⟩ := treeGet_cells (a := a) (j := 0) h hfuel [0, 1] [0, 1]
    (by decide) rfl
  rw [getAccount, getBinaryTreeStem_number (by decide), hget]
  obtain rfl | ⟨rfl, hnone⟩ := hvalues
  · cases hfirst : cell H done a 0 with
    | none =>
      change (match cell H done a 0 with | none => _ | some basicDataBytes => _) = _
      rw [hfirst]
      rfl
    | some basicDataBytes =>
      have hlength : (leafCodeHash K (cell H done a 1)).length = 32 := by
        cases hcell : cell H done a 1 with
        | none => exact K.length_hash _
        | some codeHash =>
          rw [leafCodeHash]
          split
          · exact K.length_hash _
          · exact h.cell_length hcell
      have hcreate : createPartialAccount (decodeBinaryTreeLeafBasicData basicDataBytes)
          (keccakNull K) (leafCodeHash K (cell H done a 1)) =
            .ok (leafAccount K basicDataBytes (cell H done a 1)) := by
        rw [createPartialAccount, newAccount, if_neg (by simp [keccakNull, K.length_hash]),
          if_neg (by simp [hlength])]
        simp only [bytesToBigInt, intToBytes, bytesToNumber_bigIntToBytes]
        rfl
      change (match cell H done a 0 with | none => _ | some basicDataBytes => _) = _
      rw [hfirst]
      change ((createPartialAccount (decodeBinaryTreeLeafBasicData basicDataBytes) (keccakNull K)
        (leafCodeHash K (cell H done a 1))).mapError
          StateError.account >>= fun account => _) = _
      rw [hcreate]
      rfl
  · rw [hnone 0 (by decide)]
    rfl

theorem codeAccount_eq (h : Filled H tree done) (hfuel : 248 ≤ fuel) :
    codeAccount K fuel ⟨H, tree⟩ a value =
      (((cell H done a 0).map fun basicDataBytes =>
        leafAccount K basicDataBytes (cell H done a 1)).getD (emptyAccount K)).modify
          ⟨none, none, none, some (K.hash value), some value.length⟩ := by
  rw [codeAccount, getAccount_leaves h hfuel]
  rfl

/-- The header of an account with a code has its place in the leaf. -/
theorem codeHeader_eq (h : Filled H tree done) (hfuel : 248 ≤ fuel)
    (hsmall : value.length < 2 ^ 24) :
    encodeBinaryTreeLeafBasicData (codeAccount K fuel ⟨H, tree⟩ a value).basicData =
      .ok (codeHeader K fuel ⟨H, tree⟩ a value) := by
  have hfits : (codeAccount K fuel ⟨H, tree⟩ a value).basicData.Fits := by
    rw [codeAccount_eq h hfuel]
    cases cell H done a 0 with
    | none =>
      constructor
      · exact Nat.zero_lt_succ _
      · exact Nat.zero_lt_succ _
      · exact Nat.zero_lt_succ _
      · exact hsmall
    | some basicDataBytes =>
      obtain ⟨hversion, hnonce, hbalance, -⟩ := decode_fits basicDataBytes
      exact ⟨hversion, hnonce, hbalance, hsmall⟩
  obtain ⟨bytes, hbytes⟩ := encode_ok hfits
  rw [codeHeader, hbytes]
  rfl

end Header

section Bulk

/-- The chunks and then the header, which still stands in front of the chunks. -/
theorem putChunks_modify (h : Filled H tree done) (hfuel : 248 ≤ fuel) (hS : NoCollision H S)
    (hE : StemsApart H E) (hstems : ∀ j < codeStemCount (chunkCount value.length), (a, j) ∈ E)
    (hsmall : value.length < 2 ^ 24) {basicDataBytes : Bytes}
    (hcell : cell H done a 0 = some basicDataBytes)
    (hbytes : encodeBinaryTreeLeafBasicData
      { decodeBinaryTreeLeafBasicData basicDataBytes with codeSize := value.length } = .ok bytes)
    (hmsg : Hashed H S (done ++ (codeWrites H a value ++
      [write H a 0 [0, 1] (headerValue bytes (K.hash value))]))) :
    ∃ tree', (putChunks fuel ⟨H, tree⟩ a value >>= fun manager =>
        manager.modifyAccountFields K fuel a
          ⟨none, none, none, some (K.hash value), some value.length⟩) = .ok ⟨H, tree'⟩ ∧
      Filled H tree' (done ++ (codeWrites H a value ++
        [write H a 0 [0, 1] (headerValue bytes (K.hash value))])) := by
  rw [← List.append_assoc] at hmsg ⊢
  have hwritten := written_of_cell (hcell ▸ Option.some_ne_none basicDataBytes)
  obtain ⟨tree₁, hput, hfilled⟩ := putChunks_eq h hfuel hS hwritten hsmall
    (hmsg.before (List.prefix_append _ _))
  rw [← codeWrites] at hfilled
  have hsame : cell H (done ++ codeWrites H a value) a 0 = some basicDataBytes := by
    rw [codeWrites, cell_chunkWrites hE hstems (hstems 0 codeStemCount_pos), if_neg (by omega),
      hcell]
  have hdata : ((leafAccount K basicDataBytes (cell H (done ++ codeWrites H a value) a 1)).modify
      ⟨none, none, none, some (K.hash value), some value.length⟩).basicData =
        { decodeBinaryTreeLeafBasicData basicDataBytes with codeSize := value.length } := rfl
  obtain ⟨tree₂, hheader, hfinal⟩ := putAccount_eq (K := K) (a := a)
    (e := ⟨(decodeBinaryTreeLeafBasicData basicDataBytes).nonce,
      (decodeBinaryTreeLeafBasicData basicDataBytes).balance,
      (decodeBinaryTreeLeafBasicData basicDataBytes).version, value, fun _ => none⟩)
    hfilled hfuel hS hdata rfl hbytes hmsg
  refine ⟨tree₂, ?_, hfinal⟩
  rw [hput]
  change modifyAccountFields K fuel ⟨H, tree₁⟩ a _ = _
  rw [modifyAccountFields, getAccount_leaves hfilled hfuel, hsame]
  exact hheader

theorem putCode_writes (h : Filled H tree done) (hfuel : 248 ≤ fuel) (hS : NoCollision H S)
    (hE : StemsApart H E) (hstems : ∀ j < codeStemCount (chunkCount value.length), (a, j) ∈ E)
    (hcode : K.hash value ≠ keccakNull K) (hsmall : value.length < 2 ^ 24)
    (hmsg : Hashed H S (done ++ putCodeWrites K fuel ⟨H, tree⟩ a value)) :
    ∃ tree', putCode K fuel ⟨H, tree⟩ a value = .ok ⟨H, tree'⟩ ∧
      Filled H tree' (done ++ putCodeWrites K fuel ⟨H, tree⟩ a value) := by
  have haccount := getAccount_leaves (K := K) (a := a) h hfuel
  have hheader := codeHeader_eq (K := K) (a := a) h hfuel hsmall
  rw [codeAccount_eq h hfuel] at hheader
  rw [putCodeWrites, haccount] at hmsg ⊢
  rw [putCode, if_neg hcode, haccount]
  generalize codeHeader K fuel ⟨H, tree⟩ a value = header at *
  cases hcell : cell H done a 0 with
  | some basicDataBytes =>
    rw [hcell] at hheader hmsg
    exact putChunks_modify h hfuel hS hE hstems hsmall hcell hheader hmsg
  | none =>
    rw [hcell] at hheader hmsg
    change Hashed H S (done ++ ([headerWrite H K a .empty] ++ _)) at hmsg
    change ∃ tree', (putAccount fuel ⟨H, tree⟩ a (some (emptyAccount K)) >>= fun manager =>
      putChunks fuel manager a value >>= fun manager => _) = _ ∧
        Filled H tree' (done ++ ([headerWrite H K a .empty] ++ _))
    have hfits : (AccountContents.empty.account K).basicData.Fits :=
      ⟨Nat.zero_lt_succ _, Nat.zero_lt_succ _, Nat.zero_lt_succ _, Nat.zero_lt_succ _⟩
    have hempty : (emptyAccount K).basicData = (AccountContents.empty.account K).basicData := rfl
    obtain ⟨bytes, hbytes⟩ := encode_ok hfits
    rw [← List.append_assoc, headerWrite_eq hbytes] at hmsg ⊢
    obtain ⟨tree₁, hput, hfilled⟩ := putAccount_eq h hfuel hS hempty rfl hbytes
      (hmsg.before (List.prefix_append _ _))
    have hfirst : cell H (done ++ [write H a 0 [0, 1]
        (headerValue bytes (K.hash AccountContents.empty.code))]) a 0 = some bytes := by
      rw [cell_write hE (hstems 0 codeStemCount_pos) (hstems 0 codeStemCount_pos) (by decide),
        if_pos ⟨rfl, by decide⟩]
      rfl
    rw [hput]
    refine putChunks_modify hfilled hfuel hS hE hstems hsmall hfirst ?_ hmsg
    rw [(decode_encode hbytes).2.1]
    exact hheader

/-- A code that does not fit into the header is not put. -/
theorem length_of_putCode {manager manager' : StatefulBinaryTreeStateManager}
    (hcode : K.hash value ≠ keccakNull K)
    (h : manager.putCode K fuel a value = .ok manager') : value.length < 2 ^ 24 := by
  rw [putCode, if_neg hcode] at h
  obtain ⟨account, -, h⟩ := bind_eq_ok.mp h
  have hmodify : ∃ manager₁ : StatefulBinaryTreeStateManager, manager₁.modifyAccountFields K fuel a
      ⟨none, none, none, some (K.hash value), some value.length⟩ = .ok manager' := by
    cases account with
    | none =>
      obtain ⟨manager₁, -, h⟩ := bind_eq_ok.mp h
      obtain ⟨manager₂, -, h⟩ := bind_eq_ok.mp h
      exact ⟨manager₂, h⟩
    | some account =>
      obtain ⟨manager₁, -, h⟩ := bind_eq_ok.mp h
      obtain ⟨manager₂, -, h⟩ := bind_eq_ok.mp h
      exact ⟨manager₂, h⟩
  obtain ⟨manager₁, hmodify⟩ := hmodify
  rw [modifyAccountFields] at hmodify
  obtain ⟨account', -, hheader⟩ := bind_eq_ok.mp hmodify
  rw [putAccount] at hheader
  obtain ⟨bytes, hbytes, -⟩ := bind_eq_ok.mp hheader
  cases hencode : encodeBinaryTreeLeafBasicData (((account'.getD (emptyAccount K)).modify
      ⟨none, none, none, some (K.hash value), some value.length⟩).basicData) with
  | error e =>
    rw [hencode] at hbytes
    cases hbytes
  | ok encoded =>
    obtain ⟨-, -, hfits⟩ := decode_encode hencode
    exact hfits.codeSize

end Bulk

section Single

/-- A chunk under its own key. -/
def chunkLeaf (H : HashKeysFunction) (address : TreeAddress) (code : Bytes) (i : Nat) : TreeOp :=
  write H address ((128 + i) / 256) [128 + i] fun p => (chunkifyBinaryTreeCode code)[p - 128]?

theorem cell_chunkLeaves (hE : StemsApart H E) (hstems : ∀ i < m, (a, (128 + i) / 256) ∈ E)
    (hq : (a, q / 256) ∈ E) :
    cell H (done ++ (List.range m).map (chunkLeaf H a value)) a q =
      if 128 ≤ q ∧ q < 128 + m then (chunkifyBinaryTreeCode value)[q - 128]?
      else cell H done a q := by
  induction m with
  | zero =>
    rw [if_neg (by omega)]
    exact congrArg (fun ops => cell H ops a q) (List.append_nil done)
  | succ m ih =>
    rw [List.range_succ, List.map_append, ← List.append_assoc, List.map_singleton, chunkLeaf,
      cell_write hE (hstems m (by omega)) hq fun p hp => by rw [List.mem_singleton.mp hp],
      ih fun i hi => hstems i (by omega)]
    by_cases hlast : q = 128 + m
    · rw [if_pos ⟨rfl, List.mem_singleton.mpr hlast⟩, if_pos (by omega)]
    · rw [if_neg fun hboth => hlast (List.mem_singleton.mp hboth.2)]
      have hiff : (128 ≤ q ∧ q < 128 + m) ↔ (128 ≤ q ∧ q < 128 + (m + 1)) := by omega
      simp only [hiff]

/-- Writes under other stems leave a stem as it is. -/
theorem mapAfter_of_ne {key : Bytes} (h : ∀ op ∈ ops, op.stem ≠ key) :
    Binarytree.mapAfter (done ++ ops) key = Binarytree.mapAfter done key := by
  induction ops generalizing done with
  | nil => rw [List.append_nil]
  | cons op ops ih =>
    rw [List.append_cons, ih fun o ho => h o (List.mem_cons_of_mem _ ho), mapAfter_append,
      TreeOp.apply, Function.update_of_ne (h op List.mem_cons_self).symm]

/-- The values under a stem are those of its positions. -/
theorem mapAfter_stemAt (done : List TreeOp) (j : Nat) (i : UInt8) :
    Binarytree.mapAfter done (stemAt H a j) i = cell H done a (256 * j + i.toNat) := by
  have hi := i.toNat_lt
  have hblock : (256 * j + i.toNat) / 256 = j := by omega
  have hbyte : UInt8.ofNat (256 * j + i.toNat) = i := by
    apply UInt8.toNat_inj.mp
    rw [UInt8.toNat_ofNat']
    omega
  rw [cell, hblock, hbyte]

theorem getBinaryTreeKeyForCodeChunk_eq {i : Nat} (h : (128 + i) / 256 < 256 ^ 4) :
    getBinaryTreeKeyForCodeChunk H a i =
      stemAt H a ((128 + i) / 256) ++ [UInt8.ofNat (128 + i)] := by
  rw [getBinaryTreeKeyForCodeChunk, getBinaryTreeIndicesForCodeChunk]
  dsimp only [BINARY_TREE_NODE_WIDTH, BINARY_TREE_CODE_OFFSET]
  rw [getBinaryTreeStem_number h, intToBytes, bigIntToBytes_byte (Nat.mod_lt _ (by decide)),
    ofNat_mod]

theorem putLeaf_append {stem : Bytes} (hstem : stem.length = 31) (suffix : UInt8) (v : Bytes) :
    putLeaf (stem ++ [suffix], v) = .put stem [suffix] [some v] := by
  have hlast : (stem ++ [suffix]).getD 31 0 = suffix := by
    rw [List.getD_eq_getElem?_getD, List.getElem?_append_right (by omega), hstem]
    rfl
  rw [putLeaf]
  dsimp only
  rw [List.take_left' hstem, hlast]

/-- The leaves as writes at positions. -/
theorem codeLeaves_eq (hsmall : value.length < 2 ^ 24) :
    (codeLeaves K fuel ⟨H, tree⟩ a value).map putLeaf =
      (List.range (chunkCount value.length)).map (chunkLeaf H a value) ++
        [write H a 0 [0] fun _ => some (codeHeader K fuel ⟨H, tree⟩ a value),
          write H a 0 [1] fun _ => some (K.hash value)] := by
  have hcount := chunkCount_le value.length
  have hlength := length_chunkifyBinaryTreeCode value
  rw [codeLeaves, List.map_append, getBinaryTreeStem_number (by decide)]
  congr 1
  · rw [List.map_map]
    apply List.ext_getElem
    · rw [List.length_map, List.length_zipIdx, List.length_map, List.length_range, hlength]
    · intro i hi hi'
      rw [List.length_map, List.length_range] at hi'
      rw [List.getElem_map, List.getElem_zipIdx, List.getElem_map, List.getElem_range,
        Function.comp_apply]
      dsimp only
      rw [Nat.zero_add, getBinaryTreeKeyForCodeChunk_eq (by omega),
        putLeaf_append (length_stemAt _ _ _), chunkLeaf, write, List.map_singleton,
        List.map_singleton, Nat.add_sub_cancel_left, List.getElem?_eq_getElem (by omega)]
  · rw [List.map_cons, List.map_singleton, putLeaf_append (length_stemAt _ _ _),
      putLeaf_append (length_stemAt _ _ _)]
    rfl

end Single

section Equal

/-- The value at a position after a code was put. -/
def codeCell (before : Nat → Option Bytes) (value header codeHash : Bytes) (q : Nat) :
    Option Bytes :=
  if q = 0 then some header
  else if q = 1 then some codeHash
  else if 128 ≤ q ∧ q < 128 + chunkCount value.length then
    (chunkifyBinaryTreeCode value)[q - 128]?
  else before q

theorem cell_codeLeaves (hE : StemsApart H E)
    (hstems : ∀ j < codeStemCount (chunkCount value.length), (a, j) ∈ E)
    (hsmall : value.length < 2 ^ 24) (hq : (a, q / 256) ∈ E) :
    cell H (done ++ (codeLeaves K fuel ⟨H, tree⟩ a value).map putLeaf) a q =
      codeCell (cell H done a) value (codeHeader K fuel ⟨H, tree⟩ a value) (K.hash value) q := by
  have hzero := hstems 0 codeStemCount_pos
  rw [codeLeaves_eq hsmall, List.append_cons, ← List.append_assoc, ← List.append_assoc,
    cell_write hE hzero hq (by decide), cell_write hE hzero hq (by decide),
    cell_chunkLeaves hE (fun i hi => hstems _ (chunkStem_lt hi)) hq, codeCell]
  simp only [List.mem_singleton, true_and]
  by_cases hone : q = 1
  · subst hone
    rfl
  · rw [if_neg hone, if_neg hone]

theorem cell_putCodeWrites (hE : StemsApart H E)
    (hstems : ∀ j < codeStemCount (chunkCount value.length), (a, j) ∈ E) (hq : (a, q / 256) ∈ E) :
    cell H (done ++ putCodeWrites K fuel ⟨H, tree⟩ a value) a q =
      codeCell (cell H done a) value (codeHeader K fuel ⟨H, tree⟩ a value) (K.hash value) q := by
  have hzero := hstems 0 codeStemCount_pos
  have hfirst : ∀ done', 1 < q → cell H (done' ++
      if (getAccount K fuel ⟨H, tree⟩ a).toOption.join = none then [headerWrite H K a .empty]
        else []) a q = cell H done' a q := by
    intro done' hlt
    split
    · rw [headerWrite, cell_write hE hzero hq (by decide), if_neg]
      rintro ⟨-, hmem⟩
      obtain rfl | rfl := List.mem_pair.mp hmem
      · omega
      · omega
    · rw [List.append_nil]
  rw [putCodeWrites, ← List.append_assoc, ← List.append_assoc,
    cell_write hE hzero hq (by decide), codeCell]
  by_cases hlow : q ∈ [0, 1]
  · rw [if_pos ⟨rfl, hlow⟩]
    obtain rfl | rfl := List.mem_pair.mp hlow
    · rfl
    · rfl
  · have hne : q ≠ 0 ∧ q ≠ 1 := by simpa using hlow
    rw [if_neg fun hboth => hlow hboth.2, if_neg hne.1, if_neg hne.2, codeWrites,
      cell_chunkWrites hE hstems hq, hfirst done (by omega)]
    by_cases hchunk : 128 ≤ q ∧ q < 128 + chunkCount value.length
    · have hstem := chunkStem_lt (i := q - 128) (m := chunkCount value.length) (by omega)
      rw [Nat.add_sub_cancel' hchunk.1] at hstem
      rw [if_pos hchunk, if_pos ⟨rfl, hchunk.1, hchunk.2, hstem⟩]
    · rw [if_neg hchunk, if_neg fun hall => hchunk ⟨hall.2.1, hall.2.2.1⟩]

/-- Both runs write under the stems of the code only. -/
theorem stem_of_mem_putCodeWrites {op : TreeOp}
    (h : op ∈ putCodeWrites K fuel ⟨H, tree⟩ a value) :
    ∃ j < codeStemCount (chunkCount value.length), op.stem = stemAt H a j := by
  rw [putCodeWrites, List.mem_append, List.mem_append, List.mem_singleton] at h
  obtain hfirst | hchunk | rfl := h
  · split at hfirst
    · rw [List.mem_singleton.mp hfirst]
      exact ⟨0, codeStemCount_pos, rfl⟩
    · cases hfirst
  · obtain ⟨j, hj, rfl⟩ := List.mem_map.mp hchunk
    exact ⟨j, List.mem_range.mp hj, rfl⟩
  · exact ⟨0, codeStemCount_pos, rfl⟩

theorem stem_of_mem_codeLeaves (hsmall : value.length < 2 ^ 24) {op : TreeOp}
    (h : op ∈ (codeLeaves K fuel ⟨H, tree⟩ a value).map putLeaf) :
    ∃ j < codeStemCount (chunkCount value.length), op.stem = stemAt H a j := by
  rw [codeLeaves_eq hsmall, List.mem_append, List.mem_pair] at h
  obtain hchunk | rfl | rfl := h
  · obtain ⟨i, hi, rfl⟩ := List.mem_map.mp hchunk
    exact ⟨_, chunkStem_lt (List.mem_range.mp hi), rfl⟩
  · exact ⟨0, codeStemCount_pos, rfl⟩
  · exact ⟨0, codeStemCount_pos, rfl⟩

theorem mapAfter_putCodeWrites (hE : StemsApart H E)
    (hstems : ∀ j < codeStemCount (chunkCount value.length), (a, j) ∈ E)
    (hsmall : value.length < 2 ^ 24) (key : Bytes) :
    Binarytree.mapAfter (done ++ putCodeWrites K fuel ⟨H, tree⟩ a value) key =
      Binarytree.mapAfter (done ++ (codeLeaves K fuel ⟨H, tree⟩ a value).map putLeaf) key := by
  by_cases hkey : ∃ j < codeStemCount (chunkCount value.length), key = stemAt H a j
  · obtain ⟨j, hj, rfl⟩ := hkey
    funext i
    have hi := i.toNat_lt
    have hq : (a, (256 * j + i.toNat) / 256) ∈ E := by
      rw [show (256 * j + i.toNat) / 256 = j by omega]
      exact hstems j hj
    rw [mapAfter_stemAt, mapAfter_stemAt, cell_putCodeWrites hE hstems hq,
      cell_codeLeaves hE hstems hsmall hq]
  · rw [mapAfter_of_ne, mapAfter_of_ne]
    · intro op hop heq
      obtain ⟨j, hj, hstem⟩ := stem_of_mem_codeLeaves hsmall hop
      exact hkey ⟨j, hj, heq.symm.trans hstem⟩
    · intro op hop heq
      obtain ⟨j, hj, hstem⟩ := stem_of_mem_putCodeWrites hop
      exact hkey ⟨j, hj, heq.symm.trans hstem⟩

theorem valid_codeLeaves (h : Filled H tree done) (hfuel : 248 ≤ fuel)
    (hsmall : value.length < 2 ^ 24) :
    ∀ op ∈ (codeLeaves K fuel ⟨H, tree⟩ a value).map putLeaf,
      op.Valid ∧ none ∉ op.values ∧ op.suffixes ≠ [] := by
  have hone : ∀ (j p : Nat) (v : Bytes), v.length = 32 →
      (TreeOp.put (stemAt H a j) [UInt8.ofNat p] [some v]).Valid := by
    intro j p v hv
    constructor
    · exact length_stemAt H a j
    · rfl
    · intro w hw
      cases List.mem_singleton.mp hw
      exact hv
  intro op hop
  rw [codeLeaves_eq hsmall, List.mem_append, List.mem_pair] at hop
  obtain hchunk | rfl | rfl := hop
  · obtain ⟨i, hi, rfl⟩ := List.mem_map.mp hchunk
    have hlt := List.mem_range.mp hi
    rw [← length_chunkifyBinaryTreeCode] at hlt
    have hget := List.getElem?_eq_getElem hlt
    have hleaf : chunkLeaf H a value i = .put (stemAt H a ((128 + i) / 256))
        [UInt8.ofNat (128 + i)] [some (chunkifyBinaryTreeCode value)[i]] := by
      rw [chunkLeaf, write, List.map_singleton, List.map_singleton, Nat.add_sub_cancel_left, hget]
    rw [hleaf]
    exact ⟨hone _ _ _ (chunk_spec hget).1, by simp [TreeOp.values], List.cons_ne_nil _ _⟩
  · refine ⟨hone 0 0 _ ?_, by simp [write, TreeOp.values], List.cons_ne_nil _ _⟩
    exact (decode_encode (codeHeader_eq h hfuel hsmall)).1
  · exact ⟨hone 0 1 _ (K.length_hash _), by simp [write, TreeOp.values], List.cons_ne_nil _ _⟩

theorem noCollision_of_nodup_two {ops ops' : List TreeOp} (hops : ∀ op ∈ ops, op.Valid)
    (hops' : ∀ op ∈ ops', op.Valid)
    (h : ((zeroMessage :: (ops.inits ++ ops'.inits).flatMap fun l =>
      (Binarytree.treeAfter H l).sparseMessages H).dedup.map (digest H)).Nodup) :
    NoCollision H (runMessages H ops ∪ runMessages H ops') := by
  have hone : ∀ {l ops'' : List TreeOp}, (∀ op ∈ ops'', op.Valid) → l <+: ops'' →
      l ∈ ops.inits ++ ops'.inits → ∀ msg ∈ (Binarytree.treeAfter H l).messages H,
        msg ∈ (zeroMessage :: (ops.inits ++ ops'.inits).flatMap fun l =>
          (Binarytree.treeAfter H l).sparseMessages H).dedup := by
    intro l ops'' hvalid hp hl msg hm
    rw [List.mem_dedup, List.mem_cons, List.mem_flatMap]
    have hAt := at_treeAfter (H := H) fun op hop => hvalid op (hp.subset hop)
    exact ((StemTree.sparse_of_at hAt).2 msg hm).imp_right fun hsparse => ⟨l, hl, hsparse⟩
  have hmem : ∀ msg ∈ insert zeroMessage (runMessages H ops ∪ runMessages H ops'), msg ∈
      (zeroMessage :: (ops.inits ++ ops'.inits).flatMap fun l =>
        (Binarytree.treeAfter H l).sparseMessages H).dedup := by
    intro msg hmsg
    obtain rfl | ⟨l, hp, hm⟩ | ⟨l, hp, hm⟩ := hmsg
    · rw [List.mem_dedup]
      exact List.mem_cons_self
    · exact hone hops hp (List.mem_append_left _ ((List.mem_inits _ _).mpr hp)) msg hm
    · exact hone hops' hp (List.mem_append_right _ ((List.mem_inits _ _).mpr hp)) msg hm
  exact fun x hx y hy heq => List.inj_on_of_nodup_map h (hmem x hx) (hmem y hy) heq

theorem noCollision_sampleCode : NoCollision polynomialHash
    (runMessages polynomialHash ([] ++ putCodeWrites polynomialHash 248 (create polynomialHash)
        sampleAddress [0x60, 0]) ∪
      runMessages polynomialHash ([] ++ (codeLeaves polynomialHash 248 (create polynomialHash)
        sampleAddress [0x60, 0]).map putLeaf)) :=
  noCollision_of_nodup_two (valid_of_check (by decide +kernel)) (valid_of_check (by decide +kernel))
    (by decide +kernel)

/-- The hash of the empty code is apart from all others. -/
def lengthHash : HashKeysFunction where
  hash msg := List.replicate 32 (if msg = [] then 0 else 1)
  length_hash _ := List.length_replicate

end Equal

end EthereumJS.BinaryTreeState
