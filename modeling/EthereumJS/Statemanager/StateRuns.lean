import EthereumJS.Statemanager.Contents

/-! # Runs of the state manager

Each operation writes to the tree what the contents say, and what is read is what was written.
-/

namespace EthereumJS.BinaryTreeState

open Binarytree RLP StatefulBinaryTreeStateManager

variable {H K : HashKeysFunction} {E : Set (TreeAddress × Nat)} {S : Set Bytes}
  {contents : Contents} {codes : TreeAddress → Bytes} {tree : BinaryTree} {done : List TreeOp}
  {a : TreeAddress} {e : AccountContents} {bytes code value : Bytes} {fuel j n : Nat}

section Leaves

/-- Some leaf of the tree has a value. -/
def Written (done : List TreeOp) : Prop :=
  ∃ key : Bytes, key.length = 31 ∧ ∃ i, Binarytree.mapAfter done key i ≠ none

theorem written_of_cell {q : Nat} (h : cell H done a q ≠ none) : Written done :=
  ⟨_, length_stemAt _ _ _, _, h⟩

theorem Written.write (h : Written done) {positions : List Nat} {value : Nat → Option Bytes}
    (hvalue : ∀ p ∈ positions, value p ≠ none) :
    Written (done ++ [write H a j positions value]) := by
  obtain ⟨key, hkey, i, hi⟩ := h
  refine ⟨key, hkey, i, ?_⟩
  rw [mapAfter_append, TreeOp.apply, Function.update_apply]
  split
  · next hstem =>
    rw [hstem] at hi
    refine assign_ne_none (fun e he => ?_) (.inl hi)
    obtain ⟨p, hp, hv⟩ := List.mem_map.mp (List.of_mem_zip he).2
    exact hv ▸ hvalue p hp
  · exact hi

theorem treePut_write (h : Filled H tree done) (hfuel : 248 ≤ fuel) (hS : NoCollision H S)
    {positions : List Nat} {value : Nat → Option Bytes} (suffixes : List Nat)
    (values : List (Option Bytes)) (hvalue : ∀ p ∈ positions, ∃ v, value p = some v ∧ v.length = 32)
    (hmsg : Hashed H S (done ++ [write H a j positions value]))
    (hstart : positions ≠ [] ∨ Written done)
    (hsuffixes : suffixes.map UInt8.ofNat = positions.map UInt8.ofNat)
    (hvalues : values = positions.map value) :
    ∃ tree', treePut fuel ⟨H, tree⟩ (stemAt H a j) suffixes values = .ok ⟨H, tree'⟩ ∧
      Filled H tree' (done ++ [write H a j positions value]) := by
  have hvalid : (write H a j positions value).Valid := by
    constructor
    · exact length_stemAt H a j
    · exact (List.length_map _).trans (List.length_map _).symm
    · intro v hv
      obtain ⟨p, hp, heq⟩ := List.mem_map.mp hv
      obtain ⟨v', hv', hlength⟩ := hvalue p hp
      cases heq.symm.trans hv'
      exact hlength
  have hnone : none ∉ positions.map value := by
    intro hmem
    obtain ⟨p, hp, heq⟩ := List.mem_map.mp hmem
    obtain ⟨v, hv, -⟩ := hvalue p hp
    cases heq.symm.trans hv
  have hne : positions.map UInt8.ofNat ≠ [] ∨ Written done :=
    hstart.imp_left fun hne hnil => hne (List.map_eq_nil_iff.mp hnil)
  obtain ⟨tree', hput, hfilled⟩ := h.put hvalid hnone hfuel hS hmsg hne
  refine ⟨tree', ?_, hfilled⟩
  rw [treePut, hsuffixes, hvalues, hput]

theorem treeGet_cells (h : Filled H tree done) (hfuel : 248 ≤ fuel)
    (positions suffixes : List Nat) (hblock : ∀ p ∈ positions, p / 256 = j)
    (hsuffixes : suffixes.map UInt8.ofNat = positions.map UInt8.ofNat) :
    ∃ values, treeGet fuel ⟨H, tree⟩ (stemAt H a j) suffixes = .ok values ∧
      (values = positions.map (cell H done a) ∨
        values = [] ∧ ∀ p ∈ positions, cell H done a p = none) := by
  obtain ⟨values, hget, hvalues⟩ := h.get hfuel (length_stemAt H a j)
    (positions.map UInt8.ofNat)
  refine ⟨values, ?_, hvalues.imp ?_ ?_⟩
  · rw [treeGet, hsuffixes, hget]
    rfl
  · rintro rfl
    rw [List.map_map]
    refine List.map_congr_left fun p hp => ?_
    rw [Function.comp_apply, cell, hblock p hp]
  · rintro ⟨rfl, hnone⟩
    refine ⟨rfl, fun p hp => ?_⟩
    rw [cell, hblock p hp]
    exact hnone _

end Leaves

section Accounts

theorem createPartialAccount_eq (h : decodeBinaryTreeLeafBasicData bytes = (e.account K).basicData) :
    createPartialAccount (decodeBinaryTreeLeafBasicData bytes) (keccakNull K) (K.hash e.code) =
      .ok (e.account K) := by
  rw [h, createPartialAccount, newAccount, if_neg (by simp [keccakNull, K.length_hash]),
    if_neg (by simp [K.length_hash])]
  simp only [bytesToBigInt, intToBytes, bytesToNumber_bigIntToBytes]
  rfl

/-- An account that exists has the fields last written, with the root of no storage. -/
theorem getAccount_eq (h : Filled H tree done) (hstored : Stored H K E contents codes done)
    (hfuel : 248 ≤ fuel) (ha : (a, 0) ∈ E) :
    getAccount K fuel ⟨H, tree⟩ a = .ok ((contents a).map (AccountContents.account K)) := by
  obtain ⟨values, hget, hvalues⟩ := treeGet_cells (a := a) (j := 0) h hfuel [0, 1] [0, 1]
    (by decide) rfl
  rw [getAccount, getBinaryTreeStem_number (by decide), hget]
  cases hcontents : contents a with
  | none =>
    have habsent := hstored.absent a ha hcontents
    have hfirst : values[0]?.join = none := by
      obtain rfl | ⟨rfl, -⟩ := hvalues
      · exact habsent
      · rfl
    dsimp only [bind, Except.bind]
    rw [hfirst]
    rfl
  | some e =>
    obtain ⟨bytes, hbytes, hbasic, hhash⟩ := hstored.header a e hcontents
    have hcells : values[0]?.join = some bytes ∧ values[1]?.join = some (K.hash e.code) := by
      obtain rfl | ⟨-, hnone⟩ := hvalues
      · exact ⟨hbasic, hhash⟩
      · rw [hnone 0 (by decide)] at hbasic
        cases hbasic
    have hcode : (if K.hash e.code = List.replicate 32 0 then keccakNull K else K.hash e.code) =
        K.hash e.code := by
      split
      · next hzero =>
        by_cases hnil : e.code = []
        · rw [hnil, keccakNull]
        · exact absurd hzero (hstored.apart a e hcontents hnil).2
      · rfl
    have haccount := createPartialAccount_eq (decode_encode hbytes).2.1
    dsimp only [bind, Except.bind]
    rw [hcells.1, hcells.2]
    dsimp only
    rw [hcode, haccount]
    rfl

theorem putAccount_eq (h : Filled H tree done) (hfuel : 248 ≤ fuel) (hS : NoCollision H S)
    {account : LeafAccount} (hdata : account.basicData = (e.account K).basicData)
    (hhash : account.codeHash = K.hash e.code)
    (hbytes : encodeBinaryTreeLeafBasicData (e.account K).basicData = .ok bytes)
    (hmsg : Hashed H S (done ++ [write H a 0 [0, 1] (headerValue bytes (K.hash e.code))])) :
    ∃ tree', putAccount fuel ⟨H, tree⟩ a (some account) = .ok ⟨H, tree'⟩ ∧
      Filled H tree' (done ++ [write H a 0 [0, 1] (headerValue bytes (K.hash e.code))]) := by
  have hvalue : ∀ p ∈ [0, 1], ∃ v, headerValue bytes (K.hash e.code) p = some v ∧
      v.length = 32 := by
    intro p hp
    obtain rfl | rfl := List.mem_pair.mp hp
    · exact ⟨bytes, rfl, (decode_encode hbytes).1⟩
    · exact ⟨K.hash e.code, rfl, K.length_hash _⟩
  obtain ⟨tree', hput, hfilled⟩ := treePut_write h hfuel hS [0, 1]
    [some bytes, some (K.hash e.code)] hvalue hmsg (.inl (by decide)) rfl rfl
  refine ⟨tree', ?_, hfilled⟩
  rw [putAccount, hdata, hbytes, hhash, getBinaryTreeStem_number (by decide)]
  exact hput

end Accounts

section Chunks

theorem map_some_eq (xs : List Bytes) :
    xs.map some = (List.range xs.length).map fun i => xs[i]? := by
  apply List.ext_getElem?
  intro i
  rw [List.getElem?_map, List.getElem?_map]
  by_cases hi : i < xs.length
  · rw [List.getElem?_eq_getElem hi, List.getElem?_eq_getElem (by simpa using hi),
      List.getElem_range, Option.map_some, Option.map_some, List.getElem?_eq_getElem hi]
  · rw [List.getElem?_eq_none (by omega), List.getElem?_eq_none (by simpa using hi)]
    rfl

theorem zipIdx_range' {α : Type} (f : Nat → α) (s m : Nat) :
    ((List.range' s m).map f).zipIdx s = (List.range' s m).map fun j => (f j, j) := by
  induction m generalizing s with
  | zero => rfl
  | succ m ih => rw [List.range'_succ, List.map_cons, List.zipIdx_cons, ih, List.map_cons]

/-- The stems of a code with their numbers, the first one apart. -/
theorem codeStems_eq (hsmall : n < 2 ^ 24) : ∃ later : Nat, codeStemCount n = later + 1 ∧
    generateBinaryTreeCodeStems H a n =
      stemAt H a 0 :: (List.range' 1 later).map (stemAt H a) := by
  obtain ⟨later, hlater⟩ := Nat.exists_eq_succ_of_ne_zero (codeStemCount_pos (n := n)).ne'
  refine ⟨later, hlater, ?_⟩
  rw [generateBinaryTreeCodeStems_eq hsmall, hlater, List.range_eq_range', List.range'_succ,
    List.map_cons]

theorem chunkSuffixes_ofNat : ((chunkPositions n j).map fun p => (128 + (p - 128)) % 256).map
    UInt8.ofNat = (chunkPositions n j).map UInt8.ofNat := by
  rw [List.map_map]
  refine List.map_congr_left fun p hp => ?_
  have hle := (mem_chunkPositions.mp hp).1
  rw [Function.comp_apply, Nat.add_sub_cancel' hle, ofNat_mod]

theorem chunk_value {p : Nat} (hp : p ∈ chunkPositions (chunkCount code.length) j) :
    ∃ v, (chunkifyBinaryTreeCode code)[p - 128]? = some v ∧ v.length = 32 := by
  obtain ⟨hle, hlt, -⟩ := mem_chunkPositions.mp hp
  have hi : p - 128 < (chunkifyBinaryTreeCode code).length := by
    rw [length_chunkifyBinaryTreeCode]
    omega
  have hget := List.getElem?_eq_getElem hi
  exact ⟨_, hget, (chunk_spec hget).1⟩

theorem Written.chunkWrite (h : Written done) (code : Bytes) (j : Nat) :
    Written (done ++ [chunkWrite H a code j]) := by
  refine h.write fun p hp hnone => ?_
  obtain ⟨v, hv, -⟩ := chunk_value hp
  cases hnone.symm.trans hv

theorem treePut_chunks (h : Filled H tree done) (hfuel : 248 ≤ fuel) (hS : NoCollision H S)
    (hwritten : Written done) (hmsg : Hashed H S (done ++ [chunkWrite H a code j]))
    {suffixes : List Nat} {values : List (Option Bytes)}
    (hsuffixes : suffixes = (chunkPositions (chunkCount code.length) j).map
      fun p => (128 + (p - 128)) % 256)
    (hvalues : values = (chunkPositions (chunkCount code.length) j).map
      fun p => (chunkifyBinaryTreeCode code)[p - 128]?) :
    ∃ tree', treePut fuel ⟨H, tree⟩ (stemAt H a j) suffixes values = .ok ⟨H, tree'⟩ ∧
      Filled H tree' (done ++ [chunkWrite H a code j]) := by
  refine treePut_write h hfuel hS suffixes values (fun p hp => chunk_value hp) hmsg (.inr hwritten) ?_ hvalues
  rw [hsuffixes]
  exact chunkSuffixes_ofNat

theorem chunkCount_le (size : Nat) : chunkCount size ≤ size := by
  rw [chunkCount]
  omega

/-- The loop over the later stems. -/
theorem foldlM_laterChunks (h : Filled H tree done) (hfuel : 248 ≤ fuel) (hS : NoCollision H S)
    (hwritten : Written done) (s m : Nat) (hs : 0 < s)
    (hmsg : Hashed H S (done ++ (List.range' s m).map (chunkWrite H a code))) :
    ∃ tree', (List.range' s m).foldlM (fun manager j =>
        treePut fuel manager (stemAt H a j)
          (laterSlice code.length j ((List.range (chunkCount code.length)).map fun i =>
            (128 + i) % 256))
          (laterSlice code.length j ((List.range (chunkCount code.length)).map fun i =>
            (chunkifyBinaryTreeCode code)[i]?))) ⟨H, tree⟩ = .ok ⟨H, tree'⟩ ∧
      Filled H tree' (done ++ (List.range' s m).map (chunkWrite H a code)) := by
  induction m generalizing s tree done with
  | zero => exact ⟨tree, rfl, by rwa [List.range'_zero, List.map_nil, List.append_nil]⟩
  | succ m ih =>
    rw [List.range'_succ, List.map_cons, List.append_cons] at hmsg ⊢
    have hcount := chunkCount_le code.length
    obtain ⟨tree₁, hput, hfilled⟩ := treePut_chunks h hfuel hS hwritten
      (hmsg.before (List.prefix_append _ _)) (laterSlice_eq (fun i => (128 + i) % 256) hs hcount)
      (laterSlice_eq (fun i => (chunkifyBinaryTreeCode code)[i]?) hs hcount)
    obtain ⟨tree', hrest, hfinal⟩ := ih hfilled (hwritten.chunkWrite code s) (s + 1)
      (Nat.succ_pos s) hmsg
    refine ⟨tree', ?_, hfinal⟩
    rw [List.foldlM_cons, hput]
    exact hrest

theorem putChunks_eq (h : Filled H tree done) (hfuel : 248 ≤ fuel) (hS : NoCollision H S)
    (hwritten : Written done) (hsmall : code.length < 2 ^ 24)
    (hmsg : Hashed H S (done ++ chunkWrites H a code (codeStemCount (chunkCount code.length)))) :
    ∃ tree', putChunks fuel ⟨H, tree⟩ a code = .ok ⟨H, tree'⟩ ∧
      Filled H tree' (done ++ chunkWrites H a code (codeStemCount (chunkCount code.length))) := by
  have hcount : chunkCount code.length < 2 ^ 24 := (chunkCount_le _).trans_lt hsmall
  obtain ⟨later, hlater, hstems⟩ := codeStems_eq (H := H) (a := a) hcount
  have hlength : ((chunkifyBinaryTreeCode code).map some).length = chunkCount code.length := by
    rw [List.length_map, length_chunkifyBinaryTreeCode]
  have hchunks : (chunkifyBinaryTreeCode code).map some =
      (List.range (chunkCount code.length)).map fun i => (chunkifyBinaryTreeCode code)[i]? := by
    rw [map_some_eq, length_chunkifyBinaryTreeCode]
  rw [hlater, chunkWrites, List.range_eq_range', List.range'_succ, List.map_cons,
    List.append_cons] at hmsg ⊢
  obtain ⟨tree₁, hput, hfilled⟩ := treePut_chunks h hfuel hS hwritten
    (hmsg.before (List.prefix_append _ _))
    (firstSlice_eq (fun i => (128 + i) % 256) (le_refl (chunkCount code.length)))
    (firstSlice_eq (fun i => (chunkifyBinaryTreeCode code)[i]?) (le_refl (chunkCount code.length)))
  obtain ⟨tree', hrest, hfinal⟩ := foldlM_laterChunks hfilled hfuel hS (hwritten.chunkWrite code 0)
    1 later Nat.one_pos hmsg
  refine ⟨tree', ?_, hfinal⟩
  rw [putChunks, hlength, hchunks, generateBinaryTreeChunkSuffixes_eq, hstems]
  dsimp only
  rw [List.length_map, List.length_range, hput, zipIdx_range']
  change ((List.range' 1 later).map fun j => (stemAt H a j, j)).foldlM _ _ = _
  rw [List.foldlM_map]
  exact hrest

/-- The chunks come back in order from all stems. -/
theorem getChunks_eq (h : Filled H tree done) (hfuel : 248 ≤ fuel) (hsmall : code.length < 2 ^ 24)
    (hchunk : ∀ i < chunkCount code.length,
      cell H done a (128 + i) = (chunkifyBinaryTreeCode code)[i]?) :
    getChunks fuel ⟨H, tree⟩ a code.length = .ok ((chunkifyBinaryTreeCode code).map some) := by
  have hle := chunkCount_le code.length
  have hcount : chunkCount code.length < 2 ^ 24 := hle.trans_lt hsmall
  obtain ⟨later, hlater, hstems⟩ := codeStems_eq (H := H) (a := a) hcount
  have hread : ∀ j (suffixes : List Nat),
      suffixes = (chunkPositions (chunkCount code.length) j).map
        (fun p => (128 + (p - 128)) % 256) →
      treeGet fuel ⟨H, tree⟩ (stemAt H a j) suffixes =
        .ok ((chunkPositions (chunkCount code.length) j).map (cell H done a)) := by
    intro j suffixes hsuffixes
    obtain ⟨values, hget, hvalues⟩ := treeGet_cells (a := a) h hfuel _ suffixes
      (fun p hp => (mem_chunkPositions.mp hp).2.2)
      ((congrArg (List.map UInt8.ofNat) hsuffixes).trans chunkSuffixes_ofNat)
    rw [hget]
    obtain rfl | ⟨rfl, hnone⟩ := hvalues
    · rfl
    · -- only a stem without chunks may be missing
      have hempty : chunkPositions (chunkCount code.length) j = [] := by
        rw [List.eq_nil_iff_forall_not_mem]
        intro p hp
        obtain ⟨hlow, hhigh, -⟩ := mem_chunkPositions.mp hp
        obtain ⟨v, hv, -⟩ := chunk_value hp
        have hcell := hchunk (p - 128) (by omega)
        rw [Nat.add_sub_cancel' hlow, hnone p hp, hv] at hcell
        cases hcell
      rw [hempty]
      rfl
  have hmap : (((List.range' 1 later).map (stemAt H a)).zipIdx 1).mapM (fun entry =>
      treeGet fuel ⟨H, tree⟩ entry.1 (laterSlice code.length entry.2
        ((List.range (chunkCount code.length)).map fun i => (128 + i) % 256))) =
      (.ok ((List.range' 1 later).map fun j =>
        (chunkPositions (chunkCount code.length) j).map (cell H done a)) :
          Except StateError (List (List (Option Bytes)))) := by
    rw [zipIdx_range', List.mapM_map]
    refine mapM_eq_ok fun j hj => ?_
    have hpos := (List.mem_range'_1.mp hj).1
    exact hread j _ (laterSlice_eq (fun i => (128 + i) % 256) hpos hle)
  rw [getChunks, generateBinaryTreeChunkSuffixes_eq, hstems]
  dsimp only
  rw [hread 0 _ (firstSlice_eq (fun i => (128 + i) % 256) hle), hmap]
  refine congrArg Except.ok ?_
  have hall : (List.range (later + 1)).flatMap (chunkPositions (chunkCount code.length)) =
      List.range' 128 (chunkCount code.length) := by
    rw [flatMap_chunkPositions _ (later + 1) (by omega), ← hlater, codeStemCount_eq]
    refine range'_congr rfl ?_
    split <;> omega
  have hcells : ((List.range' 128 (chunkCount code.length)).map (cell H done a)) =
      (chunkifyBinaryTreeCode code).map some := by
    rw [map_some_eq, length_chunkifyBinaryTreeCode, List.range'_eq_map_range, List.map_map]
    exact List.map_congr_left fun i hi => hchunk i (List.mem_range.mp hi)
  rw [← hcells, ← hall, List.map_flatMap, List.range_eq_range', List.range'_succ,
    List.flatMap_cons, List.flatten_cons, List.flatMap_def]

end Chunks

section Code

theorem setBytes_append {front part back rest : Bytes} {offset : Nat}
    (hfront : front.length = offset) (h : back.length = part.length) :
    setBytes (front ++ (back ++ rest)) part offset = .ok (front ++ part ++ rest) := by
  subst hfront
  rw [setBytes, if_neg (by simp only [List.length_append]; omega), List.take_left',
    ← List.drop_drop, List.drop_left', List.drop_append_of_le_length (by omega),
    List.drop_of_length_le (by omega), List.nil_append]
  · rfl
  · rfl

theorem insertChunk_eq {i : Nat} {chunk : Bytes} (hi : i < chunkCount code.length)
    (h : (chunkifyBinaryTreeCode code)[i]? = some chunk) :
    insertChunk code.length (chunkCount code.length)
        (code.take (31 * i) ++ List.replicate (code.length - 31 * i) 0) (some chunk, i) =
      .ok (code.take (31 * (i + 1)) ++ List.replicate (code.length - 31 * (i + 1)) 0) := by
  rw [chunkCount] at hi ⊢
  obtain ⟨hlength, hbytes⟩ := chunk_spec h
  have hlast : (if i = (code.length + 30) / 31 - 1 then
      if code.length % 31 = 0 then 31 else code.length % 31 else 31) =
        min 31 (code.length - 31 * i) := by
    split
    · split <;> omega
    · omega
  have hpart : (chunk.take (min 31 (code.length - 31 * i) + 1)).drop 1 =
      (code.drop (31 * i)).take (min 31 (code.length - 31 * i)) := by
    rw [List.drop_take, Nat.add_sub_cancel, hbytes, List.take_take, paddedCode,
      List.drop_append_of_le_length (by omega), List.take_append_of_le_length]
    · congr 1
      omega
    · rw [List.length_drop]
      omega
  have hfront : (code.take (31 * i)).length = 31 * i := by
    rw [List.length_take]
    omega
  change setBytes _ ((chunk.take ((if i = (code.length + 30) / 31 - 1 then
    if code.length % 31 = 0 then 31 else code.length % 31 else 31) + 1)).drop 1) (i * 31) = _
  have hsplit : List.replicate (code.length - 31 * i) (0 : UInt8) =
      List.replicate (min 31 (code.length - 31 * i)) 0 ++
        List.replicate (code.length - 31 * (i + 1)) 0 := by
    rw [List.replicate_append_replicate]
    congr 1
    omega
  have htake : code.take (31 * (i + 1)) =
      code.take (31 * i) ++ (code.drop (31 * i)).take (min 31 (code.length - 31 * i)) := by
    rw [← List.take_add]
    by_cases hend : 31 * (i + 1) ≤ code.length
    · congr 1
      omega
    · rw [List.take_of_length_le (by omega), List.take_of_length_le (by omega)]
  rw [hlast, hpart, hsplit, htake, Nat.mul_comm i 31]
  refine setBytes_append hfront ?_
  rw [List.length_replicate, List.length_take, List.length_drop]
  omega

/-- The chunks without their first bytes are the code. -/
theorem insertChunks_eq (code : Bytes) :
    ((chunkifyBinaryTreeCode code).map some).zipIdx.foldlM
        (insertChunk code.length (chunkCount code.length)) (List.replicate code.length 0) =
      .ok code := by
  have hprefix : ∀ m ≤ chunkCount code.length,
      ((List.range m).map fun i => ((chunkifyBinaryTreeCode code)[i]?, i)).foldlM
          (insertChunk code.length (chunkCount code.length)) (List.replicate code.length 0) =
        .ok (code.take (31 * m) ++ List.replicate (code.length - 31 * m) 0) := by
    intro m hm
    induction m with
    | zero => rfl
    | succ m ih =>
      have hi : m < (chunkifyBinaryTreeCode code).length := by
        rw [length_chunkifyBinaryTreeCode]
        omega
      have hchunk := List.getElem?_eq_getElem hi
      rw [List.range_succ, List.map_append, List.foldlM_append, ih (by omega), List.map_singleton,
        hchunk]
      exact (bind_pure _).trans (insertChunk_eq (by omega) hchunk)
  have hentries : ((chunkifyBinaryTreeCode code).map some).zipIdx =
      (List.range (chunkCount code.length)).map fun i => ((chunkifyBinaryTreeCode code)[i]?, i) := by
    rw [map_some_eq, length_chunkifyBinaryTreeCode, List.range_eq_range']
    exact zipIdx_range' _ 0 _
  rw [hentries, hprefix _ le_rfl, List.take_of_length_le (by rw [chunkCount]; omega),
    Nat.sub_eq_zero_of_le (by rw [chunkCount]; omega), List.replicate_zero, List.append_nil]

theorem getCode_eq (h : Filled H tree done) (hstored : Stored H K E contents contents.code done)
    (hfuel : 248 ≤ fuel) (ha : (a, 0) ∈ E) :
    getCode K fuel ⟨H, tree⟩ a = .ok (contents.code a) := by
  rw [getCode, getAccount_eq h hstored hfuel ha]
  cases hcontents : contents a with
  | none =>
    rw [Contents.code, Contents.get, hcontents]
    rfl
  | some e =>
    have hcode : contents.code a = e.code := by
      rw [Contents.code, Contents.get, hcontents]
      rfl
    rw [hcode]
    change (if !(e.account K).isContract K then _ else _) = _
    by_cases hnil : e.code = []
    · rw [if_pos, hnil]
      · rfl
      · simp [LeafAccount.isContract, AccountContents.account, hnil, keccakNull]
    · have hcontract : (e.account K).isContract K = true := by
        simp [LeafAccount.isContract, AccountContents.account, (hstored.apart a e hcontents hnil).1]
      have hsmall := hstored.small a
      have hchunk := hstored.chunk a
      rw [hcode] at hsmall hchunk
      rw [hcontract]
      change (getChunks fuel ⟨H, tree⟩ a e.code.length >>= _) = _
      rw [getChunks_eq h hfuel hsmall hchunk]
      change ((chunkifyBinaryTreeCode e.code).map some).zipIdx.foldlM
        (insertChunk e.code.length ((chunkifyBinaryTreeCode e.code).map some).length)
        (List.replicate e.code.length 0) = _
      rw [List.length_map, length_chunkifyBinaryTreeCode, insertChunks_eq]

end Code

section Slots

variable {key : Bytes}

theorem bytesToBigInt_lt (hkey : key.length = 32) : bytesToBigInt key < 256 ^ 32 :=
  hkey ▸ bytesToNumber_lt key

/-- The key of a slot is its stem and its suffix. -/
theorem storageKey_eq {k : Nat} (hk : k < 256 ^ 32) :
    (getBinaryTreeKeyForStorageSlot H a k).take 31 = stemAt H a (storagePosition k / 256) ∧
      [((getBinaryTreeKeyForStorageSlot H a k).getD 31 0).toNat].map UInt8.ofNat =
        [storagePosition k].map UInt8.ofNat := by
  have hlength := length_stemAt H a (storagePosition k / 256)
  rw [getBinaryTreeKeyForStorageSlot_eq hk]
  constructor
  · exact List.take_left' hlength
  · rw [List.getD_eq_getElem?_getD, List.getElem?_append_right (by omega), hlength]
    simp [ofNat_mod]

theorem getStorage_eq (h : Filled H tree done) (hstored : Stored H K E contents codes done)
    (hfuel : 248 ≤ fuel) (ha : (a, 0) ∈ E) (hkey : key.length = 32)
    (hslot : (a, storagePosition (bytesToBigInt key) / 256) ∈ E) :
    getStorage K fuel ⟨H, tree⟩ a key = .ok (contents.slot a (bytesToBigInt key)) := by
  obtain ⟨hstem, hsuffix⟩ := storageKey_eq (H := H) (a := a) (bytesToBigInt_lt hkey)
  have hcell := hstored.slot a _ hslot
  obtain ⟨values, hget, hvalues⟩ := treeGet_cells (a := a) h hfuel
    [storagePosition (bytesToBigInt key)] _
    (fun p hp => by rw [List.mem_singleton.mp hp]) hsuffix
  have hread : values[0]?.join = (contents a).bind fun e => e.storage (bytesToBigInt key) := by
    rw [← hcell]
    obtain rfl | ⟨rfl, hnone⟩ := hvalues
    · rfl
    · exact (hnone _ (List.mem_singleton_self _)).symm
  rw [getStorage, if_neg (not_not.mpr hkey), getAccount_eq h hstored hfuel ha, Contents.slot]
  cases hcontents : contents a with
  | none => rfl
  | some e =>
    change (treeGet fuel ⟨H, tree⟩ ((getBinaryTreeKeyForStorageSlot H a (bytesToBigInt key)).take 31)
      [((getBinaryTreeKeyForStorageSlot H a (bytesToBigInt key)).getD 31 0).toNat] >>= _) = _
    rw [hstem, hget]
    change ((setLengthLeft (values[0]?.join.getD []) 32).mapError StateError.bytes) = _
    rw [hread, hcontents, Option.bind_some]
    dsimp only
    cases hvalue : e.storage (bytesToBigInt key) with
    | none => rfl
    | some value =>
      have hlength := hstored.short a e _ value hcontents hvalue
      rw [Option.getD_some, Option.getD_some, setLengthLeft, if_neg (by omega), hlength]
      rfl

theorem putStorage_eq (h : Filled H tree done) (hfuel : 248 ≤ fuel) (hS : NoCollision H S)
    (hkey : key.length = 32) (hvalue : value.length = 32)
    (hmsg : Hashed H S (done ++ [write H a (storagePosition (bytesToBigInt key) / 256)
      [storagePosition (bytesToBigInt key)] fun _ => some value])) :
    ∃ tree', putStorage fuel ⟨H, tree⟩ a key value = .ok ⟨H, tree'⟩ ∧
      Filled H tree' (done ++ [write H a (storagePosition (bytesToBigInt key) / 256)
        [storagePosition (bytesToBigInt key)] fun _ => some value]) := by
  obtain ⟨hstem, hsuffix⟩ := storageKey_eq (H := H) (a := a) (bytesToBigInt_lt hkey)
  obtain ⟨tree', hput, hfilled⟩ := treePut_write h hfuel hS _ _ (fun _ _ => ⟨value, rfl, hvalue⟩) hmsg
    (.inl (List.cons_ne_nil _ _)) hsuffix rfl
  refine ⟨tree', ?_, hfilled⟩
  have hsame : setLengthLeft value 32 = .ok value := by
    rw [setLengthLeft, if_neg (by omega), hvalue]
    rfl
  rw [putStorage, hsame, hstem]
  exact hput

end Slots

end EthereumJS.BinaryTreeState
