import Mathlib.Data.List.Forall2
import EthereumJS.E2store.Era

/-! # What is read from entries and block indices -/

namespace EthereumJS.E2store

open LittleEndian

section Slices

theorem slice_ofNat (bytes : Bytes) (start : Nat) (h : start ≤ bytes.length) :
    slice bytes start = bytes.drop start := by
  unfold slice relativeIndex
  rw [if_neg (by omega)]
  congr 1
  omega

theorem slice_neg (bytes : Bytes) (k : Nat) (h : k ≤ bytes.length) (hpos : 0 < k) :
    slice bytes (-k) = bytes.drop (bytes.length - k) := by
  unfold slice relativeIndex
  rw [if_pos (by omega)]
  congr 1
  omega

theorem subarray_append (a b c : Bytes) :
    subarray (a ++ (b ++ c)) a.length (a.length + b.length : Nat) = b := by
  unfold subarray relativeIndex
  rw [if_neg (by omega), if_neg (by omega)]
  simp only [Int.toNat_natCast, List.length_append]
  rw [min_eq_left (by omega), min_eq_left (by omega)]
  simp [List.take_append]

@[simp] theorem length_bigInt64ToBytes (value : Int) : (bigInt64ToBytes value).length = 8 :=
  length_leBytes 8 _

theorem take_bigInt64ToBytes {n : Nat} (h : n < 2 ^ 64) :
    (bigInt64ToBytes n).take 6 = leBytes 6 n := by
  have hmod : ((n : Int) % 2 ^ 64).toNat = n := by omega
  rw [bigInt64ToBytes, hmod, take_leBytes 8 6 n (by omega)]

theorem bytesToBigInt64_bigInt64ToBytes {n : Nat} (h : n < 2 ^ 64) :
    bytesToBigInt64 (bigInt64ToBytes n) = n := by
  have hmod : ((n : Int) % 2 ^ 64).toNat = n := by omega
  rw [bytesToBigInt64, bigInt64ToBytes, hmod, take_leBytes 8 8 n le_rfl, leNumber_leBytes]
  exact Nat.mod_eq_of_lt (by simpa using h)

theorem getBigInt64_bigInt64ToBytes {value : Int} (hmin : -2 ^ 63 ≤ value) (hmax : value < 2 ^ 63) :
    getBigInt64 (bigInt64ToBytes value) = .ok value := by
  have hnumber : (leNumber ((bigInt64ToBytes value).take 8) : Int) = value % 2 ^ 64 := by
    rw [bigInt64ToBytes, take_leBytes 8 8 _ le_rfl, leNumber_leBytes]
    have hlt : (value % 2 ^ 64).toNat < 256 ^ 8 := by omega
    rw [Nat.mod_eq_of_lt hlt]
    omega
  unfold getBigInt64
  rw [if_neg (by simp)]
  dsimp only
  rw [hnumber]
  split <;> congr 1 <;> omega

end Slices

section Entries

theorem length_entryBytes (type data : Bytes) (htype : type.length = 2) :
    (entryBytes type data).length = data.length + 8 := by
  simp [entryBytes, htype]
  omega

theorem readEntry_entryBytes {type data : Bytes} (htype : type.length = 2)
    (hdata : data.length < 2 ^ 48) :
    readEntry (entryBytes type data) = .ok { type := type, data := data } := by
  have hlen := length_entryBytes type data htype
  have hnumber : leNumber (((entryBytes type data).drop 2).take 6) = data.length := by
    have htake : ((entryBytes type data).drop 2).take 6 = leBytes 6 data.length := by
      rw [entryBytes, take_bigInt64ToBytes (by omega), ← htype, List.append_assoc,
        List.drop_left, List.take_left' (length_leBytes 6 _)]
    rw [htake, leNumber_leBytes]
    exact Nat.mod_eq_of_lt (by simpa using hdata)
  unfold readEntry
  rw [if_neg (by omega)]
  dsimp only
  rw [hnumber, if_neg (by omega)]
  have hfirst : (entryBytes type data).take 2 = type := by
    rw [entryBytes, List.append_assoc, List.take_left' htype]
  have hdrop : (entryBytes type data).drop 8 = data := by
    rw [entryBytes, take_bigInt64ToBytes (by omega)]
    exact List.drop_left' (by simp [htype])
  rw [hfirst, hdrop, List.take_length]

/-- An entry that ends before the bytes do is what was written there. -/
theorem entryBytes_prefix {bytes : Bytes} {entry : E2StoreEntry}
    (h : readEntry bytes = .ok entry) (hlen : entry.data.length + 8 < bytes.length) :
    entryBytes entry.type entry.data <+: bytes := by
  unfold readEntry at h
  split at h
  · cases h
  · dsimp only at h
    split at h
    · cases h
    · cases h
      have hsix : ((bytes.drop 2).take 6).length = 6 := by
        rw [List.length_take, List.length_drop]
        omega
      simp only [List.length_take, List.length_drop] at hlen
      have hlt := leNumber_lt ((bytes.drop 2).take 6)
      rw [hsix] at hlt
      have hdata : ((bytes.drop 8).take (leNumber ((bytes.drop 2).take 6))).length =
          leNumber ((bytes.drop 2).take 6) := by
        rw [List.length_take, List.length_drop]
        omega
      have hbytes : leBytes 6 (leNumber ((bytes.drop 2).take 6)) = (bytes.drop 2).take 6 := by
        have := leBytes_leNumber ((bytes.drop 2).take 6)
        rwa [hsix] at this
      refine ⟨(bytes.drop 8).drop (leNumber ((bytes.drop 2).take 6)), ?_⟩
      rw [entryBytes, hdata, take_bigInt64ToBytes (by omega), hbytes, List.append_assoc,
        List.take_append_drop]
      have hdrop : bytes.drop 8 = (bytes.drop 2).drop 6 := by rw [List.drop_drop]
      rw [hdrop, List.append_assoc, List.take_append_drop, List.take_append_drop]

theorem compressData_eq (snappy : Snappy) (data : Bytes) :
    ∃ frames, compressData snappy data = IDENTIFIER_FRAME ++ frames :=
  ⟨_, rfl⟩

theorem length_compressData (snappy : Snappy) (data : Bytes) :
    10 ≤ (compressData snappy data).length := by
  obtain ⟨frames, h⟩ := compressData_eq snappy data
  rw [h, List.length_append]
  exact Nat.le_add_right 10 _

theorem getElem?_compressData (snappy : Snappy) (data : Bytes) {k : Nat} (h : k < 10) :
    (compressData snappy data)[k]? = IDENTIFIER_FRAME[k]? := by
  obtain ⟨frames, heq⟩ := compressData_eq snappy data
  rw [heq, List.getElem?_append_left h]

end Entries

section Index

theorem forall₂_of_filterMap {α β γ : Type} {f : α → Option β} {R : β → γ → Prop} {xs : List α}
    {ys : List γ} (hlen : xs.length = ys.length) (h : List.Forall₂ R (xs.filterMap f) ys) :
    List.Forall₂ (fun x y => ∃ r, f x = some r ∧ R r y) xs ys := by
  induction xs generalizing ys with
  | nil =>
    cases ys with
    | nil => exact .nil
    | cons y ys => simp at hlen
  | cons x xs ih =>
    cases hx : f x with
    | none =>
      -- a value is missing, and the others are too few
      rw [List.filterMap_cons_none hx] at h
      have hle := h.length_eq
      have hless := List.length_filterMap_le f xs
      rw [List.length_cons] at hlen
      omega
    | some r =>
      rw [List.filterMap_cons_some hx] at h
      cases h with
      | cons hr hrest =>
        exact .cons ⟨r, hx, hr⟩ (ih (by simpa using hlen) hrest)

theorem length_offsetsFrom (offset : Int) (tuples : List Bytes) :
    (offsetsFrom offset tuples).length = tuples.length := by
  induction tuples generalizing offset with
  | nil => rfl
  | cons tuple tuples ih => rw [offsetsFrom, List.length_cons, List.length_cons, ih]

theorem offsetsFrom_append (offset : Int) (tuples others : List Bytes) :
    offsetsFrom offset (tuples ++ others) =
      offsetsFrom offset tuples ++ offsetsFrom (offset + tuples.flatten.length) others := by
  induction tuples generalizing offset with
  | nil => simp [offsetsFrom]
  | cons tuple tuples ih =>
    rw [List.cons_append, offsetsFrom, offsetsFrom, ih, List.cons_append, List.flatten_cons,
      List.length_append]
    push_cast
    rw [Int.add_assoc]

theorem mem_offsetsFrom {offset o : Int} {tuples : List Bytes} (h : o ∈ offsetsFrom offset tuples) :
    offset ≤ o ∧ o ≤ offset + tuples.flatten.length := by
  induction tuples generalizing offset with
  | nil => simp [offsetsFrom] at h
  | cons tuple tuples ih =>
    rw [List.flatten_cons, List.length_append]
    push_cast
    rcases List.mem_cons.mp h with rfl | h
    · omega
    · have := ih h
      omega

/-- The data of a block index. -/
def indexData (startingNumber : Nat) (offsets : List Int) : Bytes :=
  bigInt64ToBytes startingNumber ++ ((offsets.map bigInt64ToBytes).flatten ++
    bigInt64ToBytes offsets.length)

theorem length_flatten_offsets (offsets : List Int) :
    (offsets.map bigInt64ToBytes).flatten.length = 8 * offsets.length := by
  induction offsets with
  | nil => rfl
  | cons offset offsets ih =>
    rw [List.map_cons, List.flatten_cons, List.length_append, ih, length_bigInt64ToBytes,
      List.length_cons]
    omega

theorem length_indexData (startingNumber : Nat) (offsets : List Int) :
    (indexData startingNumber offsets).length = 8 * offsets.length + 16 := by
  rw [indexData, List.length_append, List.length_append, length_flatten_offsets,
    length_bigInt64ToBytes, length_bigInt64ToBytes]
  omega

variable (snappy : Snappy)

theorem length_version : (version snappy).length = 8 := rfl

theorem createBlockIndex_eq (blockTuples : List Bytes) (startingNumber : Nat) :
    createBlockIndex snappy blockTuples startingNumber =
      entryBytes Types.BlockIndex
        (indexData startingNumber
          (offsetsFrom (-8 - blockTuples.flatten.length) blockTuples)) := by
  have hplain : Types.BlockIndex ∈
      [Types.TotalDifficulty, Types.AccumulatorRoot, Types.Version, Types.BlockIndex] := by decide
  rw [createBlockIndex, formatEntry, if_pos hplain, indexData, length_offsetsFrom, List.append_assoc]
  have hstart : 8 - ((((version snappy).length + blockTuples.flatten.length +
      (bigInt64ToBytes blockTuples.length).length + (8 * blockTuples.length + 24) : Nat) : Int) -
        (8 * blockTuples.length + 24 : Nat)) = -8 - blockTuples.flatten.length := by
    rw [length_version, length_bigInt64ToBytes]
    omega
  rw [hstart]

theorem getBlockIndex_append {before : Bytes} {startingNumber : Nat} {offsets : List Int}
    (hcount : offsets.length ≤ 8192) :
    getBlockIndex (before ++ entryBytes Types.BlockIndex (indexData startingNumber offsets)) =
      .ok { data := indexData startingNumber offsets, count := offsets.length
            recordStart := before.length } := by
  have hdata := length_indexData startingNumber offsets
  have hentry := length_entryBytes Types.BlockIndex (indexData startingNumber offsets) rfl
  have hlast : slice (before ++ entryBytes Types.BlockIndex (indexData startingNumber offsets))
      (-8) = bigInt64ToBytes offsets.length := by
    have h := slice_neg (before ++ entryBytes Types.BlockIndex (indexData startingNumber offsets))
      8 (by rw [List.length_append]; omega) (by omega)
    rw [Nat.cast_ofNat] at h
    rw [h, entryBytes, indexData]
    simp only [← List.append_assoc]
    apply List.drop_left'
    simp only [List.length_append, length_bigInt64ToBytes]
    omega
  have hrecord : subarray (before ++ entryBytes Types.BlockIndex (indexData startingNumber offsets))
      before.length (before.length + (entryBytes Types.BlockIndex
        (indexData startingNumber offsets)).length : Nat) =
        entryBytes Types.BlockIndex (indexData startingNumber offsets) := by
    have h := subarray_append before
      (entryBytes Types.BlockIndex (indexData startingNumber offsets)) []
    rwa [List.append_nil] at h
  have hstart : ((before ++ entryBytes Types.BlockIndex
      (indexData startingNumber offsets)).length : Int) - (8 * (offsets.length : Nat) + 24) =
      before.length := by
    rw [List.length_append]
    omega
  unfold getBlockIndex
  dsimp only
  rw [hlast, bytesToBigInt64_bigInt64ToBytes (by omega), hstart, List.length_append, hrecord,
    readEntry_entryBytes rfl (by omega)]
  rfl

theorem mapM_range {ε α : Type} {f : Nat → Except ε α} {xs : List α}
    (h : ∀ (i : Nat) (x : α), xs[i]? = some x → f i = .ok x) :
    (List.range xs.length).mapM f = .ok xs := by
  induction xs generalizing f with
  | nil => rfl
  | cons x xs ih =>
    rw [List.length_cons, List.range_succ_eq_map, List.mapM_cons, h 0 x rfl, List.mapM_map]
    have hrest := ih (f := fun i => f (i + 1)) fun i y hy => h (i + 1) y (by simpa using hy)
    change (List.mapM (fun i => f (i + 1)) (List.range xs.length) >>= fun ys => .ok (x :: ys)) = _
    rw [hrest]
    rfl

theorem subarray_indexData {startingNumber i : Nat} {offsets : List Int} {offset : Int}
    (h : offsets[i]? = some offset) :
    subarray (indexData startingNumber offsets) (((i : Int) + 1) * 8) (((i : Int) + 2) * 8) =
      bigInt64ToBytes offset := by
  obtain ⟨hi, rfl⟩ := List.getElem?_eq_some_iff.mp h
  have hsplit : indexData startingNumber offsets =
      (bigInt64ToBytes startingNumber ++ ((offsets.take i).map bigInt64ToBytes).flatten) ++
        (bigInt64ToBytes offsets[i] ++ (((offsets.drop (i + 1)).map bigInt64ToBytes).flatten ++
          bigInt64ToBytes offsets.length)) := by
    have hoffsets : offsets.map bigInt64ToBytes = (offsets.take i).map bigInt64ToBytes ++
        bigInt64ToBytes offsets[i] :: (offsets.drop (i + 1)).map bigInt64ToBytes := by
      rw [← List.map_cons, ← List.drop_eq_getElem_cons hi, ← List.map_append, List.take_append_drop]
    rw [indexData, hoffsets]
    simp
  have hlen : (bigInt64ToBytes startingNumber ++
      ((offsets.take i).map bigInt64ToBytes).flatten).length = (i + 1) * 8 := by
    rw [List.length_append, length_flatten_offsets, length_bigInt64ToBytes,
      List.length_take_of_le hi.le]
    omega
  have := subarray_append (bigInt64ToBytes startingNumber ++
    ((offsets.take i).map bigInt64ToBytes).flatten) (bigInt64ToBytes offsets[i])
    (((offsets.drop (i + 1)).map bigInt64ToBytes).flatten ++ bigInt64ToBytes offsets.length)
  rw [hlen, length_bigInt64ToBytes, ← hsplit] at this
  have hstop : (((i + 1) * 8 + 8 : Nat) : Int) = ((i : Int) + 2) * 8 := by omega
  rw [hstop] at this
  simpa using this

theorem readBlockIndex_indexData {startingNumber : Nat} {offsets : List Int}
    (hoffsets : ∀ o ∈ offsets, -2 ^ 63 ≤ o ∧ o < 2 ^ 63) :
    readBlockIndex (indexData startingNumber offsets) offsets.length =
      .ok { startingNumber := bytesToBigInt64 ((indexData startingNumber offsets).take 8)
            offsets := offsets } := by
  unfold readBlockIndex
  dsimp only
  rw [mapM_range]
  · rfl
  · intro i offset h
    obtain ⟨hmin, hmax⟩ := hoffsets offset (List.mem_of_getElem? h)
    rw [subarray_indexData h, getBigInt64_bigInt64ToBytes hmin hmax]

end Index

end EthereumJS.E2store
