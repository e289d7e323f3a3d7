import EthereumJS.E2store.Reading

/-! # No file reads back

`createBlockIndex` takes eight bytes too many for the entries before the index and leaves out the
accumulator, so that `readERA1` looks 32 bytes behind every tuple; and `readTuplesFromE2HS` takes
the relative offsets for absolute ones. A tuple read so would have to repeat itself at that
distance, which the identifier frames of the compressed data rule out.
-/

namespace EthereumJS.E2store

open LittleEndian

section Frames

/-- A sequence that repeats itself at a distance as far as it goes. -/
theorem repeats {α : Type} {u : Nat → α} {p l : Nat} (h : ∀ k < l, u (k + p) = u k) (m : Nat)
    {k : Nat} (hk : k + m * p < l + p) : u (k + m * p) = u k := by
  induction m with
  | zero => simp
  | succ m ih =>
    rw [Nat.succ_mul] at hk ⊢
    rw [← Nat.add_assoc, h (k + m * p) (by omega), ih (by omega)]

theorem not_mem_frame {x : UInt8} (h : x ∉ IDENTIFIER_FRAME) (k : Nat) :
    IDENTIFIER_FRAME[k]? ≠ some x :=
  fun hk => h (List.mem_of_getElem? hk)

theorem frame_once {k : Nat} (h : 1 ≤ k) : IDENTIFIER_FRAME[k]? ≠ some 0xff := by
  obtain ⟨k, rfl⟩ := Nat.exists_eq_add_of_le' h
  intro hk
  rw [IDENTIFIER_FRAME, List.getElem?_cons_succ] at hk
  exact absurd (List.mem_of_getElem? hk) (by decide)

variable {u : Nat → Option UInt8} {l h : Nat}

/-- Two entries with identifier frames do not repeat themselves after 32 bytes: the second would
have to begin somewhere among the first 32 bytes. -/
theorem not_repeats_32 (hrep : ∀ k < 26 + h, u (k + 32) = u k) (hfirst : u 0 = some 3)
    (hframe : ∀ k < 10, u (8 + k) = IDENTIFIER_FRAME[k]?) (hsecond : u (8 + h) = some 4)
    (hframe' : ∀ k < 10, u (16 + h + k) = IDENTIFIER_FRAME[k]?) : False := by
  have hred : ∀ z < 58 + h, u (z % 32) = u z := by
    intro z hz
    have hmod := repeats hrep (z / 32) (k := z % 32) (by omega)
    have hz : z % 32 + z / 32 * 32 = z := by omega
    rw [hz] at hmod
    exact hmod.symm
  obtain ⟨o, ho⟩ : ∃ o, o = (8 + h) % 32 := ⟨_, rfl⟩
  have htype : u o = some 4 := by rw [ho, hred (8 + h) (by omega), hsecond]
  have hblock : ∀ k < 10, u ((o + 8 + k) % 32) = IDENTIFIER_FRAME[k]? := by
    intro k hk
    have hz : (o + 8 + k) % 32 = (16 + h + k) % 32 := by omega
    rw [hz, hred (16 + h + k) (by omega), hframe' k hk]
  have hlt : o < 32 := by omega
  rcases Nat.eq_zero_or_pos o with hzero | hpos
  · rw [hzero, hfirst] at htype
    cases htype
  rcases Nat.lt_or_ge o 8 with h8 | h8
  · have hsame : (o + 8 + 0) % 32 = 8 + o := by omega
    have := hblock 0 (by omega)
    rw [hsame, hframe o (by omega)] at this
    exact frame_once hpos this
  rcases Nat.lt_or_ge o 18 with h18 | h18
  · have hsame : 8 + (o - 8) = o := by omega
    have := hframe (o - 8) (by omega)
    rw [hsame, htype] at this
    exact not_mem_frame (by decide) _ this.symm
  rcases Nat.lt_or_ge o 25 with h25 | h25
  · have hsame : (o + 8 + (24 - o)) % 32 = 0 := by omega
    have := hblock (24 - o) (by omega)
    rw [hsame, hfirst] at this
    exact not_mem_frame (by decide) _ this.symm
  · have hsame : (o + 8 + (32 - o)) % 32 = 8 + 0 := by omega
    have := hblock (32 - o) (by omega)
    rw [hsame, hframe 0 (by omega)] at this
    exact frame_once (by omega) this.symm

/-- The bytes of a block index that exclude an identifier frame, save in its starting number. -/
structure IndexAt (u : Nat → Option UInt8) (l n : Nat) : Prop where
  type : u l = some 0x66
  length : u (l + 4) ≠ some 0xff
  zero6 : u (l + 6) = some 0
  zero7 : u (l + 7) = some 0
  zero8 : u (l + 8) = some 0
  start : u (l + 9) ≠ some 0xff
  negative : ∀ i < n, u (l + (16 + 8 * i + 7)) = some 0xff

/-- A frame of a sequence that repeats itself up to the end of an index stands in the index too, and
there it begins in the starting number. -/
theorem frame_in_index {n w : Nat} (hrep : ∀ k < l, u (k + (8 * n + 16)) = u k)
    (hindex : IndexAt u l n) (hw : w + 10 ≤ l)
    (hframe : ∀ k < 10, u (w + k) = IDENTIFIER_FRAME[k]?) :
    ∃ m a, w + m * (8 * n + 16) = l + a ∧ 10 ≤ a ∧ a ≤ 14 ∧ a + 10 ≤ 8 * n + 16 ∧
      ∀ k < 10, u (l + a + k) = IDENTIFIER_FRAME[k]? := by
  obtain ⟨p, hp⟩ : ∃ p, p = 8 * n + 16 := ⟨_, rfl⟩
  rw [← hp] at hrep ⊢
  -- the first repetition that is not before the index
  obtain ⟨m, a, hma, hap, hm⟩ : ∃ m a, w + m * p = l + a ∧ a < p ∧ 0 < m := by
    have hdiv := Nat.div_add_mod (l - w + p - 1) p
    have hmod := Nat.mod_lt (l - w + p - 1) (show 0 < p by omega)
    rw [Nat.mul_comm] at hdiv
    refine ⟨(l - w + p - 1) / p, w + (l - w + p - 1) / p * p - l, by omega, by omega, ?_⟩
    exact Nat.div_pos (by omega) (by omega)
  have hinside : ∀ k < 10, a + k < p → u (l + a + k) = IDENTIFIER_FRAME[k]? := by
    intro k hk hlt
    have hsame : l + a + k = w + k + m * p := by omega
    rw [hsame, repeats hrep m (by omega), hframe k hk]
  have hap : a + 10 ≤ p := by
    by_contra hover
    -- it would run into the next repetition of the index
    obtain ⟨m, rfl⟩ := Nat.exists_eq_add_of_le' hm
    rw [Nat.add_mul, Nat.one_mul] at hma
    have hsame : w + (p - a) + m * p = l := by omega
    have := repeats hrep m (k := w + (p - a)) (by omega)
    rw [hsame, hindex.type, hframe (p - a) (by omega)] at this
    exact not_mem_frame (by decide) _ this.symm
  have hat : ∀ k < 10, u (l + a + k) = IDENTIFIER_FRAME[k]? :=
    fun k hk => hinside k hk (by omega)
  have hbyte : ∀ j, a ≤ j → j < a + 10 → u (l + j) = IDENTIFIER_FRAME[j - a]? := by
    intro j haj hj
    have hsame : l + j = l + a + (j - a) := by omega
    rw [hsame, hat (j - a) (by omega)]
  refine ⟨m, a, hma, ?_, ?_, hap, hat⟩
  · by_contra hlow
    have hlow : a < 10 := by omega
    have h6 := hbyte 6
    have h7 := hbyte 7
    have hstart := hbyte a le_rfl (by omega)
    rw [hindex.zero6] at h6
    rw [hindex.zero7] at h7
    rw [Nat.sub_self] at hstart
    interval_cases a
    · exact absurd (h6 (by omega) (by omega)) (by decide)
    · exact absurd (h6 (by omega) (by omega)) (by decide)
    · exact absurd (h6 (by omega) (by omega)) (by decide)
    · exact absurd (h7 (by omega) (by omega)) (by decide)
    · exact hindex.length hstart
    · exact absurd (h6 (by omega) (by omega)) (by decide)
    · exact absurd (h6 (by omega) (by omega)) (by decide)
    · exact absurd (h7 (by omega) (by omega)) (by decide)
    · rw [hindex.zero8] at hstart
      cases hstart
    · exact hindex.start hstart
  · by_contra hhigh
    have hhigh : 15 ≤ a := by omega
    obtain ⟨i, hi⟩ : ∃ i, i = (a + 1) / 8 - 2 := ⟨_, rfl⟩
    have hneg := hindex.negative i (by omega)
    rw [hbyte _ (by omega) (by omega)] at hneg
    exact frame_once (by omega) hneg

/-- Two entries with identifier frames do not repeat themselves up to the end of a block index. -/
theorem not_repeats_index {n : Nat} (hrep : ∀ k < l, u (k + (8 * n + 16)) = u k)
    (hindex : IndexAt u l n) (hl : 26 + h ≤ l) (hfirst : u 0 = some 3)
    (hframe : ∀ k < 10, u (8 + k) = IDENTIFIER_FRAME[k]?) (hsecond : u (8 + h) = some 4)
    (hframe' : ∀ k < 10, u (16 + h + k) = IDENTIFIER_FRAME[k]?) : False := by
  obtain ⟨m, a, hma, ha, ha', hap, hat⟩ := frame_in_index hrep hindex (by omega) hframe
  obtain ⟨m', a', hma', hb, hb', hbp, hat'⟩ := frame_in_index hrep hindex (by omega) hframe'
  rcases Nat.lt_trichotomy a a' with hlt | rfl | hlt
  · have hsame : l + a + (a' - a) = l + a' + 0 := by omega
    have := hat (a' - a) (by omega)
    rw [hsame, hat' 0 (by omega)] at this
    exact frame_once (by omega) this.symm
  · have hone := repeats hrep m (k := 0) (by omega)
    have htwo := repeats hrep m' (k := 8 + h) (by omega)
    have hsame : 8 + h + m' * (8 * n + 16) = 0 + m * (8 * n + 16) := by omega
    rw [hsame, hone, hfirst, hsecond] at htwo
    cases htwo
  · have hsame : l + a' + (a - a') = l + a + 0 := by omega
    have := hat' (a - a') (by omega)
    rw [hsame, hat 0 (by omega)] at this
    exact frame_once (by omega) this.symm

end Frames

section Files

variable {snappy : Snappy}

theorem readBytes_initial {file : Bytes} {position : Nat} {entry : E2StoreEntry} {type data : Bytes}
    (h : readEntry (file.drop position) = .ok entry) (htype : entry.type = type)
    (hdata : entry.data = data) (hlen : position + data.length + 8 < file.length) :
    entryBytes type data <+: file.drop position := by
  subst htype hdata
  exact entryBytes_prefix h (by rw [List.length_drop]; omega)

theorem prefix_append {a b bytes : Bytes} (ha : a <+: bytes) (hb : b <+: bytes.drop a.length) :
    a ++ b <+: bytes := by
  obtain ⟨rest, rfl⟩ := ha
  rw [List.drop_left] at hb
  obtain ⟨rest', rfl⟩ := hb
  exact ⟨rest', by simp⟩

/-- Bytes that stand at two places of a file repeat themselves. -/
theorem repeats_of_prefix {file t : Bytes} {position p : Nat} (h : t <+: file.drop position)
    (h' : t <+: file.drop (position + p)) :
    ∀ k < t.length, file[position + (k + p)]? = file[position + k]? := by
  intro k hk
  obtain ⟨rest, hrest⟩ := h
  obtain ⟨rest', hrest'⟩ := h'
  have hone : (file.drop position)[k]? = t[k]? := by rw [← hrest, List.getElem?_append_left hk]
  have htwo : (file.drop (position + p))[k]? = t[k]? := by
    rw [← hrest', List.getElem?_append_left hk]
  rw [List.getElem?_drop] at hone htwo
  rw [hone, ← htwo]
  congr 1
  omega

/-- Two compressed entries, as far as their identifier frames. -/
structure FramesAt (u : Nat → Option UInt8) (h : Nat) : Prop where
  first : u 0 = some 3
  frame : ∀ k < 10, u (8 + k) = IDENTIFIER_FRAME[k]?
  second : u (8 + h) = some 4
  frame' : ∀ k < 10, u (16 + h + k) = IDENTIFIER_FRAME[k]?

theorem getElem?_entryBytes {type data : Bytes} (htype : type.length = 2) (k : Nat) :
    (entryBytes type data)[8 + k]? = data[k]? := by
  rw [entryBytes, List.getElem?_append_right (by simp [htype])]
  congr 1
  simp [htype]

theorem framesAt {second : UInt8} {header body : Bytes} {file : Bytes} {position : Nat}
    (h : entryBytes [3, second] (compressData snappy header) ++
      entryBytes Types.CompressedBody (compressData snappy body) <+: file.drop position) :
    FramesAt (fun k => file[position + k]?) (compressData snappy header).length := by
  have hheader := length_compressData snappy header
  have hbody := length_compressData snappy body
  have hlen := length_entryBytes [3, second] (compressData snappy header) rfl
  have hlen' := length_entryBytes Types.CompressedBody (compressData snappy body) rfl
  obtain ⟨rest, hrest⟩ := h
  have hfirst : ∀ k < (compressData snappy header).length + 8,
      file[position + k]? = (entryBytes [3, second] (compressData snappy header))[k]? := by
    intro k hk
    rw [← List.getElem?_drop, ← hrest, List.append_assoc, List.getElem?_append_left (by omega)]
  have hsecond : ∀ k < (compressData snappy body).length + 8,
      file[position + ((compressData snappy header).length + 8 + k)]? =
        (entryBytes Types.CompressedBody (compressData snappy body))[k]? := by
    intro k hk
    rw [← List.getElem?_drop, ← hrest, List.append_assoc,
      List.getElem?_append_right (by omega), List.getElem?_append_left (by omega), hlen]
    congr 1
    omega
  constructor
  · exact hfirst 0 (by omega)
  · intro k hk
    rw [hfirst (8 + k) (by omega), getElem?_entryBytes rfl, getElem?_compressData snappy header hk]
  · have := hsecond 0 (by omega)
    rw [Nat.add_zero, Nat.add_comm _ 8] at this
    exact this
  · intro k hk
    have hsame : 16 + (compressData snappy header).length + k =
        (compressData snappy header).length + 8 + (8 + k) := by omega
    rw [hsame, hsecond (8 + k) (by omega), getElem?_entryBytes rfl,
      getElem?_compressData snappy body hk]

theorem offsets_bounds {blocks : List Bytes} (hlen : blocks.flatten.length < 2 ^ 53) :
    ∀ o ∈ offsetsFrom (-8 - blocks.flatten.length) blocks,
      -2 ^ 63 ≤ o ∧ o < 2 ^ 63 := by
  intro o ho
  have := mem_offsetsFrom ho
  omega

/-- Where the readers find the tuples of a file whose index is that of its blocks. -/
theorem index_read (snappy : Snappy) (before : Bytes) {blocks : List Bytes} (startingNumber : Nat)
    (hcount : blocks.length ≤ 8192) (hlen : blocks.flatten.length < 2 ^ 53) :
    ∃ index start, getBlockIndex (before ++ createBlockIndex snappy blocks startingNumber) =
        .ok index ∧ index.recordStart = before.length ∧
      readBlockIndex index.data index.count =
        .ok { startingNumber := start
              offsets := offsetsFrom (-8 - blocks.flatten.length) blocks } := by
  have hoffsets := length_offsetsFrom (-8 - blocks.flatten.length) blocks
  refine ⟨{ data := indexData startingNumber (offsetsFrom (-8 - blocks.flatten.length) blocks)
            count := (offsetsFrom (-8 - blocks.flatten.length) blocks).length
            recordStart := before.length }, _, ?_, rfl,
    readBlockIndex_indexData (offsets_bounds hlen)⟩
  rw [createBlockIndex_eq]
  exact getBlockIndex_append (by omega)

theorem length_createBlockIndex (blocks : List Bytes) (startingNumber : Nat) :
    (createBlockIndex snappy blocks startingNumber).length = 8 * blocks.length + 24 := by
  rw [createBlockIndex_eq, length_entryBytes _ _ rfl, length_indexData, length_offsetsFrom]

theorem formatEntry_compressed {type data : Bytes}
    (h : type ∉ [Types.TotalDifficulty, Types.AccumulatorRoot, Types.Version, Types.BlockIndex]) :
    formatEntry snappy type data = entryBytes type (compressData snappy data) := by
  rw [formatEntry, if_neg h]

theorem toOption_eq_some {ε α : Type} {x : Except ε α} {a : α} :
    x.toOption = some a ↔ x = .ok a := by
  cases x <;> simp [Except.toOption]

theorem readBlockTupleAtOffset_ok {bytes : Bytes} {recordStart offset : Int}
    {entries : BlockTupleEntries} (h : readBlockTupleAtOffset bytes recordStart offset = .ok entries) :
    readEntry (slice bytes (recordStart + offset)) = .ok entries.headerEntry ∧
      readEntry (slice bytes (recordStart + offset + (entries.headerEntry.data.length + 8 : Nat))) =
        .ok entries.bodyEntry := by
  obtain ⟨header, hheader, h⟩ := bind_eq_ok.mp h
  obtain ⟨body, hbody, h⟩ := bind_eq_ok.mp h
  obtain ⟨receipts, -, h⟩ := bind_eq_ok.mp h
  obtain ⟨totalDifficulty, -, h⟩ := bind_eq_ok.mp h
  cases h
  exact ⟨hheader, hbody⟩

theorem readE2HSTupleAtOffset_ok {bytes : Bytes} {offset : Int} {entries : E2HSTupleEntries}
    (h : readE2HSTupleAtOffset bytes offset = .ok entries) :
    readEntry (slice bytes offset) = .ok entries.headerWithProofEntry ∧
      readEntry (slice bytes (offset + (entries.headerWithProofEntry.data.length + 8 : Nat))) =
        .ok entries.bodyEntry ∧
      readEntry (slice bytes (offset + (entries.headerWithProofEntry.data.length + 8 : Nat) +
        (entries.bodyEntry.data.length + 8 : Nat))) = .ok entries.receiptsEntry := by
  obtain ⟨header, hheader, h⟩ := bind_eq_ok.mp h
  obtain ⟨body, hbody, h⟩ := bind_eq_ok.mp h
  obtain ⟨receipts, hreceipts, h⟩ := bind_eq_ok.mp h
  cases h
  exact ⟨hheader, hbody, hreceipts⟩

end Files

section Never

variable {snappy : Snappy}

/-- `decompressData` takes only what `compressData` makes. -/
def OnlyCompressed (snappy : Snappy) : Prop :=
  ∀ data compressed, snappy.decompressData compressed = some data →
    compressed = compressData snappy data

theorem not_era1ReadsBack (hsnappy : OnlyCompressed snappy) {blockTuples : List BlockTuple}
    {root : Bytes} {epoch : Nat} (hne : blockTuples ≠ []) (hcount : blockTuples.length ≤ 8192)
    (hroot : root.length = 32)
    (hlen : (formatEra1 snappy blockTuples root epoch).length < 2 ^ 53) :
    ¬ Era1ReadsBack snappy blockTuples root epoch := by
  rintro ⟨⟨read, hread, hholds⟩, -⟩
  obtain ⟨tuple, tuples, rfl⟩ := List.exists_cons_of_ne_nil hne
  obtain ⟨file, hfile⟩ : ∃ file, file = formatEra1 snappy (tuple :: tuples) root epoch := ⟨_, rfl⟩
  obtain ⟨blocks, hblocks⟩ : ∃ blocks, blocks = (tuple :: tuples).map (formatBlockTuple snappy) :=
    ⟨_, rfl⟩
  obtain ⟨before, hbefore⟩ : ∃ before, before = version snappy ++ (blocks.flatten ++
      formatEntry snappy Types.AccumulatorRoot root) := ⟨_, rfl⟩
  have hparts : file = before ++ createBlockIndex snappy blocks (epoch * 8192) := by
    rw [hfile, hbefore, hblocks, formatEra1]
    simp only [List.append_assoc]
  have hacc : (formatEntry snappy Types.AccumulatorRoot root).length = 40 := by
    have := length_entryBytes Types.AccumulatorRoot root rfl
    rw [hroot] at this
    exact this
  have hstart : before.length = blocks.flatten.length + 48 := by
    rw [hbefore, List.length_append, List.length_append, hacc, length_version]
    omega
  have hsize : file.length = blocks.flatten.length + 48 + (8 * blocks.length + 24) := by
    rw [hparts, List.length_append, hstart, length_createBlockIndex]
  rw [← hfile] at hread hlen
  have hmap : blocks.length = (tuple :: tuples).length := by rw [hblocks, List.length_map]
  obtain ⟨index, start, hindex, hrecord, hoffsets⟩ := index_read snappy before
    (epoch * 8192) (show blocks.length ≤ 8192 by omega) (by omega)
  rw [← hparts] at hindex
  -- the first tuple is read 32 bytes behind its place
  have hfirst : ∃ entries, readBlockTupleAtOffset file before.length
      (-8 - blocks.flatten.length) = .ok entries ∧ HoldsTuple snappy entries tuple := by
    obtain ⟨index', hindex', hread⟩ := bind_eq_ok.mp hread
    rw [hindex] at hindex'
    cases hindex'
    obtain ⟨offsets, hoffsets', hread⟩ := bind_eq_ok.mp hread
    rw [hoffsets] at hoffsets'
    cases hoffsets'
    cases hread
    rw [readBlockTuplesFromERA1, hrecord] at hholds
    have hall := forall₂_of_filterMap (by rw [length_offsetsFrom, hmap]) hholds
    rw [hblocks, List.map_cons, offsetsFrom, ← List.map_cons, ← hblocks] at hall
    cases hall with
    | cons hone _ =>
      obtain ⟨entries, hentries, hholds⟩ := hone
      exact ⟨entries, toOption_eq_some.mp hentries, hholds⟩
  obtain ⟨entries, hentries, hholds⟩ := hfirst
  obtain ⟨hheader, hbody⟩ := readBlockTupleAtOffset_ok hentries
  have hdata := hsnappy _ _ hholds.header
  have hdata' := hsnappy _ _ hholds.body
  have hwhere : (before.length : Int) + (-8 - blocks.flatten.length) = (40 : Nat) := by omega
  have hlong : (entryBytes Types.CompressedHeader (compressData snappy tuple.header)).length +
      (entryBytes Types.CompressedBody (compressData snappy tuple.body)).length ≤
        blocks.flatten.length := by
    rw [hblocks, List.map_cons, List.flatten_cons, formatBlockTuple]
    simp only [List.length_append]
    rw [formatEntry_compressed (by decide), formatEntry_compressed (by decide)]
    omega
  rw [length_entryBytes _ _ rfl, length_entryBytes _ _ rfl] at hlong
  rw [hwhere, slice_ofNat _ _ (by omega)] at hheader
  rw [hwhere, hdata, ← Nat.cast_add, slice_ofNat _ _ (by omega)] at hbody
  have hshifted : entryBytes Types.CompressedHeader (compressData snappy tuple.header) ++
      entryBytes Types.CompressedBody (compressData snappy tuple.body) <+: file.drop (8 + 32) := by
    apply prefix_append (readBytes_initial hheader hholds.headerType hdata (by omega))
    rw [List.drop_drop, length_entryBytes _ _ rfl]
    exact readBytes_initial hbody hholds.bodyType hdata' (by omega)
  have hplace : entryBytes Types.CompressedHeader (compressData snappy tuple.header) ++
      entryBytes Types.CompressedBody (compressData snappy tuple.body) <+: file.drop 8 := by
    rw [hfile, formatEra1, List.drop_left' (length_version snappy), List.map_cons,
      List.flatten_cons, formatBlockTuple, formatEntry_compressed (by decide),
      formatEntry_compressed (by decide)]
    simp only [List.append_assoc]
    rw [← List.append_assoc]
    exact List.prefix_append _ _
  have hframes := framesAt hplace
  exact not_repeats_32 (u := fun k => file[8 + k]?) (fun k hk => repeats_of_prefix hplace hshifted k
      (by have := length_compressData snappy tuple.body
          rw [List.length_append, length_entryBytes _ _ rfl, length_entryBytes _ _ rfl]; omega))
    hframes.first hframes.frame hframes.second hframes.frame'

theorem getElem?_flatten_offsets {offsets : List Int} {i : Nat} {offset : Int}
    (h : offsets[i]? = some offset) {j : Nat} (hj : j < 8) (rest : Bytes) :
    ((offsets.map bigInt64ToBytes).flatten ++ rest)[8 * i + j]? = (bigInt64ToBytes offset)[j]? := by
  induction offsets generalizing i with
  | nil => simp at h
  | cons o offsets ih =>
    rw [List.map_cons, List.flatten_cons, List.append_assoc]
    cases i with
    | zero =>
      cases h
      rw [Nat.mul_zero, Nat.zero_add, List.getElem?_append_left (by simpa using hj)]
    | succ i =>
      rw [List.getElem?_cons_succ] at h
      rw [List.getElem?_append_right (by rw [length_bigInt64ToBytes]; omega),
        length_bigInt64ToBytes]
      have hsame : 8 * (i + 1) + j - 8 = 8 * i + j := by omega
      rw [hsame, ih h]

/-- The bytes of the index of an epoch. -/
theorem indexAt {file : Bytes} {position epoch : Nat} {offsets : List Int}
    (h : entryBytes Types.BlockIndex (indexData (epoch * 8192) offsets) <+: file.drop position)
    (hcount : offsets.length ≤ 8192) (hneg : ∀ o ∈ offsets, -2 ^ 56 ≤ o ∧ o < 0) :
    ∀ base l, base + l = position → IndexAt (fun k => file[base + k]?) l offsets.length := by
  rintro base l rfl
  obtain ⟨rest, hrest⟩ := h
  have hlen := length_indexData (epoch * 8192) offsets
  have hentry := length_entryBytes Types.BlockIndex (indexData (epoch * 8192) offsets) rfl
  have hbyte : ∀ j < 8 * offsets.length + 24, file[base + (l + j)]? =
      (entryBytes Types.BlockIndex (indexData (epoch * 8192) offsets))[j]? := by
    intro j hj
    rw [← Nat.add_assoc, ← List.getElem?_drop, ← hrest, List.getElem?_append_left (by omega)]
  have hlength : ∀ j < 6, file[base + (l + (2 + j))]? =
      some (UInt8.ofNat ((8 * offsets.length + 16) / 256 ^ j)) := by
    intro j hj
    rw [hbyte (2 + j) (by omega), entryBytes, take_bigInt64ToBytes (by omega), hlen,
      List.append_assoc, List.getElem?_append_right (by simp [Types.BlockIndex])]
    have hsame : 2 + j - Types.BlockIndex.length = j := by
      simp [Types.BlockIndex]
    rw [hsame, List.getElem?_append_left (by simpa using hj), getElem?_leBytes 6 _ j hj]
  have hdata : ∀ j < 8 * offsets.length + 16, file[base + (l + (8 + j))]? =
      (indexData (epoch * 8192) offsets)[j]? := by
    intro j hj
    rw [hbyte (8 + j) (by omega), getElem?_entryBytes rfl]
  have hstart : ∀ j < 8, file[base + (l + (8 + j))]? =
      some (UInt8.ofNat (((epoch * 8192 : Nat) % 2 ^ 64 : Int).toNat / 256 ^ j)) := by
    intro j hj
    rw [hdata j (by omega), indexData, List.getElem?_append_left (by simpa using hj),
      bigInt64ToBytes, getElem?_leBytes 8 _ j hj]
  constructor
  · exact hbyte 0 (by omega)
  · rw [hlength 2 (by omega)]
    intro heq
    have := congrArg UInt8.toNat (Option.some_inj.mp heq)
    rw [UInt8.toNat_ofNat'] at this
    change (8 * offsets.length + 16) / 65536 % 256 = 255 at this
    omega
  · rw [hlength 4 (by omega), Nat.div_eq_of_lt (by omega)]
    rfl
  · rw [hlength 5 (by omega), Nat.div_eq_of_lt (by omega)]
    rfl
  · rw [hstart 0 (by omega)]
    congr 1
    apply UInt8.toNat_inj.mp
    rw [UInt8.toNat_ofNat', pow_zero, Nat.div_one]
    change _ % 256 = 0
    omega
  · rw [hstart 1 (by omega)]
    intro heq
    have := congrArg UInt8.toNat (Option.some_inj.mp heq)
    rw [UInt8.toNat_ofNat', pow_one] at this
    change _ / 256 % 256 = 255 at this
    omega
  · intro i hi
    have hoffset := List.getElem?_eq_getElem hi
    obtain ⟨hmin, hmax⟩ := hneg _ (List.getElem_mem hi)
    have hsame : 16 + 8 * i + 7 = 8 + (8 + (8 * i + 7)) := by omega
    rw [hsame, hdata (8 + (8 * i + 7)) (by omega), indexData,
      List.getElem?_append_right (by rw [length_bigInt64ToBytes]; omega), length_bigInt64ToBytes,
      Nat.add_sub_cancel_left, getElem?_flatten_offsets hoffset (by omega), bigInt64ToBytes,
      getElem?_leBytes 8 _ 7 (by omega)]
    congr 1
    apply UInt8.toNat_inj.mp
    rw [UInt8.toNat_ofNat']
    change _ / 72057594037927936 % 256 = 255
    omega

theorem not_e2hsReadsBack (hsnappy : OnlyCompressed snappy) {data : List E2HSTuple} {epoch : Nat}
    (hne : data ≠ []) (hcount : data.length ≤ 8192)
    (hlen : (formatE2HS snappy data epoch).length < 2 ^ 53) :
    ¬ E2HSReadsBack snappy data epoch := by
  rintro ⟨read, hread, hholds⟩
  obtain ⟨tuples, tuple, rfl⟩ : ∃ tuples tuple, data = tuples ++ [tuple] :=
    ⟨_, _, (List.dropLast_append_getLast hne).symm⟩
  obtain ⟨file, hfile⟩ : ∃ file, file = formatE2HS snappy (tuples ++ [tuple]) epoch := ⟨_, rfl⟩
  obtain ⟨blocks, hblocks⟩ : ∃ blocks, blocks =
      (tuples ++ [tuple]).map (formatE2HSTuple snappy) := ⟨_, rfl⟩
  obtain ⟨earlier, hearlier⟩ : ∃ earlier, earlier = tuples.map (formatE2HSTuple snappy) := ⟨_, rfl⟩
  have hlast : blocks = earlier ++ [formatE2HSTuple snappy tuple] := by
    rw [hblocks, hearlier, List.map_append, List.map_singleton]
  have hflatten : blocks.flatten = earlier.flatten ++ formatE2HSTuple snappy tuple := by
    rw [hlast, List.flatten_append, List.flatten_singleton]
  have hparts : file = (version snappy ++ blocks.flatten) ++
      createBlockIndex snappy blocks (epoch * 8192) := by
    rw [hfile, hblocks, formatE2HS, List.append_assoc]
  have hmap : blocks.length = (tuples ++ [tuple]).length := by rw [hblocks, List.length_map]
  have hstart : (version snappy ++ blocks.flatten).length = blocks.flatten.length + 8 := by
    rw [List.length_append, length_version, Nat.add_comm]
  have hsize : file.length = blocks.flatten.length + 8 + (8 * blocks.length + 24) := by
    rw [hparts, List.length_append, hstart, length_createBlockIndex]
  rw [← hfile] at hread hlen
  obtain ⟨index, start, hindex, -, hoffsets⟩ := index_read snappy
    (version snappy ++ blocks.flatten) (epoch * 8192) (show blocks.length ≤ 8192 by omega) (by omega)
  rw [← hparts] at hindex
  obtain ⟨l, hl⟩ : ∃ l, l = (formatE2HSTuple snappy tuple).length := ⟨_, rfl⟩
  have htotal : blocks.flatten.length = earlier.flatten.length + l := by
    rw [hflatten, List.length_append, hl]
  -- the offset of the last tuple is taken for a place before the end of the file
  have hlastRead : ∃ entries, readE2HSTupleAtOffset file (-(8 + l : Nat)) = .ok entries ∧
      HoldsE2HSTuple snappy entries tuple := by
    obtain ⟨index', hindex', hread⟩ := bind_eq_ok.mp hread
    rw [hindex] at hindex'
    cases hindex'
    obtain ⟨offsets, hoffsets', hread⟩ := bind_eq_ok.mp hread
    rw [hoffsets] at hoffsets'
    cases hoffsets'
    cases hread
    have hall := forall₂_of_filterMap (by rw [length_offsetsFrom, hmap]) hholds
    have hdrop := List.forall₂_drop_append _ _ _ hall
    have hsplit : offsetsFrom (-8 - blocks.flatten.length) blocks =
        offsetsFrom (-8 - blocks.flatten.length) earlier ++
          [-8 - (blocks.flatten.length : Int) + earlier.flatten.length] := by
      rw [congrArg (offsetsFrom _) hlast, offsetsFrom_append]
      rfl
    have hoffset : -8 - (blocks.flatten.length : Int) + earlier.flatten.length =
        -(8 + l : Nat) := by omega
    rw [hsplit, List.drop_left' (by rw [length_offsetsFrom, hearlier, List.length_map]), hoffset]
      at hdrop
    cases hdrop with
    | cons hone _ =>
      obtain ⟨entries, hentries, hholds⟩ := hone
      exact ⟨entries, toOption_eq_some.mp hentries, hholds⟩
  obtain ⟨entries, hentries, hholds⟩ := hlastRead
  obtain ⟨hheader, hbody, hreceipts⟩ := readE2HSTupleAtOffset_ok hentries
  have hdata := hsnappy _ _ hholds.header
  have hdata' := hsnappy _ _ hholds.body
  have hdata'' := hsnappy _ _ hholds.receipts
  have htuple : formatE2HSTuple snappy tuple =
      entryBytes Types.CompressedHeaderWithProof (compressData snappy tuple.headerWithProof) ++
      (entryBytes Types.CompressedBody (compressData snappy tuple.body) ++
      entryBytes Types.CompressedReceipts (compressData snappy tuple.receipts)) := by
    rw [formatE2HSTuple, formatEntry_compressed (by decide), formatEntry_compressed (by decide),
      formatEntry_compressed (by decide)]
  have hsum : l = (compressData snappy tuple.headerWithProof).length + 8 +
      ((compressData snappy tuple.body).length + 8 +
        ((compressData snappy tuple.receipts).length + 8)) := by
    rw [hl, htuple, List.length_append, List.length_append, length_entryBytes _ _ rfl,
      length_entryBytes _ _ rfl, length_entryBytes _ _ rfl]
  -- where the tuple is, and the distance to where it is read
  obtain ⟨place, hplace⟩ : ∃ place, place = 8 + earlier.flatten.length := ⟨_, rfl⟩
  obtain ⟨p, hp⟩ : ∃ p, p = 8 * blocks.length + 16 := ⟨_, rfl⟩
  rw [slice_neg _ _ (by omega) (by omega)] at hheader
  have hwhere : file.length - (8 + l) = place + p := by omega
  rw [hwhere] at hheader
  have hback : ∀ k : Nat, k < l → slice file (-((8 + l : Nat) : Int) + (k : Nat)) =
      file.drop (place + p + k) := by
    intro k hk
    have hsame : -((8 + l : Nat) : Int) + (k : Nat) = -((8 + l - k : Nat) : Int) := by omega
    rw [hsame, slice_neg _ _ (by omega) (by omega)]
    congr 1
    omega
  rw [hdata, hback _ (by omega)] at hbody
  rw [hdata, hdata', Int.add_assoc, ← Nat.cast_add, hback _ (by omega)] at hreceipts
  have hshifted : formatE2HSTuple snappy tuple <+: file.drop (place + p) := by
    rw [htuple]
    apply prefix_append (readBytes_initial hheader hholds.headerType hdata (by omega))
    rw [List.drop_drop, length_entryBytes _ _ rfl]
    apply prefix_append (readBytes_initial hbody hholds.bodyType hdata' (by omega))
    rw [List.drop_drop, length_entryBytes _ _ rfl, Nat.add_assoc (place + p)]
    exact readBytes_initial hreceipts hholds.receiptsType hdata'' (by omega)
  have hrest : file.drop place = formatE2HSTuple snappy tuple ++
      createBlockIndex snappy blocks (epoch * 8192) := by
    have hfile' : file = (version snappy ++ earlier.flatten) ++ (formatE2HSTuple snappy tuple ++
        createBlockIndex snappy blocks (epoch * 8192)) := by
      rw [hparts, hflatten]
      simp only [List.append_assoc]
    rw [hfile']
    apply List.drop_left'
    rw [List.length_append, length_version, hplace]
  have hown : formatE2HSTuple snappy tuple <+: file.drop place := by
    rw [hrest]
    exact List.prefix_append _ _
  have hentry : entryBytes Types.BlockIndex (indexData (epoch * 8192)
      (offsetsFrom (-8 - blocks.flatten.length) blocks)) <+: file.drop (place + l) := by
    rw [← List.drop_drop, hrest, List.drop_left' hl.symm, createBlockIndex_eq]
  have hindexAt := indexAt hentry (by rw [length_offsetsFrom]; omega) (fun o ho => by
    have := mem_offsetsFrom ho
    omega) place l rfl
  rw [length_offsetsFrom] at hindexAt
  have hframes : FramesAt (fun k => file[place + k]?)
      (compressData snappy tuple.headerWithProof).length := by
    rw [htuple, ← List.append_assoc] at hown
    exact framesAt ((List.prefix_append _ _).trans hown)
  have hten := length_compressData snappy tuple.body
  have hrepeats : ∀ k < l, file[place + (k + (8 * blocks.length + 16))]? = file[place + k]? := by
    rw [← hp, hl]
    exact repeats_of_prefix hown hshifted
  exact not_repeats_index (u := fun k => file[place + k]?) hrepeats hindexAt (by omega)
    hframes.first hframes.frame hframes.second hframes.frame'

end Never

section Samples

/-- Snappy on the bytes of the samples, which stay uncompressed. -/
def sampleSnappy : Snappy where
  compress data := UInt8.ofNat data.length :: UInt8.ofNat (4 * (data.length - 1)) :: data
  checksum chunk := if chunk = [0xc0] then [0xb8, 0x0e, 0xae, 0x8d] else [0xf8, 0x32, 0x2c, 0xdc]
  decompressData compressed :=
    if compressed = IDENTIFIER_FRAME ++ [1, 5, 0, 0, 0xb8, 0x0e, 0xae, 0x8d, 0xc0] then some [0xc0]
    else if compressed = IDENTIFIER_FRAME ++ [1, 7, 0, 0, 0xf8, 0x32, 0x2c, 0xdc, 0xc2, 0xc0, 0xc0]
    then some [0xc2, 0xc0, 0xc0]
    else none

def sampleBlock : BlockTuple :=
  { header := [0xc0], body := [0xc2, 0xc0, 0xc0], receipts := [0xc0]
    totalDifficulty := 17179869184 }

def sampleE2HS : E2HSTuple :=
  { headerWithProof := [0xc0], body := [0xc2, 0xc0, 0xc0], receipts := [0xc0] }

def sampleRoot : Bytes := List.replicate 32 7

end Samples

end EthereumJS.E2store
