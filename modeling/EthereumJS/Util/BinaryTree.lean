import EthereumJS.Mpt.Trie
import EthereumJS.Util.LittleEndian
import EthereumJS.Util.Values

/-! # Where the binary tree keeps an account

`util/binaryTree.ts`: stems and suffixes of the header, the code chunks and the storage slots
of an account, the chunks of its code and the encoding of its basic data.
-/

namespace EthereumJS

open LittleEndian RLP

section Layout

/-- `Address`, whose constructor checks the length. -/
structure TreeAddress where
  bytes : Bytes
  length_bytes : bytes.length = 20
  deriving DecidableEq

/-- A `number` or a `bigint`. -/
inductive TreeIndex
  | number (value : Nat)
  | bigint (value : Nat)

def intToBytes (i : Nat) : Bytes := bigIntToBytes i

/-- `int32ToBytes` in little-endian order. -/
def int32ToBytes (value : Nat) : Bytes := leBytes 4 value

def treeIndexBytes : TreeIndex → Bytes
  | .number value => (int32ToBytes value).rightpad 32 0
  | .bigint value => ((bigIntToBytes value).reverse.take 32).rightpad 32 0

variable (H : HashKeysFunction) (address : TreeAddress)

/-- Neither an address nor an index is too long for the padding. -/
def getBinaryTreeStem (treeIndex : TreeIndex) : Bytes :=
  (H.hash (address.bytes.leftpad 32 0 ++ treeIndexBytes treeIndex)).take 31

def BINARY_TREE_CODE_CHUNK_SIZE : Nat := 31
def BINARY_TREE_HEADER_STORAGE_OFFSET : Nat := 64
def BINARY_TREE_CODE_OFFSET : Nat := 128
def BINARY_TREE_NODE_WIDTH : Nat := 256
def BINARY_TREE_MAIN_STORAGE_OFFSET : Nat := 256 ^ BINARY_TREE_CODE_CHUNK_SIZE

def storagePosition (storageKey : Nat) : Nat :=
  if storageKey < BINARY_TREE_CODE_OFFSET - BINARY_TREE_HEADER_STORAGE_OFFSET then
    BINARY_TREE_HEADER_STORAGE_OFFSET + storageKey
  else BINARY_TREE_MAIN_STORAGE_OFFSET + storageKey

/-- The tree index and the subindex. -/
def getBinaryTreeIndicesForStorageSlot (storageKey : Nat) : Nat × Nat :=
  (storagePosition storageKey / BINARY_TREE_NODE_WIDTH,
    storagePosition storageKey % BINARY_TREE_NODE_WIDTH)

def getBinaryTreeIndicesForCodeChunk (chunkId : Nat) : Nat × Nat :=
  ((BINARY_TREE_CODE_OFFSET + chunkId) / BINARY_TREE_NODE_WIDTH,
    (BINARY_TREE_CODE_OFFSET + chunkId) % BINARY_TREE_NODE_WIDTH)

def getBinaryTreeKeyForCodeChunk (chunkId : Nat) : Bytes :=
  let (treeIndex, subIndex) := getBinaryTreeIndicesForCodeChunk chunkId
  getBinaryTreeStem H address (.number treeIndex) ++ intToBytes subIndex

def getBinaryTreeKeyForStorageSlot (storageKey : Nat) : Bytes :=
  let (treeIndex, subIndex) := getBinaryTreeIndicesForStorageSlot storageKey
  getBinaryTreeStem H address (.bigint treeIndex) ++ intToBytes subIndex

/-- The suffixes of code chunks; after the last one of a stem comes the first one. -/
def generateBinaryTreeChunkSuffixes (numChunks : Nat) : List Nat :=
  suffixesFrom numChunks BINARY_TREE_CODE_OFFSET
where
  suffixesFrom : Nat → Nat → List Nat
    | 0, _ => []
    | n + 1, currentSuffix =>
      currentSuffix :: suffixesFrom n
        (if currentSuffix + 1 ≥ BINARY_TREE_NODE_WIDTH then 0 else currentSuffix + 1)

def codeStemCount (numChunks : Nat) : Nat :=
  if numChunks > BINARY_TREE_CODE_OFFSET then
    (numChunks + (BINARY_TREE_NODE_WIDTH - 1)) / BINARY_TREE_NODE_WIDTH + 1
  else 1

def generateBinaryTreeCodeStems (numChunks : Nat) : List Bytes :=
  (getBinaryTreeKeyForCodeChunk H address 0).take 31 ::
    (List.range (codeStemCount numChunks - 1)).map fun stemNum =>
      (getBinaryTreeKeyForCodeChunk H address
        (BINARY_TREE_CODE_OFFSET + stemNum * BINARY_TREE_NODE_WIDTH)).take 31

end Layout

section Chunks

/-- How much push data is left at each position. -/
def pushDataLoop (paddedCode : Bytes) : Nat → Nat → List UInt8 → List UInt8
  | 0, _, bytesToExecData => bytesToExecData
  | fuel + 1, pos, bytesToExecData =>
    if pos < paddedCode.length then
      let opcode := (paddedCode.getD pos 0).toNat
      let pushdataBytes := if 0x60 ≤ opcode ∧ opcode ≤ 0x7f then opcode - 0x5f else 0
      let written := (List.range pushdataBytes).foldl
        (fun data x => data.set (pos + 1 + x) (UInt8.ofNat (pushdataBytes - x))) bytesToExecData
      pushDataLoop paddedCode fuel (pos + 1 + pushdataBytes) written
    else bytesToExecData

def paddedCode (code : Bytes) : Bytes :=
  code ++ List.replicate ((31 - code.length % 31) % 31) 0

/-- `Math.ceil(size / 31)`. -/
def chunkCount (size : Nat) : Nat := (size + 30) / 31

/-- Each chunk has in front how many of its bytes are push data of the chunk before. -/
def chunkifyBinaryTreeCode (code : Bytes) : List Bytes :=
  let padded := paddedCode code
  let bytesToExecData :=
    pushDataLoop padded padded.length 0 (List.replicate (padded.length + 32) 0)
  (List.range (chunkCount padded.length)).map fun i =>
    UInt8.ofNat (min (bytesToExecData.getD (31 * i) 0).toNat 31) ::
      (padded.drop (31 * i)).take 31

end Chunks

section BasicData

structure BinaryTreeLeafBasicData where
  version : Nat
  nonce : Nat
  balance : Nat
  codeSize : Nat
  deriving DecidableEq

/-- `bytesToInt32` of bytes that are padded on the left. -/
def bytesToInt32 (bytes : Bytes) : Nat := bytesToBigInt ((bytes.leftpad 4 0).take 4)

def decodeBinaryTreeLeafBasicData (encodedBasicData : Bytes) : BinaryTreeLeafBasicData where
  version := bytesToInt32 (encodedBasicData.take 1)
  nonce := bytesToBigInt ((encodedBasicData.drop 8).take 8)
  codeSize := bytesToInt32 ((encodedBasicData.drop 5).take 3)
  balance := bytesToBigInt ((encodedBasicData.drop 16).take 16)

/-- Four bytes are reserved. -/
def encodeBinaryTreeLeafBasicData (account : BinaryTreeLeafBasicData) :
    Except BytesError Bytes := do
  let encodedVersion ← setLengthLeft (intToBytes account.version) 1
  let reservedBytes : Bytes := [0, 0, 0, 0]
  let encodedNonce ← setLengthLeft (bigIntToBytes account.nonce) 8
  let encodedCodeSize ← setLengthLeft (intToBytes account.codeSize) 3
  let encodedBalance ← setLengthLeft (bigIntToBytes account.balance) 16
  return encodedVersion ++ reservedBytes ++ encodedCodeSize ++ encodedNonce ++ encodedBalance

end BasicData

section Numbers

theorem length_packedBytes (digits : Nibbles) (heven : digits.length % 2 = 0) :
    (nibblesTypeToPackedBytes digits).length = digits.length / 2 := by
  match digits with
  | [] => rfl
  | [_] => simp at heven
  | high :: low :: digits =>
    simp only [List.length_cons] at heven
    rw [nibblesTypeToPackedBytes, List.length_cons, length_packedBytes digits (by omega)]
    simp only [List.length_cons]
    omega

theorem length_padToEven (digits : Nibbles) :
    (padToEven digits).length = 2 * ((digits.length + 1) / 2) := by
  rw [padToEven]
  split
  · rw [List.length_cons]
    omega
  · omega

theorem length_toHexDigits_le {n width : Nat} (h : n < 256 ^ width) (hwidth : 0 < width) :
    0 < (toHexDigits n).length ∧ (toHexDigits n).length ≤ 2 * width := by
  rw [toHexDigits]
  split
  · simp only [List.length_singleton]
    omega
  · next hzero =>
    rw [List.length_map, List.length_reverse]
    constructor
    · exact List.length_pos_iff.mpr (Nat.digits_ne_nil_iff_ne_zero.mpr hzero)
    · rw [Nat.digits_length_le_iff (by decide), pow_mul]
      exact h

theorem length_bigIntToBytes_le {n : Nat} (width : Nat) (h : n < 256 ^ width) (hwidth : 0 < width) :
    0 < (bigIntToBytes n).length ∧ (bigIntToBytes n).length ≤ width := by
  have hdigits := length_toHexDigits_le h hwidth
  have hpadded := length_padToEven (toHexDigits n)
  rw [bigIntToBytes, length_packedBytes _ (by omega), hpadded]
  omega

theorem bytesToNumber_zeros (n : Nat) (bytes : Bytes) :
    bytesToNumber (List.replicate n 0 ++ bytes) = bytesToNumber bytes := by
  rw [← bytesToNumber_unpadBytes, unpadBytes_replicate, bytesToNumber_unpadBytes]

theorem bigIntToBytes_byte {n : Nat} (h : n < 256) : bigIntToBytes n = [UInt8.ofNat n] := by
  obtain ⟨hpos, hle⟩ := length_bigIntToBytes_le 1 (by simpa using h) (by decide)
  have hnumber := bytesToNumber_bigIntToBytes n
  obtain ⟨b, hb⟩ := List.length_eq_one_iff.mp (Nat.le_antisymm hle hpos)
  rw [hb] at hnumber ⊢
  rw [← hnumber]
  simp [bytesToNumber]

theorem leNumber_append_zeros (bytes : Bytes) (n : Nat) :
    leNumber (bytes ++ List.replicate n 0) = leNumber bytes := by
  induction bytes with
  | nil =>
    induction n with
    | zero => rfl
    | succ n ih =>
      rw [List.nil_append] at ih ⊢
      simp [List.replicate_succ, leNumber, ih]
  | cons b bytes ih => rw [List.cons_append, leNumber, ih, leNumber]

theorem leNumber_append (bytes : Bytes) (b : UInt8) :
    leNumber (bytes ++ [b]) = leNumber bytes + b.toNat * 256 ^ bytes.length := by
  induction bytes with
  | nil => simp [leNumber]
  | cons c bytes ih =>
    rw [List.cons_append, leNumber, ih, leNumber, List.length_cons, pow_succ]
    ring

theorem leNumber_reverse (bytes : Bytes) : leNumber bytes.reverse = bytesToNumber bytes := by
  induction bytes with
  | nil => rfl
  | cons b bytes ih =>
    rw [List.reverse_cons, leNumber_append, ih, List.length_reverse, bytesToNumber,
      bytesToNumber, List.foldl_cons, bytesToNumber_foldl bytes (0 * 256 + b.toNat)]
    rw [bytesToNumber]
    ring

/-- Both kinds of an index have the same bytes. -/
theorem treeIndexBytes_bigint {n : Nat} (h : n < 256 ^ 32) :
    treeIndexBytes (.bigint n) = leBytes 32 n := by
  obtain ⟨-, hle⟩ := length_bigIntToBytes_le 32 h (by decide)
  have htake : (bigIntToBytes n).reverse.take 32 = (bigIntToBytes n).reverse :=
    List.take_of_length_le (by rwa [List.length_reverse])
  have hlength : (treeIndexBytes (.bigint n)).length = 32 := by
    rw [treeIndexBytes, htake, List.rightpad, List.length_append, List.length_replicate,
      List.length_reverse]
    omega
  have hnumber : leNumber (treeIndexBytes (.bigint n)) = n := by
    rw [treeIndexBytes, htake, List.rightpad, leNumber_append_zeros, leNumber_reverse,
      bytesToNumber_bigIntToBytes]
  rw [← leBytes_leNumber (treeIndexBytes (.bigint n)), hlength, hnumber]

theorem treeIndexBytes_number {n : Nat} (h : n < 256 ^ 4) :
    treeIndexBytes (.number n) = leBytes 32 n := by
  have hlength : (treeIndexBytes (.number n)).length = 32 := by
    rw [treeIndexBytes, List.rightpad, List.length_append, List.length_replicate, int32ToBytes,
      length_leBytes]
  have hnumber : leNumber (treeIndexBytes (.number n)) = n := by
    rw [treeIndexBytes, List.rightpad, leNumber_append_zeros, int32ToBytes, leNumber_leBytes,
      Nat.mod_eq_of_lt h]
  rw [← leBytes_leNumber (treeIndexBytes (.number n)), hlength, hnumber]

end Numbers

section Keys

variable {H : HashKeysFunction} {address other : TreeAddress} {i j n : Nat}

/-- What is hashed to a stem. -/
def keyMessage (address : TreeAddress) (index : Nat) : Bytes :=
  List.replicate 12 0 ++ address.bytes ++ leBytes 32 index

def stemAt (H : HashKeysFunction) (address : TreeAddress) (index : Nat) : Bytes :=
  (H.hash (keyMessage address index)).take 31

theorem length_stemAt (H : HashKeysFunction) (address : TreeAddress) (i : Nat) :
    (stemAt H address i).length = 31 := by
  rw [stemAt, List.length_take, H.length_hash]
  rfl

theorem getBinaryTreeStem_eq {index : TreeIndex} (h : treeIndexBytes index = leBytes 32 i) :
    getBinaryTreeStem H address index = stemAt H address i := by
  rw [getBinaryTreeStem, stemAt, keyMessage, h, List.leftpad, address.length_bytes]

theorem getBinaryTreeStem_number (h : i < 256 ^ 4) :
    getBinaryTreeStem H address (.number i) = stemAt H address i :=
  getBinaryTreeStem_eq (treeIndexBytes_number h)

theorem keyMessage_inj (hi : i < 256 ^ 32) (hj : j < 256 ^ 32)
    (h : keyMessage address i = keyMessage other j) : address = other ∧ i = j := by
  have hlength : (List.replicate 12 0 ++ address.bytes).length =
      (List.replicate 12 0 ++ other.bytes).length := by
    rw [List.length_append, List.length_append, address.length_bytes, other.length_bytes]
  obtain ⟨haddress, hindex⟩ := List.append_inj h hlength
  have hnumber := congrArg leNumber hindex
  rw [leNumber_leBytes, leNumber_leBytes, Nat.mod_eq_of_lt hi, Nat.mod_eq_of_lt hj] at hnumber
  obtain ⟨bytes, hbytes⟩ := address
  obtain ⟨bytes', hbytes'⟩ := other
  cases List.append_cancel_left haddress
  exact ⟨rfl, hnumber⟩

theorem storagePosition_eq (k : Nat) :
    storagePosition k = if k < 64 then 64 + k else 256 ^ 31 + k := rfl

theorem storagePosition_inj {k l : Nat} (h : storagePosition k = storagePosition l) : k = l := by
  rw [storagePosition_eq, storagePosition_eq] at h
  split at h <;> split at h <;> omega

/-- A slot stands in the header behind its first fields or behind any code. -/
theorem storagePosition_apart (k : Nat) :
    64 ≤ storagePosition k ∧ storagePosition k < 128 ∨ 256 ^ 31 ≤ storagePosition k := by
  rw [storagePosition_eq]
  split <;> omega

theorem storagePosition_lt {k : Nat} (hk : k < 256 ^ 32) : storagePosition k / 256 < 256 ^ 32 := by
  rw [storagePosition_eq]
  split <;> omega

theorem getBinaryTreeKeyForStorageSlot_eq {k : Nat} (hk : k < 256 ^ 32) :
    getBinaryTreeKeyForStorageSlot H address k =
      stemAt H address (storagePosition k / 256) ++ [UInt8.ofNat (storagePosition k % 256)] := by
  rw [getBinaryTreeKeyForStorageSlot, getBinaryTreeIndicesForStorageSlot]
  dsimp only [BINARY_TREE_NODE_WIDTH]
  rw [getBinaryTreeStem_eq (treeIndexBytes_bigint (storagePosition_lt hk)), intToBytes,
    bigIntToBytes_byte (Nat.mod_lt _ (by decide))]

theorem take_getBinaryTreeKeyForCodeChunk (h : (128 + i) / 256 < 256 ^ 4) :
    (getBinaryTreeKeyForCodeChunk H address i).take 31 = stemAt H address ((128 + i) / 256) := by
  rw [getBinaryTreeKeyForCodeChunk, getBinaryTreeIndicesForCodeChunk]
  dsimp only [BINARY_TREE_NODE_WIDTH, BINARY_TREE_CODE_OFFSET]
  rw [getBinaryTreeStem_number h, List.take_append_of_le_length (by rw [length_stemAt]),
    List.take_of_length_le (by rw [length_stemAt])]

theorem codeStemCount_eq (n : Nat) :
    codeStemCount n = if n > 128 then (n + 255) / 256 + 1 else 1 := rfl

theorem codeStemCount_pos : 0 < codeStemCount n := by
  rw [codeStemCount_eq]
  split <;> omega

/-- The stems of a code follow each other from that of the header on. -/
theorem generateBinaryTreeCodeStems_eq (h : n < 2 ^ 24) :
    generateBinaryTreeCodeStems H address n =
      (List.range (codeStemCount n)).map (stemAt H address) := by
  have hcount : codeStemCount n ≤ 2 ^ 24 := by
    rw [codeStemCount_eq]
    split <;> omega
  obtain ⟨m, hm⟩ := Nat.exists_eq_succ_of_ne_zero (codeStemCount_pos (n := n)).ne'
  rw [hm, List.range_succ_eq_map, List.map_cons, List.map_map, generateBinaryTreeCodeStems, hm,
    take_getBinaryTreeKeyForCodeChunk (by decide)]
  refine congrArg₂ List.cons rfl (List.map_congr_left fun stemNum hstem => ?_)
  have hlt := List.mem_range.mp hstem
  have hindex : (128 + (BINARY_TREE_CODE_OFFSET + stemNum * BINARY_TREE_NODE_WIDTH)) / 256 =
      stemNum + 1 := by
    simp only [BINARY_TREE_CODE_OFFSET, BINARY_TREE_NODE_WIDTH]
    omega
  rw [take_getBinaryTreeKeyForCodeChunk (by rw [hindex]; omega), hindex]
  rfl

theorem suffixesFrom_eq (n current : Nat) (h : current < 256) :
    generateBinaryTreeChunkSuffixes.suffixesFrom n current =
      (List.range n).map fun i => (current + i) % 256 := by
  induction n generalizing current with
  | zero => rfl
  | succ n ih =>
    have hnext : (if current + 1 ≥ 256 then 0 else current + 1) = (current + 1) % 256 := by
      split <;> omega
    change current :: generateBinaryTreeChunkSuffixes.suffixesFrom n
      (if current + 1 ≥ 256 then 0 else current + 1) = _
    rw [hnext, ih _ (Nat.mod_lt _ (by decide)), List.range_succ_eq_map, List.map_cons,
      List.map_map]
    refine congrArg₂ List.cons (by omega) (List.map_congr_left fun i _ => ?_)
    simp only [Function.comp_apply]
    omega

theorem generateBinaryTreeChunkSuffixes_eq (n : Nat) :
    generateBinaryTreeChunkSuffixes n = (List.range n).map fun i => (128 + i) % 256 :=
  suffixesFrom_eq n _ (by decide)

end Keys

section Codec

theorem bytesToNumber_lt (bytes : Bytes) : bytesToNumber bytes < 256 ^ bytes.length := by
  rw [← leNumber_reverse, ← List.length_reverse]
  exact leNumber_lt _

theorem setLengthLeft_bigIntToBytes {n width : Nat} {bytes : Bytes}
    (h : setLengthLeft (bigIntToBytes n) width = .ok bytes) :
    bytes.length = width ∧ bytesToNumber bytes = n ∧ n < 256 ^ width := by
  have hspec : bytes.length = width ∧ bytesToNumber bytes = n := by
    rw [setLengthLeft] at h
    split at h
    · cases h
    · cases h
      rw [List.length_append, List.length_replicate, bytesToNumber_zeros,
        bytesToNumber_bigIntToBytes]
      omega
  obtain ⟨rfl, rfl⟩ := hspec
  exact ⟨rfl, rfl, bytesToNumber_lt bytes⟩

theorem setLengthLeft_ok {n : Nat} (width : Nat) (h : n < 256 ^ width) (hwidth : 0 < width) :
    ∃ bytes, setLengthLeft (bigIntToBytes n) width = .ok bytes := by
  obtain ⟨-, hle⟩ := length_bigIntToBytes_le width h hwidth
  rw [setLengthLeft, if_neg (by omega)]
  exact ⟨_, rfl⟩

theorem bytesToInt32_of_le {bytes : Bytes} (h : bytes.length ≤ 4) :
    bytesToInt32 bytes = bytesToNumber bytes := by
  have hlength : (bytes.leftpad 4 0).length ≤ 4 := by
    rw [List.leftpad, List.length_append, List.length_replicate]
    omega
  rw [bytesToInt32, List.take_of_length_le hlength, List.leftpad, bytesToBigInt,
    bytesToNumber_zeros]

/-- The fields that have a place in the leaf. -/
structure BinaryTreeLeafBasicData.Fits (account : BinaryTreeLeafBasicData) : Prop where
  version : account.version < 256
  nonce : account.nonce < 2 ^ 64
  balance : account.balance < 2 ^ 128
  codeSize : account.codeSize < 2 ^ 24

theorem encode_ok {account : BinaryTreeLeafBasicData} (h : account.Fits) :
    ∃ bytes, encodeBinaryTreeLeafBasicData account = .ok bytes := by
  obtain ⟨version, hversion⟩ := setLengthLeft_ok 1 h.version (by decide)
  obtain ⟨nonce, hnonce⟩ := setLengthLeft_ok 8 h.nonce (by decide)
  obtain ⟨codeSize, hcodeSize⟩ := setLengthLeft_ok 3 h.codeSize (by decide)
  obtain ⟨balance, hbalance⟩ := setLengthLeft_ok 16 h.balance (by decide)
  rw [encodeBinaryTreeLeafBasicData, intToBytes, intToBytes, hversion, hnonce, hcodeSize, hbalance]
  exact ⟨_, rfl⟩

theorem slices_eq {a b c d e : Bytes} (ha : a.length = 1) (hb : b.length = 4) (hc : c.length = 3)
    (hd : d.length = 8) (he : e.length = 16) :
    (a ++ b ++ c ++ d ++ e).take 1 = a ∧ ((a ++ b ++ c ++ d ++ e).drop 5).take 3 = c ∧
      ((a ++ b ++ c ++ d ++ e).drop 8).take 8 = d ∧
      ((a ++ b ++ c ++ d ++ e).drop 16).take 16 = e := by
  simp [List.drop_append, List.take_of_length_le, List.drop_eq_nil_of_le, *]

theorem decode_encode {account : BinaryTreeLeafBasicData} {bytes : Bytes}
    (h : encodeBinaryTreeLeafBasicData account = .ok bytes) :
    bytes.length = 32 ∧ decodeBinaryTreeLeafBasicData bytes = account ∧ account.Fits := by
  rw [encodeBinaryTreeLeafBasicData, intToBytes, intToBytes] at h
  cases hversion : setLengthLeft (bigIntToBytes account.version) 1 with
  | error e => rw [hversion] at h; cases h
  | ok version => ?_
  cases hnonce : setLengthLeft (bigIntToBytes account.nonce) 8 with
  | error e => rw [hversion, hnonce] at h; cases h
  | ok nonce => ?_
  cases hcodeSize : setLengthLeft (bigIntToBytes account.codeSize) 3 with
  | error e => rw [hversion, hnonce, hcodeSize] at h; cases h
  | ok codeSize => ?_
  cases hbalance : setLengthLeft (bigIntToBytes account.balance) 16 with
  | error e => rw [hversion, hnonce, hcodeSize, hbalance] at h; cases h
  | ok balance => ?_
  rw [hversion, hnonce, hcodeSize, hbalance] at h
  cases h
  obtain ⟨hv, hversion, hversionLt⟩ := setLengthLeft_bigIntToBytes hversion
  obtain ⟨hn, hnonce, hnonceLt⟩ := setLengthLeft_bigIntToBytes hnonce
  obtain ⟨hc, hcodeSize, hcodeSizeLt⟩ := setLengthLeft_bigIntToBytes hcodeSize
  obtain ⟨hb, hbalance, hbalanceLt⟩ := setLengthLeft_bigIntToBytes hbalance
  obtain ⟨h1, h3, h8, h16⟩ := slices_eq hv (rfl : ([0, 0, 0, 0] : Bytes).length = 4) hc hn hb
  refine ⟨?_, ?_, ⟨hversionLt, hnonceLt, hbalanceLt, hcodeSizeLt⟩⟩
  · simp only [List.length_append, hv, hn, hc, hb, List.length_cons, List.length_nil]
  · rw [decodeBinaryTreeLeafBasicData, h1, h3, h8, h16, bytesToInt32_of_le (by omega),
      bytesToInt32_of_le (by omega), bytesToBigInt, bytesToBigInt, hversion, hnonce, hcodeSize,
      hbalance]

end Codec

section Chunks

variable {code chunk : Bytes} {i : Nat}

/-- The loop ends with the code. -/
theorem pushDataLoop_fuel (padded : Bytes) {fuel pos : Nat} (data : List UInt8)
    (h : padded.length ≤ pos + fuel) (more : Nat) :
    pushDataLoop padded (fuel + more) pos data = pushDataLoop padded fuel pos data := by
  induction fuel generalizing pos data with
  | zero =>
    cases more with
    | zero => rfl
    | succ more =>
      rw [Nat.zero_add]
      exact if_neg (by omega)
  | succ fuel ih =>
    rw [Nat.add_right_comm, pushDataLoop, pushDataLoop]
    split
    · exact ih _ (by omega)
    · rfl

theorem length_paddedCode (code : Bytes) :
    (paddedCode code).length = 31 * chunkCount code.length := by
  rw [paddedCode, chunkCount, List.length_append, List.length_replicate]
  omega

theorem length_chunkifyBinaryTreeCode (code : Bytes) :
    (chunkifyBinaryTreeCode code).length = chunkCount code.length := by
  rw [chunkifyBinaryTreeCode, List.length_map, List.length_range, length_paddedCode, chunkCount]
  omega

theorem chunk_spec (h : (chunkifyBinaryTreeCode code)[i]? = some chunk) :
    chunk.length = 32 ∧ chunk.drop 1 = ((paddedCode code).drop (31 * i)).take 31 := by
  obtain ⟨hi, -⟩ := List.getElem?_eq_some_iff.mp h
  rw [length_chunkifyBinaryTreeCode] at hi
  rw [chunkifyBinaryTreeCode, List.getElem?_map] at h
  obtain ⟨j, hj, rfl⟩ := Option.map_eq_some_iff.mp h
  obtain ⟨-, rfl⟩ := List.getElem?_eq_some_iff.mp hj
  rw [List.getElem_range]
  refine ⟨?_, rfl⟩
  rw [List.length_cons, List.length_take, List.length_drop, length_paddedCode]
  omega

end Chunks

end EthereumJS
