import EthereumJS.Mpt.CheckpointDB
import EthereumJS.Mpt.Nibbles

/-! # Keys in hex and in compact bytes

The codecs of `util/encoding.ts`. A key in hex has a byte for each nibble and may end with a
terminator, the byte 16. Reads beyond the end of an array do not occur but for the last byte of an
odd array, which is written beyond the end of the result.
-/

namespace EthereumJS.Encoding

def hasTerminator (nibbles : Bytes) : Bool := nibbles.getLast? = some 16

def nibblesToBytes : Bytes → Bytes
  | high :: low :: nibbles => (high <<< 4 ||| low) :: nibblesToBytes nibbles
  | _ => []

inductive EncodingError
  /-- Can't convert hex key of odd length. -/
  | oddLength
  | unprefixedHex (error : CheckpointDBError)
  /-- The `length` of `undefined`. -/
  | undefinedPath
  deriving DecidableEq

def hexToKeybytes (hex : Bytes) : Except EncodingError Bytes :=
  let hex := if hasTerminator hex then hex.dropLast else hex
  if hex.length % 2 = 1 then .error .oddLength else .ok (nibblesToBytes hex)

def nibblesToCompactBytes (nibbles : Bytes) : Bytes :=
  let terminator : UInt8 := if hasTerminator nibbles then 1 else 0
  let nibbles := if hasTerminator nibbles then nibbles.dropLast else nibbles
  let first := terminator <<< 5
  if nibbles.length % 2 = 1 then
    (first ||| (1 : UInt8) <<< 4 ||| nibbles.headD 0) :: nibblesToBytes (nibbles.drop 1)
  else first :: nibblesToBytes nibbles

/-- With a terminator at the end, which the caller removes where the key has none. -/
def bytesToNibbles (str : Bytes) : Bytes := str.flatMap (fun b => [b / 16, b % 16]) ++ [16]

def compactBytesToNibbles (compact : Bytes) : Bytes :=
  if compact.length = 0 then compact
  else
    let base := bytesToNibbles compact
    let base := if base.headD 0 < 2 then base.dropLast else base
    base.drop (2 - (base.headD 0 &&& 1).toNat)

def nibbleTypeToByteType (arr : Nibbles) : Bytes := arr.map fun nibble => UInt8.ofNat nibble.val

/-- The key of a path in hex, with the terminator for a leaf. -/
def hexKey (path : Nibbles) (isLeaf : Bool) : Bytes :=
  nibbleTypeToByteType path ++ if isLeaf then [16] else []

variable (path : Nibbles) (isLeaf : Bool)

@[simp] theorem length_nibbleTypeToByteType : (nibbleTypeToByteType path).length = path.length :=
  List.length_map _

theorem hasTerminator_hexKey : hasTerminator (hexKey path isLeaf) = isLeaf := by
  cases isLeaf with
  | true => simp [hasTerminator, hexKey]
  | false =>
    have hnibble : ∀ nibble : Nibble, UInt8.ofNat nibble.val ≠ 16 := by decide
    simp [hasTerminator, hexKey, nibbleTypeToByteType, hnibble]

theorem hexKey_withoutTerminator :
    (if hasTerminator (hexKey path isLeaf) then (hexKey path isLeaf).dropLast
      else hexKey path isLeaf) = nibbleTypeToByteType path := by
  rw [hasTerminator_hexKey]
  cases isLeaf with
  | true => simp [hexKey]
  | false => simp [hexKey]

theorem nibblesToBytes_nibbleTypeToByteType :
    ∀ path : Nibbles, nibblesToBytes (nibbleTypeToByteType path) = nibblesTypeToPackedBytes path
  | [] | [_] => rfl
  | high :: low :: path => by
    have hpack : ∀ high low : Nibble,
        UInt8.ofNat high.val <<< 4 ||| UInt8.ofNat low.val = packNibbles high low := by decide
    have hrest := nibblesToBytes_nibbleTypeToByteType path
    rw [nibbleTypeToByteType] at hrest ⊢
    rw [List.map_cons, List.map_cons, nibblesToBytes, hpack, hrest, nibblesTypeToPackedBytes]

/-- The two ways to the compact bytes of a path are one. -/
theorem nibblesToCompactBytes_hexKey :
    nibblesToCompactBytes (hexKey path isLeaf) =
      nibblesTypeToPackedBytes (addHexPrefix path isLeaf) := by
  have hodd : ∀ isLeaf : Bool, ∀ nibble : Nibble,
      ((if isLeaf then 1 else 0 : UInt8) <<< 5 ||| (1 : UInt8) <<< 4 ||| UInt8.ofNat nibble.val) =
        packNibbles (1 + if isLeaf then 2 else 0) nibble := by decide
  have heven : ∀ isLeaf : Bool, (if isLeaf then 1 else 0 : UInt8) <<< 5 =
      packNibbles (0 + if isLeaf then 2 else 0) 0 := by decide
  rw [nibblesToCompactBytes, hexKey_withoutTerminator, hasTerminator_hexKey,
    length_nibbleTypeToByteType, addHexPrefix]
  by_cases hlength : path.length % 2 = 1
  · rw [if_pos hlength, if_pos hlength]
    cases path with
    | nil => cases hlength
    | cons nibble path =>
      have htail := nibblesToBytes_nibbleTypeToByteType path
      rw [nibblesTypeToPackedBytes, ← hodd, ← htail]
      rfl
  · rw [if_neg hlength, if_neg hlength, nibblesTypeToPackedBytes, ← heven,
      nibblesToBytes_nibbleTypeToByteType]

theorem bytesToNibbles_packed : ∀ arr : Nibbles, arr.length % 2 = 0 →
    bytesToNibbles (nibblesTypeToPackedBytes arr) = hexKey arr true
  | [], _ => rfl
  | [_], h => by cases h
  | high :: low :: arr, h => by
    have hsplit : ∀ high low : Nibble, packNibbles high low / 16 = UInt8.ofNat high.val ∧
        packNibbles high low % 16 = UInt8.ofNat low.val := by decide
    have heven : arr.length % 2 = 0 := by
      rw [List.length_cons, List.length_cons] at h
      omega
    have hrest := bytesToNibbles_packed arr heven
    rw [bytesToNibbles, hexKey, if_pos rfl] at hrest ⊢
    rw [nibblesTypeToPackedBytes, List.flatMap_cons, List.append_assoc, hrest, (hsplit high low).1,
      (hsplit high low).2]
    rfl

/-- The first nibble says how much of the prefix is to be removed and whether the terminator is
kept. -/
theorem compactBytesToNibbles_packed (first : Nibble) (rest : Nibbles)
    (h : (first :: rest).length % 2 = 0) :
    compactBytesToNibbles (nibblesTypeToPackedBytes (first :: rest)) =
      (hexKey (first :: rest) (decide (2 ≤ first))).drop (2 - first.val % 2) := by
  have hne : (nibblesTypeToPackedBytes (first :: rest)).length ≠ 0 := by
    cases rest with
    | nil => cases h
    | cons second rest => exact Nat.succ_ne_zero _
  have hflag : ∀ first : Nibble, UInt8.ofNat first.val < 2 ↔ ¬ 2 ≤ first := by decide
  have hparity : ∀ first : Nibble, (UInt8.ofNat first.val &&& 1).toNat = first.val % 2 := by decide
  have hhead (isLeaf : Bool) :
      (hexKey (first :: rest) isLeaf).headD 0 = UInt8.ofNat first.val := rfl
  have hterminator : (if (hexKey (first :: rest) true).headD 0 < 2 then
      (hexKey (first :: rest) true).dropLast else hexKey (first :: rest) true) =
        hexKey (first :: rest) (decide (2 ≤ first)) := by
    rw [hhead, if_congr (hflag first) rfl rfl]
    by_cases hleaf : 2 ≤ first
    · rw [if_neg (not_not_intro hleaf), decide_eq_true hleaf]
    · rw [if_pos hleaf, decide_eq_false hleaf, hexKey, hexKey, if_pos rfl,
        if_neg Bool.false_ne_true, List.dropLast_concat, List.append_nil]
  rw [compactBytesToNibbles, if_neg hne, bytesToNibbles_packed _ h]
  dsimp only
  rw [hterminator, hhead, hparity]

theorem compactBytesToNibbles_nibblesToCompactBytes :
    compactBytesToNibbles (nibblesToCompactBytes (hexKey path isLeaf)) = hexKey path isLeaf := by
  have heven := addHexPrefix_length_even path isLeaf
  rw [nibblesToCompactBytes_hexKey]
  rw [addHexPrefix] at heven ⊢
  by_cases hlength : path.length % 2 = 1
  · rw [if_pos hlength] at heven ⊢
    rw [compactBytesToNibbles_packed _ _ heven]
    cases isLeaf with
    | true => rfl
    | false => rfl
  · rw [if_neg hlength] at heven ⊢
    rw [compactBytesToNibbles_packed _ _ heven]
    cases isLeaf with
    | true => rfl
    | false => rfl

theorem hexToKeybytes_nibbleTypeToByteType (h : path.length % 2 = 0) :
    hexToKeybytes (nibbleTypeToByteType path) = .ok (nibblesTypeToPackedBytes path) := by
  have hkey : nibbleTypeToByteType path = hexKey path false := (List.append_nil _).symm
  rw [hexToKeybytes, hkey, hexKey_withoutTerminator]
  rw [length_nibbleTypeToByteType, if_neg (by omega), nibblesToBytes_nibbleTypeToByteType]

end EthereumJS.Encoding
