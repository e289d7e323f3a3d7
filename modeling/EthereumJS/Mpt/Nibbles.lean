import EthereumJS.Rlp.Basic
import EthereumJS.Patricia.Tree

/-! # Nibbles and the hex prefix of trie paths

The helpers of `util/nibbles.ts` and `util/hex.ts`. A nibble is a number below 16,
so that a `Nibbles` array cannot hold anything else.
-/

namespace EthereumJS

abbrev Nibble := Fin 16

instance neZero_nibbles : NeZero 16 := ⟨by decide⟩

abbrev Nibbles := List Nibble

def highNibble (b : UInt8) : Nibble := ⟨b.toNat / 16, by have := b.toNat_lt; omega⟩

def lowNibble (b : UInt8) : Nibble := ⟨b.toNat % 16, by omega⟩

def bytesToNibbles : Bytes → Nibbles
  | [] => []
  | b :: key => highNibble b :: lowNibble b :: bytesToNibbles key

def packNibbles (high low : Nibble) : UInt8 := UInt8.ofNat (high.val * 16 + low.val)

/-- The length of the result is half of the array's, rounded down. -/
def nibblesTypeToPackedBytes : Nibbles → Bytes
  | high :: low :: arr => packNibbles high low :: nibblesTypeToPackedBytes arr
  | _ => []

/-- `-1` and `1` of the source are `lt` and `gt`. -/
def nibblesCompare : Nibbles → Nibbles → Ordering
  | [], [] => .eq
  | [], _ :: _ => .lt
  | _ :: _, [] => .gt
  | a :: n1, b :: n2 => if a < b then .lt else if b < a then .gt else nibblesCompare n1 n2

def matchingNibbleLength : Nibbles → Nibbles → Nat
  | a :: nib1, b :: nib2 => if a = b then matchingNibbleLength nib1 nib2 + 1 else 0
  | _, _ => 0

def addHexPrefix (key : Nibbles) (terminator : Bool) : Nibbles :=
  let flag : Nibble := if terminator then 2 else 0
  if key.length % 2 = 1 then (1 + flag) :: key else (0 + flag) :: 0 :: key

def removeHexPrefix (val : Nibbles) : Nibbles :=
  if val.head?.any (·.val % 2 = 1) then val.drop 1 else val.drop 2

def isTerminator (key : Nibbles) : Bool := key.head?.any (1 < ·)

@[simp] theorem length_bytesToNibbles (key : Bytes) :
    (bytesToNibbles key).length = 2 * key.length := by
  induction key with
  | nil => rfl
  | cons b key ih =>
    simp only [bytesToNibbles, List.length_cons, ih]
    omega

@[simp] theorem highNibble_packNibbles (a b : Nibble) : highNibble (packNibbles a b) = a := by
  apply Fin.ext
  simp only [highNibble, packNibbles, UInt8.toNat_ofNat']
  omega

@[simp] theorem lowNibble_packNibbles (a b : Nibble) : lowNibble (packNibbles a b) = b := by
  apply Fin.ext
  simp only [lowNibble, packNibbles, UInt8.toNat_ofNat']
  omega

@[simp] theorem packNibbles_nibbles (b : UInt8) :
    packNibbles (highNibble b) (lowNibble b) = b := by
  apply UInt8.toNat_inj.mp
  have := b.toNat_lt
  simp only [highNibble, packNibbles, lowNibble, UInt8.toNat_ofNat']
  omega

@[simp] theorem packedBytes_bytesToNibbles (key : Bytes) :
    nibblesTypeToPackedBytes (bytesToNibbles key) = key := by
  induction key with
  | nil => rfl
  | cons b key ih => simp [bytesToNibbles, nibblesTypeToPackedBytes, ih]

theorem bytesToNibbles_packedBytes (arr : Nibbles) (h : arr.length % 2 = 0) :
    bytesToNibbles (nibblesTypeToPackedBytes arr) = arr := by
  match arr with
  | [] => rfl
  | [_] => simp at h
  | a :: b :: arr =>
    have harr : arr.length % 2 = 0 := by
      simp only [List.length_cons] at h
      omega
    simp [nibblesTypeToPackedBytes, bytesToNibbles, bytesToNibbles_packedBytes arr harr]

theorem bytesToNibbles_injective : Function.Injective bytesToNibbles :=
  Function.LeftInverse.injective packedBytes_bytesToNibbles

theorem addHexPrefix_length_even (key : Nibbles) (terminator : Bool) :
    (addHexPrefix key terminator).length % 2 = 0 := by
  unfold addHexPrefix
  simp only
  split
  · simp only [List.length_cons]
    omega
  · simp only [List.length_cons]
    omega

@[simp] theorem removeHexPrefix_addHexPrefix (key : Nibbles) (terminator : Bool) :
    removeHexPrefix (addHexPrefix key terminator) = key := by
  unfold addHexPrefix removeHexPrefix
  cases terminator <;> by_cases h : key.length % 2 = 1 <;> simp [h]

@[simp] theorem isTerminator_addHexPrefix (key : Nibbles) (terminator : Bool) :
    isTerminator (addHexPrefix key terminator) = terminator := by
  unfold addHexPrefix isTerminator
  cases terminator <;> by_cases h : key.length % 2 = 1 <;> simp [h]

/-- The path of a leaf or an extension as it is stored. -/
def compactPath (key : Nibbles) (terminator : Bool) : Bytes :=
  nibblesTypeToPackedBytes (addHexPrefix key terminator)

@[simp] theorem bytesToNibbles_compactPath (key : Nibbles) (terminator : Bool) :
    bytesToNibbles (compactPath key terminator) = addHexPrefix key terminator :=
  bytesToNibbles_packedBytes _ (addHexPrefix_length_even key terminator)

theorem compactPath_inj {p q : Nibbles} {b c : Bool} (h : compactPath p b = compactPath q c) :
    p = q ∧ b = c := by
  have hnib := congrArg bytesToNibbles h
  rw [bytesToNibbles_compactPath, bytesToNibbles_compactPath] at hnib
  have hpath := congrArg removeHexPrefix hnib
  have hflag := congrArg isTerminator hnib
  simp only [removeHexPrefix_addHexPrefix, isTerminator_addHexPrefix] at hpath hflag
  exact ⟨hpath, hflag⟩

theorem length_commonPrefix (p k : Nibbles) :
    (Patricia.commonPrefix p k).length = matchingNibbleLength p k := by
  induction p generalizing k with
  | nil => cases k <;> rfl
  | cons a p ih =>
    cases k with
    | nil => rfl
    | cons b k =>
      simp only [Patricia.commonPrefix, matchingNibbleLength]
      split
      · simp [ih]
      · rfl

theorem take_matchingNibbleLength (p k : Nibbles) :
    p.take (matchingNibbleLength p k) = Patricia.commonPrefix p k := by
  obtain ⟨p', k', hp, _, _⟩ := Patricia.commonPrefix_spec p k
  rw [← length_commonPrefix]
  conv_lhs => rw [hp]
  rw [List.take_left']
  rw [← hp]

end EthereumJS
