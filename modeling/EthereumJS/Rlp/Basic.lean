import Mathlib.Data.List.Basic
import Mathlib.Data.List.Forall2
import Mathlib.Data.Nat.Log
import Mathlib.Tactic

/-! # Recursive length prefix encoding

The encoder and decoder of the `rlp` package. A `Uint8Array` is a list of bytes
and a nested array of byte strings is an `Item`. The hexadecimal detour of the
source (`numberToHex`, `parseHexByte`) is the big-endian representation itself.
-/

namespace EthereumJS

abbrev Bytes := List UInt8

instance lawfulBEq_bytes : LawfulBEq Bytes := inferInstance

theorem bind_eq_ok {ε α β : Type} {x : Except ε α} {f : α → Except ε β} {b : β} :
    x >>= f = .ok b ↔ ∃ a, x = .ok a ∧ f a = .ok b := by
  cases x with
  | error e => exact iff_of_false (by rintro ⟨⟩) (by simp)
  | ok a =>
    constructor
    · intro h
      exact ⟨a, rfl, h⟩
    · rintro ⟨a', ha, h⟩
      obtain rfl := Except.ok.inj ha
      exact h

section MapM

variable {ε α β γ : Type} {f : α → Except ε β} {xs : List α} {ys : List β}

theorem mapM_eq_ok_iff : xs.mapM f = .ok ys ↔ List.Forall₂ (fun x y => f x = .ok y) xs ys := by
  induction xs generalizing ys with
  | nil =>
    rw [List.forall₂_nil_left_iff]
    exact ⟨fun h => (Except.ok.inj h).symm, fun h => h ▸ rfl⟩
  | cons x xs ih =>
    rw [List.mapM_cons, List.forall₂_cons_left_iff, bind_eq_ok]
    constructor
    · rintro ⟨y, hy, h⟩
      obtain ⟨zs, hzs, heq⟩ := bind_eq_ok.mp h
      exact ⟨y, zs, hy, ih.mp hzs, (Except.ok.inj heq).symm⟩
    · rintro ⟨y, zs, hy, hzs, rfl⟩
      exact ⟨y, hy, bind_eq_ok.mpr ⟨zs, ih.mpr hzs, rfl⟩⟩

theorem mapM_eq_ok {g : α → β} (h : ∀ x ∈ xs, f x = .ok (g x)) : xs.mapM f = .ok (xs.map g) := by
  rw [mapM_eq_ok_iff, List.forall₂_map_right_iff, List.forall₂_same]
  exact h

theorem mapM_map_eq_ok {items : List γ} {g : γ → α} {h : γ → β}
    (hf : ∀ item ∈ items, f (g item) = .ok (h item)) :
    (items.map g).mapM f = .ok (items.map h) := by
  rw [List.mapM_map]
  exact mapM_eq_ok hf

theorem exists_of_mem_mapM (h : xs.mapM f = .ok ys) {y : β} (hy : y ∈ ys) :
    ∃ x ∈ xs, f x = .ok y := by
  obtain ⟨i, hi, rfl⟩ := List.mem_iff_getElem.mp hy
  have hpairs := mapM_eq_ok_iff.mp h
  have hi' : i < xs.length := hpairs.length_eq ▸ hi
  exact ⟨xs[i], List.getElem_mem hi', hpairs.get hi' hi⟩

theorem exists_mapM_eq_ok_iff : (∃ ys, xs.mapM f = .ok ys) ↔ ∀ x ∈ xs, ∃ y, f x = .ok y := by
  constructor
  · rintro ⟨ys, h⟩ x hx
    obtain ⟨i, hi, rfl⟩ := List.mem_iff_getElem.mp hx
    have hpairs := mapM_eq_ok_iff.mp h
    exact ⟨_, hpairs.get hi (hpairs.length_eq ▸ hi)⟩
  · intro h
    induction xs with
    | nil => exact ⟨[], rfl⟩
    | cons x xs ih =>
      rw [List.forall_mem_cons] at h
      obtain ⟨⟨y, hy⟩, hrest⟩ := h
      obtain ⟨ys, hys⟩ := ih hrest
      exact ⟨y :: ys, mapM_eq_ok_iff.mpr (.cons hy (mapM_eq_ok_iff.mp hys))⟩

end MapM

namespace RLP

/-- `NestedUint8Array`, and the byte strings it is made of. -/
inductive Item
  | bytes (data : Bytes)
  | list (items : List Item)

inductive Error
  | extraZeros
  | outOfBounds
  | singleBytePrefixed
  | notEnoughBytesForLength
  | stringTooShort
  | listTooShort
  | totalLengthTooLarge
  | remainderNotZero
  | outOfFuel
  deriving DecidableEq

def Error.message : Error → String
  | extraZeros => "invalid RLP: extra zeros"
  | outOfBounds => "invalid RLP (safeSlice): end slice of Uint8Array out-of-bounds"
  | singleBytePrefixed =>
    "invalid RLP encoding: invalid prefix, single byte < 0x80 are not prefixed"
  | notEnoughBytesForLength => "invalid RLP: not enough bytes for string length"
  | stringTooShort => "invalid RLP: expected string length to be greater than 55"
  | listTooShort => "invalid RLP: encoded list too short"
  | totalLengthTooLarge => "invalid RLP: total length is larger than the data"
  | remainderNotZero => "invalid RLP: remainder must be zero"
  | outOfFuel => "Maximum call stack size exceeded"

mutual
def Item.decEq : (x y : Item) → Decidable (x = y)
  | .bytes a, .bytes b => decidable_of_iff (a = b) (by simp)
  | .list xs, .list ys =>
    match Item.decEqList xs ys with
    | isTrue h => isTrue (by rw [h])
    | isFalse h => isFalse (by intro e; cases e; exact h rfl)
  | .bytes _, .list _ => isFalse (by intro e; cases e)
  | .list _, .bytes _ => isFalse (by intro e; cases e)

def Item.decEqList : (xs ys : List Item) → Decidable (xs = ys)
  | [], [] => isTrue rfl
  | x :: xs, y :: ys =>
    match Item.decEq x y, Item.decEqList xs ys with
    | isTrue h, isTrue h' => isTrue (by rw [h, h'])
    | isFalse h, _ => isFalse (by intro e; cases e; exact h rfl)
    | _, isFalse h => isFalse (by intro e; cases e; exact h rfl)
  | [], _ :: _ => isFalse (by intro e; cases e)
  | _ :: _, [] => isFalse (by intro e; cases e)
end

instance : DecidableEq Item := Item.decEq

/-- The value of a big-endian byte string (`parseHexByte (bytesToHex v)`). -/
def bytesToNumber (v : Bytes) : Nat := v.foldl (fun acc b => acc * 256 + b.toNat) 0

def numberToBytesAux : Nat → Nat → Bytes → Bytes
  | 0, _, acc => acc
  | fuel + 1, n, acc =>
    if n = 0 then acc else numberToBytesAux fuel (n / 256) (UInt8.ofNat n :: acc)

/-- The shortest big-endian byte string of a number (`hexToBytes (numberToHex n)`);
one zero byte for zero. -/
def numberToBytes (n : Nat) : Bytes := if n = 0 then [0] else numberToBytesAux n n []

def encodeLength (len offset : Nat) : Bytes :=
  if len < 56 then [UInt8.ofNat (len + offset)]
  else
    let lengthBytes := numberToBytes len
    numberToBytes (offset + 55 + lengthBytes.length) ++ lengthBytes

def encodeBytes (data : Bytes) : Bytes :=
  match data with
  | [b] => if b < 128 then [b] else encodeLength 1 128 ++ [b]
  | data => encodeLength data.length 128 ++ data

mutual
def encode : Item → Bytes
  | .bytes data => encodeBytes data
  | .list items =>
    let output := encodeItems items
    encodeLength output.length 192 ++ output

def encodeItems : List Item → Bytes
  | [] => []
  | item :: items => encode item ++ encodeItems items
end

def safeSlice (input : Bytes) (start stop : Nat) : Except Error Bytes :=
  if stop > input.length then .error .outOfBounds else .ok ((input.take stop).drop start)

def decodeLength (v : Bytes) : Except Error Nat :=
  if v.head? = some 0 then .error .extraZeros else .ok (bytesToNumber v)

mutual
/-- `_decode`: the first item of the input and what follows it. The fuel bounds
the recursion; `decode` passes enough of it for every input. -/
def decodeFirst : Nat → Bytes → Except Error (Item × Bytes)
  | 0, _ => .error .outOfFuel
  | _ + 1, [] => .error .outOfBounds
  | fuel + 1, first :: tail =>
    let input := first :: tail
    let firstByte := first.toNat
    if firstByte ≤ 0x7f then
      .ok (.bytes (input.take 1), input.drop 1)
    else if firstByte ≤ 0xb7 then do
      let length := firstByte - 0x7f
      let data ← if firstByte = 0x80 then pure [] else safeSlice input 1 length
      if length = 2 ∧ data.head?.any (· < 0x80) then .error .singleBytePrefixed
      else .ok (.bytes data, input.drop length)
    else if firstByte ≤ 0xbf then do
      let lLength := firstByte - 0xb6
      if input.length - 1 < lLength then .error .notEnoughBytesForLength
      else
        let length ← decodeLength (← safeSlice input 1 lLength)
        if length ≤ 55 then .error .stringTooShort
        else
          let data ← safeSlice input lLength (length + lLength)
          .ok (.bytes data, input.drop (length + lLength))
    else if firstByte ≤ 0xf7 then do
      let length := firstByte - 0xbf
      let decoded ← decodeItems fuel (← safeSlice input 1 length)
      .ok (.list decoded, input.drop length)
    else do
      let lLength := firstByte - 0xf6
      let length ← decodeLength (← safeSlice input 1 lLength)
      if length < 56 then .error .listTooShort
      else
        let totalLength := lLength + length
        if totalLength > input.length then .error .totalLengthTooLarge
        else
          let decoded ← decodeItems fuel (← safeSlice input lLength totalLength)
          .ok (.list decoded, input.drop totalLength)

/-- The loop `while (innerRemainder.length)` over the payload of a list. -/
def decodeItems : Nat → Bytes → Except Error (List Item)
  | _, [] => .ok []
  | 0, _ => .error .outOfFuel
  | fuel + 1, innerRemainder => do
    let (d, rest) ← decodeFirst fuel innerRemainder
    let decoded ← decodeItems fuel rest
    .ok (d :: decoded)
end

/-- `decode(input, true)`. -/
def decodeStream (input : Bytes) : Except Error (Item × Bytes) :=
  if input.length = 0 then .ok (.bytes [], []) else decodeFirst (2 * input.length) input

def decode (input : Bytes) : Except Error Item := do
  if input.length = 0 then .ok (.bytes [])
  else
    let (data, remainder) ← decodeFirst (2 * input.length) input
    if remainder.length ≠ 0 then .error .remainderNotZero else .ok data

end RLP

end EthereumJS
