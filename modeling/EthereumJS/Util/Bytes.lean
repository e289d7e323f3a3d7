import EthereumJS.Mpt.Nibbles

/-! # Byte strings and their hex forms

The helpers of `util/src/bytes.ts`. A prefixed hex string is a list of characters.
-/

namespace EthereumJS

open RLP

abbrev HexString := List Char

inductive BytesError
  | notPrefixed
  | invalidHex
  | exceedsLength (actual expected : Nat)
  | notBytes
  | notANumber
  | unsupportedType
  | rlp (error : RLP.Error)
  deriving DecidableEq

def hexDigit (c : Char) : Option Nibble :=
  if '0' ≤ c ∧ c ≤ '9' then some (Fin.ofNat 16 (c.toNat - 48))
  else if 'a' ≤ c ∧ c ≤ 'f' then some (Fin.ofNat 16 (c.toNat - 87))
  else if 'A' ≤ c ∧ c ≤ 'F' then some (Fin.ofNat 16 (c.toNat - 55))
  else none

def hexChar (n : Nibble) : Char :=
  if n.val < 10 then Char.ofNat (48 + n.val) else Char.ofNat (87 + n.val)

def padToEven (value : Nibbles) : Nibbles := if value.length % 2 = 1 then 0 :: value else value

/-- A string behind `0x` that is no hex string keeps its prefix, which is no hex either. -/
def hexToBytes : HexString → Except BytesError Bytes
  | '0' :: 'x' :: digits =>
    match digits.mapM hexDigit with
    | some nibbles => .ok (nibblesTypeToPackedBytes (padToEven nibbles))
    | none => .error .invalidHex
  | _ => .error .notPrefixed

def bytesToHex (bytes : Bytes) : HexString := '0' :: 'x' :: (bytesToNibbles bytes).map hexChar

/-- `BigInt(hex)` of a prefixed hex string. -/
def hexToBigInt : HexString → Except BytesError Nat
  | '0' :: 'x' :: digits =>
    match digits.mapM hexDigit with
    | some (n :: nibbles) => .ok ((n :: nibbles).foldl (fun acc d => acc * 16 + d.val) 0)
    | _ => .error .notANumber
  | _ => .error .notANumber

/-- `num.toString(16)`. -/
def toHexDigits (num : Nat) : Nibbles :=
  if num = 0 then [0] else (Nat.digits 16 num).reverse.map (Fin.ofNat 16)

def bigIntToHex (num : Nat) : HexString := '0' :: 'x' :: (toHexDigits num).map hexChar

def bigIntToBytes (num : Nat) : Bytes := nibblesTypeToPackedBytes (padToEven (toHexDigits num))

def bytesToBigInt (bytes : Bytes) : Nat := bytesToNumber bytes

/-- `setLengthLeft` without truncation. -/
def setLengthLeft (msg : Bytes) (length : Nat) : Except BytesError Bytes :=
  if msg.length > length then .error (.exceedsLength msg.length length)
  else .ok (List.replicate (length - msg.length) 0 ++ msg)

def unpadBytes (a : Bytes) : Bytes := a.dropWhile (· = 0)

def bigIntToUnpaddedBytes (value : Nat) : Bytes := unpadBytes (bigIntToBytes value)

@[simp] theorem unpadBytes_replicate (n : Nat) (a : Bytes) :
    unpadBytes (List.replicate n 0 ++ a) = unpadBytes a := by
  induction n with
  | zero => rfl
  | succ n ih =>
    rw [List.replicate_succ, List.cons_append, ← ih]
    simp [unpadBytes]

theorem unpadBytes_setLengthLeft {a padded : Bytes} {n : Nat} (h : setLengthLeft a n = .ok padded) :
    unpadBytes padded = unpadBytes a := by
  unfold setLengthLeft at h
  split at h
  · cases h
  · rw [← Except.ok.inj h, unpadBytes_replicate]

theorem eq_replicate_unpadBytes (a : Bytes) :
    a = List.replicate (a.length - (unpadBytes a).length) 0 ++ unpadBytes a := by
  induction a with
  | nil => rfl
  | cons b a ih =>
    rcases Classical.em (b = 0) with rfl | hb
    · have hlen : (unpadBytes a).length ≤ a.length := (List.dropWhile_sublist _).length_le
      have hstrip : unpadBytes (0 :: a) = unpadBytes a := by simp [unpadBytes]
      rw [hstrip, List.length_cons, Nat.succ_sub hlen, List.replicate_succ, List.cons_append, ← ih]
    · simp [unpadBytes, hb]

/-- Zeros on the left are made up for. -/
theorem setLengthLeft_unpadBytes {a padded : Bytes} {n : Nat} (h : setLengthLeft a n = .ok padded) :
    setLengthLeft (unpadBytes a) n = .ok padded := by
  have hlen : (unpadBytes a).length ≤ a.length := (List.dropWhile_sublist _).length_le
  unfold setLengthLeft at h ⊢
  split at h
  · cases h
  · rename_i hle
    rw [if_neg (by omega), ← Except.ok.inj h]
    conv_rhs => rw [eq_replicate_unpadBytes a]
    rw [← List.append_assoc, List.replicate_append_replicate, List.length_append,
      List.length_replicate]
    congr 3
    omega

end EthereumJS
