import Mathlib.Data.List.TakeWhile
import EthereumJS.Rlp.Canonical

/-! # Length fields by way of hex strings

The source writes and reads the length of a long payload as a hex string. The model of
the encoder and the decoder uses the big-endian number itself; the functions on hex
strings compute the same.
-/

namespace EthereumJS.RLP

inductive HexError
  | unpadded
  | nonHexCharacter
  | invalidByteSequence
  deriving DecidableEq

def asciiToBase16 (char : Char) : Option Nat :=
  if '0' ≤ char ∧ char ≤ '9' then some (char.toNat - 48)
  else if 'A' ≤ char ∧ char ≤ 'F' then some (char.toNat - 55)
  else if 'a' ≤ char ∧ char ≤ 'f' then some (char.toNat - 87)
  else none

/-- The loop of `hexToBytes`. -/
def hexPairs : List Char → Except HexError Bytes
  | [] => .ok []
  | [_] => .error .unpadded
  | c₁ :: c₂ :: hex => do
    match asciiToBase16 c₁, asciiToBase16 c₂ with
    | some n₁, some n₂ =>
      let array ← hexPairs hex
      .ok (UInt8.ofNat (n₁ * 16 + n₂) :: array)
    | _, _ => .error .nonHexCharacter

def hexToBytes (hex : List Char) : Except HexError Bytes :=
  let hex := if hex.take 2 = ['0', 'x'] then hex.drop 2 else hex
  if hex.length % 2 = 1 then .error .unpadded else hexPairs hex

def padToEven (hex : List Char) : List Char := if hex.length % 2 = 1 then '0' :: hex else hex

def numberToHex (integer : Nat) : List Char := padToEven (Nat.toDigits 16 integer)

/-- An entry of `cachedHexes`. -/
def cachedHex (b : UInt8) : List Char := padToEven (Nat.toDigits 16 b.toNat)

def bytesToHex (uint8a : Bytes) : List Char := uint8a.flatMap cachedHex

/-- `Number.parseInt(hexByte, 16)`, which stops at the first character that is no digit. -/
def parseHexByte (hexByte : List Char) : Except HexError Nat :=
  match (hexByte.map asciiToBase16).takeWhile Option.isSome with
  | [] => .error .invalidByteSequence
  | digits => .ok (digits.foldl (fun acc d => acc * 16 + d.getD 0) 0)

theorem asciiToBase16_digitChar {d : Nat} (h : d < 16) : asciiToBase16 d.digitChar = some d := by
  interval_cases d <;> decide

theorem digitChar_ne_x {d : Nat} (h : d < 16) : d.digitChar ≠ 'x' := by
  interval_cases d <;> decide

theorem numberToHex_byte {n : Nat} (h : n < 256) :
    numberToHex n = [(n / 16).digitChar, (n % 16).digitChar] := by
  unfold numberToHex
  rcases Nat.lt_or_ge n 16 with hlt | hge
  · rw [Nat.toDigits_of_lt_base hlt, Nat.div_eq_of_lt hlt, Nat.mod_eq_of_lt hlt]
    rfl
  · rw [Nat.toDigits_of_base_le (by omega) hge, Nat.toDigits_of_lt_base (by omega)]
    simp [padToEven]

/-- The two digits of the lowest byte come last. -/
theorem numberToHex_step {n : Nat} (h : 256 ≤ n) :
    numberToHex n = numberToHex (n / 256) ++ [(n / 16 % 16).digitChar, (n % 16).digitChar] := by
  have hdigits : Nat.toDigits 16 n =
      Nat.toDigits 16 (n / 256) ++ [(n / 16 % 16).digitChar, (n % 16).digitChar] := by
    rw [Nat.toDigits_of_base_le (by omega) (by omega : 16 ≤ n),
      Nat.toDigits_of_base_le (by omega) (by omega : 16 ≤ n / 16), Nat.div_div_eq_div_mul]
    simp
  unfold numberToHex padToEven
  rw [hdigits, List.length_append, List.length_cons, List.length_singleton, Nat.add_mod_right]
  split <;> rfl

theorem even_length_numberToHex (n : Nat) : (numberToHex n).length % 2 = 0 := by
  unfold numberToHex padToEven
  split
  · rw [List.length_cons]
    omega
  · omega

theorem hexPairs_append {xs ys : List Char} {v w : Bytes} (hx : hexPairs xs = .ok v)
    (hy : hexPairs ys = .ok w) : hexPairs (xs ++ ys) = .ok (v ++ w) := by
  induction xs using hexPairs.induct generalizing v with
  | case1 =>
    obtain rfl := Except.ok.inj hx
    exact hy
  | case2 c => cases hx
  | case3 c₁ c₂ hex n₁ n₂ h₁ h₂ ih =>
    simp only [hexPairs, h₁, h₂] at hx
    obtain ⟨u, hu, hx⟩ := bind_eq_ok.mp hx
    obtain rfl := Except.ok.inj hx
    simp only [List.cons_append, hexPairs, h₁, h₂, ih hu]
    rfl
  | case4 c₁ c₂ hex hnone =>
    simp only [hexPairs] at hx
    cases hx

theorem hexPairs_pair {hi lo : Nat} (hhi : hi < 16) (hlo : lo < 16) :
    hexPairs [hi.digitChar, lo.digitChar] = .ok [UInt8.ofNat (hi * 16 + lo)] := by
  simp only [hexPairs, asciiToBase16_digitChar hhi, asciiToBase16_digitChar hlo]
  rfl

theorem length_of_hexPairs {hex : List Char} {v : Bytes} (h : hexPairs hex = .ok v) :
    hex.length = 2 * v.length := by
  induction hex using hexPairs.induct generalizing v with
  | case1 =>
    obtain rfl := Except.ok.inj h
    rfl
  | case2 c => cases h
  | case3 c₁ c₂ hex n₁ n₂ h₁ h₂ ih =>
    simp only [hexPairs, h₁, h₂] at h
    obtain ⟨u, hu, h⟩ := bind_eq_ok.mp h
    obtain rfl := Except.ok.inj h
    simp only [List.length_cons, ih hu]
    omega
  | case4 c₁ c₂ hex hnone =>
    simp only [hexPairs] at h
    cases h

theorem numberToBytes_step {n : Nat} (h : 256 ≤ n) :
    numberToBytes n = numberToBytes (n / 256) ++ [UInt8.ofNat n] := by
  have hquot : n / 256 ≠ 0 := by omega
  have hval : bytesToNumber (numberToBytes (n / 256) ++ [UInt8.ofNat n]) = n := by
    rw [bytesToNumber_concat, bytesToNumber_numberToBytes, UInt8.toNat_ofNat']
    omega
  have hhead : (numberToBytes (n / 256) ++ [UInt8.ofNat n]).head? ≠ some 0 := by
    rw [List.head?_append_of_ne_nil _ (numberToBytes_ne_nil _)]
    exact head_numberToBytes _ hquot
  have hsame := numberToBytes_bytesToNumber (by simp) hhead
  rwa [hval] at hsame

theorem hexPairs_numberToHex (n : Nat) : hexPairs (numberToHex n) = .ok (numberToBytes n) := by
  induction n using Nat.strongRecOn with
  | ind n ih =>
    rcases Nat.lt_or_ge n 256 with hlt | hge
    · rw [numberToHex_byte hlt, hexPairs_pair (by omega) (by omega), Nat.div_add_mod']
      rcases Nat.eq_zero_or_pos n with rfl | hpos
      · rfl
      · rw [numberToBytes_byte n (by omega) hlt]
    · have hbyte : UInt8.ofNat (n / 16 % 16 * 16 + n % 16) = UInt8.ofNat n := by
        apply UInt8.toNat_inj.mp
        rw [UInt8.toNat_ofNat', UInt8.toNat_ofNat']
        omega
      have hlow := @hexPairs_pair (n / 16 % 16) (n % 16) (by omega) (by omega)
      rw [hbyte] at hlow
      rw [numberToHex_step hge, numberToBytes_step hge]
      exact hexPairs_append (ih (n / 256) (by omega)) hlow

theorem take_numberToHex (n : Nat) : (numberToHex n).take 2 ≠ ['0', 'x'] := by
  induction n using Nat.strongRecOn with
  | ind n ih =>
    rcases Nat.lt_or_ge n 256 with hlt | hge
    · rw [numberToHex_byte hlt]
      intro h
      simp only [List.take_succ_cons, List.take_zero, List.cons.injEq, and_true] at h
      exact digitChar_ne_x (Nat.mod_lt n (by omega)) h.2
    · have hprev := ih (n / 256) (by omega)
      have hlen : 2 ≤ (numberToHex (n / 256)).length := by
        have heven := even_length_numberToHex (n / 256)
        have hne : numberToHex (n / 256) ≠ [] := by
          unfold numberToHex padToEven
          split
          · simp
          · exact Nat.toDigits_ne_nil
        have := List.length_pos_of_ne_nil hne
        omega
      rwa [numberToHex_step hge, List.take_append_of_le_length hlen]

/-- The bytes of a length by way of its hex string. -/
theorem hexToBytes_numberToHex (n : Nat) : hexToBytes (numberToHex n) = .ok (numberToBytes n) := by
  unfold hexToBytes
  simp only [if_neg (take_numberToHex n)]
  rw [if_neg (by rw [even_length_numberToHex]; omega), hexPairs_numberToHex]

theorem cachedHex_eq (b : UInt8) :
    cachedHex b = [(b.toNat / 16).digitChar, (b.toNat % 16).digitChar] :=
  numberToHex_byte b.toNat_lt

theorem foldl_bytesToHex (v : Bytes) (acc : Nat) :
    ((bytesToHex v).map asciiToBase16).foldl (fun acc d => acc * 16 + d.getD 0) acc =
      v.foldl (fun acc b => acc * 256 + b.toNat) acc := by
  induction v generalizing acc with
  | nil => rfl
  | cons b v ih =>
    have hb := b.toNat_lt
    rw [bytesToHex, List.flatMap_cons, cachedHex_eq]
    simp only [List.cons_append, List.nil_append, List.map_cons, List.foldl_cons,
      asciiToBase16_digitChar (by omega : b.toNat / 16 < 16),
      asciiToBase16_digitChar (by omega : b.toNat % 16 < 16), Option.getD_some]
    rw [← bytesToHex, ih]
    congr 1
    omega

theorem isSome_bytesToHex (v : Bytes) :
    ∀ d ∈ (bytesToHex v).map asciiToBase16, d.isSome = true := by
  induction v with
  | nil => simp [bytesToHex]
  | cons b v ih =>
    have hb := b.toNat_lt
    rw [bytesToHex, List.flatMap_cons, cachedHex_eq]
    simp only [List.cons_append, List.nil_append, List.map_cons, List.forall_mem_cons,
      asciiToBase16_digitChar (by omega : b.toNat / 16 < 16),
      asciiToBase16_digitChar (by omega : b.toNat % 16 < 16), Option.isSome_some, true_and]
    exact ih

/-- The number of a length field by way of its hex string. -/
theorem parseHexByte_bytesToHex {v : Bytes} (hv : v ≠ []) :
    parseHexByte (bytesToHex v) = .ok (bytesToNumber v) := by
  have hall := List.takeWhile_eq_self_iff.mpr (isSome_bytesToHex v)
  unfold parseHexByte
  rw [hall]
  split
  · rename_i hnil
    cases v with
    | nil => exact absurd rfl hv
    | cons b v => simp [bytesToHex, cachedHex_eq] at hnil
  · exact congrArg Except.ok (foldl_bytesToHex v 0)

/-- The header of a long payload as the source puts it together. -/
theorem encodeLength_hex (len offset : Nat) (hlen : 56 ≤ len) :
    let hexLength := numberToHex len
    let lLength := hexLength.length / 2
    let firstByte := numberToHex (offset + 55 + lLength)
    hexPairs (firstByte ++ hexLength) = .ok (encodeLength len offset) := by
  have hsize : (numberToHex len).length / 2 = (numberToBytes len).length := by
    rw [length_of_hexPairs (hexPairs_numberToHex len)]
    omega
  intro hexLength lLength firstByte
  rw [encodeLength, if_neg (by omega)]
  exact hexPairs_append (hsize ▸ hexPairs_numberToHex _) (hexPairs_numberToHex _)

end EthereumJS.RLP
