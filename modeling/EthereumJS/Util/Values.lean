import EthereumJS.Rlp.Canonical
import EthereumJS.Util.Bytes

/-! # Values of decoded lists

How an element of a decoded list becomes bytes or an integer, when bytes are the only ones of
their integer, and checks that throw.
-/

namespace EthereumJS

open RLP

section Convert

/-- `Number` of an element of an array: the text of one byte is a number, the empty text is zero
and any other text is none. -/
def elementByte : Item → UInt8
  | .bytes [b] => b
  | .list [item] => elementByte item
  | _ => 0

/-- `toBytes` of a value; an array of any elements is taken for an array of bytes. -/
def toBytes : Item → Bytes
  | .bytes bytes => bytes
  | .list items => items.map elementByte

def toBigInt (value : Item) : Nat := bytesToNumber (toBytes value)

/-- The bytes of a value that may be missing. -/
def inputBytes (value : Option Item) : Bytes := (value.map toBytes).getD []

def isArray : Option Item → Bool
  | some (.list _) => true
  | _ => false

end Convert

section Checks

def hexText (bytes : Bytes) : String := String.ofList (bytesToHex bytes)

/-- Checks in order: the first condition that holds throws its text. -/
def throwFirst (checks : List (Bool × String)) : Except String Unit :=
  match checks.find? Prod.fst with
  | some (_, text) => .error text
  | none => .ok ()

/-- The first byte of a byte string; an array has elements and no bytes. -/
def validateNoLeadingZeroes (values : List (String × Option Item)) : List (Bool × String) :=
  values.map fun (key, value) =>
    match value with
    | some (.bytes bytes) => (bytes.head? == some 0,
        s!"{key} cannot have leading zeroes, received: {hexText bytes}")
    | _ => (false, "")

theorem throwFirst_eq_ok {checks : List (Bool × String)} :
    throwFirst checks = .ok () ↔ ∀ c ∈ checks, c.1 = false := by
  unfold throwFirst
  cases hfind : checks.find? Prod.fst with
  | none =>
    rw [List.find?_eq_none] at hfind
    exact iff_of_true rfl fun c hc => Bool.eq_false_iff.mpr (hfind c hc)
  | some c =>
    refine iff_of_false (fun h => by cases h) fun h => ?_
    have hfound := h c (List.mem_of_find?_eq_some hfind)
    rw [List.find?_some hfind] at hfound
    cases hfound

theorem throwFirst_append {checks checks' : List (Bool × String)} :
    throwFirst (checks ++ checks') = .ok () ↔
      throwFirst checks = .ok () ∧ throwFirst checks' = .ok () := by
  simp only [throwFirst_eq_ok, List.mem_append, or_imp, forall_and]

/-- A value that is no byte string with a zero in front. -/
def NoLeadingZero (value : Option Item) : Prop :=
  ∀ bytes, value = some (.bytes bytes) → bytes.head? ≠ some 0

theorem validateNoLeadingZeroes_eq_ok {values : List (String × Option Item)} :
    throwFirst (validateNoLeadingZeroes values) = .ok () ↔ ∀ v ∈ values, NoLeadingZero v.2 := by
  rw [throwFirst_eq_ok, validateNoLeadingZeroes, List.forall_mem_map]
  refine forall₂_congr fun v _ => ?_
  obtain ⟨key, value⟩ := v
  rcases value with _ | bytes | items
  · exact iff_of_true rfl fun bytes h => by cases h
  · simp [NoLeadingZero]
  · exact iff_of_true rfl fun bytes h => by cases h

end Checks

section Encoding

/-- An encoded list is a string of bytes iff that decodes to the list. -/
theorem encode_list_eq_iff {b : Bytes} {values raw : List Item} (hb : b.length < maxLength)
    (h : decode b = .ok (.list values)) : encode (.list raw) = b ↔ raw = values := by
  have hne : b ≠ [] := by
    rintro rfl
    cases h
  constructor
  · intro heq
    have hsame := decode_encode (.list raw) (heq.symm ▸ hb)
    rw [heq, h] at hsame
    cases hsame
    rfl
  · rintro rfl
    exact encode_of_decode hne h

end Encoding

section Integers

theorem bytesToNumber_foldl (bytes : Bytes) (acc : Nat) :
    bytes.foldl (fun acc b => acc * 256 + b.toNat) acc =
      acc * 256 ^ bytes.length + bytesToNumber bytes := by
  induction bytes generalizing acc with
  | nil => simp [bytesToNumber]
  | cons b bytes ih =>
    have hcons : bytesToNumber (b :: bytes) =
        b.toNat * 256 ^ bytes.length + bytesToNumber bytes := by
      rw [← ih, bytesToNumber, List.foldl_cons, Nat.zero_mul, Nat.zero_add]
    rw [List.foldl_cons, ih, hcons, List.length_cons, Nat.pow_succ]
    ring

theorem bytesToNumber_unpadBytes (bytes : Bytes) :
    bytesToNumber (unpadBytes bytes) = bytesToNumber bytes := by
  induction bytes with
  | nil => rfl
  | cons b bytes ih =>
    by_cases hb : b = 0
    · subst hb
      have hstrip : unpadBytes (0 :: bytes) = unpadBytes bytes := by simp [unpadBytes]
      rw [hstrip, ih]
      simp [bytesToNumber]
    · have hkeep : unpadBytes (b :: bytes) = b :: bytes := by simp [unpadBytes, hb]
      rw [hkeep]

theorem head_unpadBytes (bytes : Bytes) : (unpadBytes bytes).head? ≠ some 0 := by
  induction bytes with
  | nil => simp [unpadBytes]
  | cons b bytes ih =>
    by_cases hb : b = 0
    · subst hb
      have hstrip : unpadBytes (0 :: bytes) = unpadBytes bytes := by simp [unpadBytes]
      rwa [hstrip]
    · have hkeep : unpadBytes (b :: bytes) = b :: bytes := by simp [unpadBytes, hb]
      rw [hkeep]
      simpa using hb

/-- The value of hexadecimal digits. -/
def hexValue (digits : Nibbles) : Nat := digits.foldl (fun acc d => acc * 16 + d.val) 0

theorem foldl_packedBytes (digits : Nibbles) (heven : digits.length % 2 = 0) (acc : Nat) :
    (nibblesTypeToPackedBytes digits).foldl (fun acc b => acc * 256 + b.toNat) acc =
      digits.foldl (fun acc d => acc * 16 + d.val) acc := by
  match digits with
  | [] => rfl
  | [_] => simp at heven
  | high :: low :: digits =>
    have hrest : digits.length % 2 = 0 := by
      simp only [List.length_cons] at heven
      omega
    have hbyte : (packNibbles high low).toNat = high.val * 16 + low.val := by
      have hhigh := high.isLt
      have hlow := low.isLt
      simp only [packNibbles, UInt8.toNat_ofNat']
      omega
    rw [nibblesTypeToPackedBytes, List.foldl_cons, foldl_packedBytes digits hrest, hbyte,
      List.foldl_cons, List.foldl_cons]
    congr 1
    ring

theorem hexValue_toHexDigits (value : Nat) : hexValue (toHexDigits value) = value := by
  unfold toHexDigits
  split
  · rename_i hzero
    subst hzero
    rfl
  · have hdigits : ∀ d ∈ Nat.digits 16 value, d < 16 := fun d hd =>
      Nat.digits_lt_base (by decide) hd
    have hfold : ∀ l : List Nat, (∀ d ∈ l, d < 16) →
        hexValue (l.reverse.map (Fin.ofNat 16)) = Nat.ofDigits 16 l := by
      intro l hl
      induction l with
      | nil => rfl
      | cons d l ih =>
        have hd := hl d List.mem_cons_self
        rw [List.reverse_cons, List.map_append, hexValue, List.foldl_append, Nat.ofDigits_cons,
          ← ih fun x hx => hl x (List.mem_cons_of_mem _ hx)]
        simp only [List.map_cons, List.map_nil, List.foldl_cons, List.foldl_nil, Fin.val_ofNat,
          Nat.mod_eq_of_lt hd, hexValue]
        ring
    rw [hfold _ hdigits, Nat.ofDigits_digits]

theorem bytesToNumber_bigIntToBytes (value : Nat) : bytesToNumber (bigIntToBytes value) = value := by
  have heven : (padToEven (toHexDigits value)).length % 2 = 0 := by
    unfold padToEven
    split
    · rw [List.length_cons]
      omega
    · omega
  have hpad : hexValue (padToEven (toHexDigits value)) = hexValue (toHexDigits value) := by
    unfold padToEven
    split <;> rfl
  unfold bytesToNumber bigIntToBytes
  rw [foldl_packedBytes _ heven]
  exact hpad.trans (hexValue_toHexDigits value)

@[simp] theorem bytesToNumber_unpadded (value : Nat) :
    bytesToNumber (bigIntToUnpaddedBytes value) = value := by
  rw [bigIntToUnpaddedBytes, bytesToNumber_unpadBytes, bytesToNumber_bigIntToBytes]

theorem eq_nil_of_bytesToNumber {bytes : Bytes} (h : bytes.head? ≠ some 0)
    (hzero : bytesToNumber bytes = 0) : bytes = [] := by
  by_contra hne
  have hback := numberToBytes_bytesToNumber hne h
  rw [hzero] at hback
  exact h (by rw [← hback]; rfl)

/-- Bytes without leading zeros are known by their value. -/
theorem eq_of_bytesToNumber {a b : Bytes} (ha : a.head? ≠ some 0) (hb : b.head? ≠ some 0)
    (h : bytesToNumber a = bytesToNumber b) : a = b := by
  by_cases hzero : bytesToNumber a = 0
  · rw [eq_nil_of_bytesToNumber ha hzero, eq_nil_of_bytesToNumber hb (h ▸ hzero)]
  · have hne : ∀ {c : Bytes}, bytesToNumber c ≠ 0 → c ≠ [] := by
      rintro c hc rfl
      exact hc rfl
    rw [← numberToBytes_bytesToNumber (hne hzero) ha, h,
      numberToBytes_bytesToNumber (hne (h ▸ hzero)) hb]

theorem unpadded_bytesToNumber_iff (bytes : Bytes) :
    bigIntToUnpaddedBytes (bytesToNumber bytes) = bytes ↔ bytes.head? ≠ some 0 := by
  constructor
  · intro h
    rw [← h]
    exact head_unpadBytes _
  · intro h
    exact eq_of_bytesToNumber (head_unpadBytes _) h (bytesToNumber_unpadded _)

end Integers

end EthereumJS
