import Mathlib.Tactic.Ring

/-! # Little-endian numbers of a fixed width -/

namespace EthereumJS.LittleEndian

def leBytes : Nat → Nat → List UInt8
  | 0, _ => []
  | width + 1, n => UInt8.ofNat n :: leBytes width (n / 256)

def leNumber : List UInt8 → Nat
  | [] => 0
  | b :: bytes => b.toNat + 256 * leNumber bytes

@[simp] theorem length_leBytes (width n : Nat) : (leBytes width n).length = width := by
  induction width generalizing n with
  | zero => rfl
  | succ width ih => rw [leBytes, List.length_cons, ih]

theorem leNumber_leBytes (width n : Nat) : leNumber (leBytes width n) = n % 256 ^ width := by
  induction width generalizing n with
  | zero => simp [leBytes, leNumber, Nat.mod_one]
  | succ width ih =>
    rw [leBytes, leNumber, ih, pow_succ', Nat.mod_mul, UInt8.toNat_ofNat']

theorem leBytes_leNumber (bytes : List UInt8) : leBytes bytes.length (leNumber bytes) = bytes := by
  induction bytes with
  | nil => rfl
  | cons b bytes ih =>
    have hb := b.toNat_lt
    have hdiv : (b.toNat + 256 * leNumber bytes) / 256 = leNumber bytes := by omega
    have hmod : UInt8.ofNat (b.toNat + 256 * leNumber bytes) = b := by
      apply UInt8.toNat_inj.mp
      rw [UInt8.toNat_ofNat']
      omega
    rw [List.length_cons, leNumber, leBytes, hdiv, hmod, ih]

theorem leNumber_lt (bytes : List UInt8) : leNumber bytes < 256 ^ bytes.length := by
  induction bytes with
  | nil => simp [leNumber]
  | cons b bytes ih =>
    have hb := b.toNat_lt
    rw [leNumber, List.length_cons, pow_succ]
    omega

theorem take_leBytes (width m n : Nat) (h : m ≤ width) : (leBytes width n).take m = leBytes m n := by
  induction width generalizing m n with
  | zero =>
    have hm : m = 0 := by omega
    subst hm
    rfl
  | succ width ih =>
    cases m with
    | zero => rfl
    | succ m => rw [leBytes, leBytes, List.take_succ_cons, ih m (n / 256) (by omega)]

theorem getElem?_leBytes (width n i : Nat) (h : i < width) :
    (leBytes width n)[i]? = some (UInt8.ofNat (n / 256 ^ i)) := by
  induction width generalizing n i with
  | zero => omega
  | succ width ih =>
    cases i with
    | zero => simp [leBytes]
    | succ i =>
      rw [leBytes, List.getElem?_cons_succ, ih (n / 256) i (by omega), Nat.div_div_eq_div_mul,
        ← pow_succ']

end EthereumJS.LittleEndian
