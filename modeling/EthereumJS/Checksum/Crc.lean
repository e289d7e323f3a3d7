import Mathlib.Logic.Function.Iterate

/-! # Cyclic redundancy checks

The reflected form of a cyclic redundancy check: a register that moves down by one place for each
bit and takes up the polynomial when the bit that falls out is set. Eight places at once are read
from a table, since a shift is linear in exclusive or.
-/

namespace Crc

variable {w : Nat} (poly : BitVec w)

/-- The register after one bit. -/
def shift (c : BitVec w) : BitVec w := if c.getLsbD 0 then c >>> 1 ^^^ poly else c >>> 1

/-- The register after some bits. -/
def shifts (n : Nat) (c : BitVec w) : BitVec w := (shift poly)^[n] c

/-- The register after a byte. -/
def byteStep (c : BitVec w) (byte : BitVec 8) : BitVec w := shifts poly 8 (c ^^^ byte.setWidth w)

/-- The check of a text: the register starts full, and its complement is the result. -/
def checksum (bytes : List (BitVec 8)) : BitVec w :=
  ~~~ bytes.foldl (byteStep poly) (BitVec.allOnes w)

theorem shift_xor (a b : BitVec w) : shift poly (a ^^^ b) = shift poly a ^^^ shift poly b := by
  have hcancel (x y : BitVec w) : x ^^^ poly ^^^ (y ^^^ poly) = x ^^^ y := by
    rw [BitVec.xor_assoc, BitVec.xor_comm y poly, ← BitVec.xor_assoc poly, BitVec.xor_self,
      BitVec.zero_xor]
  unfold shift
  rw [BitVec.getLsbD_xor, BitVec.ushiftRight_xor_distrib]
  cases a.getLsbD 0 with
  | false =>
    cases b.getLsbD 0 with
    | false => rfl
    | true => exact BitVec.xor_assoc _ _ _
  | true =>
    cases b.getLsbD 0 with
    | false =>
      change a >>> 1 ^^^ b >>> 1 ^^^ poly = a >>> 1 ^^^ poly ^^^ b >>> 1
      rw [BitVec.xor_assoc, BitVec.xor_comm (b >>> 1), BitVec.xor_assoc]
    | true => exact (hcancel _ _).symm

theorem shifts_succ (n : Nat) (c : BitVec w) :
    shifts poly (n + 1) c = shift poly (shifts poly n c) :=
  Function.iterate_succ_apply' _ _ _

theorem shifts_xor (n : Nat) (a b : BitVec w) :
    shifts poly n (a ^^^ b) = shifts poly n a ^^^ shifts poly n b := by
  induction n with
  | zero => rfl
  | succ n ih => rw [shifts_succ, shifts_succ, shifts_succ, ih, shift_xor]

/-- As long as the bits that fall out are clear, the polynomial is not taken up. -/
theorem shifts_of_clear {n : Nat} {c : BitVec w} (hclear : ∀ i < n, c.getLsbD i = false) :
    shifts poly n c = c >>> n := by
  induction n with
  | zero => rw [BitVec.ushiftRight_zero]; rfl
  | succ n ih =>
    have hlow : (c >>> n).getLsbD 0 = false := by
      rw [BitVec.getLsbD_ushiftRight, Nat.add_zero]
      exact hclear n (Nat.lt_succ_self n)
    rw [shifts_succ, ih fun i hi => hclear i (Nat.lt_succ_of_lt hi), shift, hlow,
      if_neg Bool.false_ne_true, ← BitVec.shiftRight_add]

/-- What the bits that fall out contribute depends on them alone. -/
theorem shifts_eq (n : Nat) (c : BitVec w) :
    shifts poly n c = shifts poly n ((c.setWidth n).setWidth w) ^^^ c >>> n := by
  have hlow (i : Nat) :
      ((c.setWidth n).setWidth w).getLsbD i = (decide (i < n) && c.getLsbD i) := by
    rw [BitVec.getLsbD_setWidth, BitVec.getLsbD_setWidth]
    cases hi : decide (i < w) with
    | true => rfl
    | false =>
      rw [BitVec.getLsbD_of_ge c i (by simpa using hi)]
      simp
  have hclear : ∀ i < n, (c ^^^ (c.setWidth n).setWidth w).getLsbD i = false := by
    intro i hi
    rw [BitVec.getLsbD_xor, hlow, decide_eq_true hi, Bool.true_and, Bool.xor_self]
  have hhigh : (c ^^^ (c.setWidth n).setWidth w) >>> n = c >>> n := by
    apply BitVec.eq_of_getLsbD_eq
    intro i _
    rw [BitVec.getLsbD_ushiftRight, BitVec.getLsbD_ushiftRight, BitVec.getLsbD_xor, hlow,
      decide_eq_false (Nat.not_lt.mpr (Nat.le_add_right n i)), Bool.false_and, Bool.xor_false]
  calc shifts poly n c
      = shifts poly n ((c.setWidth n).setWidth w ^^^ (c ^^^ (c.setWidth n).setWidth w)) := by
        rw [BitVec.xor_comm c, ← BitVec.xor_assoc, BitVec.xor_self, BitVec.zero_xor]
    _ = shifts poly n ((c.setWidth n).setWidth w) ^^^ c >>> n := by
        rw [shifts_xor, shifts_of_clear poly hclear, hhigh]

/-- An entry of the table. -/
def entry (byte : BitVec 8) : BitVec w := shifts poly 8 (byte.setWidth w)

/-- The step that reads the table. -/
theorem byteStep_eq (c : BitVec w) (byte : BitVec 8) :
    byteStep poly c byte = entry poly ((c ^^^ byte.setWidth w).setWidth 8) ^^^ c >>> 8 := by
  have hgone : (c ^^^ byte.setWidth w) >>> 8 = c >>> 8 := by
    apply BitVec.eq_of_getLsbD_eq
    intro i _
    rw [BitVec.getLsbD_ushiftRight, BitVec.getLsbD_ushiftRight, BitVec.getLsbD_xor,
      BitVec.getLsbD_setWidth, BitVec.getLsbD_of_ge byte (8 + i) (Nat.le_add_right 8 i),
      Bool.and_false, Bool.xor_false]
  rw [byteStep, shifts_eq, hgone, entry]

end Crc
