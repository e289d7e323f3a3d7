import EthereumJS.Ordered.NearestEven
import EthereumJS.Tx.Transaction

/-! # Integers as doubles

Which integers `Number` keeps, and which have the same double.
-/

namespace EthereumJS.Tx

open Ordered

variable {n m e r : Nat}

/-- A double that is not too large. -/
def finiteDouble (n : Nat) : Option Nat := if n < doubleLimit then some n else none

theorem toDouble_eq (h : n.log2 - 52 = e) :
    toDouble n = finiteDouble (nearestEven (2 ^ e) n) := by
  rw [← h]
  rfl

theorem lt_doubleLimit (h : n ≤ 2 ^ 54) : n < doubleLimit := by
  have hlimit : ∀ k limit, k < limit → 2 ^ k < 2 ^ limit := fun k limit hk =>
    Nat.pow_lt_pow_right (by decide) hk
  unfold doubleLimit
  exact h.trans_lt (hlimit 54 1024 (by decide))

/-- The integers with at most 53 bits are doubles. -/
theorem toDouble_of_lt (h : n < 2 ^ 53) : toDouble n = some n := by
  have hlog : n.log2 - 52 = 0 := by
    have hlog2 : n.log2 < 53 := by
      by_cases hzero : n = 0
      · rw [hzero]
        decide
      · exact (Nat.log2_lt hzero).mpr h
    omega
  have hround := @nearestEven_mul (2 ^ 0) (by decide) n
  rw [Nat.pow_zero, Nat.mul_one] at hround
  rw [toDouble_eq hlog, Nat.pow_zero, hround]
  exact if_pos (lt_doubleLimit (h.le.trans (Nat.pow_le_pow_right (by decide) (by decide))))

theorem toDouble_scaled (hlow : 2 ^ 52 * 2 ^ e ≤ n) (hhigh : n < 2 ^ 53 * 2 ^ e) :
    toDouble n = finiteDouble (nearestEven (2 ^ e) n) := by
  apply toDouble_eq
  rw [← Nat.pow_add] at hlow hhigh
  have hpos : n ≠ 0 := (Nat.pow_pos (by decide) |>.trans_le hlow).ne'
  have hlog : n.log2 = 52 + e := by
    rw [Nat.log2_eq_iff hpos]
    refine ⟨hlow, hhigh.trans_le (Nat.pow_le_pow_right (by decide) (by omega))⟩
  omega

/-- A mantissa of 53 bits or the next power of two, with an exponent. -/
theorem toDouble_mul (hlow : 2 ^ 52 ≤ m) (hhigh : m ≤ 2 ^ 53) :
    toDouble (m * 2 ^ e) = finiteDouble (m * 2 ^ e) := by
  obtain heq | hlt := hhigh.eq_or_lt
  · have hscaled : m * 2 ^ e = 2 ^ 52 * 2 ^ (e + 1) := by
      rw [heq, ← Nat.pow_add, ← Nat.pow_add]
      congr 1
      omega
    rw [hscaled, toDouble_scaled le_rfl, nearestEven_mul (Nat.pow_pos (by decide))]
    exact Nat.mul_lt_mul_of_pos_right (by decide) (Nat.pow_pos (by decide))
  · rw [toDouble_scaled (Nat.mul_le_mul_right _ hlow)
      (Nat.mul_lt_mul_of_pos_right hlt (Nat.pow_pos (by decide))),
      nearestEven_mul (Nat.pow_pos (by decide))]

/-- The successor of a double from `2 ^ 53` on has the same double, unless it is a tie that goes
up. -/
theorem toDouble_mul_succ (hlow : 2 ^ 52 ≤ m) (hhigh : m ≤ 2 ^ 53) (he : 1 ≤ e)
    (heven : e = 1 → m % 2 = 0) :
    toDouble (m * 2 ^ e + 1) = finiteDouble (m * 2 ^ e) := by
  have hunit : ∀ k, 1 ≤ k → 2 ≤ 2 ^ k := fun k hk =>
    Nat.pow_le_pow_right (show 0 < 2 by decide) hk
  obtain heq | hlt := hhigh.eq_or_lt
  · have hscaled : m * 2 ^ e = 2 ^ 52 * 2 ^ (e + 1) := by
      rw [heq, ← Nat.pow_add, ← Nat.pow_add]
      congr 1
      omega
    have hlarge := hunit (e + 1) (by omega)
    rw [hscaled, toDouble_scaled (Nat.le_succ _) (by omega),
      nearestEven_mul_succ hlarge fun _ => by decide]
  · have hlarge := hunit e he
    have hnext : (m + 1) * 2 ^ e ≤ 2 ^ 53 * 2 ^ e := Nat.mul_le_mul_right _ hlt
    rw [Nat.succ_mul] at hnext
    rw [toDouble_scaled ((Nat.mul_le_mul_right _ hlow).trans (Nat.le_succ _)) (by omega),
      nearestEven_mul_succ hlarge]
    intro htwo
    apply heven
    obtain heq | hmore := he.eq_or_lt
    · exact heq.symm
    · have hfour : 2 ^ 2 ≤ 2 ^ e := Nat.pow_le_pow_right (by decide) hmore
      omega

theorem finiteDouble_eq_some (h : finiteDouble n = some r) : n = r := by
  unfold finiteDouble at h
  split at h
  · exact Option.some.inj h
  · cases h

/-- What an integer from `2 ^ 53` on is rounded down to has 53 bits or more. -/
structure Mantissa (n e : Nat) : Prop where
  log2 : n.log2 = 52 + (e + 1)
  low : 2 ^ 52 ≤ n / 2 ^ (e + 1)
  high : n / 2 ^ (e + 1) < 2 ^ 53
  double : toDouble n = finiteDouble (nearestEven (2 ^ (e + 1)) n)
  large : 2 ^ 53 ≤ n / 2 ^ (e + 1) * 2 ^ (e + 1)

theorem exists_mantissa (hlarge : 2 ^ 53 ≤ n) : ∃ e, Mantissa n e := by
  have hpos : n ≠ 0 := by omega
  obtain ⟨e, he⟩ : ∃ e, n.log2 = 52 + (e + 1) :=
    ⟨n.log2 - 53, by have hlog := (Nat.le_log2 hpos).mpr hlarge; omega⟩
  have hunit : 0 < 2 ^ (e + 1) := Nat.pow_pos (by decide)
  have hlow : 2 ^ 52 * 2 ^ (e + 1) ≤ n := by
    rw [← Nat.pow_add, ← he]
    exact Nat.log2_self_le hpos
  have hhigh : n < 2 ^ 53 * 2 ^ (e + 1) := by
    rw [← Nat.pow_add, show 53 + (e + 1) = n.log2 + 1 by omega]
    exact Nat.lt_log2_self
  have hmantissa : 2 ^ 52 ≤ n / 2 ^ (e + 1) := (Nat.le_div_iff_mul_le hunit).mpr hlow
  refine ⟨e, he, hmantissa, (Nat.div_lt_iff_lt_mul hunit).mpr hhigh,
    toDouble_scaled hlow hhigh, ?_⟩
  have htwo : 2 ^ 1 ≤ 2 ^ (e + 1) := Nat.pow_le_pow_right (by decide) (by omega)
  exact Nat.mul_le_mul hmantissa htwo

theorem le_toDouble (hlarge : 2 ^ 53 ≤ n) (hdouble : toDouble n = some r) : 2 ^ 53 ≤ r := by
  obtain ⟨e, he⟩ := exists_mantissa hlarge
  rw [he.double] at hdouble
  rw [← finiteDouble_eq_some hdouble]
  exact he.large.trans (le_nearestEven _ n)

/-- Below `2 ^ 53` a double is the double of one integer. -/
theorem toDouble_eq_some_iff (h : r < 2 ^ 53) : toDouble n = some r ↔ n = r := by
  constructor
  · intro hdouble
    obtain hsmall | hlarge := Nat.lt_or_ge n (2 ^ 53)
    · rw [toDouble_of_lt hsmall] at hdouble
      exact Option.some.inj hdouble
    · exact absurd (le_toDouble hlarge hdouble) (by omega)
  · rintro rfl
    exact toDouble_of_lt h

/-- An odd integer beyond `2 ^ 53` is not a double, and some integer besides it and its successor has
the same double. -/
theorem exists_same_double (hodd : n % 2 = 1) (hlarge : 2 ^ 53 ≤ n) (hdouble : toDouble n = some r) :
    ∃ other, other ≠ n ∧ other ≠ n + 1 ∧ 2 ^ 53 ≤ other ∧ toDouble other = some r := by
  obtain ⟨e, he⟩ := exists_mantissa hlarge
  have hlarge' := he.large
  rw [he.double] at hdouble
  have hround := finiteDouble_eq_some hdouble
  rw [hround] at hdouble
  have heven : 2 ∣ r := by
    rw [← hround]
    exact (Dvd.intro_left (2 ^ e) rfl).trans (dvd_nearestEven _ n)
  have hdivision := Nat.div_add_mod' n (2 ^ (e + 1))
  obtain heq | hup := (le_nearestEven (2 ^ (e + 1)) n).eq_or_lt
  · -- rounded down: the double itself
    rw [hround] at heq
    refine ⟨r, by omega, by omega, by omega, ?_⟩
    rw [← hdouble, ← heq]
    exact toDouble_mul he.low he.high.le
  · obtain ⟨heq, htie, -⟩ := nearestEven_up hup
    rw [hround, Nat.succ_mul] at heq
    have hmul : n / 2 ^ (e + 1) * 2 ^ (e + 1) + 2 ^ (e + 1) = (n / 2 ^ (e + 1) + 1) * 2 ^ (e + 1) :=
      (Nat.succ_mul _ _).symm
    have hlow := he.low
    by_cases hsucc : r = n + 1
    · -- rounded up by one: the next integer is rounded down
      refine ⟨r + 1, by omega, by omega, by omega, ?_⟩
      rw [← hdouble, heq, hmul]
      refine toDouble_mul_succ (by omega) he.high (by omega) fun hone => ?_
      have hodd' := htie (by
        rw [hone] at hdivision ⊢
        omega)
      omega
    · refine ⟨r, by omega, hsucc, by omega, ?_⟩
      rw [← hdouble, heq, hmul]
      exact toDouble_mul (by omega) he.high

/-- `2 ^ 53` and its successor have the same double. -/
theorem toDouble_two_pow : toDouble (2 ^ 53) = some (2 ^ 53) ∧
    toDouble (2 ^ 53 + 1) = some (2 ^ 53) := by
  have hfinite : finiteDouble (2 ^ 52 * 2 ^ 1) = some (2 ^ 53) :=
    if_pos (lt_doubleLimit (by decide))
  constructor
  · exact (toDouble_mul (m := 2 ^ 52) (e := 1) le_rfl (by decide)).trans hfinite
  · exact (toDouble_mul_succ (m := 2 ^ 52) (e := 1) le_rfl (by decide) le_rfl
      fun _ => by decide).trans hfinite

end EthereumJS.Tx
