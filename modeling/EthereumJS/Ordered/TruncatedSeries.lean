import Mathlib.Algebra.Order.Ring.Nat
import Mathlib.Tactic.Linarith

/-! # Series whose terms are rounded down

The sum of terms that come from each other by a factor `numerator / (denominator * i)`, each rounded
down, until one is zero. At first the terms may grow. From the first `i` on with
`numerator < denominator * i` each is less than the one before.
-/

namespace EthereumJS.Ordered

def nextTerm (numerator denominator i term : Nat) : Nat := term * numerator / (denominator * i)

theorem nextTerm_lt {numerator denominator i term : Nat} (hterm : 0 < term)
    (h : numerator < denominator * i) : nextTerm numerator denominator i term < term := by
  refine (Nat.div_lt_iff_lt_mul (by omega)).mpr ?_
  exact Nat.mul_lt_mul_of_pos_left h hterm

theorem nextTerm_mono {numerator numerator' term term' : Nat} (hnumerator : numerator ≤ numerator')
    (hterm : term ≤ term') (denominator i : Nat) :
    nextTerm numerator denominator i term ≤ nextTerm numerator' denominator i term' :=
  Nat.div_le_div_right (Nat.mul_le_mul hterm hnumerator)

/-- The growing terms are finitely many, and behind them each term is less than the one before. -/
theorem nextTerm_decreases {numerator denominator i term : Nat} (hterm : term ≠ 0)
    (h : denominator * i ≠ 0) :
    Prod.Lex (· < ·) (· < ·)
      (numerator + 1 - denominator * (i + 1), nextTerm numerator denominator i term)
      (numerator + 1 - denominator * i, term) := by
  have hdenominator : 0 < denominator := Nat.pos_of_ne_zero fun heq => h (by simp [heq])
  rw [Nat.mul_succ]
  by_cases hgrows : denominator * i ≤ numerator
  · exact .left _ _ (by omega)
  · have hended : numerator + 1 - (denominator * i + denominator) =
        numerator + 1 - denominator * i := by omega
    rw [hended]
    exact .right _ (nextTerm_lt (Nat.pos_of_ne_zero hterm) (not_le.mp hgrows))

def truncatedSeries (numerator denominator i term : Nat) : Nat :=
  if term = 0 ∨ denominator * i = 0 then 0
  else term + truncatedSeries numerator denominator (i + 1)
    (nextTerm numerator denominator i term)
termination_by (numerator + 1 - denominator * i, term)
decreasing_by
  next h =>
    rw [not_or] at h
    exact nextTerm_decreases h.1 h.2

variable {numerator numerator' denominator i term term' : Nat}

theorem truncatedSeries_zero (numerator denominator i : Nat) :
    truncatedSeries numerator denominator i 0 = 0 := by
  rw [truncatedSeries, if_pos (.inl rfl)]

theorem truncatedSeries_pos (hterm : term ≠ 0) (h : denominator * i ≠ 0) :
    truncatedSeries numerator denominator i term =
      term + truncatedSeries numerator denominator (i + 1)
        (nextTerm numerator denominator i term) := by
  rw [truncatedSeries, if_neg (not_or.mpr ⟨hterm, h⟩)]

theorem le_truncatedSeries (h : denominator * i ≠ 0) :
    term ≤ truncatedSeries numerator denominator i term := by
  by_cases hterm : term = 0
  · rw [hterm]
    exact Nat.zero_le _
  · rw [truncatedSeries_pos hterm h]
    exact Nat.le_add_right _ _

/-- The sum grows with the first term and with the numerator. -/
theorem truncatedSeries_mono (hnumerator : numerator ≤ numerator') (hterm : term ≤ term')
    (h : denominator * i ≠ 0) :
    truncatedSeries numerator denominator i term ≤
      truncatedSeries numerator' denominator i term' := by
  induction i, term' using truncatedSeries.induct numerator' denominator generalizing term with
  | case1 i term' hstop =>
    have hzero : term = 0 := Nat.le_zero.mp (hterm.trans (hstop.resolve_right h).le)
    rw [hzero, truncatedSeries_zero]
    exact Nat.zero_le _
  | case2 i term' hgoes ih =>
    rw [not_or] at hgoes
    by_cases hzero : term = 0
    · rw [hzero, truncatedSeries_zero]
      exact Nat.zero_le _
    · have hnext : denominator * (i + 1) ≠ 0 := by
        rw [Nat.mul_succ]
        omega
      rw [truncatedSeries_pos hzero h, truncatedSeries_pos hgoes.1 h]
      exact Nat.add_le_add hterm (ih (nextTerm_mono hnumerator hterm denominator i) hnext)

end EthereumJS.Ordered
