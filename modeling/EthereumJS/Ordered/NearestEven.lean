import Mathlib.Algebra.Order.Ring.Nat
import Mathlib.Tactic.Linarith

/-! # Rounding to the nearest multiple of a unit

Ties go to the even multiple.
-/

namespace EthereumJS.Ordered

def nearestEven (unit n : Nat) : Nat :=
  let low := n % unit * 2
  let high := n / unit
  if unit < low ∨ unit = low ∧ high % 2 = 1 then (high + 1) * unit else high * unit

variable {unit n m : Nat}

theorem dvd_nearestEven (unit n : Nat) : unit ∣ nearestEven unit n := by
  unfold nearestEven
  dsimp only
  split <;> exact Dvd.intro_left _ rfl

/-- What is rounded down is less than half a unit above a multiple, or half a unit above an even
one. -/
theorem nearestEven_down (hlow : n % unit * 2 ≤ unit)
    (heven : unit = n % unit * 2 → n / unit % 2 = 0) :
    nearestEven unit n = n / unit * unit := by
  refine if_neg ?_
  rintro (hless | ⟨htie, hodd⟩)
  · omega
  · have hzero := heven htie
    omega

theorem nearestEven_up (h : n / unit * unit < nearestEven unit n) :
    nearestEven unit n = (n / unit + 1) * unit ∧
      (unit = n % unit * 2 → n / unit % 2 = 1) ∧ unit ≤ n % unit * 2 := by
  unfold nearestEven at h ⊢
  dsimp only at h ⊢
  split at h
  · next hup =>
    rw [if_pos hup]
    refine ⟨rfl, fun htie => ?_, ?_⟩
    · obtain hless | ⟨-, hodd⟩ := hup
      · omega
      · exact hodd
    · obtain hless | ⟨heq, -⟩ := hup
      · exact hless.le
      · exact heq.le
  · exact absurd h (lt_irrefl _)

theorem le_nearestEven (unit n : Nat) : n / unit * unit ≤ nearestEven unit n := by
  unfold nearestEven
  dsimp only
  split
  · exact Nat.mul_le_mul_right _ (Nat.le_succ _)
  · exact le_rfl

theorem nearestEven_mul (hunit : 0 < unit) (m : Nat) : nearestEven unit (m * unit) = m * unit := by
  rw [nearestEven_down, Nat.mul_div_cancel _ hunit]
  · rw [Nat.mul_mod_left]
    omega
  · rw [Nat.mul_mod_left]
    omega

/-- One above a multiple, where a tie needs that the multiple is even. -/
theorem nearestEven_mul_succ (hunit : 2 ≤ unit) (heven : unit = 2 → m % 2 = 0) :
    nearestEven unit (m * unit + 1) = m * unit := by
  have hmod : (m * unit + 1) % unit = 1 := by
    rw [Nat.mul_comm, Nat.mul_add_mod, Nat.mod_eq_of_lt (by omega)]
  have hdiv : (m * unit + 1) / unit = m := by
    rw [Nat.mul_comm, Nat.mul_add_div (by omega), Nat.div_eq_of_lt (by omega), Nat.add_zero]
  rw [nearestEven_down, hdiv]
  · rw [hmod]
    omega
  · rw [hmod, hdiv]
    omega

end EthereumJS.Ordered
