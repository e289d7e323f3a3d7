import Mathlib.Data.Finset.Card
import Mathlib.Tactic.Linarith

/-! # Marked elements that are paid for

A bound covers a cost for each marked element when it covers it for any finite number of them.
-/

namespace EthereumJS.Ordered

variable {α : Type*} {marked marked' : Set α} {cost bound bound' : ℤ} {a : α}

def Covers (marked : Set α) (cost bound : ℤ) : Prop :=
  ∀ T : Finset α, ↑T ⊆ marked → T.card * cost ≤ bound

theorem covers_empty (h : 0 ≤ bound) : Covers (∅ : Set α) cost bound := by
  intro T hT
  rw [Set.subset_empty_iff, Finset.coe_eq_empty] at hT
  simpa [hT] using h

theorem Covers.nonneg (h : Covers marked cost bound) : 0 ≤ bound := by
  simpa using h ∅ (by simp)

theorem Covers.mono (h : Covers marked cost bound) (hmarked : marked' ⊆ marked)
    (hbound : bound ≤ bound') : Covers marked' cost bound' :=
  fun T hT => (h T (hT.trans hmarked)).trans hbound

theorem Covers.le (h : Covers marked cost bound) (ha : a ∈ marked) : cost ≤ bound := by
  simpa using h {a} (by simpa using ha)

theorem Covers.insert (h : Covers marked cost bound) (hcost : 0 ≤ cost) (a : α) :
    Covers (Insert.insert a marked) cost (bound + cost) := by
  classical
  intro T hT
  have hrest : ↑(T.erase a) ⊆ marked := by
    intro b hb
    rw [Finset.mem_coe, Finset.mem_erase] at hb
    exact (hT hb.2).resolve_left hb.1
  have hcard : (T.card : ℤ) ≤ (T.erase a).card + 1 := by
    have := Finset.pred_card_le_card_erase (s := T) (a := a)
    omega
  have hpaid := h _ hrest
  calc (T.card : ℤ) * cost ≤ ((T.erase a).card + 1) * cost :=
        Int.mul_le_mul_of_nonneg_right hcard hcost
    _ ≤ bound + cost := by linarith

/-- The element that is no longer marked gives its cost free. -/
theorem Covers.erase (h : Covers marked cost bound) (ha : a ∈ marked) :
    Covers (marked \ {a}) cost (bound - cost) := by
  classical
  intro T hT
  have hnew : a ∉ T := fun hmem => (hT hmem).2 rfl
  have hpaid := h (Insert.insert a T) (by
    intro b hb
    rw [Finset.coe_insert] at hb
    obtain rfl | hb := hb
    · exact ha
    · exact (hT hb).1)
  rw [Finset.card_insert_of_notMem hnew] at hpaid
  push_cast at hpaid
  linarith

end EthereumJS.Ordered
