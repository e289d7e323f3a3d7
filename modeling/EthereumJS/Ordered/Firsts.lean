import Mathlib.Data.List.Basic
import Mathlib.Data.List.Nodup
import Mathlib.Tactic

/-! # First occurrences, and ranges of what is left of a list

The elements of a list whose image has not been seen before, and what a sublist has to hold so that
its first elements, and the last one behind them, are those of the list.
-/

namespace EthereumJS.Ordered

variable {γ κ : Type*}

section Firsts

variable [DecidableEq κ] (f : γ → κ)

/-- The elements whose image is neither among the given ones nor that of an earlier element. -/
def firsts : List κ → List γ → List γ
  | _, [] => []
  | seen, x :: xs => if f x ∈ seen then firsts seen xs else x :: firsts (f x :: seen) xs

variable {f}

theorem firsts_congr {seen seen' : List κ} {xs : List γ}
    (h : ∀ x ∈ xs, f x ∈ seen ↔ f x ∈ seen') : firsts f seen xs = firsts f seen' xs := by
  induction xs generalizing seen seen' with
  | nil => rfl
  | cons x xs ih =>
    rw [List.forall_mem_cons] at h
    rw [firsts, firsts]
    by_cases hx : f x ∈ seen
    · rw [if_pos hx, if_pos (h.1.mp hx), ih h.2]
    · rw [if_neg hx, if_neg (mt h.1.mpr hx)]
      refine congrArg (x :: ·) (ih fun y hy => ?_)
      rw [List.mem_cons, List.mem_cons, h.2 y hy]

theorem firsts_append {seen seen' : List κ} {xs ys : List γ}
    (h : ∀ y ∈ ys, f y ∈ seen' ↔ f y ∈ seen ∨ ∃ x ∈ xs, f x = f y) :
    firsts f seen (xs ++ ys) = firsts f seen xs ++ firsts f seen' ys := by
  induction xs generalizing seen with
  | nil => exact firsts_congr fun y hy => by simp [h y hy]
  | cons x xs ih =>
    rw [List.cons_append, firsts, firsts]
    by_cases hx : f x ∈ seen
    · rw [if_pos hx, if_pos hx]
      refine ih fun y hy => ?_
      rw [h y hy, List.exists_mem_cons_iff, ← or_assoc]
      exact or_congr_left (or_iff_left_of_imp fun heq => heq ▸ hx)
    · rw [if_neg hx, if_neg hx, List.cons_append]
      refine congrArg (x :: ·) (ih fun y hy => ?_)
      rw [h y hy, List.exists_mem_cons_iff, List.mem_cons, ← or_assoc]
      exact or_congr_left (or_comm.trans (or_congr_left eq_comm))

theorem firsts_eq_nil {seen : List κ} {xs : List γ} (h : ∀ x ∈ xs, f x ∈ seen) :
    firsts f seen xs = [] := by
  induction xs with
  | nil => rfl
  | cons x xs ih =>
    rw [List.forall_mem_cons] at h
    rw [firsts, if_pos h.1, ih h.2]

theorem firsts_map {δ : Type*} {g : δ → γ} {seen : List κ} {xs : List δ} :
    firsts f seen (xs.map g) = (firsts (f ∘ g) seen xs).map g := by
  induction xs generalizing seen with
  | nil => rfl
  | cons x xs ih =>
    rw [List.map_cons, firsts, firsts, Function.comp_apply]
    split
    · exact ih
    · rw [ih, List.map_cons]

theorem firsts_sublist (seen : List κ) (xs : List γ) : (firsts f seen xs).Sublist xs := by
  induction xs generalizing seen with
  | nil => exact List.Sublist.refl _
  | cons x xs ih =>
    rw [firsts]
    split
    · exact (ih seen).cons x
    · exact (ih _).cons_cons x

/-- In an ordered list, the first elements are those that no smaller one has the image of. -/
theorem mem_firsts {r : γ → γ → Prop} (hr : ∀ x y, r x y → ¬ r y x) {seen : List κ} {xs : List γ}
    (hsorted : xs.Pairwise r) {x : γ} : x ∈ firsts f seen xs ↔
      x ∈ xs ∧ f x ∉ seen ∧ ∀ y ∈ xs, r y x → f y ≠ f x := by
  have hirrefl : ∀ x, ¬ r x x := fun x h => hr x x h h
  induction xs generalizing seen with
  | nil => simp [firsts]
  | cons z xs ih =>
    obtain ⟨hz, hsorted⟩ := List.pairwise_cons.mp hsorted
    have hrest : ∀ seen, x ∈ firsts f seen xs ↔
        x ∈ xs ∧ f x ∉ seen ∧ ∀ y ∈ xs, r y x → f y ≠ f x := fun seen => ih hsorted
    rw [firsts]
    split
    · next hseen =>
      rw [hrest, List.mem_cons, List.forall_mem_cons]
      constructor
      · rintro ⟨hx, hnew, hfirst⟩
        exact ⟨.inr hx, hnew, fun _ heq => hnew (heq ▸ hseen), hfirst⟩
      · rintro ⟨rfl | hx, hnew, _, hfirst⟩
        · exact absurd hseen hnew
        · exact ⟨hx, hnew, hfirst⟩
    · next hnew =>
      rw [List.mem_cons, hrest, List.mem_cons, List.forall_mem_cons, List.mem_cons, not_or]
      constructor
      · rintro (rfl | ⟨hx, ⟨hne, hxnew⟩, hfirst⟩)
        · exact ⟨.inl rfl, hnew, fun h => absurd h (hirrefl _),
            fun y hy h => absurd h (hr _ _ (hz y hy))⟩
        · exact ⟨.inr hx, hxnew, fun _ heq => hne heq.symm, hfirst⟩
      · rintro ⟨rfl | hx, hxnew, hfirst, hrest⟩
        · exact .inl rfl
        · exact .inr ⟨hx, ⟨fun heq => hfirst (hz x hx) heq.symm, hxnew⟩, hrest⟩

end Firsts

section Ranges

theorem filter_eq_filter_iff {q r : γ → Bool} {xs : List γ} :
    xs.filter q = xs.filter r ↔ ∀ x ∈ xs, q x = r x := by
  constructor
  · intro h x hx
    have hmem : x ∈ xs.filter q ↔ x ∈ xs.filter r := by rw [h]
    rw [List.mem_filter, List.mem_filter, and_iff_right hx, and_iff_right hx] at hmem
    exact Bool.eq_iff_iff.mpr hmem
  · exact List.filter_congr

variable {key : γ → κ} {r : γ → Bool} {x : γ} {xs : List γ}

theorem getLast?_filter_eq_iff (hx : key x ∉ xs.map key) :
    (((x :: xs).filter r).getLast?).map key = some (key x) ↔
      r x = true ∧ ∀ y ∈ xs, r y = false := by
  rw [List.filter_cons]
  obtain hnil | ⟨before, last, hlast⟩ := (xs.filter r).eq_nil_or_concat
  · have hnone : ∀ y ∈ xs, r y = false := by simpa using List.filter_eq_nil_iff.mp hnil
    rw [hnil]
    by_cases hrx : r x = true
    · simpa [hrx] using hnone
    · simp [hrx]
  · rw [List.concat_eq_append] at hlast
    have hmem : last ∈ xs.filter r := by simp [hlast]
    obtain ⟨hlastmem, hkept⟩ := List.mem_filter.mp hmem
    have hfilter : (if r x = true then x :: xs.filter r else xs.filter r).getLast? =
        some last := by
      rw [hlast]
      split
      · rw [← List.cons_append, List.getLast?_concat]
      · exact List.getLast?_concat
    rw [hfilter]
    constructor
    · intro h
      exact absurd (Option.some.inj h ▸ List.mem_map_of_mem hlastmem) hx
    · rintro ⟨_, hnone⟩
      rw [hnone last hlastmem] at hkept
      cases hkept

theorem kept_until_cons {n : Nat} :
    (∀ i y, (x :: xs)[i]? = some y → (r y = true ↔ i ≤ n)) ↔
      r x = true ∧ ∀ i y, xs[i]? = some y → (r y = true ↔ i + 1 ≤ n) := by
  constructor
  · intro h
    exact ⟨(h 0 x rfl).mpr (Nat.zero_le n), fun i y hy => h (i + 1) y hy⟩
  · rintro ⟨hx, h⟩ i y hy
    cases i with
    | zero =>
      obtain rfl := Option.some.inj hy
      exact iff_of_true hx (Nat.zero_le n)
    | succ i => exact h i y hy

/-- The first `n` of the elements that are kept, and the last one behind them, are the first `n` of
the list and the one behind them exactly if the first `n + 1` are kept and no other. -/
theorem take_filter_eq_iff (hnodup : (xs.map key).Nodup) (n : Nat) :
    ((xs.filter r).take n = xs.take n ∧
        (((xs.filter r).drop n).getLast?).map key = ((xs.drop n).head?).map key) ↔
      ∀ i y, xs[i]? = some y → (r y = true ↔ i ≤ n) := by
  induction xs generalizing n with
  | nil => simp
  | cons x xs ih =>
    rw [List.map_cons, List.nodup_cons] at hnodup
    have hx : x ∉ xs := fun h => hnodup.1 (List.mem_map_of_mem h)
    rw [kept_until_cons]
    cases n with
    | zero =>
      simp only [List.take_zero, List.drop_zero, true_and, List.head?_cons, Option.map_some]
      rw [getLast?_filter_eq_iff hnodup.1]
      refine and_congr_right fun _ => ?_
      constructor
      · intro hnone i y hy
        simp [hnone y (List.mem_of_getElem? hy)]
      · intro h y hy
        obtain ⟨i, hi⟩ := List.mem_iff_getElem?.mp hy
        simpa using h i y hi
    | succ n =>
      by_cases hkept : r x = true
      · rw [List.filter_cons_of_pos hkept]
        simp only [List.take_succ_cons, List.cons.injEq, true_and, List.drop_succ_cons, hkept,
          Nat.add_le_add_iff_right]
        exact ih hnodup.2 n
      · rw [List.filter_cons_of_neg hkept, List.take_succ_cons]
        refine iff_of_false ?_ fun h => hkept h.1
        rintro ⟨htake, _⟩
        have hmem : x ∈ (xs.filter r).take (n + 1) := htake ▸ List.mem_cons_self
        exact hx (List.mem_filter.mp (List.mem_of_mem_take hmem)).1

end Ranges

end EthereumJS.Ordered
