import Mathlib.Data.List.Pairwise
import Mathlib.Data.List.Sort
import Mathlib.Data.List.Lex

/-! # Lists that are sorted by one order and compared by another

When a list that a comparator sorts is ascending for a second measure, and the order that a
comparison element by element gives.
-/

namespace EthereumJS.Ordered

section Agree

variable {α β : Type} {r : α → α → Prop} [DecidableRel r] [Std.Total r] [IsTrans α r]
  [Std.Antisymm r] [Preorder β] {f : α → β}

/-- A sorted list ascends strictly by a measure if the order agrees with the measure. -/
theorem strict_map_insertionSort (l : List α) :
    ((l.insertionSort r).map f).Pairwise (· < ·) ↔
      l.Nodup ∧ ∀ a ∈ l, ∀ b ∈ l, a ≠ b → r a b → f a < f b := by
  have hperm := List.perm_insertionSort r l
  have hsorted := List.pairwise_insertionSort r l
  rw [List.pairwise_map]
  constructor
  · intro hstrict
    have hne : (l.insertionSort r).Nodup := hstrict.imp fun hlt heq => (heq ▸ hlt).false
    have hsymm : Std.Symm fun a b => (r a b → f a < f b) ∧ (r b a → f b < f a) :=
      ⟨fun _ _ h => ⟨h.2, h.1⟩⟩
    have hboth : (l.insertionSort r).Pairwise
        fun a b => (r a b → f a < f b) ∧ (r b a → f b < f a) := by
      refine (hsorted.and hstrict).imp ?_
      rintro a b ⟨hab, hlt⟩
      refine ⟨fun _ => hlt, fun hba => ?_⟩
      rw [Std.Antisymm.antisymm a b hab hba] at hlt
      exact absurd hlt (lt_irrefl _)
    refine ⟨hperm.nodup_iff.mp hne, fun a ha b hb hab hle => ?_⟩
    exact (hboth.forall (hperm.mem_iff.mpr ha) (hperm.mem_iff.mpr hb) hab).1 hle
  · rintro ⟨hnodup, hagree⟩
    have hdistinct : (l.insertionSort r).Pairwise (· ≠ ·) := hperm.nodup_iff.mpr hnodup
    refine (hsorted.and hdistinct).imp_of_mem ?_
    rintro a b ha hb ⟨hle, hab⟩
    exact hagree a (hperm.mem_iff.mp ha) b (hperm.mem_iff.mp hb) hab hle

end Agree

section Perm

variable {α : Type} {r : α → α → Prop} [DecidableRel r] [Std.Total r] [IsTrans α r]

/-- The sorted list does not depend on the order that it is sorted from, where no two elements are
equivalent. -/
theorem insertionSort_eq_of_perm {l l' : List α} (h : l.Perm l')
    (hr : ∀ a ∈ l, ∀ b ∈ l, r a b → r b a → a = b) : l.insertionSort r = l'.insertionSort r := by
  have hmem : ∀ a, a ∈ l.insertionSort r → a ∈ l := fun a => (List.mem_insertionSort r).mp
  have hmem' : ∀ a, a ∈ l'.insertionSort r → a ∈ l := fun a ha =>
    h.mem_iff.mpr ((List.mem_insertionSort r).mp ha)
  refine List.Perm.eq_of_pairwise (fun a b ha hb => hr a (hmem a ha) b (hmem' b hb))
    (List.pairwise_insertionSort r l) (List.pairwise_insertionSort r l') ?_
  exact (List.perm_insertionSort r l).trans (h.trans (List.perm_insertionSort r l').symm)

end Perm

section Compare

variable {α : Type} (rank : α → ℕ)

/-- The comparison of two lists from the front, a shorter list before those that continue it. -/
def compareLists : List α → List α → Ordering
  | [], [] => .eq
  | [], _ :: _ => .lt
  | _ :: _, [] => .gt
  | a :: as, b :: bs =>
    if rank a < rank b then .lt else if rank b < rank a then .gt else compareLists as bs

variable {rank}

theorem compareLists_eq_lt : ∀ a b : List α,
    compareLists rank a b = .lt ↔ a.map rank < b.map rank
  | [], [] => by simp [compareLists]
  | [], _ :: _ => by simp [compareLists]
  | _ :: _, [] => by simp [compareLists]
  | a :: as, b :: bs => by
    rw [compareLists, List.map_cons, List.map_cons, List.cons_lt_cons_iff]
    split_ifs with hlt hgt
    · simp [hlt]
    · have hne : rank a ≠ rank b := by omega
      simp [hlt, hne]
    · have heq : rank a = rank b := by omega
      simp [heq, compareLists_eq_lt as bs]

theorem compareLists_eq_gt : ∀ a b : List α,
    compareLists rank a b = .gt ↔ b.map rank < a.map rank
  | [], [] => by simp [compareLists]
  | [], _ :: _ => by simp [compareLists]
  | _ :: _, [] => by simp [compareLists]
  | a :: as, b :: bs => by
    rw [compareLists, List.map_cons, List.map_cons, List.cons_lt_cons_iff]
    split_ifs with hlt hgt
    · have hne : rank b ≠ rank a := by omega
      simp [hne, hlt.le]
    · simp [hgt]
    · have heq : rank a = rank b := by omega
      simp [heq, compareLists_eq_gt as bs]

theorem compareLists_ne_gt (a b : List α) :
    compareLists rank a b ≠ .gt ↔ a.map rank ≤ b.map rank := by
  rw [ne_eq, compareLists_eq_gt, not_lt]

instance total_compareLists : Std.Total fun a b : List α => compareLists rank a b ≠ .gt where
  total a b := by
    rw [compareLists_ne_gt, compareLists_ne_gt]
    exact le_total _ _

instance trans_compareLists : IsTrans (List α) fun a b => compareLists rank a b ≠ .gt where
  trans a b c := by
    rw [compareLists_ne_gt, compareLists_ne_gt, compareLists_ne_gt]
    exact le_trans

theorem antisymm_compareLists (hrank : Function.Injective rank) :
    Std.Antisymm fun a b : List α => compareLists rank a b ≠ .gt where
  antisymm a b hab hba := by
    rw [compareLists_ne_gt] at hab hba
    exact List.map_injective_iff.mpr hrank (le_antisymm hab hba)

end Compare

end EthereumJS.Ordered
