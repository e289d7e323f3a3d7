import Mathlib.Algebra.GroupWithZero.Nat
import Mathlib.Data.Multiset.AddSub
import Mathlib.Data.List.Infix
import Mathlib.Data.List.Sort
import Mathlib.Logic.Function.Basic

/-! # Merging queues by their best heads

A heap whose items are given out by an order, and the selection from some queues that always takes
the best of their first items. An item may be skipped, and the rest of its queue with it.
-/

namespace EthereumJS.Ordered

/-- A heap that gives out an item that no other one is before. -/
structure PriorityHeap {α : Type} (before : α → α → Bool) where
  Heap : Type
  empty : Heap
  length : Heap → Nat
  insert : α → Heap → Heap
  remove : Heap → Option (α × Heap)
  contents : Heap → Multiset α
  length_eq : ∀ heap, length heap = (contents heap).card
  contents_empty : contents empty = 0
  contents_insert : ∀ item heap, contents (insert item heap) = item ::ₘ contents heap
  remove_none : ∀ heap, remove heap = none → contents heap = 0
  remove_some : ∀ heap item rest, remove heap = some (item, rest) →
    contents heap = item ::ₘ contents rest ∧ ∀ other ∈ contents rest, before other item = false

/-- A heap that keeps its items sorted by their prices. -/
def PriorityHeap.sorted {α : Type} (price : α → Int) :
    PriorityHeap fun a b => decide (price b - price a < 0) where
  Heap := { items : List α // items.Pairwise fun a b => price b ≤ price a }
  empty := ⟨[], List.Pairwise.nil⟩
  length heap := heap.1.length
  insert item heap := ⟨heap.1.orderedInsert (fun a b => price b ≤ price a) item, by
    have htotal : Std.Total fun a b : α => price b ≤ price a := ⟨fun a b => le_total _ _⟩
    have htrans : IsTrans α fun a b => price b ≤ price a := ⟨fun a b c hab hbc => hbc.trans hab⟩
    exact heap.2.orderedInsert item heap.1⟩
  remove
    | ⟨[], _⟩ => none
    | ⟨item :: rest, h⟩ => some (item, ⟨rest, h.of_cons⟩)
  contents heap := heap.1
  length_eq _ := rfl
  contents_empty := rfl
  contents_insert item heap := Multiset.coe_eq_coe.mpr (List.perm_orderedInsert _ _ _)
  remove_none
    | ⟨[], _⟩, _ => rfl
  remove_some
    | ⟨item :: rest, h⟩, _, _, hremove => by
      cases hremove
      refine ⟨rfl, fun other hother => decide_eq_false ?_⟩
      have hle := (List.pairwise_cons.mp h).1 other hother
      omega

section Merge

variable {κ α : Type} [DecidableEq κ] (price : α → Int) (weight : α → Nat)
  (skips : Nat → α → Prop)

/-- The items selected from queues, with the weight that was selected before. -/
inductive BestFirst : (κ → List α) → Nat → List α → Prop
  | done {queues : κ → List α} {used : Nat} (h : ∀ key, queues key = []) : BestFirst queues used []
  | take {queues : κ → List α} {used : Nat} {key : κ} {item : α} {rest selected : List α}
      (hhead : queues key = item :: rest)
      (hbest : ∀ other head tail, queues other = head :: tail → price head ≤ price item)
      (hfits : ¬ skips used item)
      (hrest : BestFirst (Function.update queues key rest) (used + weight item) selected) :
      BestFirst queues used (item :: selected)
  | skip {queues : κ → List α} {used : Nat} {key : κ} {item : α} {rest selected : List α}
      (hhead : queues key = item :: rest)
      (hskip : skips used item)
      (hrest : BestFirst (Function.update queues key []) used selected) :
      BestFirst queues used selected

variable {price weight skips} {queues : κ → List α} {owns : κ → α → Bool} {used : Nat}
  {selected : List α}

/-- The items of a queue are recognised as its own. -/
def Owned (queues : κ → List α) (owns : κ → α → Bool) : Prop :=
  ∀ key, ∀ item ∈ queues key, ∀ other, owns other item = decide (other = key)

theorem Owned.update (h : Owned queues owns) {key : κ} {items : List α}
    (hsub : items ⊆ queues key) : Owned (Function.update queues key items) owns := by
  intro other item hitem
  by_cases heq : other = key
  · subst heq
    rw [Function.update_self] at hitem
    exact h other item (hsub hitem)
  · rw [Function.update_of_ne heq] at hitem
    exact h other item hitem

theorem Owned.tail (h : Owned queues owns) {key : κ} {item : α} {rest : List α}
    (hhead : queues key = item :: rest) : Owned (Function.update queues key rest) owns := by
  refine h.update ?_
  rw [hhead]
  exact List.subset_cons_self item rest

theorem Owned.drop (h : Owned queues owns) (key : κ) :
    Owned (Function.update queues key []) owns :=
  h.update (List.nil_subset _)

theorem Owned.head (h : Owned queues owns) {key : κ} {item : α} {rest : List α}
    (hhead : queues key = item :: rest) (other : κ) : owns other item = decide (other = key) :=
  h key item (by rw [hhead]; exact List.mem_cons_self) other

/-- What comes from a queue is the first part of it. -/
theorem BestFirst.filter_initial (h : BestFirst price weight skips queues used selected)
    (howned : Owned queues owns) (key : κ) : selected.filter (owns key) <+: queues key := by
  induction h with
  | done h =>
    rw [List.filter_nil]
    exact List.nil_prefix
  | @take queues used owner item rest selected hhead hbest hfits hrest ih =>
    have hpart := ih (howned.tail hhead)
    rw [List.filter_cons, howned.head hhead]
    by_cases heq : key = owner
    · subst heq
      rw [Function.update_self] at hpart
      rw [if_pos (decide_eq_true rfl), hhead]
      exact List.cons_prefix_cons.mpr ⟨rfl, hpart⟩
    · rw [Function.update_of_ne heq] at hpart
      rw [if_neg (by simp [heq])]
      exact hpart
  | @skip queues used owner item rest selected hhead hskip hrest ih =>
    have hpart := ih (howned.drop owner)
    by_cases heq : key = owner
    · subst heq
      rw [Function.update_self] at hpart
      exact hpart.trans List.nil_prefix
    · rw [Function.update_of_ne heq] at hpart
      exact hpart

/-- The first items of a queue are selected if none of them is ever skipped. -/
theorem BestFirst.prefix_filter (h : BestFirst price weight skips queues used selected)
    (howned : Owned queues owns) {key : κ} {run : List α} (hrun : run <+: queues key)
    (hfits : ∀ item ∈ run, ∀ used, ¬ skips used item) : run <+: selected.filter (owns key) := by
  induction h generalizing run with
  | done h =>
    rw [h] at hrun
    rw [List.prefix_nil.mp hrun]
    exact List.nil_prefix
  | @take queues used owner item rest selected hhead hbest hfit hrest ih =>
    rw [List.filter_cons, howned.head hhead]
    by_cases heq : key = owner
    · subst heq
      rw [if_pos (decide_eq_true rfl)]
      cases run with
      | nil => exact List.nil_prefix
      | cons first run =>
        rw [hhead, List.cons_prefix_cons] at hrun
        obtain ⟨rfl, hrun⟩ := hrun
        refine List.cons_prefix_cons.mpr ⟨rfl, ih (howned.tail hhead) ?_ ?_⟩
        · rw [Function.update_self]
          exact hrun
        · exact fun item hitem => hfits item (List.mem_cons_of_mem _ hitem)
    · rw [if_neg (by simp [heq])]
      refine ih (howned.tail hhead) ?_ hfits
      rw [Function.update_of_ne heq]
      exact hrun
  | @skip queues used owner item rest selected hhead hskip hrest ih =>
    by_cases heq : key = owner
    · subst heq
      cases run with
      | nil => exact List.nil_prefix
      | cons first run =>
        rw [hhead, List.cons_prefix_cons] at hrun
        obtain ⟨rfl, -⟩ := hrun
        exact absurd hskip (hfits first List.mem_cons_self used)
    · refine ih (howned.drop owner) ?_ hfits
      rw [Function.update_of_ne heq]
      exact hrun

theorem BestFirst.fits (h : BestFirst price weight skips queues used selected) {item : α}
    (hitem : item ∈ selected) : ∃ used, ¬ skips used item := by
  induction h with
  | done h => cases hitem
  | @take queues used owner first rest selected hhead hbest hfits hrest ih =>
    obtain rfl | hlater := List.mem_cons.mp hitem
    · exact ⟨used, hfits⟩
    · exact ih hlater
  | skip hhead hskip hrest ih => exact ih hitem

theorem BestFirst.mem (h : BestFirst price weight skips queues used selected) {item : α}
    (hitem : item ∈ selected) : ∃ key, item ∈ queues key := by
  have hback : ∀ {queues : κ → List α} {owner : κ} {items : List α}, items ⊆ queues owner →
      (∃ key, item ∈ Function.update queues owner items key) → ∃ key, item ∈ queues key := by
    rintro queues owner items hsub ⟨key, hmem⟩
    by_cases heq : key = owner
    · subst heq
      rw [Function.update_self] at hmem
      exact ⟨key, hsub hmem⟩
    · rw [Function.update_of_ne heq] at hmem
      exact ⟨key, hmem⟩
  induction h with
  | done h => cases hitem
  | @take queues used owner first rest selected hhead hbest hfits hrest ih =>
    obtain rfl | hlater := List.mem_cons.mp hitem
    · exact ⟨owner, by rw [hhead]; exact List.mem_cons_self⟩
    · refine hback ?_ (ih hlater)
      rw [hhead]
      exact List.subset_cons_self first rest
  | skip hhead hskip hrest ih => exact hback (List.nil_subset _) (ih hitem)

theorem BestFirst.weight_le (h : BestFirst price weight skips queues used selected) {limit : Nat}
    (hlimit : ∀ used item, used ≤ limit → ¬ skips used item → used + weight item ≤ limit)
    (hused : used ≤ limit) : used + (selected.map weight).sum ≤ limit := by
  induction h with
  | done h => exact hused
  | @take queues used owner item rest selected hhead hbest hfits hrest ih =>
    rw [List.map_cons, List.sum_cons, ← Nat.add_assoc]
    exact ih (hlimit used item hused hfits)
  | skip hhead hskip hrest ih => exact ih hused

/-- A selected item is the best of all candidates, except for those that do not fit then. -/
theorem BestFirst.best (h : BestFirst price weight skips queues used selected)
    (howned : Owned queues owns)
    (hmono : ∀ {used used' item}, used ≤ used' → skips used item → skips used' item)
    {front back : List α} {item candidate : α} (hselected : selected = front ++ item :: back)
    {key : κ} (hnext : (queues key)[(front.filter (owns key)).length]? = some candidate) :
    price candidate ≤ price item ∨ skips (used + (front.map weight).sum) candidate := by
  induction h generalizing front with
  | done h => cases front <;> cases hselected
  | @take queues used owner first rest selected hhead hbest hfits hrest ih =>
    cases front with
    | nil =>
      cases hselected
      rw [List.filter_nil, List.length_nil] at hnext
      obtain ⟨tail, hqueue⟩ : ∃ tail, queues key = candidate :: tail := by
        cases hqueue : queues key with
        | nil =>
          rw [hqueue] at hnext
          cases hnext
        | cons head tail =>
          rw [hqueue] at hnext
          cases hnext
          exact ⟨tail, rfl⟩
      exact .inl (hbest key candidate tail hqueue)
    | cons before front =>
      cases hselected
      rw [List.map_cons, List.sum_cons, ← Nat.add_assoc]
      refine ih (howned.tail hhead) rfl ?_
      rw [List.filter_cons, howned.head hhead] at hnext
      by_cases heq : key = owner
      · subst heq
        rw [if_pos (decide_eq_true rfl), List.length_cons, hhead, List.getElem?_cons_succ] at hnext
        rw [Function.update_self]
        exact hnext
      · rw [if_neg (by simp [heq])] at hnext
        rw [Function.update_of_ne heq]
        exact hnext
  | @skip queues used owner first rest selected hhead hskip hrest ih =>
    by_cases heq : key = owner
    · subst heq
      -- nothing comes from this queue any more, so that the candidate is what was skipped
      have hpart := hrest.filter_initial (howned.drop key) key
      rw [Function.update_self, List.prefix_nil, hselected, List.filter_append,
        List.append_eq_nil_iff] at hpart
      rw [hpart.1, hhead] at hnext
      cases hnext
      exact .inr (hmono (Nat.le_add_right _ _) hskip)
    · refine ih (howned.drop owner) hselected ?_
      rw [Function.update_of_ne heq]
      exact hnext

end Merge

end EthereumJS.Ordered
