import EthereumJS.Patricia.Order
import EthereumJS.Patricia.Trail

/-! # The leaves of a tree in order

A depth-first walk that enters only some of the children of a branch passes some of the nodes of a
tree, and it comes to the leaves among them in the order of their keys.
-/

namespace Patricia

variable {α β : Type*}

/-- A leaf with the path of the nodes above it. -/
@[ext] structure LeafAt (α β : Type*) where
  above : List α
  path : List α
  value : β

namespace LeafAt

def key (e : LeafAt α β) : List α := e.above ++ e.path

def node (e : LeafAt α β) : Tree α β := .leaf e.path e.value

def under (p : List α) (e : LeafAt α β) : LeafAt α β := { e with above := p ++ e.above }

@[simp] theorem key_under (p : List α) (e : LeafAt α β) : (e.under p).key = p ++ e.key :=
  List.append_assoc p e.above e.path

@[simp] theorem node_under (p : List α) (e : LeafAt α β) : (e.under p).node = e.node := rfl

@[simp] theorem value_under (p : List α) (e : LeafAt α β) : (e.under p).value = e.value := rfl

@[simp] theorem above_under (p : List α) (e : LeafAt α β) : (e.under p).above = p ++ e.above := rfl

end LeafAt

namespace Tree

section Walk

variable (letters : List α) (enters : Tree α β → Bool)

def leaves : Tree α β → List (LeafAt α β)
  | nil => []
  | leaf p v => [⟨[], p, v⟩]
  | ext p c => c.leaves.map (LeafAt.under p)
  | branch c _ => letters.flatMap fun a =>
    if enters (c a) then (c a).leaves.map (LeafAt.under [a]) else []

def nodes : Tree α β → List (Tree α β)
  | nil => []
  | leaf p v => [leaf p v]
  | ext p c => ext p c :: c.nodes
  | branch c v => branch c v :: letters.flatMap fun a => if enters (c a) then (c a).nodes else []

variable {letters enters}

theorem mem_nodes_branch {c : α → Tree α β} {v : Option β} {s : Tree α β} :
    s ∈ (branch c v).nodes letters enters ↔
      s = branch c v ∨ ∃ a ∈ letters, enters (c a) ∧ s ∈ (c a).nodes letters enters := by
  rw [nodes, List.mem_cons, List.mem_flatMap]
  refine or_congr_right (exists_congr fun a => and_congr_right fun _ => ?_)
  split <;> simp_all

theorem mem_leaves_branch {c : α → Tree α β} {v : Option β} {e : LeafAt α β} :
    e ∈ (branch c v).leaves letters enters ↔ ∃ a ∈ letters, enters (c a) ∧
      ∃ f ∈ (c a).leaves letters enters, f.under [a] = e := by
  rw [leaves, List.mem_flatMap]
  refine exists_congr fun a => and_congr_right fun _ => ?_
  split <;> simp_all

/-- What is below a node that the walk passes is passed as well. -/
theorem nodes_trans {t s u : Tree α β} (hs : s ∈ t.nodes letters enters)
    (hu : u ∈ s.nodes letters enters) : u ∈ t.nodes letters enters := by
  induction t with
  | nil => cases hs
  | leaf p v =>
    obtain rfl := List.mem_singleton.mp hs
    exact hu
  | ext p c ih =>
    obtain rfl | hs := List.mem_cons.mp hs
    · exact hu
    · exact List.mem_cons_of_mem _ (ih hs)
  | branch c v ih =>
    obtain rfl | ⟨a, ha, henters, hs⟩ := mem_nodes_branch.mp hs
    · exact hu
    · exact mem_nodes_branch.mpr (.inr ⟨a, ha, henters, ih a hs⟩)

theorem node_mem_nodes {t : Tree α β} {e : LeafAt α β} (he : e ∈ t.leaves letters enters) :
    e.node ∈ t.nodes letters enters := by
  induction t generalizing e with
  | nil => cases he
  | leaf p v =>
    obtain rfl := List.mem_singleton.mp he
    exact List.mem_cons_self
  | ext p c ih =>
    obtain ⟨f, hf, rfl⟩ := List.mem_map.mp he
    have hnode := ih hf
    exact List.mem_cons_of_mem _ hnode
  | branch c v ih =>
    obtain ⟨a, ha, henters, f, hf, rfl⟩ := mem_leaves_branch.mp he
    have hnode := ih a hf
    exact mem_nodes_branch.mpr (.inr ⟨a, ha, henters, hnode⟩)

theorem exists_leaf_of_mem_nodes {t : Tree α β} {e : LeafAt α β}
    (he : e.node ∈ t.nodes letters enters) : ∃ f ∈ t.leaves letters enters, f.node = e.node := by
  induction t with
  | nil => cases he
  | leaf p v => exact ⟨⟨[], p, v⟩, List.mem_cons_self, (List.mem_singleton.mp he).symm⟩
  | ext p c ih =>
    obtain heq | he := List.mem_cons.mp he
    · cases heq
    · obtain ⟨f, hf, hnode⟩ := ih he
      exact ⟨f.under p, List.mem_map_of_mem hf, hnode⟩
  | branch c v ih =>
    obtain heq | ⟨a, ha, henters, he⟩ := mem_nodes_branch.mp he
    · cases heq
    · obtain ⟨f, hf, hnode⟩ := ih a he
      exact ⟨f.under [a], mem_leaves_branch.mpr ⟨a, ha, henters, f, hf, rfl⟩, hnode⟩

theorem ne_nil_of_mem_nodes {t s : Tree α β} (hs : s ∈ t.nodes letters enters) : s ≠ nil := by
  induction t with
  | nil => cases hs
  | leaf p v =>
    obtain rfl := List.mem_singleton.mp hs
    simp
  | ext p c ih =>
    obtain rfl | hs := List.mem_cons.mp hs
    · simp
    · exact ih hs
  | branch c v ih =>
    obtain rfl | ⟨a, _, _, hs⟩ := mem_nodes_branch.mp hs
    · simp
    · exact ih a hs

theorem All.of_mem_nodes {P : Tree α β → Prop} {t s : Tree α β} (h : t.All P)
    (hs : s ∈ t.nodes letters enters) : s.All P := by
  induction t with
  | nil => cases hs
  | leaf p v =>
    obtain rfl := List.mem_singleton.mp hs
    exact h
  | ext p c ih =>
    obtain rfl | hs := List.mem_cons.mp hs
    · exact h
    · exact ih h.2 hs
  | branch c v ih =>
    obtain rfl | ⟨a, _, _, hs⟩ := mem_nodes_branch.mp hs
    · exact h
    · exact ih a (h.2 a) hs

/-- A walk that enters more children comes to more leaves. -/
theorem leaves_mono {t : Tree α β} {enters' : Tree α β → Bool}
    (hmore : ∀ s, enters s = true → enters' s = true) {e : LeafAt α β}
    (he : e ∈ t.leaves letters enters) : e ∈ t.leaves letters enters' := by
  induction t generalizing e with
  | nil => cases he
  | leaf p v => exact he
  | ext p c ih =>
    obtain ⟨f, hf, rfl⟩ := List.mem_map.mp he
    exact List.mem_map_of_mem (ih hf)
  | branch c v ih =>
    obtain ⟨a, ha, henters, f, hf, rfl⟩ := mem_leaves_branch.mp he
    exact mem_leaves_branch.mpr ⟨a, ha, hmore _ henters, f, ih a hf, rfl⟩

/-- Where every child is entered, a predicate on the nodes is one on the tree. -/
theorem all_of_nodes {P : Tree α β → Prop} {t : Tree α β} (hletters : ∀ a, a ∈ letters)
    (h : ∀ s ∈ t.nodes letters fun _ => true, P s) : t.All P := by
  induction t with
  | nil => trivial
  | leaf p v => exact h _ List.mem_cons_self
  | ext p c ih => exact ⟨h _ List.mem_cons_self, ih fun s hs => h s (List.mem_cons_of_mem _ hs)⟩
  | branch c v ih =>
    refine ⟨h _ List.mem_cons_self, fun a => ih a fun s hs => h s ?_⟩
    exact mem_nodes_branch.mpr (.inr ⟨a, hletters a, rfl, hs⟩)

end Walk

section Reach

variable [DecidableEq α] {letters : List α} {enters : Tree α β → Bool}

/-- The leaf of a key, if the walk comes to it. -/
def reach (enters : Tree α β → Bool) : Tree α β → List α → Option (List α × β)
  | nil, _ => none
  | leaf p v, k => if k = p then some (p, v) else none
  | ext p c, k =>
    match stripPrefix p k with
    | some r => c.reach enters r
    | none => none
  | branch _ _, [] => none
  | branch c _, a :: k => if enters (c a) then (c a).reach enters k else none

@[simp] theorem reach_nil (k : List α) : (nil : Tree α β).reach enters k = none := by
  cases k <;> rfl

@[simp] theorem reach_leaf (p : List α) (v : β) (k : List α) :
    (leaf p v).reach enters k = if k = p then some (p, v) else none := by
  cases k <;> rfl

theorem reach_ext_of_some {p k r : List α} (c : Tree α β) (h : stripPrefix p k = some r) :
    (ext p c).reach enters k = c.reach enters r := by
  rw [reach, h]

theorem reach_ext_of_none {p k : List α} (c : Tree α β) (h : stripPrefix p k = none) :
    (ext p c).reach enters k = none := by
  rw [reach, h]

@[simp] theorem reach_branch_cons (c : α → Tree α β) (v : Option β) (a : α) (k : List α) :
    (branch c v).reach enters (a :: k) = if enters (c a) then (c a).reach enters k else none := rfl

/-- A key is among those of the leaves exactly if the walk comes to its leaf. -/
theorem exists_mem_leaves (hletters : ∀ a, a ∈ letters) {t : Tree α β} {k p : List α} {v : β} :
    (∃ e ∈ t.leaves letters enters, e.key = k ∧ e.path = p ∧ e.value = v) ↔
      t.reach enters k = some (p, v) := by
  induction t generalizing k with
  | nil => simp [leaves]
  | leaf q w =>
    simp only [leaves, List.mem_singleton, exists_eq_left, LeafAt.key, List.nil_append, reach_leaf,
      Option.ite_none_right_eq_some, Option.some.injEq, Prod.mk.injEq]
    exact ⟨fun h => ⟨h.1.symm, h.2⟩, fun h => ⟨h.1.symm, h.2⟩⟩
  | ext q c ih =>
    simp only [leaves, List.mem_map, exists_exists_and_eq_and, LeafAt.key_under,
      LeafAt.value_under]
    cases hk : stripPrefix q k with
    | none =>
      rw [reach_ext_of_none c hk]
      simp only [reduceCtorEq, iff_false]
      rintro ⟨e, _, hkey, _⟩
      exact stripPrefix_eq_none.mp hk _ hkey.symm
    | some r =>
      obtain rfl := stripPrefix_eq_some.mp hk
      rw [reach_ext_of_some c hk, ← ih]
      simp only [List.append_cancel_left_eq]
      rfl
  | branch c w ih =>
    cases k with
    | nil =>
      simp only [reach, reduceCtorEq, iff_false]
      rintro ⟨e, he, hkey, _⟩
      obtain ⟨a, _, _, f, _, rfl⟩ := mem_leaves_branch.mp he
      simp at hkey
    | cons a k =>
      rw [reach_branch_cons]
      constructor
      · rintro ⟨e, he, hkey, hpath, hvalue⟩
        obtain ⟨b, _, henters, f, hf, rfl⟩ := mem_leaves_branch.mp he
        rw [LeafAt.key_under, List.singleton_append, List.cons.injEq] at hkey
        obtain ⟨rfl, hkey⟩ := hkey
        rw [if_pos henters]
        exact (ih b).mp ⟨f, hf, hkey, hpath, hvalue⟩
      · intro h
        split at h
        · next henters =>
          obtain ⟨f, hf, hkey, hpath, hvalue⟩ := (ih a).mpr h
          refine ⟨f.under [a], ?_, ?_, hpath, hvalue⟩
          · exact mem_leaves_branch.mpr ⟨a, hletters a, henters, f, hf, rfl⟩
          · rw [LeafAt.key_under, hkey]
            rfl
        · cases h

/-- A leaf is determined by its key. -/
theorem eq_of_key_eq (hletters : ∀ a, a ∈ letters) {t : Tree α β} {e f : LeafAt α β}
    (he : e ∈ t.leaves letters enters) (hf : f ∈ t.leaves letters enters) (hkey : e.key = f.key) :
    e = f := by
  have hreach := (exists_mem_leaves hletters).mp ⟨e, he, rfl, rfl, rfl⟩
  rw [hkey, (exists_mem_leaves hletters).mp ⟨f, hf, rfl, rfl, rfl⟩] at hreach
  obtain ⟨hpath, hvalue⟩ := Prod.mk.inj (Option.some.inj hreach)
  rw [LeafAt.key, LeafAt.key, hpath] at hkey
  exact LeafAt.ext (List.append_cancel_right hkey) hpath.symm hvalue.symm

/-- The depth of a canonical tree is the length of its keys. -/
theorem Canon.depth_unique {m n : Nat} {t : Tree α β} (hm : t.Canon m) (hn : t.Canon n) :
    m = n := by
  obtain ⟨k, v, hk⟩ := hm.exists_lookup
  rw [← hm.length_of_lookup hk, hn.length_of_lookup hk]

/-- In a canonical tree, a walk that enters every child comes to every key. -/
theorem Canon.exists_reach {n : Nat} {t : Tree α β} (ht : t.Canon n) {k : List α} {v : β} :
    (∃ p, t.reach (fun _ => true) k = some (p, v)) ↔ t.lookup k = some v := by
  induction t generalizing n k with
  | nil => exact absurd ht id
  | leaf p w =>
    rw [reach_leaf, lookup_leaf]
    split <;> simp
  | ext p c ih =>
    obtain ⟨_, _, m, _, hc⟩ := ht
    cases hk : stripPrefix p k with
    | none => simp [reach_ext_of_none c hk, lookup_ext_of_none c hk]
    | some r =>
      obtain rfl := stripPrefix_eq_some.mp hk
      rw [reach_ext_of_some c hk, lookup_ext_append]
      exact ih hc
  | branch c w ih =>
    obtain ⟨rfl, ⟨m, _, hc⟩, _⟩ := ht
    cases k with
    | nil => simp [reach]
    | cons a k =>
      rw [reach_branch_cons, lookup_branch_cons]
      obtain hnil | hcanon := hc a
      · simp [hnil]
      · simpa using ih a hcanon

/-- The walk comes to the leaf at which the descent ends, if it enters the children of branches
on its way. -/
theorem reach_eq_some_iff {t : Tree α β} {k p : List α} {v : β} (ctx : List (Frame α β)) :
    t.reach enters k = some (p, v) ↔ (descend t k ctx).focus = leaf p v ∧
      (descend t k ctx).rest = p ∧
        (t.trail k).IsChain fun s u => s.IsBranch → enters u = true := by
  induction t generalizing k ctx with
  | nil => simp
  | leaf q w =>
    rw [reach_leaf, descend_leaf]
    simp only [Option.ite_none_right_eq_some, Option.some.injEq, Prod.mk.injEq, leaf.injEq,
      trail_leaf, List.isChain_singleton, and_true]
    constructor
    · rintro ⟨rfl, rfl, rfl⟩
      exact ⟨⟨rfl, rfl⟩, rfl⟩
    · rintro ⟨⟨rfl, rfl⟩, rfl⟩
      exact ⟨rfl, rfl, rfl⟩
  | ext q c ih =>
    cases hk : stripPrefix q k with
    | none =>
      rw [reach_ext_of_none c hk, descend, hk]
      simp
    | some r =>
      rw [reach_ext_of_some c hk, trail_ext_of_some c hk, descend, hk, ih (.ext q :: ctx)]
      refine and_congr_right fun hfocus => and_congr_right fun _ => ?_
      have hc : c ≠ nil := by
        rintro rfl
        simp at hfocus
      rw [trail_eq_cons hc, List.isChain_cons_cons]
      simp [IsBranch]
  | branch c w ih =>
    cases k with
    | nil => simp [reach, descend]
    | cons a k =>
      rw [reach_branch_cons, trail_branch_cons, descend]
      have hchild := ih a (k := k) (.branch c a w :: ctx)
      split
      · next henters =>
        rw [hchild]
        refine and_congr_right fun hfocus => and_congr_right fun _ => ?_
        have hc : c a ≠ nil := by
          intro hnil
          rw [hnil] at hfocus
          simp at hfocus
        rw [trail_eq_cons hc, List.isChain_cons_cons]
        simp [henters]
      · next henters =>
        simp only [reduceCtorEq, false_iff, not_and]
        intro hfocus _ hchain
        have hc : c a ≠ nil := by
          intro hnil
          rw [hnil] at hfocus
          simp at hfocus
        rw [trail_eq_cons hc, List.isChain_cons_cons] at hchain
        exact henters (hchain.1 trivial)

end Reach

/-- The leaves are in the order of their keys. -/
theorem sorted_leaves [LinearOrder α] {letters : List α} {enters : Tree α β → Bool}
    (hletters : letters.Pairwise (· < ·)) (t : Tree α β) :
    (t.leaves letters enters).Pairwise fun e f => e.key < f.key := by
  induction t with
  | nil => exact List.Pairwise.nil
  | leaf p v => exact List.pairwise_singleton _ _
  | ext p c ih =>
    refine List.pairwise_map.mpr (ih.imp fun hlt => ?_)
    rw [LeafAt.key_under, LeafAt.key_under]
    exact (append_lt_append_iff p _ _).mpr hlt
  | branch c v ih =>
    refine List.pairwise_flatMap.mpr ⟨fun a _ => ?_, hletters.imp fun hab x hx y hy => ?_⟩
    · split
      · refine List.pairwise_map.mpr ((ih a).imp fun hlt => ?_)
        rw [LeafAt.key_under, LeafAt.key_under]
        exact (append_lt_append_iff [a] _ _).mpr hlt
      · exact List.Pairwise.nil
    · split at hx
      · split at hy
        · obtain ⟨e, _, rfl⟩ := List.mem_map.mp hx
          obtain ⟨f, _, rfl⟩ := List.mem_map.mp hy
          rw [LeafAt.key_under, LeafAt.key_under]
          exact List.cons_lt_cons_iff.mpr (.inl hab)
        · cases hy
      · cases hx

end Tree

end Patricia
