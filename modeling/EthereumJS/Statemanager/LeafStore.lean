import EthereumJS.Binarytree.SpecRoot
import EthereumJS.Statemanager.BinaryTreeState

/-! # Positions of an account

The leaves of an account as cells with a position each, and what `put` and `get` of the tree do
to them. The positions of a stem are a block of 256.
-/

namespace EthereumJS.BinaryTreeState

open Binarytree RLP

section Assign

variable {entries : List (UInt8 × Option Bytes)} {values : UInt8 → Option Bytes} {s : UInt8}
  {x : Option Bytes}

theorem assign_of_ne (values : UInt8 → Option Bytes) (h : ∀ e ∈ entries, e.1 ≠ s) : assign entries values s = values s := by
  induction entries generalizing values with
  | nil => rfl
  | cons e entries ih =>
    have hne : s ≠ e.1 := fun heq => h e List.mem_cons_self heq.symm
    exact (ih _ fun e' he' => h e' (List.mem_cons_of_mem _ he')).trans
      (Function.update_of_ne hne _ _)

theorem assign_of_mem (hmem : ∃ e ∈ entries, e.1 = s) (hall : ∀ e ∈ entries, e.1 = s → e.2 = x) :
    assign entries values s = x := by
  induction entries generalizing values with
  | nil =>
    obtain ⟨e, he, -⟩ := hmem
    cases he
  | cons e entries ih =>
    have hrest : ∀ e' ∈ entries, e'.1 = s → e'.2 = x := fun e' he' =>
      hall e' (List.mem_cons_of_mem _ he')
    by_cases hlater : ∃ e' ∈ entries, e'.1 = s
    · exact ih hlater hrest
    · have hfirst : e.1 = s := by
        obtain ⟨e', he', hs⟩ := hmem
        obtain rfl | he' := List.mem_cons.mp he'
        · exact hs
        · exact absurd ⟨e', he', hs⟩ hlater
      have hkeep := assign_of_ne (Function.update values e.1 e.2)
        fun e' he' hs => hlater ⟨e', he', hs⟩
      refine hkeep.trans ?_
      rw [← hfirst, Function.update_self]
      exact hall e List.mem_cons_self hfirst

end Assign

section Filled

variable {H : HashKeysFunction} {tree : BinaryTree} {done : List TreeOp} {fuel : Nat}
  {stem : Bytes} {suffixes : List UInt8} {values : List (Option Bytes)} {E : Set Bytes}

/-- A tree after a run of `put` of values. -/
structure Filled (H : HashKeysFunction) (tree : BinaryTree) (done : List TreeOp) : Prop where
  holds : Holds tree (Binarytree.treeAfter H done)
  hash : tree.hashFunction = H
  full : ∀ node ∈ (Binarytree.treeAfter H done).stems, Binarytree.Full node
  value : ∀ key : Bytes, key.length = 31 → (Binarytree.treeAfter H done).value key = Binarytree.mapAfter done key

/-- All that is hashed for the trees of a run is known. -/
def Hashed (H : HashKeysFunction) (E : Set Bytes) (done : List TreeOp) : Prop :=
  ∀ ops, ops <+: done → ∀ msg ∈ (Binarytree.treeAfter H ops).messages H, msg ∈ E

theorem Hashed.before {ops : List TreeOp} (h : Hashed H E done) (hp : ops <+: done) :
    Hashed H E ops := fun ops' hp' => h ops' (hp'.trans hp)

theorem filled_createBinaryTree (H : HashKeysFunction) : Filled H (createBinaryTree H) [] where
  holds := holds_createBinaryTree H
  hash := rfl
  full _ hn := (List.not_mem_nil hn).elim
  value _ _ := rfl

theorem treeAfter_append (done : List TreeOp) (op : TreeOp) :
    Binarytree.treeAfter H (done ++ [op]) = (Binarytree.treeAfter H done).step H op := by
  rw [Binarytree.treeAfter, List.foldl_append]
  rfl

theorem mapAfter_append (done : List TreeOp) (op : TreeOp) :
    Binarytree.mapAfter (done ++ [op]) = op.apply (Binarytree.mapAfter done) := by
  rw [Binarytree.mapAfter, List.foldl_append]
  rfl

/-- A tree with a value is not the empty one. -/
theorem Filled.root_ne (h : Filled H tree done) (hE : NoCollision H E) (hmsg : Hashed H E done)
    {key : Bytes} (hkey : key.length = 31) {i : UInt8} (hvalue : Binarytree.mapAfter done key i ≠ none) :
    tree.root ≠ EMPTY_TREE_ROOT := by
  have hne : Binarytree.treeAfter H done ≠ .nil := by
    intro hnil
    apply hvalue
    rw [← h.value key hkey, hnil, StemTree.value]
    exact Option.bind_none _
  have hnonzero := h.holds.nonzero
  have hroot := h.holds.represents.root_eq
  rw [h.hash] at hnonzero hroot
  rw [hroot, EMPTY_TREE_ROOT]
  exact root_ne_zero hE h.holds.represents.atRoot hne (hmsg done List.prefix_rfl) hnonzero

theorem Filled.put (h : Filled H tree done) (hop : (TreeOp.put stem suffixes values).Valid)
    (hput : none ∉ values) (hfuel : 248 ≤ fuel) (hE : NoCollision H E)
    (hmsg : Hashed H E (done ++ [.put stem suffixes values]))
    (hstart : suffixes ≠ [] ∨ ∃ key : Bytes, key.length = 31 ∧ ∃ i, Binarytree.mapAfter done key i ≠ none) :
    ∃ tree', tree.put fuel stem suffixes values = .ok tree' ∧
      Filled H tree' (done ++ [.put stem suffixes values]) := by
  have hroot : tree.root = EMPTY_TREE_ROOT → suffixes = [] → stem = List.replicate 31 0 := by
    intro hempty hnil
    obtain hne | ⟨key, hkey, i, hvalue⟩ := hstart
    · exact absurd hnil hne
    · have hdone := hmsg.before (List.prefix_append done _)
      exact absurd hempty (h.root_ne hE hdone hkey hvalue)
  have hfull := h.hash ▸ h.holds.full_step h.full hop hput hroot
  have hlinked := h.holds.not_unlinks h.full hop hput hfuel
  have hmessages := hmsg _ List.prefix_rfl
  rw [treeAfter_append] at hmessages
  obtain ⟨tree', hok, hhash, hnext⟩ := h.holds.step hop hfuel hlinked (h.hash.symm ▸ hE)
    (h.hash.symm ▸ hmessages) (h.hash.symm ▸ told_of_full hfull)
  rw [h.hash] at hhash hnext
  refine ⟨tree', hok, ?_⟩
  constructor
  · rw [treeAfter_append]
    exact hnext
  · exact hhash
  · rw [treeAfter_append]
    exact hfull
  · intro key hkey
    rw [treeAfter_append, mapAfter_append, h.holds.value_step hop hfuel hlinked hkey]
    exact TreeOp.apply_congr hop h.value hkey

/-- A stem without values is not in the tree. -/
theorem Filled.get (h : Filled H tree done) (hfuel : 248 ≤ fuel) (hstem : stem.length = 31)
    (suffixes : List UInt8) : ∃ values, tree.get fuel stem suffixes = .ok values ∧
      (values = suffixes.map (Binarytree.mapAfter done stem) ∨
        values = [] ∧ ∀ i, Binarytree.mapAfter done stem i = none) := by
  refine ⟨_, h.holds.represents.get hstem hfuel suffixes, ?_⟩
  rw [← h.value stem hstem]
  unfold StemTree.value
  cases (Binarytree.treeAfter H done).find stem with
  | none => exact .inr ⟨rfl, fun _ => rfl⟩
  | some node => exact .inl rfl

end Filled

section Positions

variable {α : Type} {n j p size : Nat}

/-- The positions of the code chunks under one stem. -/
def chunkPositions (n j : Nat) : List Nat :=
  List.range' (max 128 (256 * j)) (min (128 + n) (256 * j + 256) - max 128 (256 * j))

theorem mem_chunkPositions : p ∈ chunkPositions n j ↔ 128 ≤ p ∧ p < 128 + n ∧ p / 256 = j := by
  rw [chunkPositions, List.mem_range'_1]
  omega

theorem range'_congr {s s' m m' : Nat} (hs : s = s') (hm : m = m') :
    List.range' s m = List.range' s' m' := by
  rw [hs, hm]

theorem map_chunkPositions (f : Nat → α) : (chunkPositions n j).map (fun p => f (p - 128)) =
    (List.range' (max 128 (256 * j) - 128)
      (min (128 + n) (256 * j + 256) - max 128 (256 * j))).map f := by
  rw [chunkPositions, List.range'_eq_map_range, List.range'_eq_map_range, List.map_map, List.map_map]
  refine List.map_congr_left fun i _ => congrArg f ?_
  dsimp only
  omega

theorem firstSlice_eq (f : Nat → α) (h : n ≤ size) : firstSlice size ((List.range n).map f) =
    (chunkPositions n 0).map fun p => f (p - 128) := by
  have hcut : min (if size ≤ 128 then size else 128) n = min (128 + n) 256 - 128 := by
    split <;> omega
  change ((List.range n).map f).take (if size ≤ 128 then size else 128) = _
  rw [map_chunkPositions, ← List.map_take, List.take_range, hcut, List.range_eq_range']
  exact congrArg (List.map f) (range'_congr (by omega) (by omega))

theorem laterSlice_eq (f : Nat → α) (hj : 0 < j) (h : n ≤ size) :
    laterSlice size j ((List.range n).map f) =
      (chunkPositions n j).map fun p => f (p - 128) := by
  have hcut : min (if size ≤ 128 + 256 * j then size else 128 + 256 * j) n =
      min n (128 + 256 * j) := by
    split <;> omega
  change (((List.range n).map f).take
    (if size ≤ 128 + 256 * j then size else 128 + 256 * j)).drop (128 + 256 * (j - 1)) = _
  rw [map_chunkPositions, ← List.map_take, ← List.map_drop, List.take_range, hcut,
    List.range_eq_range', List.drop_range']
  exact congrArg (List.map f) (range'_congr (by omega) (by omega))

/-- The positions of all stems of a code. -/
theorem flatMap_chunkPositions (n m : Nat) (hm : 0 < m) :
    (List.range m).flatMap (chunkPositions n) = List.range' 128 (min n (256 * m - 128)) := by
  induction m with
  | zero => omega
  | succ m ih =>
    rw [List.range_succ, List.flatMap_append, List.flatMap_singleton]
    by_cases hzero : m = 0
    · subst hzero
      rw [List.range_zero, List.flatMap_nil, List.nil_append, chunkPositions]
      exact range'_congr (by omega) (by omega)
    · rw [ih (by omega), chunkPositions]
      by_cases hend : n ≤ 256 * m - 128
      · have hnone : min (128 + n) (256 * m + 256) - max 128 (256 * m) = 0 := by omega
        rw [hnone, List.range'_zero, List.append_nil]
        exact range'_congr rfl (by omega)
      · have hnext : max 128 (256 * m) = 128 + min n (256 * m - 128) := by omega
        rw [hnext, List.range'_append_1]
        exact range'_congr rfl (by omega)

end Positions

section Cells

variable {H : HashKeysFunction} {done : List TreeOp} {E : Set (TreeAddress × Nat)}
  {a b : TreeAddress} {i j q : Nat}

/-- The value at a position of an account. -/
def cell (H : HashKeysFunction) (done : List TreeOp) (address : TreeAddress) (position : Nat) :
    Option Bytes :=
  Binarytree.mapAfter done (stemAt H address (position / 256)) (UInt8.ofNat position)

/-- A `put` of values at positions under one stem. -/
def write (H : HashKeysFunction) (address : TreeAddress) (index : Nat) (positions : List Nat)
    (value : Nat → Option Bytes) : TreeOp :=
  .put (stemAt H address index) (positions.map UInt8.ofNat) (positions.map value)

/-- The truncated hash tells the stems of some accounts and indices apart. -/
structure StemsApart (H : HashKeysFunction) (E : Set (TreeAddress × Nat)) : Prop where
  small : ∀ p ∈ E, p.2 < 256 ^ 32
  inj : Set.InjOn (fun msg => (H.hash msg).take 31) ((fun p => keyMessage p.1 p.2) '' E)

theorem StemsApart.eq (h : StemsApart H E) (ha : (a, i) ∈ E) (hb : (b, j) ∈ E)
    (heq : stemAt H a i = stemAt H b j) : a = b ∧ i = j := by
  have hmsg := h.inj (Set.mem_image_of_mem _ ha) (Set.mem_image_of_mem _ hb) heq
  exact keyMessage_inj (h.small _ ha) (h.small _ hb) hmsg

theorem ofNat_inj {p q : Nat} (hblock : p / 256 = q / 256) (h : UInt8.ofNat p = UInt8.ofNat q) :
    p = q := by
  have hmod := congrArg UInt8.toNat h
  rw [UInt8.toNat_ofNat', UInt8.toNat_ofNat'] at hmod
  omega

theorem ofNat_mod (p : Nat) : UInt8.ofNat (p % 256) = UInt8.ofNat p := by
  apply UInt8.toNat_inj.mp
  rw [UInt8.toNat_ofNat', UInt8.toNat_ofNat']
  omega

/-- Two items never meet in a cell. -/
theorem cell_write (h : StemsApart H E) (ha : (a, j) ∈ E) (hb : (b, q / 256) ∈ E)
    {positions : List Nat} (hpositions : ∀ p ∈ positions, p / 256 = j) (value : Nat → Option Bytes) :
    cell H (done ++ [write H a j positions value]) b q =
      if b = a ∧ q ∈ positions then value q else cell H done b q := by
  rw [cell, mapAfter_append, TreeOp.apply, write]
  dsimp only [TreeOp.stem, TreeOp.suffixes, TreeOp.values]
  rw [Function.update_apply]
  have hzip : (positions.map UInt8.ofNat).zip (positions.map value) =
      positions.map fun p => (UInt8.ofNat p, value p) := by
    rw [List.zip_map']
  by_cases hstem : stemAt H b (q / 256) = stemAt H a j
  · obtain ⟨rfl, hblock⟩ := h.eq hb ha hstem
    rw [if_pos hstem, hzip]
    by_cases hq : q ∈ positions
    · rw [if_pos ⟨rfl, hq⟩]
      refine assign_of_mem ⟨_, List.mem_map_of_mem hq, rfl⟩ fun e he hs => ?_
      obtain ⟨p, hp, rfl⟩ := List.mem_map.mp he
      rw [ofNat_inj ((hpositions p hp).trans hblock.symm) hs]
    · rw [if_neg fun hboth => hq hboth.2, cell, hblock]
      refine assign_of_ne _ fun e he hs => ?_
      obtain ⟨p, hp, rfl⟩ := List.mem_map.mp he
      exact hq (ofNat_inj ((hpositions p hp).trans hblock.symm) hs ▸ hp)
  · rw [if_neg hstem, if_neg, cell]
    rintro ⟨rfl, hq⟩
    exact hstem (by rw [hpositions q hq])

end Cells

end EthereumJS.BinaryTreeState
