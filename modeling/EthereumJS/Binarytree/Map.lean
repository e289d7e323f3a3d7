import EthereumJS.Binarytree.Hashing
import EthereumJS.Mpt.Represents
import Mathlib.Data.List.Induction

/-! # The binary tree as a map

Sequences of `put` and `del`, and the map that `get` reads after them.
-/

namespace EthereumJS.Binarytree

open StemTree

section Lookup

variable {t : StemTree} {node other : StemBinaryNode} {key : Bytes}

theorem mem_stems_set (hnode : node.Valid) (hAt : t.At []) :
    other ∈ (t.set node).stems ↔ other = node ∨ other ∈ t.stems ∧ other.stem ≠ node.stem := by
  have hbits := length_bits hnode.1
  have hplug := plug_descend (keyBits node.stem) t []
  have hstuck := descend_stuck (keyBits node.stem) t []
  unfold StemTree.set StemTree.siblings
  generalize descend (keyBits node.stem) t [] = found at *
  obtain ⟨sibs, u⟩ := found
  change plug (keyBits node.stem) 0 sibs u = t at hplug
  subst hplug
  have hside : ∀ sib ∈ sibs, other ∈ sib.stems → other.stem ≠ node.stem := by
    intro sib hsib hmem heq
    exact keyBits_ne_of_sibling hbits
      (show (plug (keyBits node.stem) 0 sibs u).At ((keyBits node.stem).take 0) from hAt) hsib hmem
      (heq ▸ rfl)
  have hnils : ∀ n, (∃ sib ∈ List.replicate n .nil ++ sibs, other ∈ sib.stems) ↔
      ∃ sib ∈ sibs, other ∈ sib.stems := by
    intro n
    constructor
    · rintro ⟨sib, hsib, hmem⟩
      rcases List.mem_append.mp hsib with hnil | hsib
      · rw [List.eq_of_mem_replicate hnil] at hmem
        cases hmem
      · exact ⟨sib, hsib, hmem⟩
    · rintro ⟨sib, hsib, hmem⟩
      exact ⟨sib, List.mem_append_right _ hsib, hmem⟩
  have hplace : other ∈ (plug (keyBits node.stem) 0 sibs (.stem node)).stems ↔
      other = node ∨ ∃ sib ∈ sibs, other ∈ sib.stems := by
    rw [mem_stems_plug]
    simp [stems]
  cases u with
  | internal left right => cases hstuck
  | nil =>
    dsimp only
    rw [hplace, mem_stems_plug]
    refine or_congr_right ⟨fun h => ⟨.inr h, ?_⟩, fun h => h.1.resolve_left (by simp [stems])⟩
    obtain ⟨sib, hsib, hmem⟩ := h
    exact hside sib hsib hmem
  | stem old =>
    dsimp only
    split
    · rename_i heq
      rw [hplace, mem_stems_plug]
      refine or_congr_right ⟨fun h => ⟨.inr h, ?_⟩, fun h => h.1.resolve_left fun hold => ?_⟩
      · obtain ⟨sib, hsib, hmem⟩ := h
        exact hside sib hsib hmem
      · rw [List.mem_singleton.mp hold] at h
        exact h.2 heq
    · rename_i hne
      rw [mem_stems_plug, mem_stems_plug, List.exists_mem_cons_iff, hnils]
      simp only [stems, List.mem_singleton]
      refine or_congr_right ⟨fun h => ⟨h, ?_⟩, fun h => h.1⟩
      rcases h with rfl | ⟨sib, hsib, hmem⟩
      · exact hne
      · exact hside sib hsib hmem

theorem find_set (hnode : node.Valid) (hAt : t.At []) (hkey : key.length = 31) :
    (t.set node).find key = if key = node.stem then some node else t.find key := by
  apply Option.ext
  intro other
  rw [find_eq_some_iff hkey (at_set hnode hAt), mem_stems_set hnode hAt]
  split
  · rename_i heq
    subst heq
    constructor
    · rintro ⟨rfl | ⟨-, hne⟩, hstem⟩
      · rfl
      · exact absurd hstem hne
    · intro h
      cases h
      exact ⟨.inl rfl, rfl⟩
  · rename_i hne
    rw [find_eq_some_iff hkey hAt]
    constructor
    · rintro ⟨rfl | ⟨hmem, -⟩, hstem⟩
      · exact absurd hstem.symm hne
      · exact ⟨hmem, hstem⟩
    · rintro ⟨hmem, hstem⟩
      exact ⟨.inr ⟨hmem, fun h => hne (hstem.symm.trans h)⟩, hstem⟩

/-- The value of a tree at a stem and a suffix. -/
def StemTree.value (t : StemTree) (key : Bytes) (suffix : UInt8) : Option Bytes :=
  (t.find key).bind fun node => node.getValue suffix

def assign (entries : List (UInt8 × Option Bytes)) (values : UInt8 → Option Bytes) :
    UInt8 → Option Bytes :=
  entries.foldl (fun values e => Function.update values e.1 e.2) values

theorem getValue_setValues (entries : List (UInt8 × Option Bytes)) (hlen : node.values.length = 256) :
    (entries.foldl (fun node e => node.setValue e.1 e.2) node).getValue =
      assign entries node.getValue := by
  induction entries generalizing node with
  | nil => rfl
  | cons e entries ih =>
    have hnext : (node.setValue e.1 e.2).getValue = Function.update node.getValue e.1 e.2 := by
      funext i
      simp only [StemBinaryNode.getValue, StemBinaryNode.setValue, List.getD_eq_getElem?_getD,
        List.getElem?_set, Function.update_apply]
      have hlt := e.1.toNat_lt
      by_cases heq : i = e.1
      · subst heq
        simp [hlen, hlt]
      · rw [if_neg heq, if_neg fun h => heq (UInt8.toNat_inj.mp h).symm]
    rw [List.foldl_cons, ih (List.length_set.trans hlen), hnext]
    rfl

theorem getValue_newNode (hAt : t.At []) (hkey : key.length = 31) (suffixes : List UInt8)
    (values : List (Option Bytes)) :
    (newNode t key suffixes values).getValue =
      assign (suffixes.zip values) (t.value key) := by
  have hold : ((t.find key).getD (.create key)).values.length = 256 ∧
      ((t.find key).getD (.create key)).getValue = t.value key := by
    unfold StemTree.value
    cases hfind : t.find key with
    | none =>
      refine ⟨List.length_replicate, ?_⟩
      funext i
      simp only [StemBinaryNode.getValue, StemBinaryNode.create, Option.getD_none,
        Option.bind_none, List.getD_eq_getElem?_getD, List.getElem?_replicate]
      split <;> rfl
    | some node =>
      exact ⟨(hAt.prefix_of_mem ((find_eq_some_iff hkey hAt).mp hfind).1).1.2.1, rfl⟩
  rw [newNode, BinaryTree.setValues, getValue_setValues _ hold.1, hold.2]

theorem getValue_of_all_none (h : node.values.all Option.isNone) (suffix : UInt8) :
    node.getValue suffix = none := by
  rw [StemBinaryNode.getValue, List.getD_eq_getElem?_getD]
  cases hget : node.values[suffix.toNat]? with
  | none => rfl
  | some value =>
    have hnone := List.all_eq_true.mp h value (List.mem_of_getElem? hget)
    exact Option.isNone_iff_eq_none.mp hnone

end Lookup

inductive TreeOp
  | put (stem : Bytes) (suffixes : List UInt8) (values : List (Option Bytes))
  | del (stem : Bytes) (suffixes : List UInt8)

namespace TreeOp

def stem : TreeOp → Bytes
  | put stem _ _ => stem
  | del stem _ => stem

def suffixes : TreeOp → List UInt8
  | put _ suffixes _ => suffixes
  | del _ suffixes => suffixes

def values : TreeOp → List (Option Bytes)
  | put _ _ values => values
  | del _ suffixes => List.replicate suffixes.length none

def run (fuel : Nat) (tree : BinaryTree) : TreeOp → Except TreeError BinaryTree
  | put stem suffixes values => tree.put fuel stem suffixes values
  | del stem suffixes => tree.del fuel stem suffixes

/-- A stem of 31 bytes, and for each suffix a value of 32 bytes or null. -/
structure Valid (op : TreeOp) : Prop where
  stem : op.stem.length = 31
  values : op.values.length = op.suffixes.length
  short : ∀ value, some value ∈ op.values → value.length = 32

def apply (map : Bytes → UInt8 → Option Bytes) (op : TreeOp) : Bytes → UInt8 → Option Bytes :=
  Function.update map op.stem (assign (op.suffixes.zip op.values) (map op.stem))

theorem run_eq (fuel : Nat) (tree : BinaryTree) (op : TreeOp) :
    op.run fuel tree = tree.put fuel op.stem op.suffixes op.values := by
  cases op <;> rfl

end TreeOp

def runOps (fuel : Nat) (tree : BinaryTree) (ops : List TreeOp) : Except TreeError BinaryTree :=
  ops.foldlM (fun tree op => op.run fuel tree) tree

/-- The values last put and not since set to null. -/
def mapAfter (ops : List TreeOp) : Bytes → UInt8 → Option Bytes :=
  ops.foldl TreeOp.apply fun _ _ => none

/-- The operation leaves a stem that stands beside other ones without values. -/
def BinaryTree.Unlinks (tree : BinaryTree) (fuel : Nat) (op : TreeOp) : Prop :=
  ∃ path node, tree.findPath fuel op.stem = .ok path ∧ path.node = some (.stem node) ∧
    path.stack ≠ [(.stem node, [])] ∧
    (BinaryTree.setValues node op.suffixes op.values).values.all Option.isNone

section Step

variable (H : HashKeysFunction)

/-- What an operation does to the tree of stems. A tree whose root is zero counts as empty. -/
def StemTree.step (t : StemTree) (op : TreeOp) : StemTree :=
  let node := newNode t op.stem op.suffixes op.values
  if node.values.all Option.isNone then
    if t ≠ .nil ∧ t.find op.stem = none then t
    else if stemHash H node = EMPTY_TREE_ROOT then .nil
    else .stem node
  else t.set node

def treeAfter (ops : List TreeOp) : StemTree := ops.foldl (StemTree.step H) .nil

variable {H} {tree : BinaryTree} {t : StemTree} {op : TreeOp} {fuel : Nat} {E : Set Bytes}

/-- What a `BinaryTree` holds, with stems that are told from an empty tree. -/
structure Holds (tree : BinaryTree) (t : StemTree) : Prop where
  represents : Represents tree t
  nonzero : ∀ node ∈ t.stems, stemHash tree.hashFunction node ≠ List.replicate 32 0

theorem stack_ne_of_internal {key : Bytes} {node : StemBinaryNode} (hinternal : t.isInternal)
    (hfind : t.find key = some node) :
    (fullPath H key t).stack ≠ [(.stem node, [])] := by
  cases t with
  | nil => cases hinternal
  | stem node => cases hinternal
  | internal left right =>
    have hne := descend_ne_nil (keyBits key) (.internal left right) [] (.inl rfl)
    unfold StemTree.find at hfind
    unfold fullPath
    dsimp only
    generalize descend (keyBits key) (.internal left right) [] = found at *
    obtain ⟨sibs, u⟩ := found
    cases sibs with
    | nil => exact absurd rfl hne
    | cons sib sibs =>
      cases u with
      | nil => cases hfind
      | internal l r => cases hfind
      | stem other =>
        dsimp only at hfind
        split at hfind
        · rename_i heq
          unfold pathOf
          dsimp only
          rw [if_pos heq, stackOf_cons, nodeOf_branch]
          simp
        · cases hfind

/-- The root stem is written in place. -/
theorem putNode_same (tree : BinaryTree) {root node : StemBinaryNode} (hnode : node.Valid)
    (heq : root.stem = node.stem) (putStack : List (Bytes × Option BinaryNode)) :
    tree.putNode node [(.stem root, [])] putStack =
      .ok ({ tree with root := stemHash tree.hashFunction node }.saveStack
        ((stemHash tree.hashFunction node, some (.stem node)) :: putStack)) := by
  change tree.putParents node [(.stem root, [])] putStack [] = _
  unfold BinaryTree.putParents
  change (BinaryTree.updateRoot _ (.stem root) node putStack [] >>= _) = _
  unfold BinaryTree.updateRoot
  dsimp only
  rw [if_pos heq]
  change (merkelize _ (some (.stem node)) >>= _) = _
  rw [merkelize_stem _ hnode]
  rfl

/-- If a stem without values stands in the tree, then no stem has the hash of an internal node. -/
def StemTree.Told (H : HashKeysFunction) (t : StemTree) : Prop :=
  (∃ node ∈ t.stems, ¬ Full node) →
    ∀ node ∈ t.stems, ∀ x ∈ t.nodes [], x.2.isInternal → stemHash H node ≠ x.2.root H

/-- The node on top of the stack is saved last. -/
theorem saveStack_cons_db (tree : BinaryTree) (key : Bytes) (node : BinaryNode)
    (putStack : List (Bytes × Option BinaryNode)) :
    (tree.saveStack ((key, some node) :: putStack)).db key = some node.serialize := by
  unfold BinaryTree.saveStack
  rw [List.reverse_cons, List.map_append, MapDB.batch_append]
  exact Function.update_self _ _ _

/-- A tree of one stem. -/
theorem holds_stem {tree' : BinaryTree} {node : StemBinaryNode} (hnode : node.Valid)
    (hroot : tree'.root = stemHash tree'.hashFunction node)
    (hdb : tree'.db (stemHash tree'.hashFunction node) = some (BinaryNode.stem node).serialize) :
    Holds tree' (if stemHash tree'.hashFunction node = EMPTY_TREE_ROOT then .nil
      else .stem node) := by
  split
  · rename_i hzero
    exact ⟨⟨hroot.trans hzero, trivial, fun x hx => (List.not_mem_nil hx).elim,
      fun h => absurd rfl h⟩, fun n hn => (List.not_mem_nil hn).elim⟩
  · rename_i hne
    refine ⟨⟨hroot, ⟨hnode, List.nil_prefix⟩, fun x hx => ?_, fun _ => hne⟩, fun n hn => ?_⟩
    · rw [List.mem_singleton.mp hx]
      exact hdb
    · rw [List.mem_singleton.mp hn]
      exact hne

theorem createInitialNode_eq (tree : BinaryTree) {key : Bytes} (hkey : key.length = 31)
    {suffixes : List UInt8} {values : List (Option Bytes)}
    (hvalues : ∀ value, some value ∈ values → value.length = 32) :
    tree.createInitialNode key suffixes values =
      .ok { tree with
        db := tree.db.execute (.put (stemHash tree.hashFunction (newNode .nil key suffixes values))
          (BinaryNode.stem (newNode .nil key suffixes values)).serialize)
        root := stemHash tree.hashFunction (newNode .nil key suffixes values) } := by
  obtain ⟨hvalid, -⟩ := newNode_valid (t := .nil) trivial hkey suffixes hvalues
  unfold BinaryTree.createInitialNode
  change (merkelize _ (some (.stem (newNode .nil key suffixes values))) >>= _) = _
  rw [merkelize_stem _ hvalid]
  rfl

/-- The node is emptied in a tree that has no other stems. -/
theorem Holds.step_emptied (h : Holds tree t) (hop : op.Valid) (hfuel : 248 ≤ fuel)
    (hempty : (newNode t op.stem op.suffixes op.values).values.all Option.isNone)
    (honly : t = .nil ∨ ∃ root, t = .stem root ∧ root.stem = op.stem) :
    ∃ tree', op.run fuel tree = .ok tree' ∧ tree'.hashFunction = tree.hashFunction ∧
      Holds tree' (t.step tree.hashFunction op) := by
  obtain ⟨hvalid, hstem⟩ := newNode_valid h.represents.atRoot hop.stem op.suffixes
    hop.short
  unfold StemTree.step
  dsimp only
  rw [if_pos hempty, TreeOp.run_eq]
  rcases honly with rfl | ⟨root, rfl, heq⟩
  · rw [if_neg (by simp), put_of_valid tree fuel hop.stem hop.values,
      if_pos (show tree.root = EMPTY_TREE_ROOT from h.represents.root_eq),
      createInitialNode_eq tree hop.stem hop.short]
    generalize newNode .nil op.stem op.suffixes op.values = node at *
    exact ⟨_, rfl, rfl, holds_stem hvalid rfl (Function.update_self _ _ _)⟩
  · have hfind : (StemTree.stem root).find op.stem = some root := if_pos heq
    rw [if_neg (by simp [hfind]), h.represents.put_eq (by simp) hop.stem hfuel hop.values hop.short,
      if_pos hempty, hfind]
    generalize newNode (.stem root) op.stem op.suffixes op.values = node at *
    change ∃ tree', tree.putNode node [(.stem root, [])] _ = _ ∧ _
    rw [putNode_same tree hvalid (heq.trans hstem.symm)]
    exact ⟨_, rfl, rfl, holds_stem hvalid rfl (saveStack_cons_db _ _ _ _)⟩

/-- The stem gets its place in the tree. -/
theorem Holds.step_set (h : Holds tree t) (hop : op.Valid) (hfuel : 248 ≤ fuel)
    (hfull : Full (newNode t op.stem op.suffixes op.values))
    (hE : NoCollision tree.hashFunction E)
    (hmsg : ∀ msg ∈ (t.set (newNode t op.stem op.suffixes op.values)).messages tree.hashFunction,
      msg ∈ E)
    (htold : (t.set (newNode t op.stem op.suffixes op.values)).Told tree.hashFunction) :
    ∃ tree', op.run fuel tree = .ok tree' ∧ tree'.hashFunction = tree.hashFunction ∧
      Holds tree' (t.set (newNode t op.stem op.suffixes op.values)) := by
  obtain ⟨hvalid, -⟩ := newNode_valid h.represents.atRoot hop.stem op.suffixes
    hop.short
  have hAt := at_set hvalid h.represents.atRoot
  have hnonzero : ∀ node ∈ (t.set (newNode t op.stem op.suffixes op.values)).stems,
      stemHash tree.hashFunction node ≠ List.replicate 32 0 := by
    intro node hnode
    rcases (mem_stems_set hvalid h.represents.atRoot).mp hnode with rfl | ⟨hold, -⟩
    · exact hfull.stemHash_ne_zero hE hvalid (messages_of_mem hAt hnode hmsg)
    · exact h.nonzero node hold
  have hapart : Apart tree.hashFunction (t.set (newNode t op.stem op.suffixes op.values)) := by
    by_cases hall : ∀ node ∈ (t.set (newNode t op.stem op.suffixes op.values)).stems, Full node
    · exact apart_of_full hE hAt hmsg hall
    · refine ⟨htold ?_, hnonzero⟩
      simpa using hall
  obtain ⟨tree', hok, hhash, hrep⟩ := h.represents.put hop.stem hfuel hop.values hop.short
    (fun _ => hfull) (distinct_of_apart hE hAt hmsg hapart)
  exact ⟨tree', (TreeOp.run_eq _ _ _).trans hok, hhash, ⟨hrep, hhash ▸ hnonzero⟩⟩

/-- When an emptied stem is in the tree, then it is alone there. -/
theorem Holds.alone (h : Holds tree t) (hop : op.Valid) (hfuel : 248 ≤ fuel)
    (hlinked : ¬ tree.Unlinks fuel op)
    (hempty : (newNode t op.stem op.suffixes op.values).values.all Option.isNone)
    {node : StemBinaryNode} (hfind : t.find op.stem = some node) : t = .stem node := by
  obtain ⟨hmem, hstem⟩ := (find_eq_some_iff hop.stem h.represents.atRoot).mp hfind
  cases t with
  | nil => cases hmem
  | stem root => rw [List.mem_singleton.mp hmem]
  | internal left right =>
    refine absurd ⟨_, node, h.represents.findPath hop.stem hfuel, ?_,
      stack_ne_of_internal rfl hfind, ?_⟩ hlinked
    · rw [fullPath_node, hfind]
      rfl
    · rw [newNode, hfind] at hempty
      exact hempty

theorem Holds.step (h : Holds tree t) (hop : op.Valid) (hfuel : 248 ≤ fuel)
    (hlinked : ¬ tree.Unlinks fuel op) (hE : NoCollision tree.hashFunction E)
    (hmsg : ∀ msg ∈ (t.step tree.hashFunction op).messages tree.hashFunction, msg ∈ E)
    (htold : (t.step tree.hashFunction op).Told tree.hashFunction) :
    ∃ tree', op.run fuel tree = .ok tree' ∧ tree'.hashFunction = tree.hashFunction ∧
      Holds tree' (t.step tree.hashFunction op) := by
  by_cases hempty : (newNode t op.stem op.suffixes op.values).values.all Option.isNone
  · by_cases hkeep : t ≠ .nil ∧ t.find op.stem = none
    · refine ⟨tree, ?_, rfl, ?_⟩
      · rw [TreeOp.run_eq, h.represents.put_eq hkeep.1 hop.stem hfuel hop.values hop.short,
          if_pos hempty, hkeep.2]
      · unfold StemTree.step
        dsimp only
        rw [if_pos hempty, if_pos hkeep]
        exact h
    · refine h.step_emptied hop hfuel hempty ?_
      cases hfind : t.find op.stem with
      | none => exact .inl (by_contra fun hnil => hkeep ⟨hnil, hfind⟩)
      | some node => exact .inr ⟨node, h.alone hop hfuel hlinked hempty hfind,
          ((find_eq_some_iff hop.stem h.represents.atRoot).mp hfind).2⟩
  · have hstep : t.step tree.hashFunction op =
        t.set (newNode t op.stem op.suffixes op.values) := if_neg hempty
    rw [hstep] at hmsg htold ⊢
    exact h.step_set hop hfuel hempty hE hmsg htold

/-- The values after an operation. -/
theorem Holds.value_step (h : Holds tree t) (hop : op.Valid) (hfuel : 248 ≤ fuel)
    (hlinked : ¬ tree.Unlinks fuel op) {key : Bytes} (hkey : key.length = 31) :
    (t.step H op).value key = op.apply t.value key := by
  have hAt := h.represents.atRoot
  obtain ⟨hvalid, hstem⟩ := newNode_valid hAt hop.stem op.suffixes hop.short
  have hnew := getValue_newNode hAt hop.stem op.suffixes op.values
  have happly : op.apply t.value key =
      if key = op.stem then (newNode t op.stem op.suffixes op.values).getValue
      else t.value key := by
    rw [hnew]
    exact Function.update_apply _ _ _ _
  have hnone : ∀ {u : StemTree}, u.find key = none → u.value key = fun _ => none := by
    intro u hu
    unfold StemTree.value
    rw [hu]
    rfl
  rw [happly]
  unfold StemTree.step
  dsimp only
  by_cases hempty : (newNode t op.stem op.suffixes op.values).values.all Option.isNone
  · have hgone : (newNode t op.stem op.suffixes op.values).getValue = fun _ => none :=
      funext (getValue_of_all_none hempty)
    rw [if_pos hempty, hgone]
    by_cases hkeep : t ≠ .nil ∧ t.find op.stem = none
    · rw [if_pos hkeep]
      split
      · rename_i heq
        exact hnone (heq ▸ hkeep.2)
      · rfl
    · -- no other stem is left
      have hother : key ≠ op.stem → t.value key = fun _ => none := by
        intro hne
        refine hnone ?_
        cases hfind : t.find op.stem with
        | none =>
          have hnil : t = .nil := by_contra fun hnil => hkeep ⟨hnil, hfind⟩
          rw [hnil]
          rfl
        | some node =>
          have hstem := ((find_eq_some_iff hop.stem hAt).mp hfind).2
          rw [h.alone hop hfuel hlinked hempty hfind]
          exact if_neg fun heq => hne (heq.symm.trans hstem)
      have hafter : (if stemHash H (newNode t op.stem op.suffixes op.values) = EMPTY_TREE_ROOT
          then StemTree.nil
          else .stem (newNode t op.stem op.suffixes op.values)).value key = fun _ => none := by
        split
        · rfl
        · funext i
          unfold StemTree.value StemTree.find
          dsimp only [descend]
          split
          · exact getValue_of_all_none hempty i
          · rfl
      rw [if_neg hkeep, hafter]
      split
      · rfl
      · rename_i hne
        exact (hother hne).symm
  · rw [if_neg hempty]
    unfold StemTree.value
    rw [find_set hvalid hAt hkey, hstem]
    split <;> rfl

end Step

section Run

variable {H : HashKeysFunction} {tree : BinaryTree} {t : StemTree} {ops : List TreeOp} {fuel : Nat}

/-- No operation of a run leaves a stem that stands beside other ones without values. -/
def BinaryTree.StaysLinked (fuel : Nat) : BinaryTree → List TreeOp → Prop
  | _, [] => True
  | tree, op :: ops =>
    ¬ tree.Unlinks fuel op ∧ ∀ tree', op.run fuel tree = .ok tree' → tree'.StaysLinked fuel ops

theorem TreeOp.apply_congr {op : TreeOp} (hop : op.Valid) {map map' : Bytes → UInt8 → Option Bytes}
    (h : ∀ key : Bytes, key.length = 31 → map key = map' key) {key : Bytes}
    (hkey : key.length = 31) : op.apply map key = op.apply map' key := by
  unfold TreeOp.apply
  rw [Function.update_apply, Function.update_apply, h _ hop.stem, h key hkey]

theorem foldl_apply_congr (hops : ∀ op ∈ ops, op.Valid) {map map' : Bytes → UInt8 → Option Bytes}
    (h : ∀ key : Bytes, key.length = 31 → map key = map' key) {key : Bytes}
    (hkey : key.length = 31) : ops.foldl TreeOp.apply map key = ops.foldl TreeOp.apply map' key := by
  induction ops generalizing map map' with
  | nil => exact h key hkey
  | cons op ops ih =>
    exact ih (fun o ho => hops o (List.mem_cons_of_mem _ ho))
      fun k hk => TreeOp.apply_congr (hops op List.mem_cons_self) h hk

theorem Holds.run (h : Holds tree t) (hops : ∀ op ∈ ops, op.Valid) (hfuel : 248 ≤ fuel)
    (hlinked : tree.StaysLinked fuel ops) {E : Set Bytes} (hE : NoCollision tree.hashFunction E)
    (hmsg : ∀ ops', ops' <+: ops → ∀ msg ∈ (ops'.foldl (StemTree.step tree.hashFunction) t).messages
      tree.hashFunction, msg ∈ E)
    (htold : ∀ ops', ops' <+: ops →
      (ops'.foldl (StemTree.step tree.hashFunction) t).Told tree.hashFunction) :
    ∃ tree', runOps fuel tree ops = .ok tree' ∧ tree'.hashFunction = tree.hashFunction ∧
      Holds tree' (ops.foldl (StemTree.step tree.hashFunction) t) ∧
      ∀ key : Bytes, key.length = 31 →
        (ops.foldl (StemTree.step tree.hashFunction) t).value key =
          ops.foldl TreeOp.apply t.value key := by
  induction ops generalizing tree t with
  | nil => exact ⟨tree, rfl, rfl, h, fun _ _ => rfl⟩
  | cons op ops ih =>
    have hop := hops op List.mem_cons_self
    have hfirst : [op] <+: op :: ops := List.prefix_append [op] ops
    obtain ⟨tree', hok, hhash, hnext⟩ := h.step hop hfuel hlinked.1 hE
      (hmsg [op] hfirst) (htold [op] hfirst)
    have hlater : ∀ ops', ops' <+: ops → op :: ops' <+: op :: ops := fun ops' hp =>
      List.cons_prefix_cons.mpr ⟨rfl, hp⟩
    have hrest := ih (t := t.step tree.hashFunction op) hnext
      (fun o ho => hops o (List.mem_cons_of_mem _ ho)) (hlinked.2 tree' hok)
      (hhash ▸ hE)
    rw [hhash] at hrest
    obtain ⟨final, hrun, hsame, hholds, hvalue⟩ := hrest (fun ops' hp => hmsg _ (hlater ops' hp))
      fun ops' hp => htold _ (hlater ops' hp)
    refine ⟨final, ?_, hsame, hholds, fun key hkey => (hvalue key hkey).trans ?_⟩
    · unfold runOps at hrun ⊢
      rw [List.foldlM_cons, hok]
      exact hrun
    · rw [List.foldl_cons]
      exact foldl_apply_congr (fun o ho => hops o (List.mem_cons_of_mem _ ho))
        (fun k hk => h.value_step hop hfuel hlinked.1 hk) hkey

theorem holds_createBinaryTree (H : HashKeysFunction) : Holds (createBinaryTree H) .nil :=
  ⟨⟨rfl, trivial, fun _ hx => (List.not_mem_nil hx).elim, fun h => absurd rfl h⟩,
    fun _ hn => (List.not_mem_nil hn).elim⟩

theorem Holds.get (h : Holds tree t) (hfuel : 248 ≤ fuel) {stem : Bytes} (hstem : stem.length = 31)
    (i : UInt8) :
    ∃ values, tree.get fuel stem [i] = .ok values ∧ values.head?.join = t.value stem i := by
  refine ⟨_, h.represents.get hstem hfuel [i], ?_⟩
  unfold StemTree.value
  cases t.find stem <;> rfl

/-- Everything that is hashed for the trees of a run. -/
def runMessages (H : HashKeysFunction) (ops : List TreeOp) : Set Bytes :=
  {msg | ∃ ops', ops' <+: ops ∧ msg ∈ (treeAfter H ops').messages H}

/-- `get` after any sequence of `put` and `del` on a fresh tree. -/
theorem get_eq_mapAfter (H : HashKeysFunction) (ops : List TreeOp) (hops : ∀ op ∈ ops, op.Valid)
    (hfuel : 248 ≤ fuel) (hE : NoCollision H (runMessages H ops))
    (hlinked : (createBinaryTree H).StaysLinked fuel ops)
    (htold : ∀ ops', ops' <+: ops → (treeAfter H ops').Told H) :
    ∃ tree, runOps fuel (createBinaryTree H) ops = .ok tree ∧
      ∀ (stem : Bytes) (i : UInt8), stem.length = 31 →
        ∃ values, tree.get fuel stem [i] = .ok values ∧
          values.head?.join = mapAfter ops stem i := by
  obtain ⟨tree, hrun, -, hholds, hvalue⟩ := (holds_createBinaryTree H).run hops hfuel hlinked hE
    (fun ops' hp msg hm => ⟨ops', hp, hm⟩) htold
  refine ⟨tree, hrun, fun stem i hstem => ?_⟩
  obtain ⟨values, hget, hread⟩ := hholds.get hfuel hstem i
  refine ⟨values, hget, hread.trans ?_⟩
  rw [hvalue stem hstem]
  exact congrFun (foldl_apply_congr hops
    (fun _ _ => (rfl : StemTree.nil.value _ = fun _ => none)) hstem) i

end Run

section Samples

variable {H : HashKeysFunction}

theorem at_step {t : StemTree} {op : TreeOp} (hAt : t.At []) (hop : op.Valid) :
    (t.step H op).At [] := by
  obtain ⟨hvalid, -⟩ := newNode_valid hAt hop.stem op.suffixes hop.short
  rw [StemTree.step]
  split
  · split
    · exact hAt
    · split
      · trivial
      · exact ⟨hvalid, List.nil_prefix⟩
  · exact at_set hvalid hAt

theorem at_treeAfter {ops : List TreeOp} (hops : ∀ op ∈ ops, op.Valid) :
    (treeAfter H ops).At [] := by
  induction ops using List.reverseRecOn with
  | nil => trivial
  | append_singleton ops op ih =>
    rw [treeAfter, List.foldl_append]
    refine at_step (ih fun o ho => hops o (List.mem_append_left _ ho)) ?_
    exact hops op (List.mem_append_right _ List.mem_cons_self)

theorem noCollision_of_nodup {ops : List TreeOp} (hops : ∀ op ∈ ops, op.Valid)
    (h : ((zeroMessage :: ops.inits.flatMap fun ops' =>
      (treeAfter H ops').sparseMessages H).dedup.map (digest H)).Nodup) :
    NoCollision H (runMessages H ops) := by
  have hmem : ∀ msg ∈ insert zeroMessage (runMessages H ops), msg ∈
      (zeroMessage :: ops.inits.flatMap fun ops' => (treeAfter H ops').sparseMessages H).dedup := by
    intro msg hmsg
    rw [List.mem_dedup, List.mem_cons, List.mem_flatMap]
    obtain rfl | ⟨ops', hp, hm⟩ := hmsg
    · exact .inl rfl
    · have hAt := at_treeAfter (H := H) fun op hop => hops op (hp.subset hop)
      refine ((StemTree.sparse_of_at hAt).2 msg hm).imp_right fun hsparse => ?_
      exact ⟨ops', (List.mem_inits _ _).mpr hp, hsparse⟩
  exact fun a ha b hb heq => List.inj_on_of_nodup_map h (hmem a ha) (hmem b hb) heq

theorem told_of_not_internal {t : StemTree} (h : t.isInternal = false) :
    t.Told H := by
  intro _ node _ x hx hint
  cases t with
  | nil => cases hx
  | stem other =>
    rw [List.mem_singleton.mp hx] at hint
    cases hint
  | internal left right => cases h

def sampleStem : Bytes := List.replicate 31 1

def sampleValue : Bytes := List.replicate 32 7

theorem valid_put_sample {stem : Bytes} (hstem : stem.length = 31) :
    (TreeOp.put stem [0] [some sampleValue]).Valid :=
  ⟨hstem, rfl, fun _ h => by cases List.mem_singleton.mp h; rfl⟩

theorem valid_del_sample {stem : Bytes} (hstem : stem.length = 31) :
    (TreeOp.del stem [0]).Valid :=
  ⟨hstem, rfl, fun _ h => by cases List.mem_singleton.mp h⟩

/-- The only stem is written and emptied. -/
theorem get_eq_mapAfter_sample :
    ∃ tree, runOps 248 (createBinaryTree polynomialHash)
        [.put sampleStem [0] [some sampleValue], .del sampleStem [0]] = .ok tree ∧
      ∀ (stem : Bytes) (i : UInt8), stem.length = 31 →
        ∃ values, tree.get 248 stem [i] = .ok values ∧ values.head?.join =
          mapAfter [.put sampleStem [0] [some sampleValue], .del sampleStem [0]] stem i := by
  have hroot : (TreeOp.run 248 (createBinaryTree polynomialHash)
      (.put sampleStem [0] [some sampleValue]) >>= fun tree =>
        (tree.findPath 248 sampleStem).map fun path =>
          decide (path.stack = path.node.toList.map fun node => (node, []))).toOption =
      some true := by
    decide +kernel
  have hops : ∀ op ∈ [TreeOp.put sampleStem [0] [some sampleValue], .del sampleStem [0]],
      op.Valid := by
    intro op hop
    obtain rfl | rfl := List.mem_pair.mp hop
    · exact valid_put_sample rfl
    · exact valid_del_sample rfl
  refine get_eq_mapAfter polynomialHash _ hops le_rfl
    (noCollision_of_nodup hops (by decide +kernel)) ⟨?_, fun tree hok => ⟨?_, fun _ _ => trivial⟩⟩
    fun ops' hp => told_of_not_internal ?_
  · rintro ⟨path, node, hpath, hnode, -⟩
    cases hpath
    cases hnode
  · rintro ⟨path, node, hpath, hnode, hne, -⟩
    rw [hok] at hroot
    change ((tree.findPath 248 sampleStem).map _).toOption = _ at hroot
    rw [show tree.findPath 248 sampleStem = .ok path from hpath] at hroot
    have hstack := of_decide_eq_true (Option.some.inj hroot)
    rw [hnode] at hstack
    exact hne hstack
  · have hall : ∀ ops' ∈ [TreeOp.put sampleStem [0] [some sampleValue],
        .del sampleStem [0]].inits, (treeAfter polynomialHash ops').isInternal = false := by
      decide +kernel
    exact hall ops' ((List.mem_inits _ _).mpr hp)

/-- A stem that parts from another one at the root is emptied, and keeps its value. -/
theorem not_get_eq_mapAfter : ∃ (ops : List TreeOp) (stem : Bytes), (∀ op ∈ ops, op.Valid) ∧
    NoCollision polynomialHash (runMessages polynomialHash ops) ∧ stem.length = 31 ∧
    (runOps 248 (createBinaryTree polynomialHash) ops >>= fun tree =>
      tree.get 248 stem [0]).toOption = some [some sampleValue] ∧ mapAfter ops stem 0 = none := by
  have hops : ∀ op ∈ [TreeOp.put sampleStem [0] [some sampleValue],
      .put (List.replicate 31 200) [0] [some sampleValue], .del sampleStem [0]], op.Valid := by
    intro op hop
    simp only [List.mem_cons, List.not_mem_nil, or_false] at hop
    obtain rfl | rfl | rfl := hop
    · exact valid_put_sample rfl
    · exact valid_put_sample rfl
    · exact valid_del_sample rfl
  exact ⟨_, sampleStem, hops, noCollision_of_nodup hops (by decide +kernel), rfl,
    by decide +kernel, by decide +kernel⟩

end Samples

end EthereumJS.Binarytree
