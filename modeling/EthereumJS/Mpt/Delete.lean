import EthereumJS.Mpt.Insert

/-! # The removal from a stored trie

`_deleteNode` takes a leaf off the branch above it, or keeps a branch as it is, and
then merges a branch with one child into its surroundings. The tree-side function
`delete` does the same, including what this does to the value of a branch.
-/

namespace EthereumJS

open RLP Patricia Patricia.Tree

/-- The slots of a branch that hold a child. -/
def childSlots (c : Nibble → MPTree) : List Nibble :=
  (List.finRange 16).filter fun a => !(c a).isNil

theorem mem_childSlots {c : Nibble → MPTree} {a : Nibble} : a ∈ childSlots c ↔ c a ≠ nil := by
  simp [childSlots]

theorem only_of_childSlots {c : Nibble → MPTree} {a : Nibble} (h : childSlots c = [a]) :
    Only c a := by
  refine ⟨mem_childSlots.mp (by simp [h]), fun b hb => ?_⟩
  by_contra hcb
  have := mem_childSlots.mpr hcb
  rw [h] at this
  exact hb (List.mem_singleton.mp this)

theorem childSlots_of_only {c : Nibble → MPTree} {a : Nibble} (h : Only c a) :
    childSlots c = [a] := by
  have hnodup : (childSlots c).Nodup := (List.nodup_finRange 16).filter _
  have hall : ∀ b ∈ childSlots c, b = a := by
    intro b hb
    by_contra hne
    exact mem_childSlots.mp hb (h.2 b hne)
  have hmem : a ∈ childSlots c := mem_childSlots.mpr h.1
  cases hslots : childSlots c with
  | nil => simp [hslots] at hmem
  | cons b slots =>
    rw [hslots] at hnodup hall
    obtain rfl : b = a := hall b (by simp)
    cases slots with
    | nil => rfl
    | cons d slots =>
      obtain rfl : d = b := hall d (by simp)
      simp at hnodup

/-- The context and the subtree that take the place of a branch with one child. -/
def graftSite : List (Frame Nibble Value) → Nibble → MPTree → List (Frame Nibble Value) × MPTree
  | .ext p :: ctx, a, branch c v => (.ext (p ++ [a]) :: ctx, branch c v)
  | .ext p :: ctx, a, s => (ctx, prepend (p ++ [a]) s)
  | ctx, a, branch c v => (.ext [a] :: ctx, branch c v)
  | ctx, a, s => (ctx, prepend [a] s)

theorem plug_graftSite (ctx : List (Frame Nibble Value)) (a : Nibble) (s : MPTree) :
    plug (graftSite ctx a s).1 (graftSite ctx a s).2 = graft ctx a s := by
  cases ctx with
  | nil => cases s <;> rfl
  | cons f ctx => cases f <;> cases s <;> rfl

def shrinkSite (ctx : List (Frame Nibble Value)) (c : Nibble → MPTree) (w : Option Value) :
    List (Frame Nibble Value) × MPTree :=
  match childSlots c with
  | [a] => graftSite ctx a (c a)
  | _ => (ctx, branch c w)

/-- A branch after a removal, merged with its surroundings if one child is left. -/
def shrink (ctx : List (Frame Nibble Value)) (c : Nibble → MPTree) (w : Option Value) : MPTree :=
  plug (shrinkSite ctx c w).1 (shrinkSite ctx c w).2

theorem shrink_of_only {ctx : List (Frame Nibble Value)} {c : Nibble → MPTree} {a : Nibble}
    (h : Only c a) (w : Option Value) : shrink ctx c w = graft ctx a (c a) := by
  rw [shrink, shrinkSite, childSlots_of_only h]
  exact plug_graftSite ctx a (c a)

theorem shrinkSite_of_not_only {ctx : List (Frame Nibble Value)} {c : Nibble → MPTree}
    (h : ∀ a, ¬ Only c a) (w : Option Value) : shrinkSite ctx c w = (ctx, branch c w) := by
  unfold shrinkSite
  split
  · rename_i a ha
    exact absurd (only_of_childSlots ha) (h a)
  · rfl

theorem shrink_of_not_only {ctx : List (Frame Nibble Value)} {c : Nibble → MPTree}
    (h : ∀ a, ¬ Only c a) (w : Option Value) : shrink ctx c w = plug ctx (branch c w) := by
  rw [shrink, shrinkSite_of_not_only h]

/-- The walk ended at a node of its own: a leaf with the rest of the key, or a branch
at the end of it, with or without a value. -/
def found (site : Site Nibble Value) : Bool :=
  match site.focus with
  | leaf p _ => site.rest = p
  | branch _ _ => true
  | _ => false

/-- A branch in its context. -/
structure Remnant where
  ctx : List (Frame Nibble Value)
  children : Nibble → MPTree
  value : Option Value

/-- The branch that is left when the node at a site goes: the one above a leaf without
that leaf, or the branch itself below other nodes. -/
def remnant (site : Site Nibble Value) : Option Remnant :=
  match site.focus, site.ctx with
  | leaf _ _, .branch c a w :: ctx => some ⟨ctx, Function.update c a nil, w⟩
  | branch c w, f :: ctx => some ⟨f :: ctx, c, w⟩
  | _, _ => none

/-- What `_deleteNode` makes of the tree. -/
def deleteAt (t : MPTree) (site : Site Nibble Value) : MPTree :=
  if found site then
    match remnant site with
    | some r => shrink r.ctx r.children r.value
    | none => nil
  else t

def delete (t : MPTree) (k : Nibbles) : MPTree := deleteAt t (descend t k [])

theorem found_iff (H : HashKeysFunction) (site : Site Nibble Value) :
    (pathAt H site).node = if found site then some (nodeOf H site.focus) else none := by
  obtain ⟨ctx, focus, rest⟩ := site
  cases focus with
  | nil =>
    cases ctx with
    | nil => rfl
    | cons f ctx => cases f <;> rfl
  | leaf p w =>
    by_cases hp : rest = p
    · simp [pathAt, found, hp]
    · simp [pathAt, found, hp]
  | ext p c => rfl
  | branch c w => rfl

namespace MerklePatriciaTrie

variable (trie : MerklePatriciaTrie)

theorem getChildren_nodeOf (c : Nibble → MPTree) (w : Option Value) :
    (nodeOf trie.hashing (branch c w)).getChildren =
      (childSlots c).map fun a => (a, refTree trie.hashing (c a)) := by
  simp only [nodeOf, MPTNode.getChildren, childSlots]
  induction List.finRange 16 with
  | nil => rfl
  | cons a slots ih =>
    by_cases h : c a = nil
    · simp [h, ih]
    · simp [isNil_eq_false.mpr h, nonEmpty_refTree _ h, ih]

theorem collapse_spec {s : MPTree} (hs : s ≠ nil) (a : Nibble) (ctx : List (Frame Nibble Value))
    (s' : MPTree) :
    ∃ nodes, collapseBranchWithOneChild (ctxPath ctx) a (nodeOf trie.hashing s)
        ((spine ctx s').map (nodeOf trie.hashing)) =
      .ok (ctxPath (graftSite ctx a s).1 ++ (graftSite ctx a s).2.path,
        nodeOf trie.hashing (graftSite ctx a s).2 :: nodes) ∧
      List.Forall₂ (Fits trie.hashing) (graftSite ctx a s).1 nodes := by
  cases ctx with
  | nil =>
    cases s with
    | nil => exact absurd rfl hs
    | leaf q v => exact ⟨[], rfl, .nil⟩
    | ext q c => exact ⟨[], rfl, .nil⟩
    | branch c v => exact ⟨_, rfl, .cons (fits_ext _ _ _) .nil⟩
  | cons f ctx =>
    have hspine := fits_spine trie.hashing ctx (f.fill s')
    cases f with
    | ext p =>
      cases s with
      | nil => exact absurd rfl hs
      | leaf q v =>
        refine ⟨_, ?_, hspine⟩
        simp [collapseBranchWithOneChild, nodeOf, Frame.fill, MPTNode.isBranch, MPTNode.key,
          MPTNode.setKey, graftSite, prepend, Tree.path, Frame.path]
      | ext q c =>
        refine ⟨_, ?_, hspine⟩
        simp [collapseBranchWithOneChild, nodeOf, Frame.fill, MPTNode.isBranch, MPTNode.key,
          MPTNode.setKey, graftSite, prepend, Tree.path, Frame.path]
      | branch c v =>
        refine ⟨_, ?_, .cons (fits_ext _ _ (refTree trie.hashing s')) hspine⟩
        simp [collapseBranchWithOneChild, nodeOf, Frame.fill, MPTNode.isBranch, graftSite,
          Tree.path, Frame.path]
    | branch d b w =>
      have hfits := List.Forall₂.cons (fits_fill trie.hashing (.branch d b w) s') hspine
      cases s with
      | nil => exact absurd rfl hs
      | leaf q v =>
        refine ⟨_, ?_, hfits⟩
        simp [collapseBranchWithOneChild, nodeOf, Frame.fill, MPTNode.isBranch, MPTNode.key,
          MPTNode.setKey, graftSite, prepend, Tree.path]
      | ext q c =>
        refine ⟨_, ?_, hfits⟩
        simp [collapseBranchWithOneChild, nodeOf, Frame.fill, MPTNode.isBranch, MPTNode.key,
          MPTNode.setKey, graftSite, prepend, Tree.path]
      | branch c v =>
        refine ⟨_, ?_, .cons (fits_ext _ _ (.bytes [])) hfits⟩
        simp [collapseBranchWithOneChild, nodeOf, Frame.fill, MPTNode.isBranch, graftSite,
          Tree.path, Frame.path]

theorem graftSite_ne_nil (ctx : List (Frame Nibble Value)) (a : Nibble) {s : MPTree}
    (hs : s ≠ nil) : (graftSite ctx a s).2 ≠ nil := by
  cases s with
  | nil => exact absurd rfl hs
  | leaf q v => cases ctx with
    | nil => simp [graftSite, prepend]
    | cons f ctx => cases f <;> simp [graftSite, prepend]
  | ext q c => cases ctx with
    | nil => simp [graftSite, prepend]
    | cons f ctx => cases f <;> simp [graftSite, prepend]
  | branch c v => cases ctx with
    | nil => simp [graftSite]
    | cons f ctx => cases f <;> simp [graftSite]

theorem hashToDelete_refTree {t : MPTree} (ht : t ≠ nil) :
    trie.hashToDelete (refTree trie.hashing t) = rootHash trie.hashing t := by
  by_cases hlen : 32 ≤ (encodeTree trie.hashing t).length
  · rw [refTree_of_long _ hlen, hashToDelete]
  · obtain ⟨items, hitems⟩ := rawTree_eq_list trie.hashing ht
    rw [refTree_of_short _ hlen, hitems, hashToDelete, rootHash, encodeTree, hitems]
    rfl

/-- The deletion of the entry of a child that moves up; a pruning trie alone does it. -/
def mergeOps (c : Nibble → MPTree) : List BatchDBOp :=
  match childSlots c with
  | [a] => if trie.opts.useNodePruning then [.del (rootHash trie.hashing (c a))] else []
  | _ => []

/-- The end of `_deleteNode` saves the shrunk tree. -/
theorem saveShrunk_spec (ctx : List (Frame Nibble Value)) (c : Nibble → MPTree) (w : Option Value)
    (s' : MPTree) (opStack : List BatchDBOp)
    (hchild : ∀ a, Only c a →
      trie.lookupNode (refTree trie.hashing (c a)) = .ok (nodeOf trie.hashing (c a))) :
    trie.saveShrunk (ctxPath ctx) (nodeOf trie.hashing (branch c w))
        ((spine ctx s').map (nodeOf trie.hashing)) opStack =
      .ok ⟨rootHash trie.hashing (shrink ctx c w), opStack ++ trie.mergeOps c ++
        savedOps trie.hashing (shrinkSite ctx c w).1 (shrinkSite ctx c w).2⟩ := by
  unfold saveShrunk shrink shrinkSite mergeOps
  rw [getChildren_nodeOf]
  split
  · rename_i branchNodeKey branchNode hchildren
    obtain ⟨a, hslots, rfl, rfl⟩ : ∃ a, childSlots c = [a] ∧ a = branchNodeKey ∧
        refTree trie.hashing (c a) = branchNode := by
      cases h : childSlots c with
      | nil => simp [h] at hchildren
      | cons a slots =>
        cases slots with
        | nil => exact ⟨a, rfl, by simpa [h] using hchildren⟩
        | cons b slots => simp [h] at hchildren
    have honly : Only c a := only_of_childSlots hslots
    obtain ⟨nodes, hcollapse, hfits⟩ := trie.collapse_spec honly.1 a ctx s'
    have hsave := trie.saveStack_fits hfits (graftSite_ne_nil ctx a honly.1) rfl
    simp only [hslots, hchild a honly, hcollapse, trie.hashToDelete_refTree honly.1, bind,
      Except.bind, hsave]
  · rename_i hslots
    have hsave := trie.saveStack_fits (fits_spine trie.hashing ctx s') (s := branch c w) (by simp)
      (k := ctxPath ctx) (by simp [Tree.path]) opStack
    cases h : childSlots c with
    | nil => simp [hsave]
    | cons a slots =>
      cases slots with
      | nil => exact absurd (by rw [h]; rfl) (hslots a (refTree trie.hashing (c a)))
      | cons b slots => simp [hsave]

/-- Without the one child that is left, nothing is written. -/
theorem saveShrunk_missing (path : Nibbles) (c : Nibble → MPTree) (w : Option Value)
    (stack : List MPTNode) (opStack : List BatchDBOp) {a : Nibble} (honly : Only c a)
    (hchild : trie.lookupNode (refTree trie.hashing (c a)) = .error .missingNode) :
    trie.saveShrunk path (nodeOf trie.hashing (branch c w)) stack opStack =
      .error .missingNode := by
  unfold saveShrunk
  rw [getChildren_nodeOf, childSlots_of_only honly]
  simp only [List.map_cons, List.map_nil, hchild]
  rfl

/-- The deletion of the entry of a leaf that is removed. -/
def leafOps : MPTree → List BatchDBOp
  | leaf p w => trie.dropOps (leaf p w)
  | _ => []

/-- `_deleteNode` shrinks the branch that is left. -/
theorem deleteNode_pathAt {site : Site Nibble Value} (hstuck : site.Stuck)
    (hfound : found site = true) (hneed : NeedsBranch site.ctx → site.focus.IsBranch)
    {key : Bytes} (hkey : bytesToNibbles key = ctxPath site.ctx ++ site.rest) :
    match remnant site with
    | none => trie.deleteNode key (pathAt trie.hashing site).stack =
        .ok ⟨trie.emptyTrieRoot, []⟩
    | some r => ∃ s', trie.deleteNode key (pathAt trie.hashing site).stack =
        trie.saveShrunk (ctxPath r.ctx) (nodeOf trie.hashing (branch r.children r.value))
          ((spine r.ctx s').map (nodeOf trie.hashing)) (trie.leafOps site.focus) := by
  obtain ⟨ctx, focus, rest⟩ := site
  simp only at hkey hneed
  cases focus with
  | nil => cases hfound
  | ext p c => cases hfound
  | branch c w =>
    obtain rfl : rest = [] := hstuck
    cases ctx with
    | nil => rfl
    | cons f ctx =>
      refine ⟨branch c w, ?_⟩
      simp only [pathAt, spine_cons, List.map_cons, deleteNode, hkey, leafOps, List.append_nil]
      rw [if_pos (by rfl)]
      rfl
  | leaf p w =>
    obtain rfl : rest = p := by simpa [found] using hfound
    cases ctx with
    | nil =>
      simp only [pathAt, if_true]
      rfl
    | cons f ctx =>
      cases f with
      | ext p => exact absurd (hneed trivial) id
      | branch c a v =>
        refine ⟨(Frame.branch c a v).fill (leaf rest w), ?_⟩
        have hremove := trie.formatNode_remove (t := leaf rest w) (by simp)
        have hset : (nodeOf trie.hashing ((Frame.branch c a v).fill (leaf rest w))).setBranch a
            (.bytes []) = nodeOf trie.hashing (branch (Function.update c a nil) v) := by
          simp [Frame.fill, nodeOf, refTree_update, MPTNode.setBranch]
        have hlen : (nodeOf trie.hashing (leaf rest w)).key.length = rest.length := rfl
        simp only [pathAt, if_true, spine_cons, List.map_cons, deleteNode, hkey, leafOps, hremove,
          hlen, spliceTail_append, ctxPath_cons, Frame.path, List.getLast?_concat,
          List.dropLast_concat, hset]
        rw [if_neg (by simp [nodeOf, MPTNode.isBranch]), if_pos (by rfl)]

/-- The writes of a removal, when the sibling that moves up can be read. -/
def deleteOps (site : Site Nibble Value) : List BatchDBOp :=
  match remnant site with
  | some r => trie.leafOps site.focus ++ trie.mergeOps r.children ++
      savedOps trie.hashing (shrinkSite r.ctx r.children r.value).1
        (shrinkSite r.ctx r.children r.value).2
  | none => []

theorem deleteNode_spec {site : Site Nibble Value} (hstuck : site.Stuck)
    (hfound : found site = true) (hneed : NeedsBranch site.ctx → site.focus.IsBranch)
    {key : Bytes} (hkey : bytesToNibbles key = ctxPath site.ctx ++ site.rest) (t : MPTree)
    (hchild : ∀ r a, remnant site = some r → Only r.children a →
      trie.lookupNode (refTree trie.hashing (r.children a)) =
        .ok (nodeOf trie.hashing (r.children a))) :
    trie.deleteNode key (pathAt trie.hashing site).stack =
      .ok ⟨rootHash trie.hashing (deleteAt t site), trie.deleteOps site⟩ := by
  have hspec := trie.deleteNode_pathAt hstuck hfound hneed hkey
  unfold deleteAt deleteOps
  rw [if_pos hfound]
  cases hr : remnant site with
  | none =>
    rw [hr] at hspec
    exact hspec
  | some r =>
    rw [hr] at hspec
    obtain ⟨s', hspec⟩ := hspec
    rw [hspec]
    exact trie.saveShrunk_spec r.ctx r.children r.value s' _ fun a ha => hchild r a hr ha

theorem deleteNode_missing {site : Site Nibble Value} (hstuck : site.Stuck)
    (hfound : found site = true) (hneed : NeedsBranch site.ctx → site.focus.IsBranch)
    {key : Bytes} (hkey : bytesToNibbles key = ctxPath site.ctx ++ site.rest) {r : Remnant}
    {a : Nibble} (hr : remnant site = some r) (ha : Only r.children a)
    (hchild : trie.lookupNode (refTree trie.hashing (r.children a)) = .error .missingNode) :
    trie.deleteNode key (pathAt trie.hashing site).stack = .error .missingNode := by
  have hspec := trie.deleteNode_pathAt hstuck hfound hneed hkey
  rw [hr] at hspec
  obtain ⟨s', hspec⟩ := hspec
  rw [hspec]
  exact trie.saveShrunk_missing _ r.children r.value _ _ ha hchild

end MerklePatriciaTrie

end EthereumJS
