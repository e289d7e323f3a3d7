import EthereumJS.Mpt.SaveStack
import EthereumJS.Patricia.Beside

/-! # The update of a stored trie

`_updateNode`, called with the path of a descent, ends with the root of the tree
into which the value was inserted. The tree-side functions name the nodes that it
writes.
-/

namespace EthereumJS

open RLP Patricia Patricia.Tree

theorem fits_self (H : HashKeysFunction) (c : Nibble → MPTree) (a : Nibble) (v : Option Value) :
    Fits H (.branch c a v) (nodeOf H (.branch c v)) := by
  have h := fits_fill H (.branch c a v) (c a)
  rwa [Frame.fill, Function.update_eq_self] at h

namespace MerklePatriciaTrie

variable (trie : MerklePatriciaTrie)

/-- The deletion of a node that is not inlined; only a pruning trie carries it out. -/
def dropOps (t : MPTree) : List BatchDBOp :=
  if 32 ≤ (encodeTree trie.hashing t).length ∧ trie.opts.useNodePruning then
    [.del (rootHash trie.hashing t)]
  else []

theorem formatNode_remove {t : MPTree} (ht : t ≠ nil) :
    (trie.formatNode (nodeOf trie.hashing t) false true).2 = trie.dropOps t := by
  unfold formatNode dropOps
  simp only [serialize_nodeOf _ ht, Bool.false_eq_true, or_false, if_true]
  by_cases hlen : 32 ≤ (encodeTree trie.hashing t).length
  · cases hprune : trie.opts.useNodePruning with
    | true =>
      simp only [hlen, if_true, and_self]
      rfl
    | false => simp [hlen]
  · simp [hlen]

/-- The writes for what is left of a leaf or an extension below a new branch. -/
def divergeOps : MPTree → Nat → List BatchDBOp
  | leaf p w, n =>
    match p.drop n with
    | [] => []
    | _ :: q => storeOps trie.hashing (leaf q w)
  | ext p c, n =>
    match p.drop n with
    | [] => []
    | [_] => trie.dropOps (ext p c)
    | _ :: q => storeOps trie.hashing (ext q c)
  | _, _ => []

/-- The writes below the new branch at the end of a walk, if there is one. -/
def focusOps : MPTree → Nibbles → List BatchDBOp
  | leaf p w, r => if r = p then [] else trie.divergeOps (leaf p w) (commonPrefix p r).length
  | ext p c, r => trie.divergeOps (ext p c) (commonPrefix p r).length
  | _, _ => []

def insertOps (site : Site Nibble Value) (v : Value) : List BatchDBOp :=
  let new := insertSite site.focus site.rest v
  trie.focusOps site.focus site.rest ++ savedOps trie.hashing (new.1 ++ site.ctx) new.2

/-- The new branch holds what is left of a leaf. -/
theorem newBranchMPTNode_leaf (p : Nibbles) (w : Value) (n : Nat) :
    trie.newBranchMPTNode (nodeOf trie.hashing (leaf p w)) (p.drop n) =
      (nodeOf trie.hashing (branch (remainder (leaf p w) n).1 (remainder (leaf p w) n).2),
        trie.divergeOps (leaf p w) n) := by
  simp only [remainder, divergeOps]
  cases p.drop n with
  | nil => rfl
  | cons a q =>
    have hformat := trie.formatNode_nodeOf (t := leaf q w) (by simp)
    simp only [nodeOf] at hformat
    simp only [newBranchMPTNode, nodeOf, MPTNode.isLeaf, or_true, if_true, MPTNode.setKey,
      hformat, single, refTree_update]
    rfl

/-- The new branch holds what is left of an extension, or directly its child. -/
theorem newBranchMPTNode_ext (p : Nibbles) (c : MPTree) (n : Nat) (hn : p.drop n ≠ []) :
    trie.newBranchMPTNode (nodeOf trie.hashing (ext p c)) (p.drop n) =
      (nodeOf trie.hashing (branch (remainder (ext p c) n).1 (remainder (ext p c) n).2),
        trie.divergeOps (ext p c) n) := by
  simp only [remainder, divergeOps]
  generalize p.drop n = rest at hn
  cases rest with
  | nil => exact absurd rfl hn
  | cons a q =>
    cases q with
    | nil =>
      have hremove := trie.formatNode_remove (t := ext p c) (by simp)
      simp only [nodeOf] at hremove
      simp only [newBranchMPTNode, nodeOf, List.length_nil, ne_eq, not_true_eq_false,
        MPTNode.isLeaf, Bool.false_eq_true, or_self, if_false, hremove, extend, single,
        refTree_update]
      rfl
    | cons b q =>
      have hformat := trie.formatNode_nodeOf (t := ext (b :: q) c) (by simp)
      simp only [nodeOf] at hformat
      simp only [newBranchMPTNode, nodeOf, List.length_cons, ne_eq, Nat.add_eq_zero_iff,
        Nat.succ_ne_self, and_false, not_false_eq_true, true_or, if_true, MPTNode.setKey, hformat,
        extend, single, refTree_update]
      rfl

/-- Case 3 of `_updateNode` builds the frames and the subtree of `diverge`. -/
theorem divergeNode_spec {s : MPTree} {r : Nibbles} (v : Value) (stack : List MPTNode)
    (hkey : (nodeOf trie.hashing s).key = s.path)
    (hbranch : trie.newBranchMPTNode (nodeOf trie.hashing s)
        (s.path.drop (commonPrefix s.path r).length) =
      (nodeOf trie.hashing (branch (s.remainder (commonPrefix s.path r).length).1
        (s.remainder (commonPrefix s.path r).length).2),
        trie.divergeOps s (commonPrefix s.path r).length)) :
    ∃ nodes, trie.divergeNode (nodeOf trie.hashing s) (.bytes v.1) r stack =
        (nodeOf trie.hashing (diverge s r v).2 :: nodes ++ stack,
          trie.divergeOps s (commonPrefix s.path r).length) ∧
      List.Forall₂ (Fits trie.hashing) (diverge s r v).1 nodes := by
  have habove : ∃ nodes, (if (commonPrefix s.path r).length ≠ 0 then
        .extension (s.path.take (commonPrefix s.path r).length) (.bytes v.1) :: stack
      else stack) = nodes ++ stack ∧
      List.Forall₂ (Fits trie.hashing)
        (if commonPrefix s.path r = [] then [] else [Frame.ext (commonPrefix s.path r)]) nodes := by
    by_cases hm : commonPrefix s.path r = []
    · exact ⟨[], by simp [hm], by simp [hm]⟩
    · refine ⟨[.extension (commonPrefix s.path r) (.bytes v.1)], ?_, ?_⟩
      · rw [if_pos (by simpa using hm), length_commonPrefix, take_matchingNibbleLength]
        rfl
      · rw [if_neg hm]
        exact .cons (fits_ext _ _ _) .nil
  obtain ⟨nodes, habove, hfits⟩ := habove
  unfold divergeNode diverge
  simp only [hkey, ← length_commonPrefix, hbranch, habove]
  cases r.drop (commonPrefix s.path r).length with
  | nil => exact ⟨nodes, rfl, hfits⟩
  | cons a q => exact ⟨_ :: nodes, rfl, .cons (fits_self _ _ _ _) hfits⟩

theorem ctxPath_diverge (s : MPTree) (r : Nibbles) (v : Value) :
    ctxPath (diverge s r v).1 ++ (diverge s r v).2.path = r := by
  obtain ⟨p', r', _, hr, _⟩ := commonPrefix_spec s.path r
  generalize hm : commonPrefix s.path r = m at hr
  have habove : ctxPath (if m = [] then [] else [Frame.ext m] : List (Frame Nibble Value)) = m := by
    by_cases h : m = []
    · simp [h]
    · simp [h, Frame.path]
  unfold diverge
  simp only [hm]
  conv_rhs => rw [hr]
  rw [hr, List.drop_left]
  cases r' with
  | nil => simpa [Tree.path] using habove
  | cons a q => simp [Tree.path, habove, Frame.path]

/-- The nibbles that the nodes of a stack take off a key. -/
theorem keyOffset_spine (ctx : List (Frame Nibble Value)) (s : MPTree) :
    (((spine ctx s).map (nodeOf trie.hashing)).map fun n =>
      if n.isBranch then 1 else n.key.length).sum = (ctxPath ctx).length := by
  induction ctx generalizing s with
  | nil => rfl
  | cons f ctx ih =>
    rw [spine_cons, List.map_cons, List.map_cons, List.sum_cons, ih, ctxPath_cons,
      List.length_append, Nat.add_comm]
    cases f <;> rfl

theorem matchingNibbleLength_self (p : Nibbles) : matchingNibbleLength p p = p.length := by
  induction p with
  | nil => rfl
  | cons a p ih => simp [matchingNibbleLength, ih]

theorem isMatchingLeafUpdate_leaf (ctx : List (Frame Nibble Value)) (p rest : Nibbles) (w : Value)
    (keyRemainder : Nibbles) (h : keyRemainder = if rest = p then [] else rest) :
    isMatchingLeafUpdate (nodeOf trie.hashing (leaf p w))
      ((spine ctx (leaf p w)).map (nodeOf trie.hashing)) (ctxPath ctx ++ rest) keyRemainder =
        decide (rest = p) := by
  unfold isMatchingLeafUpdate
  rw [keyOffset_spine]
  simp only [List.drop_left, nodeOf, MPTNode.isLeaf, MPTNode.key, not_true_eq_false, false_or]
  by_cases hp : rest = p
  · subst hp
    rw [h, if_pos rfl, if_neg (by simp), matchingNibbleLength_self]
    simp
  · rw [h, if_neg hp]
    cases rest with
    | nil =>
      cases p with
      | nil => exact absurd rfl hp
      | cons a p => simp [matchingNibbleLength]
    | cons a rest => simp [hp]

theorem isMatchingLeafUpdate_of_not_leaf {node : MPTNode} (h : node.isLeaf = false)
    (stack : List MPTNode) (fullKeyNibbles keyRemainder : Nibbles) :
    isMatchingLeafUpdate node stack fullKeyNibbles keyRemainder = false := by
  unfold isMatchingLeafUpdate
  rw [if_pos (Or.inl (by simp [h]))]

/-- Case 3 of `_updateNode`, saved. -/
theorem saveStack_diverge {s : MPTree} {r : Nibbles} (v : Value) (ctx : List (Frame Nibble Value))
    (s' : MPTree) {fullKeyNibbles : Nibbles} (hpath : fullKeyNibbles = ctxPath ctx ++ r)
    (hkey : (nodeOf trie.hashing s).key = s.path)
    (hbranch : trie.newBranchMPTNode (nodeOf trie.hashing s)
        (s.path.drop (commonPrefix s.path r).length) =
      (nodeOf trie.hashing (branch (s.remainder (commonPrefix s.path r).length).1
        (s.remainder (commonPrefix s.path r).length).2),
        trie.divergeOps s (commonPrefix s.path r).length)) :
    let diverged := trie.divergeNode (nodeOf trie.hashing s) (.bytes v.1) r
      ((spine ctx s').map (nodeOf trie.hashing))
    trie.saveStack fullKeyNibbles diverged.1 diverged.2 =
      ⟨rootHash trie.hashing (plug ((diverge s r v).1 ++ ctx) (diverge s r v).2),
        trie.divergeOps s (commonPrefix s.path r).length ++
          savedOps trie.hashing ((diverge s r v).1 ++ ctx) (diverge s r v).2⟩ := by
  obtain ⟨nodes, hdiverge, hfits⟩ :=
    trie.divergeNode_spec v ((spine ctx s').map (nodeOf trie.hashing)) hkey hbranch
  have hne : (diverge s r v).2 ≠ nil := by
    unfold diverge
    simp only
    split <;> simp
  intro diverged
  simp only [diverged, hdiverge]
  refine trie.saveStack_fits (List.rel_append hfits (fits_spine _ ctx s')) hne ?_ _
  rw [ctxPath_append, List.append_assoc, ctxPath_diverge, hpath]

/-- `_updateNode` at the end of a walk is the insertion at the site where it stopped. -/
theorem updateNode_pathAt {site : Site Nibble Value} (hstuck : site.Stuck)
    (hnil : site.focus = nil → ∃ c a w ctx, site.ctx = .branch c a w :: ctx) (v : Value)
    {key : Bytes} (hkey : bytesToNibbles key = ctxPath site.ctx ++ site.rest) :
    trie.updateNode key v.1 (pathAt trie.hashing site).remaining
        (pathAt trie.hashing site).stack =
      .ok ⟨rootHash trie.hashing (plug ((insertSite site.focus site.rest v).1 ++ site.ctx)
        (insertSite site.focus site.rest v).2), trie.insertOps site v⟩ := by
  obtain ⟨ctx, focus, rest⟩ := site
  simp only at hkey
  cases focus with
  | nil =>
    obtain ⟨c, a, w, ctx, rfl⟩ := hnil rfl
    simp only [pathAt, spine_cons, List.map_cons, updateNode]
    rw [isMatchingLeafUpdate_of_not_leaf (by rfl)]
    simp only [Bool.false_eq_true, if_false]
    rw [if_pos (by rfl)]
    have hsave := trie.saveStack_fits (fits_spine trie.hashing (.branch c a w :: ctx) nil)
      (s := leaf rest v) (by simp) hkey []
    simp only [spine_cons, List.map_cons] at hsave
    exact congrArg Except.ok hsave
  | leaf p w =>
    have hmatch := trie.isMatchingLeafUpdate_leaf ctx p rest w _ rfl
    by_cases hp : rest = p
    · subst hp
      rw [if_pos rfl, decide_eq_true rfl] at hmatch
      simp only [pathAt, if_true, updateNode, hkey, hmatch, insertSite, insertOps, focusOps]
      have hsave := trie.saveStack_fits (fits_spine trie.hashing ctx (leaf rest w))
        (s := leaf rest v) (by simp) (k := ctxPath ctx ++ rest) rfl []
      exact congrArg Except.ok hsave
    · rw [if_neg hp, decide_eq_false hp] at hmatch
      simp only [pathAt, if_neg hp, updateNode, hkey, hmatch, insertSite, insertOps, focusOps,
        Bool.false_eq_true, if_false]
      rw [if_neg (by simp [nodeOf, MPTNode.isBranch])]
      exact congrArg Except.ok (trie.saveStack_diverge v ctx (leaf p w) rfl rfl
        (trie.newBranchMPTNode_leaf p w _))
  | ext p c =>
    have hnone : stripPrefix p rest = none := hstuck
    have hdrop := drop_commonPrefix_ne_nil hnone
    simp only [pathAt, updateNode, hkey, insertSite, insertOps, focusOps]
    rw [isMatchingLeafUpdate_of_not_leaf (by rfl)]
    simp only [Bool.false_eq_true, if_false]
    rw [if_neg (by simp [nodeOf, MPTNode.isBranch])]
    exact congrArg Except.ok (trie.saveStack_diverge v ctx (ext p c) rfl rfl
      (trie.newBranchMPTNode_ext p c _ hdrop))
  | branch c w =>
    obtain rfl : rest = [] := hstuck
    simp only [pathAt, updateNode, hkey, insertSite, insertOps, focusOps]
    rw [isMatchingLeafUpdate_of_not_leaf (by rfl)]
    simp only [Bool.false_eq_true, if_false]
    rw [if_pos (by rfl)]
    have hsave := trie.saveStack_fits (fits_spine trie.hashing ctx (branch c w))
      (s := branch c (some v)) (by simp) (k := ctxPath ctx ++ []) rfl []
    exact congrArg Except.ok hsave

end MerklePatriciaTrie

end EthereumJS
