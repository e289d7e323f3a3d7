import EthereumJS.Mpt.FixedLength
import EthereumJS.Mpt.Partial

/-! # Updates that lose their way

For `put`, a walk that meets a missing node looks like one that ends at the node above.
The value is then set on a branch there, and the nodes above are wired along the end of
the key instead of its beginning. What comes out is a tree, but no canonical one.
-/

namespace EthereumJS

open RLP Patricia Patricia.Tree

/-- The node is no branch with a value. -/
def PlainNode : MPTree → Prop
  | branch _ w => w = none
  | _ => True

theorem plain_of_canon {n : Nat} {t : MPTree} (h : t.Canon n) : t.All PlainNode := by
  induction t generalizing n with
  | nil => trivial
  | leaf p v => trivial
  | ext p c ih =>
    obtain ⟨_, _, m, _, hm⟩ := h
    exact ⟨trivial, ih hm⟩
  | branch c w ih =>
    obtain ⟨hw, ⟨m, _, hm⟩, _⟩ := h
    refine ⟨hw, fun a => ?_⟩
    rcases hm a with ha | ha
    · rw [ha]
      trivial
    · exact ih a ha

namespace MerklePatriciaTrie

variable (trie : MerklePatriciaTrie)

theorem length_spliceTail {path : Nibbles} {n : Nat} (h : n ≤ path.length) :
    (spliceTail path n).length = path.length - n := by
  rw [spliceTail, if_pos h, List.length_take]
  omega

/-- A node that is wired along any path takes the new child as one of its own. -/
theorem wire_astray (H : HashKeysFunction) (f : Frame Nibble Value) (s' s : MPTree)
    {path : Nibbles} (hlen : f.path.length ≤ path.length) :
    ∃ rest u, wire path (some (refTree H s)) (nodeOf H (f.fill s')) = (rest, nodeOf H u) ∧
      rest.length + f.path.length = path.length ∧ u ≠ nil ∧
      ∀ P : MPTree → Prop, (u.All P → s.All P) ∧
        ((f.fill s').All P → s.All P → P u → u.All P) := by
  cases f with
  | ext p =>
    refine ⟨spliceTail path p.length, ext p s, rfl, ?_, by simp, fun P => ⟨And.right, ?_⟩⟩
    · rw [Frame.path] at hlen ⊢
      rw [length_spliceTail hlen]
      exact Nat.sub_add_cancel hlen
    · intro _ hs hu
      exact ⟨hu, hs⟩
  | branch c a w =>
    obtain ⟨rest, x, rfl⟩ : ∃ rest x, path = rest ++ [x] :=
      ⟨_, _, (List.dropLast_append_getLast (List.ne_nil_of_length_pos hlen)).symm⟩
    refine ⟨rest, branch (Function.update (Function.update c a s') x s) w, ?_, by simp [Frame.path],
      by simp, fun P => ⟨fun h => ?_, fun h hs hu => ⟨hu, all_update h.2 hs⟩⟩⟩
    · simp only [wire, Frame.fill, nodeOf, List.getLast?_concat, List.dropLast_concat,
        MPTNode.setBranch, refTree_update]
    · have hx := h.2 x
      rwa [Function.update_self] at hx

/-- A stack of nodes that is saved along any key ends with a tree around the lowest one. -/
theorem saveNodes_astray {E : Set Bytes} {ctx : List (Frame Nibble Value)} {s' s : MPTree}
    (hs : s ≠ nil) {path rest : Nibbles} {childHash : Option Item} {node : MPTNode}
    (opStack : List BatchDBOp) (hwire : wire path childHash node = (rest, nodeOf trie.hashing s))
    (hlen : (ctxPath ctx).length ≤ rest.length) :
    ∃ u ops, trie.saveNodes path (node :: (spine ctx s').map (nodeOf trie.hashing)) childHash
        opStack = (some (.bytes (rootHash trie.hashing u)), opStack ++ ops) ∧
      (u.All PlainNode → s.All PlainNode) ∧
      ((plug ctx s').All (HashedIn trie.hashing E) →
        (HashedIn trie.hashing E s → EncodedIn trie.hashing E s) →
        (∀ key e, BatchDBOp.put key e ∈ ops → e ∈ E) →
        encodeTree trie.hashing u ∈ E ∧ EncodedIn trie.hashing E u) := by
  induction ctx generalizing s' s path rest childHash node opStack with
  | nil =>
    refine ⟨s, [.put (rootHash trie.hashing s) (encodeTree trie.hashing s)], ?_, id, ?_⟩
    · simp only [spine_nil, List.map_nil, saveNodes, hwire, List.isEmpty_nil,
        formatNode_top trie hs]
    · intro _ hbelow hops
      have hmem := hops _ _ (List.mem_singleton.mpr rfl)
      exact ⟨hmem, hbelow fun _ => hmem⟩
  | cons f ctx ih =>
    rw [ctxPath_cons, List.length_append] at hlen
    obtain ⟨above, w, hwire', habove, hw, hall⟩ :=
      wire_astray trie.hashing f s' s (by omega : f.path.length ≤ rest.length)
    obtain ⟨u, ops, hsave, hplain, henc⟩ := ih hw (opStack ++ storeOps trie.hashing s) hwire'
      (by omega)
    refine ⟨u, storeOps trie.hashing s ++ ops, ?_, fun hu => (hall _).1 (hplain hu), ?_⟩
    · rw [spine_cons, List.map_cons, saveNodes, hwire]
      simp only [List.isEmpty_cons, formatNode_nodeOf trie hs]
      rw [hsave, List.append_assoc]
    · intro hctx hbelow hops
      have hstore : HashedIn trie.hashing E s := by
        intro hlong
        refine hops (rootHash trie.hashing s) _ (List.mem_append_left _ ?_)
        rw [storeOps_of_long _ hlong]
        exact List.mem_singleton.mpr rfl
      have hfill := ((all_plug _ ctx (f.fill s')).mp hctx).1
      exact henc hctx (fun hself => (hall _).2 hfill (hbelow hstore) hself) fun key e he =>
        hops key e (List.mem_append_right _ he)

/-- `saveStack` along a key that is longer than the path to its lowest node, a branch. -/
theorem saveStack_astray {E : Set Bytes} {ctx : List (Frame Nibble Value)} (s' : MPTree)
    (c : Nibble → MPTree) (v : Value) {path : Nibbles} (opStack : List BatchDBOp)
    (hlen : (ctxPath ctx).length ≤ path.length) :
    ∃ u ops, trie.saveStack path (nodeOf trie.hashing (branch c (some v)) ::
        (spine ctx s').map (nodeOf trie.hashing)) opStack =
          ⟨rootHash trie.hashing u, opStack ++ ops⟩ ∧
      ¬ u.All PlainNode ∧
      ((plug ctx s').All (HashedIn trie.hashing E) → (∀ a, EncodedIn trie.hashing E (c a)) →
        (∀ key e, BatchDBOp.put key e ∈ ops → e ∈ E) →
        encodeTree trie.hashing u ∈ E ∧ EncodedIn trie.hashing E u) := by
  have hwire : wire path none (nodeOf trie.hashing (branch c (some v))) =
      (path, nodeOf trie.hashing (branch c (some v))) := rfl
  obtain ⟨u, ops, hsave, hplain, henc⟩ :=
    trie.saveNodes_astray (E := E) (by simp) opStack hwire hlen
  refine ⟨u, ops, ?_, ?_, ?_⟩
  · rw [saveStack, hsave]
  · intro hu
    cases (hplain hu).1
  · intro hctx hc hops
    exact henc hctx (fun hself => ⟨hself, hc⟩) hops

end MerklePatriciaTrie

namespace PartOf

variable {E : Set Bytes} {trie : MerklePatriciaTrie} {t : MPTree}

/-- `_updateNode` on a walk that met a missing node: the new root is that of a tree with
a value in a branch. -/
theorem updateNode_astray (h : PartOf E trie t) (key : Bytes) (v : Value) {s : MPTree}
    {above below : List MPTree} (habove : above ≠ [])
    (htrail : t.trail (bytesToNibbles key) = above ++ s :: below) :
    ∃ u ops, trie.updateNode key v.1 [] (above.map (nodeOf trie.hashing)).reverse =
        .ok ⟨rootHash trie.hashing u, ops⟩ ∧ ¬ u.All PlainNode ∧
      ((∀ key e, BatchDBOp.put key e ∈ ops → e ∈ E) →
        encodeTree trie.hashing u ∈ E ∧ EncodedIn trie.hashing E u) := by
  obtain ⟨fs, r, hplug, hkey, hspine, _⟩ := trail_split htrail []
  cases fs with
  | nil => exact absurd (List.reverse_eq_nil_iff.mp hspine.symm) habove
  | cons f ctx =>
    rw [← List.map_reverse, ← hspine, spine_cons, List.map_cons]
    have hall : (plug ctx (f.fill s)).All (HashedIn trie.hashing E) := by
      rw [← plug_cons, hplug]
      exact h.encoded
    have hfill := ((all_plug _ ctx (f.fill s)).mp hall).1
    have hlen : (ctxPath ctx).length ≤ (bytesToNibbles key).length := by
      rw [hkey, ctxPath_cons]
      simp only [List.length_append]
      omega
    have hmatch : MerklePatriciaTrie.isMatchingLeafUpdate (nodeOf trie.hashing (f.fill s))
        ((spine ctx (f.fill s)).map (nodeOf trie.hashing)) (bytesToNibbles key) [] = false := by
      apply MerklePatriciaTrie.isMatchingLeafUpdate_of_not_leaf
      cases f <;> rfl
    unfold MerklePatriciaTrie.updateNode
    simp only [hmatch, Bool.false_eq_true, if_false]
    cases f with
    | branch c a w =>
      obtain ⟨u, ops, hsave, hplain, henc⟩ := trie.saveStack_astray (E := E)
        ((Frame.branch c a w).fill s) (Function.update c a s) v [] hlen
      refine ⟨u, ops, ?_, hplain, henc hall hfill.2⟩
      rw [if_pos (by rfl)]
      exact congrArg Except.ok hsave
    | ext p =>
      have hp : p ≠ [] := by
        have hwf := h.wf
        rw [← hplug, plug_cons, wf_plug] at hwf
        exact hwf.2.1.1
      have hbranch := trie.newBranchMPTNode_ext p s 0 (by simpa using hp)
      have hdiverge : trie.divergeNode (nodeOf trie.hashing (ext p s)) (.bytes v.1) []
          ((spine ctx (ext p s)).map (nodeOf trie.hashing)) =
          (nodeOf trie.hashing (branch (remainder (ext p s) 0).1 (some v)) ::
            (spine ctx (ext p s)).map (nodeOf trie.hashing), trie.divergeOps (ext p s) 0) := by
        have hzero : matchingNibbleLength (nodeOf trie.hashing (ext p s)).key [] = 0 := by
          cases p <;> rfl
        have hkey' : (nodeOf trie.hashing (ext p s)).key = p := rfl
        unfold MerklePatriciaTrie.divergeNode
        rw [hzero]
        simp only [hkey', hbranch, List.drop_nil, ne_eq, not_true_eq_false, if_false]
        rfl
      obtain ⟨u, ops, hsave, hplain, henc⟩ := trie.saveStack_astray (E := E)
        (ext p s) (remainder (ext p s) 0).1 v (trie.divergeOps (ext p s) 0) hlen
      refine ⟨u, trie.divergeOps (ext p s) 0 ++ ops, ?_, hplain, fun hops => ?_⟩
      · rw [if_neg (by simp [nodeOf, Frame.fill, MPTNode.isBranch])]
        simp only [Frame.fill, hdiverge]
        exact congrArg Except.ok hsave
      · refine henc hall (fun a => ?_) fun key e he => hops key e (List.mem_append_right _ he)
        refine (trie.covered_remainder hfill.below 0 a).mono ?_
        rintro x (hx | hx) hlong
        · exact hx hlong
        · exact hops (rootHash trie.hashing x) _ (List.mem_append_left _ (hx hlong))

end PartOf

end EthereumJS
