import EthereumJS.Mpt.FindPath

/-! # Saving a stack of nodes

`saveStack` rebuilds a tree from a node and the nodes above it. Each of these fits
a frame: whatever child it held, after it is wired to a new one it is that frame
around the new child.
-/

namespace EthereumJS

open RLP Patricia

variable (H : HashKeysFunction)

theorem spliceTail_append (path tail : Nibbles) :
    spliceTail (path ++ tail) tail.length = path := by
  unfold spliceTail
  rw [if_pos (by simp)]
  exact List.take_left' (by simp)

/-- What a node becomes on the way up is the frame around the child below it. -/
def Fits (f : Frame Nibble Value) (node : MPTNode) : Prop :=
  ∀ (path : Nibbles) (s : MPTree),
    MerklePatriciaTrie.wire (path ++ f.path) (some (refTree H s)) node = (path, nodeOf H (f.fill s))

theorem fits_ext (p : Nibbles) (v : Item) : Fits H (.ext p) (.extension p v) := by
  intro path s
  simp only [MerklePatriciaTrie.wire, Frame.path, Frame.fill, nodeOf, Option.getD_some]
  rw [spliceTail_append]

theorem refTree_update (c : Nibble → MPTree) (a : Nibble) (s : MPTree) :
    (fun b => refTree H (Function.update c a s b)) =
      Function.update (fun b => refTree H (c b)) a (refTree H s) := by
  funext b
  by_cases h : b = a
  · subst h
    simp
  · simp [h]

theorem fits_branch (c : Nibble → MPTree) (a : Nibble) (v : Option Value) (x : Item) :
    Fits H (.branch c a v)
      (.branch (Function.update (fun b => refTree H (c b)) a x) (.bytes (valueBytes v))) := by
  intro path s
  simp only [MerklePatriciaTrie.wire, Frame.path, Frame.fill, nodeOf, refTree_update]
  rw [List.getLast?_concat, List.dropLast_concat]
  simp [MPTNode.setBranch]

theorem fits_fill (f : Frame Nibble Value) (s : MPTree) : Fits H f (nodeOf H (f.fill s)) := by
  cases f with
  | ext p => exact fits_ext H p _
  | branch c a v =>
    rw [Frame.fill, nodeOf, refTree_update]
    exact fits_branch H c a v _

theorem fits_spine (ctx : List (Frame Nibble Value)) (s : MPTree) :
    List.Forall₂ (Fits H) ctx ((spine ctx s).map (nodeOf H)) := by
  induction ctx generalizing s with
  | nil => exact .nil
  | cons f ctx ih => exact .cons (fits_fill H f s) (ih (f.fill s))

/-- The write of a node that is not inlined. -/
def storeOps (t : MPTree) : List BatchDBOp :=
  if 32 ≤ (encodeTree H t).length then [.put (rootHash H t) (encodeTree H t)] else []

/-- The writes for a subtree in its context, from below; the top node is always stored. -/
def savedOps : List (Frame Nibble Value) → MPTree → List BatchDBOp
  | [], s => [.put (rootHash H s) (encodeTree H s)]
  | f :: ctx, s => storeOps H s ++ savedOps ctx (f.fill s)

theorem mem_storeOps {t : MPTree} {op : BatchDBOp} (h : op ∈ storeOps H t) :
    op = .put (rootHash H t) (encodeTree H t) ∧ 32 ≤ (encodeTree H t).length := by
  unfold storeOps at h
  split at h
  · rename_i hlen
    exact ⟨List.mem_singleton.mp h, hlen⟩
  · cases h

theorem storeOps_of_long {t : MPTree} (h : 32 ≤ (encodeTree H t).length) :
    storeOps H t = [.put (rootHash H t) (encodeTree H t)] := if_pos h

theorem mem_savedOps {ctx : List (Frame Nibble Value)} {s : MPTree} {op : BatchDBOp}
    (h : op ∈ savedOps H ctx s) :
    ∃ u ∈ s :: spine ctx s, op = .put (rootHash H u) (encodeTree H u) ∧
      (32 ≤ (encodeTree H u).length ∨ u = plug ctx s) := by
  induction ctx generalizing s with
  | nil => exact ⟨s, by simp, List.mem_singleton.mp h, Or.inr rfl⟩
  | cons f ctx ih =>
    rcases List.mem_append.mp h with h | h
    · exact ⟨s, by simp, (mem_storeOps H h).1, Or.inl (mem_storeOps H h).2⟩
    · obtain ⟨u, hu, hop, hwhy⟩ := ih h
      exact ⟨u, List.mem_cons_of_mem _ hu, hop, hwhy⟩

theorem savedOps_of_long {ctx : List (Frame Nibble Value)} {s u : MPTree}
    (hu : u ∈ s :: spine ctx s) (hlen : 32 ≤ (encodeTree H u).length) :
    .put (rootHash H u) (encodeTree H u) ∈ savedOps H ctx s := by
  induction ctx generalizing s with
  | nil =>
    obtain rfl : u = s := by simpa using hu
    simp [savedOps]
  | cons f ctx ih =>
    rcases List.mem_cons.mp hu with rfl | hu
    · simp [savedOps, storeOps_of_long H hlen]
    · exact List.mem_append_right _ (ih hu)

theorem savedOps_top (ctx : List (Frame Nibble Value)) (s : MPTree) :
    .put (rootHash H (plug ctx s)) (encodeTree H (plug ctx s)) ∈ savedOps H ctx s := by
  induction ctx generalizing s with
  | nil => simp [savedOps]
  | cons f ctx ih => exact List.mem_append_right _ (ih (f.fill s))

namespace MerklePatriciaTrie

variable (trie : MerklePatriciaTrie)

theorem formatNode_nodeOf {t : MPTree} (ht : t ≠ .nil) :
    trie.formatNode (nodeOf trie.hashing t) false false =
      (refTree trie.hashing t, storeOps trie.hashing t) := by
  unfold formatNode storeOps
  simp only [serialize_nodeOf _ ht, raw_nodeOf _ ht, Bool.false_eq_true, or_false, if_false]
  by_cases hlen : 32 ≤ (encodeTree trie.hashing t).length
  · rw [if_pos hlen, if_pos hlen, refTree_of_long _ hlen]
    rfl
  · rw [if_neg hlen, if_neg hlen, refTree_of_short _ hlen]

theorem formatNode_top {t : MPTree} (ht : t ≠ .nil) :
    trie.formatNode (nodeOf trie.hashing t) true false =
      (.bytes (rootHash trie.hashing t),
        [.put (rootHash trie.hashing t) (encodeTree trie.hashing t)]) := by
  unfold formatNode
  simp only [serialize_nodeOf _ ht, or_true, if_true, Bool.false_eq_true, if_false]
  rfl

/-- The loop of `saveStack` from a node on whose place in the tree is known. -/
theorem saveNodes_fits {ctx : List (Frame Nibble Value)} {nodes : List MPTNode}
    (hfits : List.Forall₂ (Fits trie.hashing) ctx nodes) {s : MPTree} (hs : s ≠ .nil)
    {path : Nibbles} {childHash : Option Item} {node : MPTNode} (opStack : List BatchDBOp)
    (hwire : wire path childHash node = (ctxPath ctx, nodeOf trie.hashing s)) :
    trie.saveNodes path (node :: nodes) childHash opStack =
      (some (.bytes (rootHash trie.hashing (plug ctx s))), opStack ++ savedOps trie.hashing ctx s) := by
  induction hfits generalizing s path childHash node opStack with
  | nil =>
    simp only [saveNodes, hwire, List.isEmpty_nil, formatNode_top trie hs, savedOps, plug_nil]
  | @cons f node' ctx nodes hf hctx ih =>
    rw [saveNodes, hwire]
    simp only [List.isEmpty_cons, formatNode_nodeOf trie hs]
    rw [ctxPath_cons, ih (f.fill_ne_nil s) _ (hf (ctxPath ctx) s), plug_cons, savedOps,
      List.append_assoc]

theorem wire_nodeOf (path : Nibbles) (s : MPTree) :
    wire (path ++ s.path) none (nodeOf trie.hashing s) = (path, nodeOf trie.hashing s) := by
  cases s with
  | nil => simp [Tree.path, nodeOf, MPTNode.emptyBranch, wire]
  | leaf p v =>
    simp only [Tree.path, nodeOf, wire]
    rw [spliceTail_append]
  | ext p c =>
    simp only [Tree.path, nodeOf, wire]
    rw [spliceTail_append]
    rfl
  | branch c v => simp [Tree.path, nodeOf, wire]

/-- `saveStack` ends with the tree that its stack describes. -/
theorem saveStack_fits {ctx : List (Frame Nibble Value)} {nodes : List MPTNode}
    (hfits : List.Forall₂ (Fits trie.hashing) ctx nodes) {s : MPTree} (hs : s ≠ .nil)
    {k : Nibbles} (hpath : k = ctxPath ctx ++ s.path) (opStack : List BatchDBOp) :
    trie.saveStack k (nodeOf trie.hashing s :: nodes) opStack =
      ⟨rootHash trie.hashing (plug ctx s), opStack ++ savedOps trie.hashing ctx s⟩ := by
  unfold saveStack
  rw [hpath, trie.saveNodes_fits hfits hs opStack (trie.wire_nodeOf (ctxPath ctx) s)]

end MerklePatriciaTrie

end EthereumJS
