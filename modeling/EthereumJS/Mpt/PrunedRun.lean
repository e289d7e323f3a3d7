import EthereumJS.Mpt.PrunedSteps

/-! # Runs of a trie that prunes

A pruning trie over keys of one length holds the nodes that can be reached from its
root, and no others, as long as no call deletes the entry of a node that stands in a
second place. A run that meets this condition returns the values of one without pruning.
-/

namespace EthereumJS

open RLP Patricia Patricia.Tree

def pruningOpts (H : HashKeysFunction) : MPTOpts := ⟨false, H, true⟩

/-- The references that a node holds. -/
def MPTNode.references : MPTNode → List Item
  | .branch b w => (MPTNode.branch b w).getChildren.map Prod.snd
  | .extension _ v => [v]
  | .leaf _ _ => []

namespace MerklePatriciaTrie

/-- A reference that a walk from the root comes to. -/
inductive Reachable (trie : MerklePatriciaTrie) : Item → Prop
  | root : trie.root ≠ trie.emptyTrieRoot → Reachable trie (.bytes trie.root)
  | child {ref next : Item} {node : MPTNode} : Reachable trie ref →
    trie.lookupNode ref = .ok node → next ∈ node.references → Reachable trie next

variable {trie : MerklePatriciaTrie}

/-- All nodes below a reachable node are reachable, if they can be read. -/
theorem reachable_of_mem_nodes {t : MPTree} {ref : Item} (href : trie.Reachable ref)
    (hnode : trie.lookupNode ref = .ok (nodeOf trie.hashing t))
    (hread : ∀ s ∈ nodesOf t, trie.lookupNode (refTree trie.hashing s) =
      .ok (nodeOf trie.hashing s)) {s : MPTree} (hs : s ∈ nodesOf t) :
    s = t ∨ trie.Reachable (refTree trie.hashing s) := by
  induction t generalizing ref with
  | nil => cases hs
  | leaf p v => exact .inl (List.mem_singleton.mp hs)
  | ext p c ih =>
    refine (List.mem_cons.mp hs).imp_right fun hs => ?_
    have hc : c ∈ nodesOf c := self_mem_nodesOf (by
      rintro rfl
      cases hs)
    have hnext : trie.Reachable (refTree trie.hashing c) := .child href hnode (by
      simp [nodeOf, MPTNode.references])
    rcases ih hnext (hread c (List.mem_cons_of_mem _ hc))
      (fun s hs => hread s (List.mem_cons_of_mem _ hs)) hs with rfl | hreach
    · exact hnext
    · exact hreach
  | branch c v ih =>
    refine (mem_nodes_branch.mp hs).imp_right ?_
    rintro ⟨a, ha, _, hs⟩
    have hsub : ∀ u ∈ nodesOf (c a), u ∈ nodesOf (branch c v) :=
      fun u hu => mem_nodes_branch.mpr (.inr ⟨a, ha, rfl, hu⟩)
    have hca : c a ≠ nil := by
      intro hnil
      rw [hnil] at hs
      cases hs
    have hnext : trie.Reachable (refTree trie.hashing (c a)) := .child href hnode (by
      rw [nodeOf, MPTNode.references, ← nodeOf, getChildren_nodeOf, List.map_map]
      exact List.mem_map.mpr ⟨a, mem_childSlots.mpr hca, rfl⟩)
    rcases ih a hnext (hread _ (hsub _ (self_mem_nodesOf hca)))
      (fun s hs => hread s (hsub s hs)) hs with rfl | hreach
    · exact hnext
    · exact hreach

end MerklePatriciaTrie

namespace Represents

variable {E : Set Bytes} {trie : MerklePatriciaTrie} {t : MPTree}

/-- The reference under which a walk comes to a node of the tree. -/
def ReferredBy (H : HashKeysFunction) (t s : MPTree) (ref : Item) : Prop :=
  s = t ∧ ref = .bytes (rootHash H t) ∨ ref = refTree H s

theorem lookupNode_of_mem (h : Represents E trie t) (hE : CollisionFree trie.hashing E)
    {s : MPTree} (hs : s ∈ nodesOf t) {ref : Item} (href : ReferredBy trie.hashing t s ref) :
    trie.lookupNode ref = .ok (nodeOf trie.hashing s) := by
  have hne := ne_nil_of_mem_nodes hs
  rcases href with ⟨rfl, rfl⟩ | rfl
  · exact trie.lookupNode_hash hE hne (h.top hne).1 (h.top hne).2
  · exact trie.lookupNode_resident hE hne (all_iff_nodesOf.mp h.encoded s hs)
      (all_iff_nodesOf.mp h.stored s hs)

/-- A walk from the root comes to nodes of the tree only. -/
theorem exists_of_reachable (h : Represents E trie t) (hE : CollisionFree trie.hashing E)
    (hempty : RLP_EMPTY_STRING ∈ E) {ref : Item} (href : trie.Reachable ref) :
    ∃ s ∈ nodesOf t, ReferredBy trie.hashing t s ref := by
  induction href with
  | root hroot =>
    have ht : t ≠ nil := fun ht => hroot ((h.root_eq_empty_iff hE hempty).mpr ht)
    exact ⟨t, self_mem_nodesOf ht, .inl ⟨rfl, by rw [h.root_eq]⟩⟩
  | @child ref next node _ hnode hnext ih =>
    obtain ⟨s, hs, hrefers⟩ := ih
    rw [h.lookupNode_of_mem hE hs hrefers] at hnode
    obtain rfl := Except.ok.inj hnode
    cases s with
    | nil => exact absurd rfl (ne_nil_of_mem_nodes hs)
    | leaf p v => cases hnext
    | ext p c =>
      obtain rfl := List.mem_singleton.mp hnext
      have hwf : (ext p c : MPTree).WF := all_iff_nodesOf.mp h.wf.all _ hs
      have hc : c ≠ nil := hwf.2.1.ne_nil
      exact ⟨c, nodes_trans hs (List.mem_cons_of_mem _ (self_mem_nodesOf hc)), .inr rfl⟩
    | branch c v =>
      rw [nodeOf, MPTNode.references, ← nodeOf, MerklePatriciaTrie.getChildren_nodeOf,
        List.map_map] at hnext
      obtain ⟨a, ha, rfl⟩ := List.mem_map.mp hnext
      have hca := self_mem_nodesOf (mem_childSlots.mp ha)
      exact ⟨c a, nodes_trans hs (mem_nodes_branch.mpr (.inr ⟨a, List.mem_finRange a, rfl, hca⟩)),
        .inr rfl⟩

/-- The hashes that a walk from the root comes to are those of the hashed nodes. -/
theorem reachable_iff (h : Represents E trie t) (hE : CollisionFree trie.hashing E)
    (hempty : RLP_EMPTY_STRING ∈ E) {key : Bytes} : trie.Reachable (.bytes key) ↔
      ∃ s ∈ nodesOf t, IsHashed trie.hashing t s ∧ key = rootHash trie.hashing s := by
  constructor
  · intro href
    obtain ⟨s, hs, ⟨rfl, heq⟩ | heq⟩ := h.exists_of_reachable hE hempty href
    · exact ⟨s, hs, .inl rfl, Item.bytes.inj heq⟩
    · by_cases hlen : 32 ≤ (encodeTree trie.hashing s).length
      · rw [refTree_of_long _ hlen] at heq
        exact ⟨s, hs, .inr hlen, Item.bytes.inj heq⟩
      · obtain ⟨items, hitems⟩ := rawTree_eq_list trie.hashing (ne_nil_of_mem_nodes hs)
        rw [refTree_of_short _ hlen, hitems] at heq
        cases heq
  · rintro ⟨s, hs, hhashed, rfl⟩
    have ht : t ≠ nil := by
      rintro rfl
      cases hs
    have hroot := MerklePatriciaTrie.Reachable.root (h.root_ne_empty hE hempty ht)
    have hbelow := MerklePatriciaTrie.reachable_of_mem_nodes hroot
      (h.lookupNode_of_mem hE (self_mem_nodesOf ht) (.inl ⟨rfl, by rw [h.root_eq]⟩))
      (fun u hu => h.lookupNode_of_mem hE hu (.inr rfl)) hs
    rcases hhashed with rfl | hlen
    · rwa [← h.root_eq]
    · rcases hbelow with rfl | hreach
      · rwa [← h.root_eq]
      · rwa [refTree_of_long _ hlen] at hreach

end Represents

/-- The nodes whose entries a call deletes, and the nodes beside them: the walk, and
after a removal a last child that is merged with what is above it. -/
def affected (keyOf : Bytes → Nibbles) (t : MPTree) : TrieOp → List MPTree × List MPTree
  | .put key v =>
    if t.lookup (keyOf key) = some v then ([], [])
    else (t.trail (keyOf key), (descend t (keyOf key) []).beside (List.finRange 16))
  | .del key =>
    match found (descend t (keyOf key) []), remnant (descend t (keyOf key) []) with
    | true, some r => (t.trail (keyOf key) ++ r.merged, r.beside)
    | _, _ => ([], [])

/-- No node whose entry the call deletes stands in a second place of the tree. -/
def Unshared (H : HashKeysFunction) (keyOf : Bytes → Nibbles) (t : MPTree) (op : TrieOp) : Prop :=
  Apart H (affected keyOf t op).1 (affected keyOf t op).2

def UnsharedRun (H : HashKeysFunction) (keyOf : Bytes → Nibbles) : MPTree → List TrieOp → Prop
  | _, [] => True
  | t, op :: ops => Unshared H keyOf t op ∧ UnsharedRun H keyOf (treeStep keyOf t op) ops

instance decidableUnsharedRun (H : HashKeysFunction) (keyOf : Bytes → Nibbles) :
    ∀ (t : MPTree) (ops : List TrieOp), Decidable (UnsharedRun H keyOf t ops)
  | _, [] => isTrue trivial
  | t, op :: ops =>
    @instDecidableAnd _ _ (inferInstanceAs (Decidable (Apart H _ _)))
      (decidableUnsharedRun H keyOf (treeStep keyOf t op) ops)

/-- The encodings of all nodes of the trees of a run. -/
def historyEncodings (H : HashKeysFunction) (keyOf : Bytes → Nibbles) :
    MPTree → List TrieOp → List Bytes
  | t, [] => (nodesOf t).map (encodeTree H)
  | t, op :: ops =>
    (nodesOf t).map (encodeTree H) ++ historyEncodings H keyOf (treeStep keyOf t op) ops

theorem allEncodedIn_of_history {H : HashKeysFunction} {E : Set Bytes} {keyOf : Bytes → Nibbles}
    {t : MPTree} {ops : List TrieOp} (h : ∀ e ∈ historyEncodings H keyOf t ops, e ∈ E) :
    AllEncodedIn H E t := by
  refine all_iff_nodesOf.mpr fun s hs => h _ ?_
  have hmem : encodeTree H s ∈ (nodesOf t).map (encodeTree H) := List.mem_map_of_mem hs
  cases ops with
  | nil => exact hmem
  | cons op ops => exact List.mem_append_left _ hmem

namespace Pruned

variable {E : Set Bytes} {trie : MerklePatriciaTrie} {t : MPTree}

theorem delete (h : Pruned E trie t) (hE : CollisionFree trie.hashing E)
    (hempty : RLP_EMPTY_STRING ∈ E) (huse : trie.opts.useNodePruning = true) {key : Bytes}
    (ht : CanonAt (trie.pathOf key).length t)
    (hfound : found (descend t (trie.pathOf key) []) = true)
    (hknown : AllEncodedIn trie.hashing E t)
    (hknown' : AllEncodedIn trie.hashing E (EthereumJS.delete t (trie.pathOf key)))
    (hun : Unshared trie.hashing trie.pathOf t (.del key)) :
    Pruned E (trie.write ⟨rootHash trie.hashing (EthereumJS.delete t (trie.pathOf key)),
      trie.deleteOps (descend t (trie.pathOf key) []) ++
        (t.trail (trie.pathOf key)).map (delNode trie.hashing)⟩)
      (EthereumJS.delete t (trie.pathOf key)) := by
  have hcanon := ht.resolve_left (by
    rintro rfl
    simp [found] at hfound)
  rcases site_of_found hcanon hfound with ⟨w, rfl⟩ | ⟨c, a, v, ctx, p, w, hsite⟩
  · have hempty' := h.delete_leaf hE hempty
    simpa [EthereumJS.delete, deleteAt, found, remnant, MerklePatriciaTrie.deleteOps]
      using hempty'
  · refine h.delete_below hE hempty huse hcanon hknown hknown' hsite ?_
    have hremnant : remnant (descend t (trie.pathOf key) []) = some (remnantOf c a v ctx) := by
      rw [hsite]
      rfl
    simpa only [Unshared, affected, hfound, hremnant] using hun

/-- One call keeps the database pruned. -/
theorem step (h : Pruned E trie t) (hE : CollisionFree trie.hashing E)
    (hempty : RLP_EMPTY_STRING ∈ E) (huse : trie.opts.useNodePruning = true) {op : TrieOp}
    (ht : CanonAt (trie.pathOf op.key).length t) (hknown : AllEncodedIn trie.hashing E t)
    (hknown' : AllEncodedIn trie.hashing E (treeStep trie.pathOf t op))
    (hun : Unshared trie.hashing trie.pathOf t op) :
    ∃ effect, trie.effectOf op = .ok effect ∧
      Pruned E (trie.write effect) (treeStep trie.pathOf t op) := by
  cases op with
  | put key v =>
    refine ⟨_, h.represents.putEffect_pruning hE hempty huse key v, ?_⟩
    refine h.insert hE hempty ht hknown hknown' ?_
    by_cases hsame : t.lookup (trie.pathOf key) = some v
    · exact .inl hsame
    · rw [Unshared, affected, if_neg hsame] at hun
      exact .inr hun
  | del key =>
    refine ⟨_, h.represents.delEffect_pruning hE huse key, ?_⟩
    by_cases hfound : found (descend t (trie.pathOf key) []) = true
    · rw [if_pos hfound]
      exact h.delete hE hempty huse ht hfound hknown hknown' hun
    · rw [if_neg hfound, treeStep, EthereumJS.delete, deleteAt, if_neg hfound,
        ← h.represents.root_eq]
      exact h

end Pruned

namespace Represents

variable {E : Set Bytes} {trie : MerklePatriciaTrie} {t : MPTree}

/-- Without pruning, a call only writes nodes of the new tree. -/
theorem step_of_known (h : Represents E trie t) (hE : CollisionFree trie.hashing E)
    (hempty : RLP_EMPTY_STRING ∈ E) (hprune : trie.opts.useNodePruning = false) {op : TrieOp}
    (ht : CanonAt (trie.pathOf op.key).length t)
    (hknown' : AllEncodedIn trie.hashing E (treeStep trie.pathOf t op)) :
    ∃ effect, trie.effectOf op = .ok effect ∧
      Represents E (trie.write effect) (treeStep trie.pathOf t op) := by
  cases op with
  | put key v =>
    refine ⟨_, h.putEffect hE hempty hprune key v, h.put hE hempty hprune
      (h.putEffect hE hempty hprune key v) fun key' e hop => ?_⟩
    rcases trie.mem_insertOps ht hop with ⟨u, hu, _, heq, _⟩ | ⟨_, _, _, heq⟩
    · rw [(BatchDBOp.put.inj heq).2]
      exact hknown'.mem hu
    · cases heq
  | del key =>
    refine ⟨_, h.delEffect hE hprune key, h.del hE hempty hprune (h.delEffect hE hprune key)
      fun key' e hop => ?_⟩
    simp only at hop
    split at hop
    · rename_i hfound
      have hcanon := ht.resolve_left (by
        rintro rfl
        simp [found] at hfound)
      obtain ⟨s, hs, rfl⟩ := trie.put_mem_deleteOps hcanon hfound hop
      exact hknown'.mem hs
    · cases hop

end Represents

/-- Two tries, one with pruning and one without, in runs that meet the condition. -/
theorem Pruned.run {E : Set Bytes} {trie plain : MerklePatriciaTrie} {t : MPTree}
    (h : Pruned E trie t) (hplain : Represents E plain t) (hE : CollisionFree trie.hashing E)
    (hempty : RLP_EMPTY_STRING ∈ E) (huse : trie.opts.useNodePruning = true)
    (hopts : plain.opts = { trie.opts with useNodePruning := false }) {n : Nat}
    {ops : List TrieOp} (ht : CanonAt n t) (hlen : ∀ op ∈ ops, (trie.pathOf op.key).length = n)
    (hmem : ∀ e ∈ historyEncodings trie.hashing trie.pathOf t ops, e ∈ E)
    (hun : UnsharedRun trie.hashing trie.pathOf t ops) :
    ∃ trie' plain', trie.run ops = .ok trie' ∧ plain.run ops = .ok plain' ∧
      trie'.opts = trie.opts ∧ plain'.opts = plain.opts ∧
      Pruned E trie' (treeAfter trie.pathOf t ops) ∧
      Represents E plain' (treeAfter trie.pathOf t ops) := by
  induction ops generalizing trie plain t with
  | nil => exact ⟨trie, plain, rfl, rfl, rfl, rfl, h, hplain⟩
  | cons op ops ih =>
    rw [List.forall_mem_cons] at hlen
    have hash : plain.hashing = trie.hashing := by
      rw [MerklePatriciaTrie.hashing, hopts]
    have hpath : plain.pathOf = trie.pathOf := by
      funext key
      simp only [MerklePatriciaTrie.pathOf, MerklePatriciaTrie.appliedKey, MerklePatriciaTrie.hash,
        hopts]
    have hknown := allEncodedIn_of_history hmem
    have hmem' : ∀ e ∈ historyEncodings trie.hashing trie.pathOf (treeStep trie.pathOf t op) ops,
        e ∈ E := fun e he => hmem e (List.mem_append_right _ he)
    have hknown' := allEncodedIn_of_history hmem'
    obtain ⟨effect, heffect, hstep⟩ :=
      h.step hE hempty huse (hlen.1.symm ▸ ht) hknown hknown' hun.1
    obtain ⟨effect', heffect', hstep'⟩ := hplain.step_of_known (hash ▸ hE) hempty
      (by rw [hopts]) (hpath ▸ hlen.1.symm ▸ ht) (hash ▸ hpath ▸ hknown')
    rw [MerklePatriciaTrie.run_cons heffect, MerklePatriciaTrie.run_cons heffect']
    rw [hpath] at hstep'
    exact ih hstep hstep' hE huse hopts (ht.treeStep hlen.1) hlen.2 hmem' hun.2

/-- A pruning trie over keys of one length after any calls that delete no node with a
second place: the database holds what can be reached from the root and nothing else,
and every key has the value that it has without pruning. -/
theorem run_pruned (H : HashKeysFunction) {n : Nat} {ops : List TrieOp}
    (hlen : ∀ op ∈ ops, op.key.length = n)
    (hE : CollisionFree H
      { e | e ∈ RLP_EMPTY_STRING :: historyEncodings H bytesToNibbles nil ops })
    (hun : UnsharedRun H bytesToNibbles nil ops) :
    ∃ trie plain, (createMPT (pruningOpts H)).run ops = .ok trie ∧
      (createMPT (plainOpts H)).run ops = .ok plain ∧
      (∀ key, trie.db key ≠ none ↔ trie.Reachable (.bytes key)) ∧
      ∀ key, trie.get key false = plain.get key false := by
  have hnew : Pruned { e | e ∈ RLP_EMPTY_STRING :: historyEncodings H bytesToNibbles nil ops }
      (createMPT (pruningOpts H)) nil :=
    ⟨represents_createMPT _ _, fun key e he => by cases he⟩
  have hops : ∀ op ∈ ops, (bytesToNibbles op.key).length = 2 * n := by
    intro op hop
    rw [length_bytesToNibbles, hlen op hop]
  obtain ⟨trie, plain, hrun, hrun', hopts, hopts', hpruned, hplain⟩ :=
    hnew.run (represents_createMPT _ (plainOpts H)) hE List.mem_cons_self rfl rfl (.inl rfl) hops
      (fun e he => List.mem_cons_of_mem _ he) hun
  have hhash : trie.hashing = H := by rw [MerklePatriciaTrie.hashing, hopts]; rfl
  have hhash' : plain.hashing = H := by rw [MerklePatriciaTrie.hashing, hopts']; rfl
  refine ⟨trie, plain, hrun, hrun', fun key => ?_, fun key => ?_⟩
  · rw [hpruned.represents.reachable_iff (hhash ▸ hE) List.mem_cons_self]
    constructor
    · intro hkey
      obtain ⟨e, he⟩ := Option.ne_none_iff_exists'.mp hkey
      exact hpruned.noJunk key e he
    · rintro ⟨s, hs, rfl | hlong, rfl⟩
      · rw [(hpruned.represents.top (ne_nil_of_mem_nodes hs)).2]
        simp
      · rw [all_iff_nodesOf.mp hpruned.represents.stored s hs hlong]
        simp
  · rw [hpruned.represents.get (hhash ▸ hE), hplain.get (hhash' ▸ hE)]
    simp only [MerklePatriciaTrie.appliedKey, MerklePatriciaTrie.hash, hopts, hopts']
    rfl

def longValue (first : UInt8) : Value := .cons first (List.replicate 39 first)

/-- Two leaves that differ are updated and removed. -/
def distinctCalls : List TrieOp :=
  [.put [0x11] (longValue 1), .put [0x12] (longValue 2), .put [0x21] (longValue 3),
    .put [0x11] (longValue 4), .del [0x12], .put [0x21] (.cons 5 []), .del [0x21]]

theorem run_pruned_distinct :
    ∃ trie plain, (createMPT (pruningOpts polynomialHash)).run distinctCalls = .ok trie ∧
      (createMPT (plainOpts polynomialHash)).run distinctCalls = .ok plain ∧
      (∀ key, trie.db key ≠ none ↔ trie.Reachable (.bytes key)) ∧
      ∀ key, trie.get key false = plain.get key false :=
  @run_pruned polynomialHash 1 distinctCalls (by decide)
    (collisionFree_of_list (by decide +kernel)) (by decide +kernel)

/-- Two leaves with one encoding share an entry, which goes with the first of them. -/
def twinCalls : List TrieOp :=
  [.put [0x11] (longValue 1), .put [0x21] (longValue 1), .put [0x11] (longValue 2)]

theorem not_run_pruned_twins :
    (∀ op ∈ twinCalls, op.key.length = 1) ∧
      CollisionFree polynomialHash
        { e | e ∈ RLP_EMPTY_STRING :: historyEncodings polynomialHash bytesToNibbles nil twinCalls } ∧
      ∃ trie plain, (createMPT (pruningOpts polynomialHash)).run twinCalls = .ok trie ∧
        (createMPT (plainOpts polynomialHash)).run twinCalls = .ok plain ∧
        trie.get [0x21] false = .ok none ∧
        plain.get [0x21] false = .ok (some (.bytes (longValue 1).1)) := by
  refine ⟨by decide, collisionFree_of_list (by decide +kernel), ?_⟩
  have hpruned : ((createMPT (pruningOpts polynomialHash)).run twinCalls).bind
      (fun trie => trie.get [0x21] false) = .ok none := by decide +kernel
  have hplain : ((createMPT (plainOpts polynomialHash)).run twinCalls).bind
      (fun trie => trie.get [0x21] false) = .ok (some (.bytes (longValue 1).1)) := by
    decide +kernel
  cases hrun : (createMPT (pruningOpts polynomialHash)).run twinCalls with
  | error e =>
    rw [hrun] at hpruned
    cases hpruned
  | ok trie =>
    cases hrun' : (createMPT (plainOpts polynomialHash)).run twinCalls with
    | error e =>
      rw [hrun'] at hplain
      cases hplain
    | ok plain =>
      rw [hrun] at hpruned
      rw [hrun'] at hplain
      exact ⟨trie, plain, rfl, rfl, hpruned, hplain⟩

end EthereumJS
