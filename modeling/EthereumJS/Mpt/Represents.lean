import EthereumJS.Mpt.Written

/-! # Tries that store a tree

A trie represents a well-formed tree when its root is that of the tree and its
database holds the nodes. Without pruning, `get`, `put` and `del` on such a trie are
lookup, insertion and removal in the tree.
-/

namespace EthereumJS

open RLP Patricia Patricia.Tree

structure Represents (E : Set Bytes) (trie : MerklePatriciaTrie) (t : MPTree) : Prop where
  root_eq : trie.root = rootHash trie.hashing t
  wf : t.WF
  encoded : EncodedIn trie.hashing E t
  stored : t.All (Resident trie.hashing trie.db)
  top : t ≠ nil → encodeTree trie.hashing t ∈ E ∧
    trie.db (rootHash trie.hashing t) = some (encodeTree trie.hashing t)
  empty : trie.db trie.emptyTrieRoot = none

/-- The write of a node of a tree. -/
def IsStore (H : HashKeysFunction) (E : Set Bytes) (op : BatchDBOp) : Prop :=
  ∃ t : MPTree, t ≠ nil ∧ encodeTree H t ∈ E ∧ op = putNode H t

theorem putNode_inj {H : HashKeysFunction} {s t : MPTree} (h : putNode H s = putNode H t) :
    encodeTree H s = encodeTree H t :=
  (BatchDBOp.put.inj h).2

theorem IsStore.mem {H : HashKeysFunction} {E : Set Bytes} {t : MPTree}
    (h : IsStore H E (putNode H t)) : encodeTree H t ∈ E := by
  obtain ⟨s, _, hs, hop⟩ := h
  rwa [putNode_inj hop]

theorem MapDB.batch_append (db : MapDB) (ops ops' : List BatchDBOp) :
    db.batch (ops ++ ops') = (db.batch ops).batch ops' := by
  induction ops generalizing db with
  | nil => rfl
  | cons op ops ih => exact ih (db.execute op)

/-- Writes of nodes never overwrite a node by another one. -/
theorem batch_stores {H : HashKeysFunction} {E : Set Bytes} (hE : CollisionFree H E)
    {ops : List BatchDBOp} (hops : ∀ op ∈ ops, IsStore H E op) {t : MPTree}
    (ht : encodeTree H t ∈ E) {db : MapDB}
    (h : db (rootHash H t) = some (encodeTree H t) ∨ putNode H t ∈ ops) :
    db.batch ops (rootHash H t) = some (encodeTree H t) := by
  induction ops generalizing db with
  | nil => exact h.resolve_right (by simp)
  | cons op ops ih =>
    rw [List.forall_mem_cons] at hops
    obtain ⟨⟨s, _, hs, rfl⟩, hops⟩ := hops
    refine ih hops ?_
    by_cases hst : rootHash H t = rootHash H s
    · left
      rw [hE.injOn ht hs hst, hst]
      simp [MapDB.execute, putNode]
    · refine h.imp (fun hdb => ?_) fun hmem => ?_
      · simpa [MapDB.execute, putNode, hst] using hdb
      · refine (List.mem_cons.mp hmem).resolve_left fun hop => hst ?_
        exact (BatchDBOp.put.inj hop).1

/-- No node is written under the hash of the empty trie. -/
theorem batch_stores_empty {H : HashKeysFunction} {E : Set Bytes} (hE : CollisionFree H E)
    (hempty : RLP_EMPTY_STRING ∈ E) {ops : List BatchDBOp} (hops : ∀ op ∈ ops, IsStore H E op)
    {db : MapDB} (h : db (H.hash RLP_EMPTY_STRING) = none) :
    db.batch ops (H.hash RLP_EMPTY_STRING) = none := by
  induction ops generalizing db with
  | nil => exact h
  | cons op ops ih =>
    rw [List.forall_mem_cons] at hops
    obtain ⟨⟨s, hs, hmem, rfl⟩, hops⟩ := hops
    have hne := rootHash_ne_empty H hE hs hmem hempty
    exact ih hops (by simpa [MapDB.execute, putNode, Ne.symm hne] using h)

namespace Represents

variable {E : Set Bytes} {trie : MerklePatriciaTrie} {t : MPTree}

theorem lookupNode_trail (h : Represents E trie t) (hE : CollisionFree trie.hashing E)
    {k : Nibbles} {s : MPTree} (hs : s ∈ t.trail k) :
    trie.lookupNode (refTree trie.hashing s) = .ok (nodeOf trie.hashing s) := by
  have hne := ne_nil_of_mem_trail hs
  exact trie.lookupNode_resident hE hne ((h.encoded.of_mem_trail hs).self hne)
    ((h.stored.of_mem_trail hs).self hne)

theorem findPath (h : Represents E trie t) (hE : CollisionFree trie.hashing E) (ht : t ≠ nil)
    (key : Bytes) (throwIfMissing : Bool) :
    trie.findPath key throwIfMissing =
      .ok (pathAt trie.hashing (descend t (bytesToNibbles key) [])) := by
  have hroot := trie.lookupNode_hash hE ht (h.top ht).1 (h.top ht).2
  rw [← h.root_eq] at hroot
  exact trie.walk_resident throwIfMissing ht h.wf hroot _ [] _ (by omega) fun s hs =>
    h.lookupNode_trail hE (List.mem_of_mem_tail hs)

theorem findPath_empty (h : Represents E trie nil) (key : Bytes) :
    trie.findPath key false = .ok ⟨none, [], []⟩ := by
  have hroot : trie.root = trie.emptyTrieRoot := h.root_eq
  rw [MerklePatriciaTrie.findPath, MerklePatriciaTrie.walk, MerklePatriciaTrie.lookupNode, hroot,
    h.empty]
  rfl

/-- `get` reads the value of the key in the tree. -/
theorem get (h : Represents E trie t) (hE : CollisionFree trie.hashing E) (key : Bytes) :
    trie.get key false =
      .ok ((t.lookup (bytesToNibbles (trie.appliedKey key))).map fun v => .bytes v.1) := by
  rw [trie.get_eq]
  by_cases ht : t = nil
  · subst ht
    rw [h.findPath_empty]
    simp [Except.map, Path.result]
  · rw [h.findPath hE ht, lookup_descend t]
    exact congrArg Except.ok (result_pathAt _ (descend_stuck _ _ _))

theorem root_ne_empty (h : Represents E trie t) (hE : CollisionFree trie.hashing E)
    (hempty : RLP_EMPTY_STRING ∈ E) (ht : t ≠ nil) : trie.root ≠ trie.emptyTrieRoot := by
  rw [h.root_eq]
  exact rootHash_ne_empty _ hE ht (h.top ht).1 hempty

theorem root_eq_empty_iff (h : Represents E trie t) (hE : CollisionFree trie.hashing E)
    (hempty : RLP_EMPTY_STRING ∈ E) : trie.root = trie.emptyTrieRoot ↔ t = nil := by
  constructor
  · intro hroot
    by_contra ht
    exact h.root_ne_empty hE hempty ht hroot
  · rintro rfl
    exact h.root_eq

/-- The nodes that are kept and the ones that are written make up the new trie. -/
theorem write (h : Represents E trie t) (hE : CollisionFree trie.hashing E)
    (hempty : RLP_EMPTY_STRING ∈ E) {t' : MPTree} {ops : List BatchDBOp} (hwf : t'.WF)
    (hops : ∀ op ∈ ops, IsStore trie.hashing E op)
    (hcov : t'.All (Covered trie.hashing ops fun s =>
      Resident trie.hashing trie.db s ∧ HashedIn trie.hashing E s))
    (htop : t' ≠ nil → putNode trie.hashing t' ∈ ops) :
    Represents E (trie.write ⟨rootHash trie.hashing t', ops⟩) t' := by
  have hin : ∀ s, putNode trie.hashing s ∈ ops → encodeTree trie.hashing s ∈ E :=
    fun s hs => (hops _ hs).mem
  refine ⟨rfl, hwf, hcov.mono ?_, hcov.mono ?_, ?_, ?_⟩
  · rintro s (⟨_, hmem⟩ | hput) hlen
    · exact hmem hlen
    · exact hin s (hput hlen)
  · rintro s (⟨hres, hmem⟩ | hput) hlen
    · exact batch_stores hE hops (hmem hlen) (Or.inl (hres hlen))
    · exact batch_stores hE hops (hin s (hput hlen)) (Or.inr (hput hlen))
  · intro ht'
    exact ⟨hin t' (htop ht'), batch_stores hE hops (hin t' (htop ht')) (Or.inr (htop ht'))⟩
  · exact batch_stores_empty hE hempty hops h.empty

theorem kept (h : Represents E trie t) : t.All fun s =>
    Resident trie.hashing trie.db s ∧ HashedIn trie.hashing E s :=
  h.stored.and h.encoded

end Represents

theorem putNode_of_savedOps {H : HashKeysFunction} {ctx : List (Frame Nibble Value)} {s : MPTree}
    (hs : s ≠ nil) {op : BatchDBOp} (h : op ∈ savedOps H ctx s) :
    ∃ u : MPTree, u ≠ nil ∧ op = putNode H u := by
  obtain ⟨u, hu, hop, _⟩ := mem_savedOps H h
  refine ⟨u, ?_, hop⟩
  rcases List.mem_cons.mp hu with rfl | hu
  · exact hs
  · exact ne_nil_of_mem_spine hu

theorem putNode_of_storeOps {H : HashKeysFunction} {t : MPTree} {op : BatchDBOp}
    (h : op ∈ storeOps H t) : ∃ u : MPTree, u ≠ nil ∧ op = putNode H u := by
  obtain ⟨hop, hlen⟩ := mem_storeOps H h
  refine ⟨t, ?_, hop⟩
  rintro rfl
  simp [RLP_EMPTY_STRING] at hlen

theorem insertSite_ne_nil (s : MPTree) (r : Nibbles) (v : Value) : (insertSite s r v).2 ≠ nil := by
  cases s with
  | nil => simp [insertSite]
  | branch c w => simp [insertSite]
  | leaf p w =>
    simp only [insertSite, diverge]
    split
    · simp
    · split <;> simp
  | ext p c =>
    simp only [insertSite, diverge]
    split <;> simp

theorem shrinkSite_ne_nil (ctx : List (Frame Nibble Value)) (c : Nibble → MPTree)
    (w : Option Value) : (shrinkSite ctx c w).2 ≠ nil := by
  by_cases honly : ∃ a, Only c a
  · obtain ⟨a, ha⟩ := honly
    rw [shrinkSite, childSlots_of_only ha]
    exact MerklePatriciaTrie.graftSite_ne_nil ctx a ha.1
  · rw [shrinkSite_of_not_only (by simpa using honly)]
    simp

namespace MerklePatriciaTrie

variable (trie : MerklePatriciaTrie)

/-- Without pruning, an insertion only writes nodes. -/
theorem putNode_of_insertOps (hprune : trie.opts.useNodePruning = false)
    {site : Site Nibble Value} {v : Value} {op : BatchDBOp} (h : op ∈ trie.insertOps site v) :
    ∃ u : MPTree, u ≠ nil ∧ op = putNode trie.hashing u := by
  have hdiverge : ∀ s n, op ∈ trie.divergeOps s n →
      ∃ u : MPTree, u ≠ nil ∧ op = putNode trie.hashing u := by
    intro s n hop
    cases s with
    | nil => cases hop
    | branch c w => cases hop
    | leaf p w =>
      simp only [divergeOps] at hop
      split at hop
      · cases hop
      · exact putNode_of_storeOps hop
    | ext p c =>
      simp only [divergeOps] at hop
      split at hop
      · cases hop
      · simp [dropOps, hprune] at hop
      · exact putNode_of_storeOps hop
  rcases List.mem_append.mp h with h | h
  · unfold focusOps at h
    split at h
    · split at h
      · cases h
      · exact hdiverge _ _ h
    · exact hdiverge _ _ h
    · cases h
  · exact putNode_of_savedOps (insertSite_ne_nil _ _ v) h

theorem putNode_of_deleteOps (hprune : trie.opts.useNodePruning = false)
    {site : Site Nibble Value} {op : BatchDBOp} (h : op ∈ trie.deleteOps site) :
    ∃ u : MPTree, u ≠ nil ∧ op = putNode trie.hashing u := by
  unfold deleteOps at h
  split at h
  · have hleaf : trie.leafOps site.focus = [] := by
      unfold leafOps
      split <;> simp [dropOps, hprune]
    have hmerge : ∀ c, trie.mergeOps c = [] := by
      intro c
      unfold mergeOps
      split <;> simp [hprune]
    rw [hleaf, hmerge] at h
    exact putNode_of_savedOps (shrinkSite_ne_nil _ _ _) (by simpa using h)
  · cases h

end MerklePatriciaTrie

theorem isStore_of_putNode {H : HashKeysFunction} {E : Set Bytes} {ops : List BatchDBOp}
    (hputs : ∀ op ∈ ops, ∃ u : MPTree, u ≠ nil ∧ op = putNode H u)
    (hmem : ∀ key e, BatchDBOp.put key e ∈ ops → e ∈ E) (op : BatchDBOp) (h : op ∈ ops) :
    IsStore H E op := by
  obtain ⟨u, hu, rfl⟩ := hputs op h
  exact ⟨u, hu, hmem _ _ h, rfl⟩

/-- The branch that is left by a removal is well formed in its context. -/
theorem wf_remnant {site : Site Nibble Value} (h : (plug site.ctx site.focus).WF) {r : Remnant}
    (hr : remnant site = some r) : CtxWF r.ctx ∧ ∀ a, (r.children a).WF := by
  obtain ⟨ctx, focus, rest⟩ := site
  obtain ⟨hctx, hfocus, _⟩ := (wf_plug ctx focus).mp h
  cases focus with
  | nil => simp [remnant] at hr
  | ext p c => simp [remnant] at hr
  | branch c w =>
    cases ctx with
    | nil => simp [remnant] at hr
    | cons f ctx =>
      obtain rfl := Option.some.inj hr
      exact ⟨hctx, hfocus⟩
  | leaf p w =>
    cases ctx with
    | nil => simp [remnant] at hr
    | cons f ctx =>
      cases f with
      | ext p => simp [remnant] at hr
      | branch c a v =>
        obtain rfl := Option.some.inj hr
        refine ⟨hctx.2.1, fun b => ?_⟩
        by_cases hb : b = a
        · subst hb
          simp only [Function.update_self]
          trivial
        · simp only [Function.update_of_ne hb]
          exact hctx.1 b hb

theorem wf_shrink {ctx : List (Frame Nibble Value)} (hctx : CtxWF ctx) {c : Nibble → MPTree}
    (hc : ∀ a, (c a).WF) (w : Option Value) : (shrink ctx c w).WF := by
  by_cases honly : ∃ a, Only c a
  · obtain ⟨a, ha⟩ := honly
    rw [shrink_of_only ha]
    exact wf_graft hctx a (hc a)
  · rw [shrink_of_not_only (by simpa using honly)]
    exact (wf_plug ctx _).mpr ⟨hctx, hc, fun _ => trivial⟩

theorem wf_delete {t : MPTree} (ht : t.WF) (k : Nibbles) : (delete t k).WF := by
  have hplug := plug_descend t k []
  rw [plug_nil] at hplug
  unfold delete deleteAt
  split
  · split
    · rename_i r hr
      obtain ⟨hctx, hc⟩ := wf_remnant (hplug.symm ▸ ht) hr
      exact wf_shrink hctx hc r.value
    · trivial
  · exact ht

namespace MerklePatriciaTrie

variable {trie : MerklePatriciaTrie}

theorem putEffect_of_empty (hroot : trie.root = trie.emptyTrieRoot) (key : Bytes) (v : Value) :
    trie.putEffect key (some v.1) false = .ok (trie.createInitialNode (trie.appliedKey key) v.1) := by
  obtain ⟨bytes, hbytes⟩ := v
  unfold putEffect
  cases bytes with
  | nil => exact absurd rfl hbytes
  | cons b bytes => exact if_pos hroot

/-- Without pruning, `put` is `_updateNode` on the path that `findPath` returns. -/
theorem putEffect_of_findPath (hprune : trie.opts.useNodePruning = false)
    (hroot : trie.root ≠ trie.emptyTrieRoot) {key : Bytes} {path : Path}
    (hfind : trie.findPath (trie.appliedKey key) false = .ok path) (v : Value) :
    trie.putEffect key (some v.1) false =
      trie.updateNode (trie.appliedKey key) v.1 path.remaining path.stack := by
  obtain ⟨bytes, hbytes⟩ := v
  unfold putEffect
  cases bytes with
  | nil => exact absurd rfl hbytes
  | cons b bytes =>
    simp only [Bool.false_eq_true, if_false, if_neg hroot, hfind, hprune, bind, Except.bind, pure,
      Except.pure]
    cases trie.updateNode (trie.appliedKey key) (b :: bytes) path.remaining path.stack with
    | error e => rfl
    | ok effect => simp

/-- Without pruning, `del` is `_deleteNode` if `findPath` returns a node. -/
theorem delEffect_of_findPath (hprune : trie.opts.useNodePruning = false) {key : Bytes}
    {path : Path} (hfind : trie.findPath (trie.appliedKey key) false = .ok path) :
    trie.delEffect key false =
      if path.node.isSome then trie.deleteNode (trie.appliedKey key) path.stack
      else .ok ⟨trie.root, []⟩ := by
  unfold delEffect
  simp only [Bool.false_eq_true, if_false, hfind, hprune, bind, Except.bind]
  cases path.node with
  | none => rfl
  | some node =>
    cases hdelete : trie.deleteNode (trie.appliedKey key) path.stack with
    | error e => rfl
    | ok effect => simp

end MerklePatriciaTrie

namespace Represents

variable {E : Set Bytes} {trie : MerklePatriciaTrie} {t : MPTree}

/-- The site where a walk in a well-formed tree stops: an empty slot below a branch, or
a node that may stand below the nodes above it. -/
theorem site_of_wf (hwf : t.WF) (ht : t ≠ nil) (k : Nibbles) :
    ((descend t k []).focus = nil →
      ∃ c a w ctx, (descend t k []).ctx = .branch c a w :: ctx) ∧
    (NeedsBranch (descend t k []).ctx → (descend t k []).focus.IsBranch) := by
  have hplug := plug_descend t k []
  rw [plug_nil] at hplug
  generalize descend t k [] = site at hplug ⊢
  obtain ⟨ctx, focus, rest⟩ := site
  rw [← hplug] at hwf ht
  have hneed := ((wf_plug ctx focus).mp hwf).2.2
  refine ⟨?_, hneed⟩
  rintro rfl
  cases ctx with
  | nil => exact absurd rfl ht
  | cons f ctx =>
    cases f with
    | ext p => exact absurd (hneed trivial) id
    | branch c a w => exact ⟨c, a, w, ctx, rfl⟩

theorem putEffect (h : Represents E trie t) (hE : CollisionFree trie.hashing E)
    (hempty : RLP_EMPTY_STRING ∈ E) (hprune : trie.opts.useNodePruning = false) (key : Bytes)
    (v : Value) :
    trie.putEffect key (some v.1) false =
      .ok ⟨rootHash trie.hashing (Patricia.insert t (bytesToNibbles (trie.appliedKey key)) v),
        trie.insertOps (descend t (bytesToNibbles (trie.appliedKey key)) []) v⟩ := by
  by_cases ht : t = nil
  · subst ht
    exact MerklePatriciaTrie.putEffect_of_empty h.root_eq key v
  · have hkey := ctxPath_descend t (bytesToNibbles (trie.appliedKey key)) []
    rw [ctxPath_nil, List.nil_append] at hkey
    have hsite := site_of_wf h.wf ht (bytesToNibbles (trie.appliedKey key))
    rw [MerklePatriciaTrie.putEffect_of_findPath hprune (h.root_ne_empty hE hempty ht)
      (h.findPath hE ht _ _)]
    exact trie.updateNode_pathAt (descend_stuck _ _ _) hsite.1 v hkey.symm

/-- `put` inserts the value. -/
theorem put (h : Represents E trie t) (hE : CollisionFree trie.hashing E)
    (hempty : RLP_EMPTY_STRING ∈ E) (hprune : trie.opts.useNodePruning = false) {key : Bytes}
    {v : Value} {effect : Effect} (heffect : trie.putEffect key (some v.1) false = .ok effect)
    (hmem : ∀ key e, BatchDBOp.put key e ∈ effect.batch → e ∈ E) :
    Represents E (trie.write effect)
      (Patricia.insert t (bytesToNibbles (trie.appliedKey key)) v) := by
  rw [h.putEffect hE hempty hprune] at heffect
  obtain rfl := Except.ok.inj heffect
  refine h.write hE hempty (wf_insert h.wf _ v) ?_
    (trie.covered_insert ((all_iff_beside _ t _).mp h.kept).1 v) fun _ => ?_
  · exact isStore_of_putNode (fun op hop => trie.putNode_of_insertOps hprune hop) hmem
  · exact List.mem_append_right _ (savedOps_top _ _ _)

theorem delEffect (h : Represents E trie t) (hE : CollisionFree trie.hashing E)
    (hprune : trie.opts.useNodePruning = false) (key : Bytes) :
    trie.delEffect key false =
      .ok ⟨rootHash trie.hashing (delete t (bytesToNibbles (trie.appliedKey key))),
        if found (descend t (bytesToNibbles (trie.appliedKey key)) []) then
          trie.deleteOps (descend t (bytesToNibbles (trie.appliedKey key)) []) else []⟩ := by
  by_cases ht : t = nil
  · subst ht
    rw [MerklePatriciaTrie.delEffect_of_findPath hprune (h.findPath_empty _)]
    simp [found, delete, deleteAt, h.root_eq]
  · rw [MerklePatriciaTrie.delEffect_of_findPath hprune (h.findPath hE ht _ _), found_iff]
    generalize hk : bytesToNibbles (trie.appliedKey key) = k
    have hkey := ctxPath_descend t k []
    rw [ctxPath_nil, List.nil_append] at hkey
    have hplug := plug_descend t k []
    rw [plug_nil] at hplug
    by_cases hfound : found (descend t k []) = true
    · simp only [hfound, if_true, Option.isSome_some]
      refine trie.deleteNode_spec (descend_stuck t k []) hfound (site_of_wf h.wf ht k).2
        (hk.trans hkey.symm) t fun r a hr ha => ?_
      have hres := (all_remnant (hplug.symm ▸ h.kept) hr).1 a |>.self ha.1
      exact trie.lookupNode_resident hE ha.1 hres.2 hres.1
    · simp [hfound, delete, deleteAt, h.root_eq]

/-- `del` removes the key as the tree-side function does. -/
theorem del (h : Represents E trie t) (hE : CollisionFree trie.hashing E)
    (hempty : RLP_EMPTY_STRING ∈ E) (hprune : trie.opts.useNodePruning = false) {key : Bytes}
    {effect : Effect} (heffect : trie.delEffect key false = .ok effect)
    (hmem : ∀ key e, BatchDBOp.put key e ∈ effect.batch → e ∈ E) :
    Represents E (trie.write effect) (delete t (bytesToNibbles (trie.appliedKey key))) := by
  rw [h.delEffect hE hprune] at heffect
  obtain rfl := Except.ok.inj heffect
  generalize bytesToNibbles (trie.appliedKey key) = k at hmem ⊢
  by_cases hfound : found (descend t k []) = true
  · rw [if_pos hfound] at hmem ⊢
    have hplug := plug_descend t k []
    rw [plug_nil] at hplug
    refine h.write hE hempty (wf_delete h.wf k) ?_ (trie.covered_deleteAt hfound fun r hr =>
      beside_of_all (hplug.symm ▸ h.kept) hr) ?_
    · exact isStore_of_putNode (fun op hop => trie.putNode_of_deleteOps hprune hop) hmem
    · intro hne
      unfold delete deleteAt at hne ⊢
      unfold MerklePatriciaTrie.deleteOps
      rw [if_pos hfound] at hne ⊢
      cases hr : remnant (descend t k []) with
      | none =>
        rw [hr] at hne
        exact absurd rfl hne
      | some r => exact List.mem_append_right _ (savedOps_top _ _ _)
  · rw [if_neg hfound, delete, deleteAt, if_neg hfound, ← h.root_eq]
    exact h

end Represents

end EthereumJS
