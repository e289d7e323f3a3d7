import EthereumJS.Mpt.FixedLength
import EthereumJS.Mpt.Partial

/-! # A trie that prunes

With `useNodePruning`, `put` and `del` end with the deletion of the entries of all nodes
on the walk. The updated trie keeps its own nodes as long as none of them has the
encoding of a deleted one.
-/

namespace EthereumJS

open RLP Patricia Patricia.Tree

/-- All nodes of a tree. -/
abbrev nodesOf (t : MPTree) : List MPTree := t.allNodes (List.finRange 16)

theorem all_iff_nodesOf {P : MPTree → Prop} {t : MPTree} : t.All P ↔ ∀ s ∈ nodesOf t, P s :=
  all_iff_allNodes List.mem_finRange

theorem self_mem_nodesOf {t : MPTree} (ht : t ≠ nil) : t ∈ nodesOf t :=
  (all_iff_nodesOf.mpr fun _ hs => hs).self ht

/-- A node that the trie refers to by its hash: the root, and a node that is too long to
stand in its parent. -/
def IsHashed (H : HashKeysFunction) (t s : MPTree) : Prop :=
  s = t ∨ 32 ≤ (encodeTree H s).length

def delNode (H : HashKeysFunction) (t : MPTree) : BatchDBOp := .del (rootHash H t)

/-- An entry after a batch was put by it, or it was there before and no deletion hit it. -/
theorem batch_eq_some {ops : List BatchDBOp} {db : MapDB} {key e : Bytes}
    (h : db.batch ops key = some e) : .put key e ∈ ops ∨ db key = some e ∧ .del key ∉ ops := by
  induction ops generalizing db with
  | nil => exact .inr ⟨h, by simp⟩
  | cons op ops ih =>
    rcases ih h with hput | ⟨hdb, hdel⟩
    · exact .inl (List.mem_cons_of_mem _ hput)
    · cases op with
      | put key' value =>
        by_cases hkey : key = key'
        · subst hkey
          obtain rfl : value = e := by simpa [MapDB.execute] using hdb
          exact .inl List.mem_cons_self
        · exact .inr ⟨by simpa [MapDB.execute, hkey] using hdb, by simpa using hdel⟩
      | del key' =>
        by_cases hkey : key = key'
        · subst hkey
          simp [MapDB.execute] at hdb
        · exact .inr ⟨by simpa [MapDB.execute, hkey] using hdb, by simp [hkey, hdel]⟩

/-- An entry that is there or put stays, if it is neither deleted nor overwritten. -/
theorem batch_of_kept {ops : List BatchDBOp} {db : MapDB} {key e : Bytes}
    (h : db key = some e ∨ .put key e ∈ ops) (hdel : .del key ∉ ops)
    (hput : ∀ e', .put key e' ∈ ops → e' = e) : db.batch ops key = some e := by
  induction ops generalizing db with
  | nil => exact h.resolve_right (by simp)
  | cons op ops ih =>
    have hdel' : .del key ∉ ops := fun hmem => hdel (List.mem_cons_of_mem _ hmem)
    refine ih ?_ hdel' fun e' he' => hput e' (List.mem_cons_of_mem _ he')
    cases op with
    | put key' value =>
      by_cases hkey : key = key'
      · subst hkey
        have hvalue := hput value List.mem_cons_self
        exact .inl (by simp [MapDB.execute, hvalue])
      · refine h.imp (fun hdb => by simpa [MapDB.execute, hkey] using hdb) fun hmem => ?_
        exact (List.mem_cons.mp hmem).resolve_left fun hop => hkey (BatchDBOp.put.inj hop).1
    | del key' =>
      have hkey : key ≠ key' := fun hkey => hdel (hkey ▸ List.mem_cons_self)
      refine h.imp (fun hdb => by simpa [MapDB.execute, hkey] using hdb) fun hmem => ?_
      exact (List.mem_cons.mp hmem).resolve_left (by rintro ⟨⟩)

namespace MerklePatriciaTrie

variable (trie : MerklePatriciaTrie)

theorem createPruneDeleteOps_pathAt (t : MPTree) (k : Nibbles) :
    trie.createPruneDeleteOps (pathAt trie.hashing (descend t k [])).stack =
      (t.trail k).map (delNode trie.hashing) := by
  rw [createPruneDeleteOps, stack_pathAt, List.reverse_reverse, List.map_map]
  refine List.map_congr_left fun d hd => ?_
  rw [Function.comp_apply, serialize_nodeOf _ (ne_nil_of_mem_trail hd)]
  rfl

/-- The deletions that a `put` makes in the end. -/
def putPruning (t : MPTree) (k : Nibbles) (v : Value) : List BatchDBOp :=
  if t.lookup k = some v then [] else (t.trail k).map (delNode trie.hashing)

end MerklePatriciaTrie

namespace Represents

variable {E : Set Bytes} {trie : MerklePatriciaTrie} {t : MPTree}

theorem putEffect_pruning (h : Represents E trie t) (hE : CollisionFree trie.hashing E)
    (hempty : RLP_EMPTY_STRING ∈ E) (huse : trie.opts.useNodePruning = true) (key : Bytes)
    (v : Value) :
    trie.putEffect key (some v.1) false =
      .ok ⟨rootHash trie.hashing (Patricia.insert t (trie.pathOf key) v),
        trie.insertOps (descend t (trie.pathOf key) []) v ++
          trie.putPruning t (trie.pathOf key) v⟩ := by
  by_cases ht : t = nil
  · subst ht
    rw [MerklePatriciaTrie.putEffect_of_empty h.root_eq]
    simp only [MerklePatriciaTrie.putPruning, trail_nil, List.map_nil, ite_self, List.append_nil]
    rfl
  · have hkey := ctxPath_descend t (trie.pathOf key) []
    rw [ctxPath_nil, List.nil_append] at hkey
    have hsite := site_of_wf h.wf ht (trie.pathOf key)
    have hupdate := trie.updateNode_pathAt (descend_stuck _ _ _) hsite.1 v hkey.symm
    have hops := trie.createPruneDeleteOps_pathAt t (trie.pathOf key)
    have hfind := h.findPath hE ht (trie.appliedKey key) false
    have hval : (t.lookup (trie.pathOf key)).map (fun w => Item.bytes w.1) = some (.bytes v.1) ↔
        t.lookup (trie.pathOf key) = some v := by
      cases t.lookup (trie.pathOf key) with
      | none => simp
      | some w => simp [Subtype.ext_iff]
    unfold MerklePatriciaTrie.putEffect MerklePatriciaTrie.putPruning
    obtain ⟨bytes, hbytes⟩ := v
    cases bytes with
    | nil => exact absurd rfl hbytes
    | cons b bytes =>
      simp only [Bool.false_eq_true, if_false, if_neg (h.root_ne_empty hE hempty ht), hfind, huse,
        if_true, h.get hE, bind, Except.bind, pure, Except.pure]
      rw [MerklePatriciaTrie.pathOf] at hupdate hops hval ⊢
      simp only [hupdate, hops, hval]
      rfl

theorem delEffect_pruning (h : Represents E trie t) (hE : CollisionFree trie.hashing E)
    (huse : trie.opts.useNodePruning = true) (key : Bytes) :
    trie.delEffect key false =
      .ok ⟨rootHash trie.hashing (delete t (trie.pathOf key)),
        if found (descend t (trie.pathOf key) []) then
          trie.deleteOps (descend t (trie.pathOf key) []) ++
            (t.trail (trie.pathOf key)).map (delNode trie.hashing)
        else []⟩ := by
  unfold MerklePatriciaTrie.delEffect
  by_cases ht : t = nil
  · subst ht
    simp only [Bool.false_eq_true, if_false, h.findPath_empty, bind, Except.bind]
    simp [found, delete, deleteAt, h.root_eq]
  · have hkey := ctxPath_descend t (trie.pathOf key) []
    rw [ctxPath_nil, List.nil_append] at hkey
    have hops := trie.createPruneDeleteOps_pathAt t (trie.pathOf key)
    have hplug := plug_descend t (trie.pathOf key) []
    rw [plug_nil] at hplug
    have hfind := h.findPath hE ht (trie.appliedKey key) false
    simp only [Bool.false_eq_true, if_false, hfind, huse, if_true, bind, Except.bind, found_iff]
    rw [MerklePatriciaTrie.pathOf] at hkey hops hplug ⊢
    by_cases hfound : found (descend t (bytesToNibbles (trie.appliedKey key)) []) = true
    · have hdelete := trie.deleteNode_spec (descend_stuck t _ []) hfound (site_of_wf h.wf ht _).2
        hkey.symm t fun r a hr ha => by
          have hres := (all_remnant (hplug.symm ▸ h.kept) hr).1 a |>.self ha.1
          exact trie.lookupNode_resident hE ha.1 hres.2 hres.1
      simp only [hfound, if_true, hdelete, hops]
      rfl
    · simp [hfound, delete, deleteAt, h.root_eq]

end Represents

/-- The database holds the hashed nodes of the tree and nothing else. -/
structure Pruned (E : Set Bytes) (trie : MerklePatriciaTrie) (t : MPTree) : Prop where
  represents : Represents E trie t
  noJunk : ∀ key e, trie.db key = some e →
    ∃ s ∈ nodesOf t, IsHashed trie.hashing t s ∧ key = rootHash trie.hashing s

/-- The encodings of all nodes are known. -/
abbrev AllEncodedIn (H : HashKeysFunction) (E : Set Bytes) (t : MPTree) : Prop :=
  t.All fun s => encodeTree H s ∈ E

theorem AllEncodedIn.encodedIn {H : HashKeysFunction} {E : Set Bytes} {t : MPTree}
    (h : AllEncodedIn H E t) : EncodedIn H E t := h.mono fun _ hs _ => hs

theorem AllEncodedIn.of_mem {H : HashKeysFunction} {E : Set Bytes} {t s : MPTree}
    (h : AllEncodedIn H E t) (hs : s ∈ nodesOf t) : AllEncodedIn H E s :=
  h.of_mem_nodes hs

theorem AllEncodedIn.mem {H : HashKeysFunction} {E : Set Bytes} {t s : MPTree}
    (h : AllEncodedIn H E t) (hs : s ∈ nodesOf t) : encodeTree H s ∈ E := all_iff_nodesOf.mp h s hs

/-- Nodes with one hash are equal. -/
theorem eq_of_rootHash {H : HashKeysFunction} {E : Set Bytes} (hE : CollisionFree H E)
    {t t' s s' : MPTree} (ht : AllEncodedIn H E t) (ht' : AllEncodedIn H E t')
    (hs : s ∈ nodesOf t) (hs' : s' ∈ nodesOf t') (h : rootHash H s = rootHash H s') : s = s' :=
  rootHash_injective H hE (ht.of_mem hs).encodedIn (ht'.of_mem hs').encodedIn (ht.mem hs)
    (ht'.mem hs') h

namespace Pruned

variable {E : Set Bytes} {trie : MerklePatriciaTrie} {t : MPTree}

/-- A batch that puts nodes of the new tree, leaves all of these in the database and
deletes the nodes that the new tree no longer has. -/
theorem write (h : Pruned E trie t) (hE : CollisionFree trie.hashing E)
    (hempty : RLP_EMPTY_STRING ∈ E) {t' : MPTree} {ops : List BatchDBOp} (hwf : t'.WF)
    (hknown : AllEncodedIn trie.hashing E t')
    (hputs : ∀ key e, .put key e ∈ ops →
      ∃ s ∈ nodesOf t', IsHashed trie.hashing t' s ∧ key = rootHash trie.hashing s)
    (hpresent : ∀ s ∈ nodesOf t', IsHashed trie.hashing t' s →
      trie.db.batch ops (rootHash trie.hashing s) = some (encodeTree trie.hashing s))
    (hgone : ∀ s ∈ nodesOf t, IsHashed trie.hashing t s →
      delNode trie.hashing s ∈ ops ∨ s ∈ nodesOf t' ∧ IsHashed trie.hashing t' s) :
    Pruned E (trie.write ⟨rootHash trie.hashing t', ops⟩) t' := by
  have hjunk : ∀ key e, trie.db.batch ops key = some e →
      ∃ s ∈ nodesOf t', IsHashed trie.hashing t' s ∧ key = rootHash trie.hashing s := by
    intro key e he
    rcases batch_eq_some he with hput | ⟨hdb, hdel⟩
    · exact hputs key e hput
    · obtain ⟨s, hs, hhashed, rfl⟩ := h.noJunk key e hdb
      obtain ⟨hs', hhashed'⟩ := (hgone s hs hhashed).resolve_left hdel
      exact ⟨s, hs', hhashed', rfl⟩
  refine ⟨⟨rfl, hwf, hknown.encodedIn, ?_, ?_, ?_⟩, hjunk⟩
  · exact all_iff_nodesOf.mpr fun s hs hlen => hpresent s hs (.inr hlen)
  · exact fun ht' => ⟨hknown.self ht', hpresent t' (self_mem_nodesOf ht') (.inl rfl)⟩
  · cases hroot : (trie.write ⟨rootHash trie.hashing t', ops⟩).db
        (trie.write ⟨rootHash trie.hashing t', ops⟩).emptyTrieRoot with
    | none => rfl
    | some e =>
      obtain ⟨s, hs, _, hkey⟩ := hjunk _ e hroot
      exact absurd hkey.symm
        (rootHash_ne_empty _ hE (ne_nil_of_mem_nodes hs) (hknown.mem hs) hempty)

end Pruned

end EthereumJS
