import EthereumJS.Mpt.Contract

/-! # Keys of one length

A trie over keys of one length is canonical after every run, and its tree is a
function of the map that the run leaves. So is its root.
-/

namespace EthereumJS

open RLP Patricia Patricia.Tree

/-- The canonical trees of a depth, and the empty tree. -/
def CanonAt (n : Nat) (t : MPTree) : Prop := t = nil ∨ t.Canon n

theorem CanonAt.wf {n : Nat} {t : MPTree} (h : CanonAt n t) : t.WF := by
  rcases h with rfl | h
  · trivial
  · exact h.wf

theorem CanonAt.length_of_lookup {n : Nat} {t : MPTree} (h : CanonAt n t) {k : Nibbles} {v : Value}
    (hk : t.lookup k = some v) : k.length = n := by
  rcases h with rfl | h
  · simp at hk
  · exact h.length_of_lookup hk

theorem CanonAt.safeSite {n : Nat} {t : MPTree} (h : CanonAt n t) {k : Nibbles}
    (hk : k.length = n) (hfound : found (descend t k []) = true) : SafeSite (descend t k []) := by
  rcases h with rfl | h
  · simp [found] at hfound
  · exact (safeSite_of_canon h hk hfound).2

theorem CanonAt.treeStep {n : Nat} {t : MPTree} (h : CanonAt n t) {keyOf : Bytes → Nibbles}
    {op : TrieOp} (hop : (keyOf op.key).length = n) : CanonAt n (treeStep keyOf t op) := by
  cases op with
  | put key v => exact Or.inr (canon_insert h v hop)
  | del key => exact canon_delete h hop

theorem CanonAt.treeAfter {n : Nat} {t : MPTree} (h : CanonAt n t) {keyOf : Bytes → Nibbles}
    {ops : List TrieOp} (hops : ∀ op ∈ ops, (keyOf op.key).length = n) :
    CanonAt n (treeAfter keyOf t ops) := by
  induction ops generalizing t with
  | nil => exact h
  | cons op ops ih =>
    rw [List.forall_mem_cons] at hops
    exact ih (h.treeStep hops.1) hops.2

/-- On keys of one length, a run is a sequence of updates of the map. -/
theorem CanonAt.lookup_treeAfter {n : Nat} {t : MPTree} (h : CanonAt n t)
    {keyOf : Bytes → Nibbles} (hinj : Function.Injective keyOf) {ops : List TrieOp}
    (hops : ∀ op ∈ ops, (keyOf op.key).length = n) {m : Bytes → Option Value}
    (hm : ∀ key, t.lookup (keyOf key) = m key) (key : Bytes) :
    (EthereumJS.treeAfter keyOf t ops).lookup (keyOf key) = mapAfter m ops key := by
  induction ops generalizing t m with
  | nil => exact hm key
  | cons op ops ih =>
    rw [List.forall_mem_cons] at hops
    have hnext := h.treeStep hops.1
    cases op with
    | put key' v =>
      refine ih hnext hops.2 fun key => ?_
      rw [EthereumJS.treeStep, lookup_insert, Function.update_apply]
      simp only [hinj.eq_iff, hm key]
    | del key' =>
      have hlen : (keyOf key').length = n := hops.1
      refine ih hnext hops.2 fun key => ?_
      rw [EthereumJS.treeStep, lookup_delete h.wf (h.safeSite hlen), Function.update_apply]
      simp only [hinj.eq_iff, hm key]

/-- A tree over keys of one length has no other lookups than those of byte strings. -/
theorem CanonAt.lookup_eq {n : Nat} {t t' : MPTree} (h : CanonAt (2 * n) t)
    (h' : CanonAt (2 * n) t')
    (heq : ∀ key, t.lookup (bytesToNibbles key) = t'.lookup (bytesToNibbles key)) (k : Nibbles) :
    t.lookup k = t'.lookup k := by
  by_cases hk : k.length = 2 * n
  · have hkey := bytesToNibbles_packedBytes k (by omega)
    rw [← hkey]
    exact heq _
  · have hnone : ∀ {s : MPTree}, CanonAt (2 * n) s → s.lookup k = none := by
      intro s hs
      by_contra hsome
      obtain ⟨v, hv⟩ := Option.ne_none_iff_exists'.mp hsome
      exact hk (hs.length_of_lookup hv)
    rw [hnone h, hnone h']

theorem CanonAt.eq_of_lookup {n : Nat} {t t' : MPTree} (h : CanonAt n t) (h' : CanonAt n t')
    (heq : ∀ k, t.lookup k = t'.lookup k) : t = t' := by
  rcases h with rfl | h <;> rcases h' with rfl | h'
  · rfl
  · obtain ⟨k, v, hk⟩ := h'.exists_lookup
    rw [← heq, lookup_nil] at hk
    cases hk
  · obtain ⟨k, v, hk⟩ := h.exists_lookup
    rw [heq, lookup_nil] at hk
    cases hk
  · exact h.ext_lookup h' heq

/-- The tree that a run over keys of one length leaves. -/
theorem run_fixedLength (opts : MPTOpts) (hprune : opts.useNodePruning = false)
    (hplain : opts.useKeyHashing = false) {ops : List TrieOp} {n : Nat}
    (hlen : ∀ op ∈ ops, op.key.length = n)
    (hE : CollisionFree opts.useKeyHashingFunction (runEncodings opts ops)) :
    ∃ trie, (createMPT opts).run ops = .ok trie ∧ trie.opts = opts ∧
      Represents (runEncodings opts ops) trie (treeAfter bytesToNibbles nil ops) ∧
      CanonAt (2 * n) (treeAfter bytesToNibbles nil ops) ∧
      ∀ key, (treeAfter bytesToNibbles nil ops).lookup (bytesToNibbles key) =
        lastWrite ops key := by
  obtain ⟨trie, hrun, hopts, hrep⟩ := run_createMPT opts hprune hE
  have hpath : (createMPT opts).pathOf = bytesToNibbles := by
    funext key
    unfold MerklePatriciaTrie.pathOf MerklePatriciaTrie.appliedKey
    rw [createMPT]
    simp only [hplain, Bool.false_eq_true, if_false]
  rw [hpath] at hrep
  have hops : ∀ op ∈ ops, (bytesToNibbles op.key).length = 2 * n := by
    intro op hop
    rw [length_bytesToNibbles, hlen op hop]
  refine ⟨trie, hrun, hopts, hrep, CanonAt.treeAfter (Or.inl rfl) hops, ?_⟩
  exact CanonAt.lookup_treeAfter (Or.inl rfl) bytesToNibbles_injective hops fun _ => lookup_nil _

/-- Two runs over keys of one length that leave the same map leave the same root, which
is that of the empty trie exactly for the empty map. -/
theorem root_history_independent (H : HashKeysFunction) (n : Nat) (ops ops' : List TrieOp)
    (hlen : ∀ op ∈ ops, op.key.length = n) (hlen' : ∀ op ∈ ops', op.key.length = n)
    (hE : CollisionFree H (runEncodings (plainOpts H) ops))
    (hE' : CollisionFree H (runEncodings (plainOpts H) ops'))
    (hmap : ∀ key, lastWrite ops key = lastWrite ops' key) :
    ∃ trie trie', (createMPT (plainOpts H)).run ops = .ok trie ∧
      (createMPT (plainOpts H)).run ops' = .ok trie' ∧ trie.root = trie'.root ∧
      (trie.root = H.hash RLP_EMPTY_STRING ↔ ∀ key, lastWrite ops key = none) := by
  obtain ⟨trie, hrun, hopts, hrep, hcanon, hlook⟩ :=
    run_fixedLength (plainOpts H) rfl rfl hlen hE
  obtain ⟨trie', hrun', hopts', hrep', hcanon', hlook'⟩ :=
    run_fixedLength (plainOpts H) rfl rfl hlen' hE'
  generalize treeAfter bytesToNibbles nil ops = t at hrep hcanon hlook
  generalize treeAfter bytesToNibbles nil ops' = t' at hrep' hcanon' hlook'
  have hhash : trie.hashing = H := by rw [MerklePatriciaTrie.hashing, hopts]; rfl
  have hhash' : trie'.hashing = H := by rw [MerklePatriciaTrie.hashing, hopts']; rfl
  have htree : t = t' := by
    refine hcanon.eq_of_lookup hcanon' (hcanon.lookup_eq hcanon' fun key => ?_)
    rw [hlook, hlook', hmap]
  refine ⟨trie, trie', hrun, hrun', ?_, ?_⟩
  · rw [hrep.root_eq, hrep'.root_eq, hhash, hhash', htree]
  · have hempty := hrep.root_eq_empty_iff (hhash ▸ hE) List.mem_cons_self
    rw [MerklePatriciaTrie.emptyTrieRoot, MerklePatriciaTrie.hash] at hempty
    rw [← hhash, hempty]
    constructor
    · rintro rfl key
      rw [← hlook, lookup_nil]
    · intro hnone
      refine hcanon.eq_of_lookup (Or.inl rfl) (hcanon.lookup_eq (Or.inl rfl) fun key => ?_)
      rw [hlook, hnone, lookup_nil]

def firstHistory : List TrieOp :=
  [.put [0x10] (.cons 1 (List.replicate 39 1)), .put [0x11] (.cons 2 [])]

def secondHistory : List TrieOp :=
  [.put [0x11] (.cons 2 []), .put [0x27] (.cons 3 []),
    .put [0x10] (.cons 1 (List.replicate 39 1)), .del [0x27]]

theorem root_history_independent_short :
    ∃ trie trie', (createMPT (plainOpts polynomialHash)).run firstHistory = .ok trie ∧
      (createMPT (plainOpts polynomialHash)).run secondHistory = .ok trie' ∧
      trie.root = trie'.root ∧
      (trie.root = polynomialHash.hash RLP_EMPTY_STRING ↔
        ∀ key, lastWrite firstHistory key = none) := by
  refine root_history_independent polynomialHash 1 firstHistory secondHistory (by decide)
    (by decide) (collisionFree_of_list (by decide +kernel))
    (collisionFree_of_list (by decide +kernel)) fun key => ?_
  simp only [lastWrite, firstHistory, secondHistory, mapAfter, Function.update_apply]
  by_cases h10 : key = [0x10]
  · simp [h10]
  · by_cases h27 : key = [0x27] <;> simp [h10, h27]

end EthereumJS
