import EthereumJS.Mpt.PartialUpdate
import EthereumJS.Mpt.Range
import EthereumJS.Patricia.Order

/-! # The zero element proof

`verifyMerkleRangeProof` without keys and with a first key: what it has to show is that
no key from the first one on is in the trie. `hasRightElement` does not look at the leaf
where its walk ends.
-/

namespace EthereumJS

open RLP Patricia Patricia.Tree

/-- `nibblesCompare` is the lexicographic order. -/
theorem nibblesCompare_spec (n1 n2 : Nibbles) : (nibblesCompare n1 n2 = .lt ↔ n1 < n2) ∧
    (nibblesCompare n1 n2 = .gt ↔ n2 < n1) := by
  induction n1 generalizing n2 with
  | nil => cases n2 <;> simp [nibblesCompare]
  | cons a n1 ih =>
    cases n2 with
    | nil => simp [nibblesCompare]
    | cons b n2 =>
      rw [nibblesCompare, List.cons_lt_cons_iff, List.cons_lt_cons_iff]
      rcases lt_trichotomy a b with hab | rfl | hab
      · simp [hab, hab.ne', not_lt_of_gt hab]
      · simpa using ih n2
      · simp [hab, hab.ne', not_lt_of_gt hab]

theorem nibblesCompare_eq_lt {n1 n2 : Nibbles} : nibblesCompare n1 n2 = .lt ↔ n1 < n2 :=
  (nibblesCompare_spec n1 n2).1

theorem nibblesCompare_eq_gt {n1 n2 : Nibbles} : nibblesCompare n1 n2 = .gt ↔ n2 < n1 :=
  (nibblesCompare_spec n1 n2).2

/-- `hasRightElement` over nodes that can be read. -/
theorem MerklePatriciaTrie.hasRightElement_spec (trie : MerklePatriciaTrie) {n : Nat} {t : MPTree}
    (ht : t.Canon n) {ref : Item} (href : trie.lookupNode ref = .ok (nodeOf trie.hashing t))
    {k : Nibbles} (hk : k.length = n) (fuel : Nat) (hfuel : k.length < fuel)
    (hres : ∀ s ∈ (t.trail k).tail,
      trie.lookupNode (refTree trie.hashing s) = .ok (nodeOf trie.hashing s)) :
    ∃ right, trie.hasRightElement fuel ref k = .ok right ∧ (right = true ↔ t.HasRight k) := by
  induction t generalizing n ref k fuel with
  | nil => exact absurd ht id
  | leaf p v =>
    obtain ⟨fuel, rfl⟩ : ∃ m, fuel = m + 1 := ⟨fuel - 1, by omega⟩
    refine ⟨false, ?_, by simp⟩
    simp only [hasRightElement, href, nodeOf]
  | ext p c ih =>
    obtain ⟨fuel, rfl⟩ : ∃ m, fuel = m + 1 := ⟨fuel - 1, by omega⟩
    obtain ⟨hp, hcb, j, hj, hc⟩ := ht
    simp only [hasRightElement, href, nodeOf]
    cases hstrip : stripPrefix p k with
    | none =>
      refine ⟨_, rfl, ?_⟩
      rw [hasRight_ext_of_none c hstrip, decide_eq_true_iff, nibblesCompare_eq_gt]
    | some r =>
      have htrail := trail_ext_of_some c hstrip
      obtain rfl := stripPrefix_eq_some.mp hstrip
      rw [htrail, List.tail_cons] at hres
      rw [List.length_append] at hk hfuel
      have hpos := List.length_pos_of_ne_nil hp
      have hroot : c ∈ c.trail r := by
        rw [trail_eq_cons hcb.ne_nil]
        exact List.mem_cons_self
      rw [hasRight_ext_of_some c hstrip]
      exact ih hc (hres c hroot) (by omega) fuel (by omega) fun s hs =>
        hres s (List.mem_of_mem_tail hs)
  | branch c v ih =>
    obtain ⟨fuel, rfl⟩ : ∃ m, fuel = m + 1 := ⟨fuel - 1, by omega⟩
    obtain ⟨_, ⟨j, hj, hc⟩, _⟩ := ht
    cases k with
    | nil =>
      rw [List.length_nil] at hk
      omega
    | cons a k =>
      have hget := getBranch_nodeOf trie.hashing c v
      have hsome : (∃ i, a < i ∧
          (if (c i).isNil then none else some (refTree trie.hashing (c i))).isSome) ↔
            ∃ b, a < b ∧ c b ≠ nil := by
        refine exists_congr fun i => and_congr_right fun _ => ?_
        cases hi : (c i).isNil with
        | true => simp [isNil_iff.mp hi]
        | false => simp [isNil_eq_false.mp hi]
      simp only [nodeOf] at hget
      simp only [hasRightElement, href, nodeOf, hget]
      rcases Classical.em (∃ b, a < b ∧ c b ≠ nil) with hright | hright
      · rw [if_pos (hsome.mpr hright)]
        exact ⟨true, rfl, iff_of_true rfl (Or.inl hright)⟩
      · rw [if_neg (mt hsome.mp hright)]
        cases hca : (c a).isNil with
        | true =>
          refine ⟨false, rfl, iff_of_false (by simp) ?_⟩
          rintro (h | h)
          · exact hright h
          · rw [isNil_iff.mp hca] at h
            exact hasRight_nil k h
        | false =>
          have hne := isNil_eq_false.mp hca
          rw [trail_branch_cons, List.tail_cons] at hres
          rw [List.length_cons] at hk hfuel
          have hroot : c a ∈ (c a).trail k := by
            rw [trail_eq_cons hne]
            exact List.mem_cons_self
          obtain ⟨right, hrun, hspec⟩ := ih a ((hc a).resolve_left hne) (hres _ hroot)
            (by omega : k.length = j) fuel (by omega) fun s hs =>
              hres s (List.mem_of_mem_tail hs)
          exact ⟨right, hrun, hspec.trans (or_iff_right hright).symm⟩

/-- The trie that is made of a proof with the root of a tree. -/
abbrev proofTrie (H : HashKeysFunction) (proof : List Bytes) (root : Bytes) : MerklePatriciaTrie :=
  ⟨rangeOpts H, proofDb H proof, root⟩

section

variable {H : HashKeysFunction} {E : Set Bytes} {full : MerklePatriciaTrie} {t : MPTree}

theorem Represents.partOf_proofTrie (h : Represents E full t) (hopts : full.opts = plainOpts H)
    (ht : t ≠ nil) (proof : List Bytes) :
    PartOf (E ∪ { e | e ∈ proof }) (proofTrie H proof full.root) t := by
  have hpart := h.partOf_proof ht proof
  rwa [MerklePatriciaTrie.hashing, hopts] at hpart

theorem Represents.verifyMPTWithMerkleProof (h : Represents E full t)
    (hopts : full.opts = plainOpts H) (ht : t ≠ nil) (key : Bytes) {proof : List Bytes}
    (hE : CollisionFree H (E ∪ { e | e ∈ proof })) :
    ((∃ node ∈ proof.head?, full.root ≠ H.hash node) ∧
      verifyMPTWithMerkleProof full.root key proof H = .error .unexpectedRoot) ∨
    ((¬ ∃ node ∈ proof.head?, full.root ≠ H.hash node) ∧
      (PathIn H (proofDb H proof) t (bytesToNibbles key) →
        verifyMPTWithMerkleProof full.root key proof H = .ok (proofTrie H proof full.root,
          (t.lookup (bytesToNibbles key)).map fun v => .bytes v.1)) ∧
      (¬ PathIn H (proofDb H proof) t (bytesToNibbles key) →
        verifyMPTWithMerkleProof full.root key proof H = .error .invalidProof)) := by
  have hpart := h.partOf_proofTrie hopts ht proof
  have hcreate : createMPTFromProof proof (rangeOpts H) (some full.root) =
      if ∃ node ∈ proof.head?, full.root ≠ H.hash node then .error .unexpectedRoot
      else .ok (proofTrie H proof full.root) :=
    createMPTFromProof_root proof (rangeOpts H) h.length_root
  unfold EthereumJS.verifyMPTWithMerkleProof
  rw [hcreate]
  rcases Classical.em (∃ node ∈ proof.head?, full.root ≠ H.hash node) with hhead | hhead
  · left
    refine ⟨hhead, ?_⟩
    rw [if_pos hhead]
    rfl
  · right
    refine ⟨hhead, fun hpath => ?_, fun hpath => ?_⟩
    · have hget : (proofTrie H proof full.root).get key true = _ :=
        hpart.get_of_pathIn hE true hpath
      rw [if_neg hhead]
      simp only [bind, Except.bind, hget]
      rfl
    · obtain ⟨_, _, _, _, _, hfind⟩ := hpart.findPath_of_not_pathIn hE key hpath
      have hget : (proofTrie H proof full.root).get key true = .error .missingNode := by
        rw [MerklePatriciaTrie.get_eq]
        exact congrArg (Except.map Path.result) (hfind true)
      rw [if_neg hhead]
      simp only [bind, Except.bind, hget]

/-- The proof is accepted when it holds the nodes on the path of the first key, that key
is absent, and nothing is right of its walk. -/
theorem Represents.zeroElement_ok_iff (h : Represents E full t) (hopts : full.opts = plainOpts H)
    {n : Nat} (ht : t.Canon (2 * n)) {firstKey : Bytes} (hfirst : firstKey.length = n)
    {proof : List Bytes} (hE : CollisionFree H (E ∪ { e | e ∈ proof })) :
    (∃ b, verifyMerkleRangeProof full.root (some firstKey) none [] [] (some proof) H = .ok b) ↔
      (¬ ∃ node ∈ proof.head?, full.root ≠ H.hash node) ∧
        PathIn H (proofDb H proof) t (bytesToNibbles firstKey) ∧
        t.lookup (bytesToNibbles firstKey) = none ∧ ¬ t.HasRight (bytesToNibbles firstKey) := by
  have hverify : verifyMerkleRangeProof full.root (some firstKey) none [] [] (some proof) H =
      verifyZeroElement full.root (bytesToNibbles firstKey) proof H := rfl
  rw [hverify]
  unfold verifyZeroElement
  rw [packedBytes_bytesToNibbles]
  rcases h.verifyMPTWithMerkleProof hopts ht.ne_nil firstKey hE with
    ⟨hhead, hrun⟩ | ⟨hhead, hin, hout⟩
  · rw [hrun]
    refine iff_of_false ?_ fun hall => hall.1 hhead
    rintro ⟨b, hb⟩
    cases hb
  rw [and_iff_right hhead]
  rcases Classical.em (PathIn H (proofDb H proof) t (bytesToNibbles firstKey)) with hpath | hpath
  swap
  · rw [hout hpath]
    refine iff_of_false ?_ fun hall => hpath hall.1
    rintro ⟨b, hb⟩
    cases hb
  rw [hin hpath, and_iff_right hpath]
  simp only [Except.mapError, bind, Except.bind]
  cases hlookup : t.lookup (bytesToNibbles firstKey) with
  | some v => simp
  | none =>
    have hpart := h.partOf_proofTrie hopts ht.ne_nil proof
    obtain ⟨right, hright, hspec⟩ := (proofTrie H proof full.root).hasRightElement_spec ht
      (hpart.lookupNode_root hE hpath.1) (by rw [length_bytesToNibbles, hfirst])
      ((bytesToNibbles firstKey).length + 1) (by omega) fun s hs =>
        (hpart.lookupNode_of_mem hE (List.mem_of_mem_tail hs)).1 (hpath.2 s hs)
    rw [hright, ← hspec]
    cases right <;> simp [pure, Except.pure]

/-- The nodes on a path that a proof cannot do without: the root and those that are
referred to by their hashes. -/
def neededNodes (H : HashKeysFunction) (t : MPTree) (k : Nibbles) : List Bytes :=
  encodeTree H t ::
    ((t.trail k).tail.filter fun s => 32 ≤ (encodeTree H s).length).map (encodeTree H)

theorem Represents.pathIn_neededNodes (h : Represents E full t) (hopts : full.opts = plainOpts H)
    (hE : CollisionFree H E) (ht : t ≠ nil) (k : Nibbles) :
    (∀ e ∈ neededNodes H t k, e ∈ E) ∧ PathIn H (proofDb H (neededNodes H t k)) t k := by
  have hhash : full.hashing = H := by
    rw [MerklePatriciaTrie.hashing, hopts]
    rfl
  have hmem : ∀ e ∈ neededNodes H t k, e ∈ E := by
    intro e he
    rcases List.mem_cons.mp he with rfl | he
    · exact hhash ▸ (h.top ht).1
    · obtain ⟨s, hs, rfl⟩ := List.mem_map.mp he
      obtain ⟨hs, hlong⟩ := List.mem_filter.mp hs
      have htrail := List.mem_of_mem_tail hs
      have henc := (h.encoded.of_mem_trail htrail).self (ne_nil_of_mem_trail htrail)
      rw [hhash] at henc
      exact henc (of_decide_eq_true hlong)
  refine ⟨hmem, mem_proofDb hE hmem List.mem_cons_self, fun s hs hlong => ?_⟩
  refine mem_proofDb hE hmem (List.mem_cons_of_mem _ (List.mem_map_of_mem ?_))
  exact List.mem_filter.mpr ⟨hs, decide_eq_true hlong⟩

end

/-- The walk of a key ends at a leaf of a greater key, and no key of the tree is greater
than that one. -/
def EndsAtLastLeaf (t : MPTree) (k : Nibbles) : Prop :=
  ∃ l, t.leafKey k = some l ∧ nibblesCompare k l = .lt ∧
    ∀ m v, t.lookup m = some v → nibblesCompare m l ≠ .gt

/-- An accepted zero element proof shows that no key from the first one on is in the trie,
exactly if the walk of the first key does not end at the last leaf. -/
theorem zeroElement_sound_iff (H : HashKeysFunction) {ops : List TrieOp} {n : Nat}
    (hlen : ∀ op ∈ ops, op.key.length = n) {full : MerklePatriciaTrie}
    (hrun : (createMPT (plainOpts H)).run ops = .ok full)
    (hE : CollisionFree H (runEncodings (plainOpts H) ops)) {firstKey : Bytes}
    (hfirst : firstKey.length = n) :
    (∀ (proof : List Bytes) (b : Bool),
      CollisionFree H (runEncodings (plainOpts H) ops ∪ { e | e ∈ proof }) →
      verifyMerkleRangeProof full.root (some firstKey) none [] [] (some proof) H = .ok b →
      ∀ key v, lastWrite ops key = some v →
        nibblesCompare (bytesToNibbles key) (bytesToNibbles firstKey) = .lt) ↔
    ¬ EndsAtLastLeaf (treeAfter bytesToNibbles nil ops) (bytesToNibbles firstKey) := by
  obtain ⟨full', hrun', hopts, hrep, hcanon, hlook⟩ :=
    run_fixedLength (plainOpts H) rfl rfl hlen hE
  obtain rfl : full = full' := Except.ok.inj (hrun.symm.trans hrun')
  generalize treeAfter bytesToNibbles nil ops = t at hrep hcanon hlook ⊢
  have hlenk : (bytesToNibbles firstKey).length = 2 * n := by
    rw [length_bytesToNibbles, hfirst]
  constructor
  · rintro hsound ⟨l, hl, hkl, hlast⟩
    rcases hcanon with rfl | hcanon
    · simp at hl
    rw [nibblesCompare_eq_lt] at hkl
    obtain ⟨hmem, hpath⟩ := hrep.pathIn_neededNodes hopts hE hcanon.ne_nil
      (bytesToNibbles firstKey)
    have hEp : CollisionFree H (runEncodings (plainOpts H) ops ∪
        { e | e ∈ neededNodes H t (bytesToNibbles firstKey) }) :=
      hE.mono (Set.union_subset (Set.Subset.refl _) hmem)
    have hhead : ¬ ∃ node ∈ (neededNodes H t (bytesToNibbles firstKey)).head?,
        full.root ≠ H.hash node := by
      rintro ⟨node, hnode, hne⟩
      obtain rfl := Option.some.inj hnode
      apply hne
      rw [hrep.root_eq, MerklePatriciaTrie.hashing, hopts]
      rfl
    have habsent : t.lookup (bytesToNibbles firstKey) = none := by
      by_contra hsome
      obtain ⟨v, hv⟩ := Option.ne_none_iff_exists'.mp hsome
      exact hkl.ne (eq_leafKey_of_lookup hl hv)
    have hright : ¬ t.HasRight (bytesToNibbles firstKey) := by
      intro hright
      obtain ⟨m, v, hm, hlm⟩ := hcanon.exists_gt_leafKey hl hright
      exact hlast m v hm (nibblesCompare_eq_gt.mpr hlm)
    obtain ⟨b, hb⟩ := (hrep.zeroElement_ok_iff hopts hcanon hfirst hEp).mpr
      ⟨hhead, hpath, habsent, hright⟩
    obtain ⟨v, hv⟩ := lookup_leafKey hl
    have hkey := bytesToNibbles_packedBytes l (by rw [hcanon.length_of_lookup hv]; omega)
    rw [← hkey, hlook] at hv
    have hlt := hsound _ b hEp hb _ v hv
    rw [hkey, nibblesCompare_eq_lt] at hlt
    exact lt_asymm hlt hkl
  · intro hends proof b hEp hb key v hv
    rw [nibblesCompare_eq_lt]
    rw [← hlook] at hv
    rcases hcanon with rfl | hcanon
    · simp at hv
    obtain ⟨_, _, habsent, hright⟩ :=
      (hrep.zeroElement_ok_iff hopts hcanon hfirst hEp).mp ⟨b, hb⟩
    rcases hcanon.lt_or_le_leafKey hlenk hright hv with hlt | ⟨l, hl, hle⟩
    · exact hlt
    rcases lt_trichotomy (bytesToNibbles firstKey) l with hkl | rfl | hlk
    · refine absurd ⟨l, hl, nibblesCompare_eq_lt.mpr hkl, fun m w hm => ?_⟩ hends
      rw [ne_eq, nibblesCompare_eq_gt, not_lt]
      rcases hcanon.lt_or_le_leafKey hlenk hright hm with hmk | ⟨l', hl', hml⟩
      · exact (hmk.trans hkl).le
      · obtain rfl := Option.some.inj (hl.symm.trans hl')
        exact hml
    · obtain ⟨w, hw⟩ := lookup_leafKey hl
      rw [hw] at habsent
      cases habsent
    · exact lt_of_le_of_lt hle hlk

def branchCalls : List TrieOp := [.put [0x12] (.cons 1 []), .put [0x34] (.cons 2 [])]

theorem zeroElement_sound_iff_behind : ∃ full,
    (createMPT (plainOpts polynomialHash)).run branchCalls = .ok full ∧
      ((∀ (proof : List Bytes) (b : Bool),
        CollisionFree polynomialHash
          (runEncodings (plainOpts polynomialHash) branchCalls ∪ { e | e ∈ proof }) →
        verifyMerkleRangeProof full.root (some [0x40]) none [] [] (some proof) polynomialHash =
          .ok b →
        ∀ key v, lastWrite branchCalls key = some v →
          nibblesCompare (bytesToNibbles key) (bytesToNibbles [0x40]) = .lt) ↔
      ¬ EndsAtLastLeaf (treeAfter bytesToNibbles nil branchCalls) (bytesToNibbles [0x40])) := by
  have hE : CollisionFree polynomialHash
      (runEncodings (plainOpts polynomialHash) branchCalls) :=
    collisionFree_of_list (by decide +kernel)
  obtain ⟨full, hrun, _⟩ := run_createMPT (plainOpts polynomialHash) rfl hE
  exact ⟨full, hrun, zeroElement_sound_iff polynomialHash (n := 1) (by decide) hrun hE rfl⟩

def leafCalls : List TrieOp := [.put [0x20] (.cons 1 [])]

/-- The one leaf of a trie is its own proof that nothing is there from a smaller key on. -/
theorem not_zeroElement_sound_leaf : ∃ full proof,
    (createMPT (plainOpts polynomialHash)).run leafCalls = .ok full ∧
      CollisionFree polynomialHash
        (runEncodings (plainOpts polynomialHash) leafCalls ∪ { e | e ∈ proof }) ∧
      verifyMerkleRangeProof full.root (some [0x10]) none [] [] (some proof) polynomialHash =
        .ok false ∧
      lastWrite leafCalls [0x20] = some ⟨[1], by simp⟩ ∧
      nibblesCompare (bytesToNibbles [0x20]) (bytesToNibbles [0x10]) ≠ .lt := by
  have hE : CollisionFree polynomialHash
      (runEncodings (plainOpts polynomialHash) leafCalls) :=
    collisionFree_of_list (by decide +kernel)
  obtain ⟨full, hrun, _⟩ := run_createMPT (plainOpts polynomialHash) rfl hE
  refine ⟨full, (createMPT (plainOpts polynomialHash)).encodings leafCalls, hrun, ?_, ?_,
    by decide, by decide⟩
  · refine hE.mono (Set.union_subset (Set.Subset.refl _) fun e he => ?_)
    exact List.mem_cons_of_mem _ he
  · have haccept : (((createMPT (plainOpts polynomialHash)).run leafCalls).mapError
        RangeProofError.mpt).bind (fun full =>
          verifyMerkleRangeProof full.root (some [0x10]) none [] []
            (some ((createMPT (plainOpts polynomialHash)).encodings leafCalls))
            polynomialHash) = .ok false := by
      decide +kernel
    rw [hrun] at haccept
    exact haccept

end EthereumJS
