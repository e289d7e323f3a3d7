import EthereumJS.Mpt.Partial
import EthereumJS.Mpt.Contract

/-! # Merkle proofs of single keys

The functions of `proof/proof.ts`. A proof is stored node by node under its hashes, so
the trie that is made of it is a partial trie of any tree with the given root.
-/

namespace EthereumJS

open RLP Patricia Patricia.Tree

namespace MerklePatriciaTrie

/-- `root(value)` with a value. -/
def setRoot (trie : MerklePatriciaTrie) (value : Bytes) : Except MPTError MerklePatriciaTrie :=
  let hashLen := trie.emptyTrieRoot.length
  if value.length ≠ hashLen then .error (.invalidRootLength hashLen value.length)
  else .ok { trie with root := value }

end MerklePatriciaTrie

/-- `updateMPTFromMerkleProof`, with the key of the first node if there is one. -/
def updateMPTFromMerkleProof (trie : MerklePatriciaTrie) (proof : List Bytes)
    (shouldVerifyRoot : Bool) : Except MPTError (MerklePatriciaTrie × Option Bytes) :=
  let opStack := proof.map fun nodeValue => BatchDBOp.put (trie.hash nodeValue) nodeValue
  let root := proof.head?.map trie.hash
  if shouldVerifyRoot ∧ ∃ key ∈ root, trie.root ≠ key then .error .unexpectedRoot
  else .ok ({ trie with db := trie.db.batch opStack }, root)

/-- `root` is the option of that name, which a caller may leave out. -/
def createMPTFromProof (proof : List Bytes) (opts : MPTOpts) (root : Option Bytes) :
    Except MPTError MerklePatriciaTrie := do
  let trie ←
    match root with
    | some root => (createMPT opts).setRoot root
    | none => pure (createMPT opts)
  let (trie, key) ← updateMPTFromMerkleProof trie proof root.isSome
  match key with
  | some key => trie.setRoot key
  | none => pure trie

/-- Any error becomes that of an invalid proof. -/
def verifyMerkleProof (key : Bytes) (proof : List Bytes) (opts : MPTOpts) (root : Option Bytes) :
    Except MPTError (Option Item) :=
  match (do (← createMPTFromProof proof opts root).get key true) with
  | .ok value => .ok value
  | .error _ => .error .invalidProof

def createMerkleProof (trie : MerklePatriciaTrie) (key : Bytes) : Except MPTError (List Bytes) := do
  let path ← trie.findPath (trie.appliedKey key) false
  pure (path.stack.reverse.map MPTNode.serialize)

/-- The options of a verifier for the proofs of a trie. -/
def proofOpts (opts : MPTOpts) : MPTOpts :=
  { opts with useNodePruning := false }

/-- The database of a proof. -/
def proofDb (H : HashKeysFunction) (proof : List Bytes) : MapDB :=
  MapDB.batch (fun _ => none) (proof.map fun nodeValue => .put (H.hash nodeValue) nodeValue)

/-- The trie of a proof whose root is given: the proof is stored, or it begins with
another node. -/
theorem createMPTFromProof_root (proof : List Bytes) (opts : MPTOpts) {root : Bytes}
    (hroot : root.length = 32) :
    createMPTFromProof proof opts (some root) =
      if ∃ node ∈ proof.head?, root ≠ opts.useKeyHashingFunction.hash node then
        .error .unexpectedRoot
      else .ok ⟨opts, proofDb opts.useKeyHashingFunction proof, root⟩ := by
  have hlen : (createMPT opts).emptyTrieRoot.length = 32 :=
    opts.useKeyHashingFunction.length_hash _
  have hset : (createMPT opts).setRoot root = .ok ⟨opts, fun _ => none, root⟩ := by
    rw [MerklePatriciaTrie.setRoot, hlen]
    simp only [hroot, ne_eq, not_true_eq_false, if_false]
    rfl
  unfold createMPTFromProof updateMPTFromMerkleProof
  simp only [hset, bind, Except.bind, Option.isSome_some, true_and]
  cases proof with
  | nil =>
    simp only [List.head?_nil, Option.map_none, Option.not_mem_none, false_and, exists_false,
      if_false]
    rfl
  | cons node proof =>
    simp only [List.head?_cons, Option.map_some, Option.mem_def, Option.some.injEq,
      exists_eq_left']
    have hhash : MerklePatriciaTrie.hash ⟨opts, fun _ => none, root⟩ node =
        opts.useKeyHashingFunction.hash node := rfl
    rw [hhash]
    rcases Classical.em (root = opts.useKeyHashingFunction.hash node) with hnode | hnode
    · have hset' : MerklePatriciaTrie.setRoot
          ⟨opts, proofDb opts.useKeyHashingFunction (node :: proof), root⟩ root =
          .ok ⟨opts, proofDb opts.useKeyHashingFunction (node :: proof), root⟩ := by
        rw [MerklePatriciaTrie.setRoot, if_neg]
        rw [hroot]
        exact fun h => h (opts.useKeyHashingFunction.length_hash _).symm
      rw [if_neg (not_not_intro hnode), if_neg (not_not_intro hnode), ← hnode]
      exact hset'
    · rw [if_pos hnode, if_pos hnode]

/-- Without a root the proof gives its own. -/
theorem createMPTFromProof_cons (node : Bytes) (proof : List Bytes) (opts : MPTOpts) :
    createMPTFromProof (node :: proof) opts none =
      .ok ⟨opts, proofDb opts.useKeyHashingFunction (node :: proof),
        opts.useKeyHashingFunction.hash node⟩ := by
  have hset : MerklePatriciaTrie.setRoot ⟨opts,
      proofDb opts.useKeyHashingFunction (node :: proof), (createMPT opts).root⟩
      (opts.useKeyHashingFunction.hash node) =
      .ok ⟨opts, proofDb opts.useKeyHashingFunction (node :: proof),
        opts.useKeyHashingFunction.hash node⟩ := by
    rw [MerklePatriciaTrie.setRoot, if_neg]
    rw [opts.useKeyHashingFunction.length_hash]
    exact fun h => h (opts.useKeyHashingFunction.length_hash _).symm
  exact hset

theorem sound_proofDb (H : HashKeysFunction) (proof : List Bytes) {E : Set Bytes}
    (hproof : ∀ e ∈ proof, e ∈ E) : Sound H E (proofDb H proof) := by
  have hbatch : ∀ (db : MapDB), Sound H E db →
      Sound H E (db.batch (proof.map fun nodeValue => .put (H.hash nodeValue) nodeValue)) := by
    induction proof with
    | nil => exact fun db h => h
    | cons node proof ih =>
      intro db h
      rw [List.forall_mem_cons] at hproof
      refine ih hproof.2 (db.execute (.put (H.hash node) node)) ?_
      intro key e he
      rw [MapDB.execute, Function.update_apply] at he
      split at he
      · rename_i hkey
        obtain rfl := Option.some.inj he
        exact ⟨hkey, hproof.1⟩
      · exact h key e he
  exact hbatch _ fun _ _ h => by cases h

theorem mem_proofDb {H : HashKeysFunction} {proof : List Bytes} {E : Set Bytes}
    (hE : CollisionFree H E) (hproof : ∀ e ∈ proof, e ∈ E) {e : Bytes} (he : e ∈ proof) :
    proofDb H proof (H.hash e) = some e := by
  have hbatch : ∀ (db : MapDB), (e ∈ proof ∨ db (H.hash e) = some e) →
      db.batch (proof.map fun nodeValue => .put (H.hash nodeValue) nodeValue) (H.hash e) =
        some e := by
    have heE := hproof e he
    clear he
    induction proof with
    | nil => exact fun db h => h.resolve_left (by simp)
    | cons node proof ih =>
      intro db h
      rw [List.forall_mem_cons] at hproof
      refine ih hproof.2 (db.execute (.put (H.hash node) node)) ?_
      rw [MapDB.execute, Function.update_apply]
      by_cases hkey : H.hash e = H.hash node
      · right
        rw [if_pos hkey, hE.injOn heE hproof.1 hkey]
      · rw [if_neg hkey]
        refine h.imp_left fun hmem => (List.mem_cons.mp hmem).resolve_left ?_
        rintro rfl
        exact hkey rfl
  exact hbatch _ (Or.inl he)

namespace Represents

variable {E : Set Bytes} {trie : MerklePatriciaTrie} {t : MPTree}

/-- The trie of a proof with the root of a tree holds a part of the tree. -/
theorem partOf_proof (h : Represents E trie t) (ht : t ≠ nil) (proof : List Bytes) :
    PartOf (E ∪ { e | e ∈ proof })
      ⟨proofOpts trie.opts, proofDb trie.hashing proof, trie.root⟩ t where
  root_eq := h.root_eq
  ne_nil := ht
  wf := h.wf
  encoded := h.encoded.mono fun _ hs hlen => Or.inl (hs hlen)
  top := Or.inl (h.top ht).1
  sound := sound_proofDb _ proof fun _ he => Or.inr he

theorem createMerkleProof (h : Represents E trie t) (hE : CollisionFree trie.hashing E)
    (ht : t ≠ nil) (key : Bytes) :
    createMerkleProof trie key =
      .ok ((t.trail (bytesToNibbles (trie.appliedKey key))).map (encodeTree trie.hashing)) := by
  unfold EthereumJS.createMerkleProof
  rw [h.findPath hE ht]
  simp only [bind, Except.bind, pure, Except.pure, stack_pathAt, List.reverse_reverse, List.map_map]
  refine congrArg Except.ok (List.map_congr_left fun s hs => ?_)
  exact serialize_nodeOf _ (ne_nil_of_mem_trail hs)

theorem length_root (h : Represents E trie t) : trie.root.length = 32 := by
  rw [h.root_eq]
  exact trie.hashing.length_hash _

/-- A proof that is accepted proves the value of the key in the tree. -/
theorem verifyMerkleProof_sound (h : Represents E trie t) (ht : t ≠ nil) (key : Bytes)
    (proof : List Bytes) (hE : CollisionFree trie.hashing (E ∪ { e | e ∈ proof }))
    {v : Option Item}
    (hv : verifyMerkleProof key proof (proofOpts trie.opts) (some trie.root) = .ok v) :
    trie.get key false = .ok v := by
  unfold verifyMerkleProof at hv
  rw [createMPTFromProof_root proof _ h.length_root] at hv
  by_cases hhead : ∃ node ∈ proof.head?,
      trie.root ≠ (proofOpts trie.opts).useKeyHashingFunction.hash node
  · rw [if_pos hhead] at hv
    cases hv
  · rw [if_neg hhead] at hv
    simp only [bind, Except.bind] at hv
    have hpart := h.partOf_proof ht proof
    cases hget : MerklePatriciaTrie.get ⟨proofOpts trie.opts,
        proofDb (proofOpts trie.opts).useKeyHashingFunction proof, trie.root⟩ key true with
    | error e =>
      rw [hget] at hv
      cases hv
    | ok w =>
      rw [hget] at hv
      obtain rfl := Except.ok.inj hv
      rw [hpart.get_eq_of_ok hE hget, h.get (hE.mono Set.subset_union_left)]
      rfl

/-- The proof that is made for a key is accepted with the value of the key. -/
theorem verifyMerkleProof_complete (h : Represents E trie t) (ht : t ≠ nil) (key : Bytes)
    {proof : List Bytes} (hproof : EthereumJS.createMerkleProof trie key = .ok proof)
    (hE : CollisionFree trie.hashing (E ∪ { e | e ∈ proof })) :
    verifyMerkleProof key proof (proofOpts trie.opts) (some trie.root) = trie.get key false := by
  have hEt := hE.mono Set.subset_union_left
  rw [h.createMerkleProof hEt ht] at hproof
  obtain rfl := Except.ok.inj hproof
  generalize hk : bytesToNibbles (trie.appliedKey key) = k at hE
  have hpart := h.partOf_proof ht ((t.trail k).map (encodeTree trie.hashing))
  have hin : ∀ s ∈ t.trail k, proofDb trie.hashing ((t.trail k).map (encodeTree trie.hashing))
      (rootHash trie.hashing s) = some (encodeTree trie.hashing s) := by
    intro s hs
    exact mem_proofDb hE (fun e he => Or.inr he) (List.mem_map_of_mem hs)
  have hhead : t ∈ t.trail k := by
    rw [trail_eq_cons ht]
    simp
  have hpath : PathIn trie.hashing
      (proofDb trie.hashing ((t.trail k).map (encodeTree trie.hashing))) t k :=
    ⟨hin t hhead, fun s hs _ => hin s (List.mem_of_mem_tail hs)⟩
  unfold verifyMerkleProof
  rw [createMPTFromProof_root _ _ h.length_root]
  have hroot : ¬ ∃ node ∈ ((t.trail k).map (encodeTree trie.hashing)).head?,
      trie.root ≠ (proofOpts trie.opts).useKeyHashingFunction.hash node := by
    rw [trail_eq_cons ht]
    simp only [List.map_cons, List.head?_cons, Option.mem_def, Option.some.injEq, exists_eq_left',
      ne_eq, not_not]
    exact h.root_eq
  rw [if_neg hroot]
  simp only [bind, Except.bind]
  have hget : MerklePatriciaTrie.get ⟨proofOpts trie.opts,
      proofDb trie.hashing ((t.trail k).map (encodeTree trie.hashing)), trie.root⟩ key true =
      .ok ((t.lookup k).map fun v => .bytes v.1) := by
    subst hk
    exact hpart.get_of_pathIn hE true hpath
  rw [h.get hEt key, hk]
  change (match MerklePatriciaTrie.get ⟨proofOpts trie.opts,
      proofDb trie.hashing ((t.trail k).map (encodeTree trie.hashing)), trie.root⟩ key true with
    | .ok value => Except.ok value
    | .error _ => .error MPTError.invalidProof) = _
  rw [hget]

end Represents

/-- In a trie that is not empty, the proof of a key is accepted with what `get` returns,
and no other list of byte strings is accepted with anything else. Every run of `put` and
`del` ends with a trie that represents a tree. -/
theorem verifyMerkleProof_eq_get {E : Set Bytes} {trie : MerklePatriciaTrie} {t : MPTree}
    (h : Represents E trie t) (hroot : trie.root ≠ trie.emptyTrieRoot)
    (hE : CollisionFree trie.hashing E) (key : Bytes) :
    ∃ v proof, trie.get key false = .ok v ∧ createMerkleProof trie key = .ok proof ∧
      (CollisionFree trie.hashing (E ∪ { e | e ∈ proof }) →
        verifyMerkleProof key proof (proofOpts trie.opts) (some trie.root) = .ok v) ∧
      ∀ p : List Bytes, CollisionFree trie.hashing (E ∪ { e | e ∈ p }) → ∀ w,
        verifyMerkleProof key p (proofOpts trie.opts) (some trie.root) = .ok w → w = v := by
  have ht : t ≠ nil := by
    rintro rfl
    exact hroot h.root_eq
  have hget := h.get hE key
  have hmake := h.createMerkleProof hE ht key
  refine ⟨_, _, hget, hmake, ?_, ?_⟩
  · intro hproof
    rw [h.verifyMerkleProof_complete ht key hmake hproof]
    exact hget
  · intro p hp w hw
    have hsound := h.verifyMerkleProof_sound ht key p hp hw
    rw [hget] at hsound
    exact (Except.ok.inj hsound).symm

def provedCalls : List TrieOp :=
  [.put [0x12] (.cons 1 []), .put [0x12, 0x34] (.cons 2 (List.replicate 39 2)),
    .put [0x13, 0x56] (.cons 3 [])]

theorem verifyMerkleProof_eq_get_absent :
    ∃ trie v proof, (createMPT (plainOpts polynomialHash)).run provedCalls = .ok trie ∧
      trie.get [0x12, 0x35] false = .ok v ∧ createMerkleProof trie [0x12, 0x35] = .ok proof ∧
      (CollisionFree trie.hashing
          (runEncodings (plainOpts polynomialHash) provedCalls ∪ { e | e ∈ proof }) →
        verifyMerkleProof [0x12, 0x35] proof (proofOpts trie.opts) (some trie.root) = .ok v) ∧
      ∀ p : List Bytes, CollisionFree trie.hashing
          (runEncodings (plainOpts polynomialHash) provedCalls ∪ { e | e ∈ p }) → ∀ w,
        verifyMerkleProof [0x12, 0x35] p (proofOpts trie.opts) (some trie.root) = .ok w →
          w = v := by
  have hE : CollisionFree polynomialHash
      (runEncodings (plainOpts polynomialHash) provedCalls) :=
    collisionFree_of_list (by decide +kernel)
  obtain ⟨trie, hrun, hopts, hrep⟩ := run_createMPT (plainOpts polynomialHash) rfl hE
  have hhash : trie.hashing = polynomialHash := by
    rw [MerklePatriciaTrie.hashing, hopts]
    rfl
  have hroot : trie.root ≠ trie.emptyTrieRoot := by
    have hne : ((createMPT (plainOpts polynomialHash)).run provedCalls).map
        MerklePatriciaTrie.root ≠ .ok (polynomialHash.hash RLP_EMPTY_STRING) := by
      decide +kernel
    rw [hrun] at hne
    rw [MerklePatriciaTrie.emptyTrieRoot, MerklePatriciaTrie.hash, hopts]
    exact fun heq => hne (congrArg Except.ok heq)
  obtain ⟨v, proof, hget, hmake, hboth⟩ :=
    verifyMerkleProof_eq_get hrep hroot (hhash ▸ hE) [0x12, 0x35]
  exact ⟨trie, v, proof, hrun, hget, hmake, hboth⟩

end EthereumJS
