import EthereumJS.Mpt.Contract
import EthereumJS.Statemanager.StateProof

/-! # Storage proofs and the storage root

What an accepted state proof says about the storage trie with the reported root. The
verifier never compares the root of a storage sub-proof with that root.
-/

namespace EthereumJS

open RLP Patricia Patricia.Tree

theorem bytesOf_eq_ok {hex : HexString} {b : Bytes} : bytesOf hex = .ok b ↔ hexToBytes hex = .ok b :=
  mapError_eq_ok

/-- The tree of a storage trie: a value is the encoding of up to 32 bytes without a zero
in front. -/
def IsStorage (t : MPTree) : Prop :=
  ∀ k v, t.lookup k = some v → ∃ w : Bytes, v.1 = encode (.bytes w) ∧ w ≠ [] ∧ unpadBytes w = w ∧
    w.length ≤ 32

/-- The value of a word in a storage trie. -/
def wordItem (w : Bytes) : Option Item := if w = [] then none else some (.bytes (encode (.bytes w)))

/-- The trie stores the value of a proof entry under its key. -/
def StoresValue (trie : MerklePatriciaTrie) (s : StorageProof) : Prop :=
  ∃ key value, hexToBytes s.key = .ok key ∧ hexToBytes s.value = .ok value ∧
    trie.get key false = .ok (wordItem (unpadBytes value))

variable (H : HashKeysFunction)

/-- The first node of the sub-proof has the given hash. -/
def TiedTo (storageHash : HexString) (s : StorageProof) : Prop :=
  ∃ hex node, s.proof.head? = some hex ∧ hexToBytes hex = .ok node ∧
    hexToBytes storageHash = .ok (H.hash node)

/-- The sub-proof proves the same number for the key as the trie holds. -/
def ProvesSame (trie : MerklePatriciaTrie) (s : StorageProof) : Prop :=
  ∃ key nodes own read, hexToBytes s.key = .ok key ∧ s.proof.mapM bytesOf = .ok nodes ∧
    verifyMerkleProof key nodes (hashedOpts H) none = .ok read ∧ trie.get key false = .ok own ∧
    reportedValue own = reportedValue read

theorem length_encode_word {w : Bytes} (h : w.length ≤ 32) : (encode (.bytes w)).length ≤ 33 := by
  have hlong : (encodeLength w.length 128).length = 1 := by
    rw [encodeLength, if_pos (by omega)]
    rfl
  have hone : (encodeLength 1 128).length = 1 := rfl
  rw [encode]
  unfold encodeBytes
  split
  · split
    · simp
    · simp [hone]
  · rw [List.length_append, hlong]
    omega

theorem decodeValue_word {w : Bytes} (h : w.length ≤ 32) :
    decodeValue ((wordItem w).getD (.bytes [])) = .ok (.bytes w) := by
  unfold wordItem
  split
  · rename_i hw
    rw [hw]
    rfl
  · have hlen : (encode (.bytes w)).length < maxLength :=
      lt_of_le_of_lt (length_encode_word h) (by decide)
    rw [Option.getD_some, decodeValue, decode_encode _ hlen]

theorem reportedValue_word {w : Bytes} (h : w.length ≤ 32) :
    reportedValue (wordItem w) = (setLengthLeft w 32).mapError .bytes := by
  rw [reportedValue, decodeValue_word h]

theorem wordItem_injective {w w' : Bytes} (h : w.length ≤ 32) (heq : wordItem w = wordItem w') :
    w = w' := by
  unfold wordItem at heq
  split at heq
  · rename_i hw
    split at heq
    · rename_i hw'
      rw [hw, hw']
    · cases heq
  · split at heq
    · cases heq
    · have hlen : (encode (.bytes w)).length < maxLength :=
        lt_of_le_of_lt (length_encode_word h) (by decide)
      exact Item.bytes.inj (encode_injective hlen (Item.bytes.inj (Option.some.inj heq)))

variable {H} {E : Set Bytes} {trie : MerklePatriciaTrie} {t : MPTree}

/-- A storage trie returns a word for every key. -/
theorem Represents.get_word (h : Represents E trie t) (hE : CollisionFree trie.hashing E)
    (hstorage : IsStorage t) (key : Bytes) : ∃ w : Bytes, unpadBytes w = w ∧ w.length ≤ 32 ∧
      trie.get key false = .ok (wordItem w) := by
  rw [h.get hE]
  cases hlookup : t.lookup (bytesToNibbles (trie.appliedKey key)) with
  | none => exact ⟨[], rfl, by simp, rfl⟩
  | some v =>
    obtain ⟨w, hv, hne, hpad, hlen⟩ := hstorage _ _ hlookup
    refine ⟨w, hpad, hlen, ?_⟩
    rw [wordItem, if_neg hne, Option.map_some, hv]

/-- A proof whose first node is the root of a trie returns what that trie holds. -/
theorem Represents.eq_get_of_tied (h : Represents E trie t) (hopts : trie.opts = hashedOpts H)
    (hempty : RLP_EMPTY_STRING ∈ E) {key node : Bytes} {nodes : List Bytes}
    (hE : CollisionFree H (E ∪ { e | e ∈ node :: nodes })) (htied : H.hash node = trie.root)
    {read : Option Item}
    (hread : verifyMerkleProof key (node :: nodes) (hashedOpts H) none = .ok read) :
    trie.get key false = .ok read := by
  have hhash : trie.hashing = H := by rw [MerklePatriciaTrie.hashing, hopts]; rfl
  have hcons := createMPTFromProof_cons node nodes (hashedOpts H)
  rcases Classical.em (t = nil) with rfl | ht
  · -- the encoding of the empty trie is no node
    have hnode : node = RLP_EMPTY_STRING := by
      refine hE.injOn (Or.inr List.mem_cons_self) (Or.inl hempty) (htied.trans ?_)
      rw [h.root_eq, hhash]
      rfl
    have hdb : proofDb H (node :: nodes) (H.hash node) = some RLP_EMPTY_STRING := by
      rw [mem_proofDb hE (fun e he => Or.inr he) List.mem_cons_self, hnode]
    unfold verifyMerkleProof at hread
    rw [hcons] at hread
    simp only [bind, Except.bind, MerklePatriciaTrie.get, MerklePatriciaTrie.findPath,
      MerklePatriciaTrie.walk, MerklePatriciaTrie.lookupNode] at hread
    have hdb' : proofDb (hashedOpts H).useKeyHashingFunction (node :: nodes)
        ((hashedOpts H).useKeyHashingFunction.hash node) = some RLP_EMPTY_STRING := hdb
    rw [hdb'] at hread
    cases hread
  · have hroot := createMPTFromProof_root (node :: nodes) (hashedOpts H) h.length_root
    have hhead : ¬ ∃ n ∈ (node :: nodes).head?, trie.root ≠
        (hashedOpts H).useKeyHashingFunction.hash n := by
      rintro ⟨n, hn, hne⟩
      obtain rfl := Option.some.inj hn
      exact hne htied.symm
    rw [if_neg hhead] at hroot
    have hsame : verifyMerkleProof key (node :: nodes) (proofOpts trie.opts) (some trie.root) =
        .ok read := by
      rw [← hread, hopts]
      unfold verifyMerkleProof
      have hopts' : proofOpts (hashedOpts H) = hashedOpts H := rfl
      rw [hopts', hcons, hroot, ← htied]
      rfl
    exact h.verifyMerkleProof_sound ht key (node :: nodes) (hhash ▸ hE) hsame

variable (H)

/-- The nodes of all storage sub-proofs. -/
def storageNodes (proof : StateProof) : Set Bytes :=
  { e | ∃ s ∈ proof.storageProof, ∃ nodes, s.proof.mapM bytesOf = .ok nodes ∧ e ∈ nodes }

/-- What the verifier has found out about an entry that it accepted. -/
theorem verifyStorageProof_eq_ok {s : StorageProof} (h : verifyStorageProof H s = .ok ()) :
    ∃ nodes value padded key read, s.proof.mapM bytesOf = .ok nodes ∧
      hexToBytes s.value = .ok value ∧ setLengthLeft value 32 = .ok padded ∧
      hexToBytes s.key = .ok key ∧ verifyMerkleProof key nodes (hashedOpts H) none = .ok read ∧
      reportedValue read = .ok padded := by
  unfold verifyStorageProof at h
  simp only [bind_eq_ok, mapError_eq_ok, bytesOf_eq_ok, requireEqual_eq_ok] at h
  obtain ⟨nodes, hnodes, value, hvalue, padded, hpadded, key, hkey, read, hread, reported, hrep, rfl⟩ := h
  exact ⟨nodes, value, reported, key, read, hnodes, hvalue, hpadded, hkey, hread, hrep⟩

variable {H}

/-- An accepted entry is right for a storage trie exactly if its sub-proof is tied to the
root of that trie, or proves the same number by chance. -/
theorem Represents.storesValue_iff (h : Represents E trie t) (hopts : trie.opts = hashedOpts H)
    (hempty : RLP_EMPTY_STRING ∈ E) (hstorage : IsStorage t) {storageHash : HexString}
    (hroot : hexToBytes storageHash = .ok trie.root) {s : StorageProof}
    (haccept : verifyStorageProof H s = .ok ())
    (hE : ∀ nodes, s.proof.mapM bytesOf = .ok nodes → CollisionFree H (E ∪ { e | e ∈ nodes })) :
    StoresValue trie s ↔ TiedTo H storageHash s ∨ ProvesSame H trie s := by
  obtain ⟨nodes, value, padded, key, read, hnodes, hvalue, hpadded, hkey, hread, hreported⟩ :=
    verifyStorageProof_eq_ok H haccept
  have hhash : trie.hashing = H := by rw [MerklePatriciaTrie.hashing, hopts]; rfl
  have hEt : CollisionFree trie.hashing E := hhash ▸ (hE nodes hnodes).mono Set.subset_union_left
  obtain ⟨w, hpad, hlen, hget⟩ := h.get_word hEt hstorage key
  have hstores : StoresValue trie s ↔ w = unpadBytes value := by
    constructor
    · rintro ⟨key', value', hkey', hvalue', hget'⟩
      obtain rfl := Except.ok.inj (hkey.symm.trans hkey')
      obtain rfl := Except.ok.inj (hvalue.symm.trans hvalue')
      exact wordItem_injective hlen (Except.ok.inj (hget.symm.trans hget'))
    · rintro rfl
      exact ⟨key, value, hkey, hvalue, hget⟩
  have hsame : ProvesSame H trie s ↔ w = unpadBytes value := by
    constructor
    · rintro ⟨key', nodes', own, read', hkey', hnodes', hread', hown, heq⟩
      obtain rfl := Except.ok.inj (hkey.symm.trans hkey')
      obtain rfl := Except.ok.inj (hnodes.symm.trans hnodes')
      obtain rfl := Except.ok.inj (hread.symm.trans hread')
      obtain rfl := Except.ok.inj (hget.symm.trans hown)
      rw [reportedValue_word hlen, hreported, mapError_eq_ok] at heq
      rw [← unpadBytes_setLengthLeft hpadded, unpadBytes_setLengthLeft heq, hpad]
    · rintro rfl
      refine ⟨key, nodes, _, read, hkey, hnodes, hread, hget, ?_⟩
      rw [reportedValue_word hlen, hreported, mapError_eq_ok]
      exact setLengthLeft_unpadBytes hpadded
  rw [hstores, ← hsame]
  refine ⟨Or.inr, ?_⟩
  rintro (⟨hex, node, hhead, hnode, htied⟩ | hsame')
  · cases hproof : s.proof with
    | nil =>
      rw [hproof] at hhead
      cases hhead
    | cons hex' rest =>
      rw [hproof] at hhead
      obtain rfl := Option.some.inj hhead
      obtain ⟨nodes', rfl⟩ : ∃ nodes', nodes = node :: nodes' := by
        rw [hproof, mapM_eq_ok_iff, List.forall₂_cons_left_iff] at hnodes
        obtain ⟨node', nodes', hnode', -, hcons⟩ := hnodes
        obtain rfl := Except.ok.inj (hnode.symm.trans (bytesOf_eq_ok.mp hnode'))
        exact ⟨nodes', hcons⟩
      have hown := h.eq_get_of_tied hopts hempty (hE _ hnodes)
        (Except.ok.inj (htied.symm.trans hroot)) hread
      exact ⟨key, _, read, read, hkey, hnodes, hread, hown, rfl⟩
  · exact hsame'

def someSlot : Bytes := List.replicate 32 1

def someAddress : Bytes := List.replicate 20 2

def storedCalls : List TrieOp := [.put someSlot (.cons 5 [])]

/-- The one node of the storage trie of these calls. -/
def storedNode : Bytes :=
  (MPTNode.leaf (bytesToNibbles (polynomialHash.hash someSlot)) (.bytes [5])).serialize

def ownerAccount : Account :=
  ⟨1, 7, polynomialHash.hash storedNode, keccakNull polynomialHash⟩

/-- The one node of an account trie. -/
def ownerNode : Bytes :=
  (MPTNode.leaf (bytesToNibbles (polynomialHash.hash someAddress))
    (.bytes ownerAccount.serialize)).serialize

def ownerProof : StateProof where
  address := bytesToHex someAddress
  balance := bigIntToHex 7
  codeHash := bytesToHex (keccakNull polynomialHash)
  nonce := bigIntToHex 1
  storageHash := bytesToHex (polynomialHash.hash storedNode)
  accountProof := [bytesToHex ownerNode]
  storageProof := [⟨bytesToHex someSlot, bytesToHex [5], [bytesToHex storedNode]⟩]

/-- The proof of an absent account with a value from another storage trie. -/
def forgedProof : StateProof where
  address := bytesToHex someAddress
  balance := bigIntToHex 0
  codeHash := bytesToHex (keccakNull polynomialHash)
  nonce := bigIntToHex 0
  storageHash := bytesToHex (keccakRlp polynomialHash)
  accountProof := [bytesToHex storedNode]
  storageProof := [⟨bytesToHex someSlot, bytesToHex [5], [bytesToHex storedNode]⟩]

end EthereumJS
