import EthereumJS.Mpt.FixedLength
import EthereumJS.Mpt.ValueMap
import EthereumJS.Ordered.Firsts
import EthereumJS.Patricia.Leaves

/-! # The walk over a stored tree

In a tree over keys of one length, `_walkTrie` comes to the leaves below children that are in the
database under their hashes, and it yields the first of those that have the same hash.
-/

namespace EthereumJS

open RLP Patricia Patricia.Tree Ordered

/-- A trie over keys of `n` bytes. What the database holds under the hash of one of its nodes is
that node, and the hash has no collision among the nodes. -/
structure FixedLengthTrie (E : Set Bytes) (n : Nat) (trie : MerklePatriciaTrie) (t : MPTree) :
    Prop where
  represents : Represents E trie t
  canon : CanonAt (2 * n) t
  collisionFree : CollisionFree trie.hashing E
  emptyString : RLP_EMPTY_STRING ∈ E
  encodings : t.All fun s => encodeTree trie.hashing s ∈ E
  own : t.All fun s =>
    ∀ e, trie.db (rootHash trie.hashing s) = some e → e = encodeTree trie.hashing s
  noEmptyKey : trie.db [] = none

namespace MerklePatriciaTrie

section Nodes

variable (trie : MerklePatriciaTrie)

/-- The node of a tree is in the database under its hash. -/
def inDb (t : MPTree) : Bool := (trie.db (rootHash trie.hashing t)).isSome

abbrev leavesInDb (t : MPTree) : List (LeafAt Nibble Value) :=
  t.leaves (List.finRange 16) trie.inDb

abbrev nodesInDb (t : MPTree) : List MPTree := t.nodes (List.finRange 16) trie.inDb

def leafHash (e : LeafAt Nibble Value) : Bytes := rootHash trie.hashing e.node

/-- What the walk yields for a leaf. -/
def yielded (currentKey : Nibbles) (e : LeafAt Nibble Value) : MPTNode × Nibbles :=
  (nodeOf trie.hashing e.node, currentKey ++ e.above)

/-- The node can be read and told from others by its hash. -/
structure Kept (E : Set Bytes) (t : MPTree) : Prop where
  encoding : encodeTree trie.hashing t ∈ E
  resident : Resident trie.hashing trie.db t
  own : ∀ e, trie.db (rootHash trie.hashing t) = some e → e = encodeTree trie.hashing t

/-- With a node, all that the walk passes below it has been visited, if the node is not above a
tree of this depth. -/
def Closed (E : Set Bytes) (visited : List Bytes) (m : Nat) : Prop :=
  ∀ s : MPTree, s ≠ nil → s.All (trie.Kept E) → rootHash trie.hashing s ∈ visited →
    (∀ u ∈ trie.nodesInDb s, rootHash trie.hashing u ∈ visited) ∨ ∃ d, s.Canon d ∧ m < d

end Nodes

variable {trie : MerklePatriciaTrie} {E : Set Bytes}

@[simp] theorem leafHash_under (p : Nibbles) (e : LeafAt Nibble Value) :
    trie.leafHash (e.under p) = trie.leafHash e := rfl

@[simp] theorem yielded_under (currentKey p : Nibbles) (e : LeafAt Nibble Value) :
    trie.yielded currentKey (e.under p) = trie.yielded (currentKey ++ p) e := by
  simp [yielded]

theorem rootHash_inj (hE : CollisionFree trie.hashing E) {s t : MPTree} (hs : s ≠ nil)
    (ht : t ≠ nil) (hsk : s.All (trie.Kept E)) (htk : t.All (trie.Kept E))
    (h : rootHash trie.hashing s = rootHash trie.hashing t) : s = t := by
  have hencoded : ∀ {u : MPTree}, u.All (trie.Kept E) → EncodedIn trie.hashing E u :=
    fun hu => hu.mono fun _ hkept _ => hkept.encoding
  exact rootHash_injective _ hE (hencoded hsk) (hencoded htk) (hsk.self hs).encoding
    (htk.self ht).encoding h

section Step

variable {t : MPTree} {ref : Item} {currentKey : Nibbles} {visited : List Bytes} {fuel : Nat}

theorem walk_error {error : MPTError} (hlookup : trie.lookupNode ref = .error error) :
    trie.walkTrieIterable isValueNode (fuel + 1) ref currentKey visited = some ([], visited) := by
  rw [walkTrieIterable, hlookup]
  split <;> rfl

theorem walk_visited (ht : t ≠ nil) (hlookup : trie.lookupNode ref = .ok (nodeOf trie.hashing t))
    (hvisited : rootHash trie.hashing t ∈ visited) :
    trie.walkTrieIterable isValueNode (fuel + 1) ref currentKey visited = some ([], visited) := by
  rw [walkTrieIterable, hlookup]
  have hhash : trie.hash (nodeOf trie.hashing t).serialize = rootHash trie.hashing t := by
    rw [serialize_nodeOf _ ht]
    rfl
  simp only [hhash, hvisited, if_true, ite_self]

theorem childNode_refTree (ht : t ≠ nil) :
    trie.childNode (refTree trie.hashing t) = .bytes (rootHash trie.hashing t) := by
  by_cases hlen : 32 ≤ (encodeTree trie.hashing t).length
  · rw [refTree_of_long _ hlen]
    rfl
  · obtain ⟨items, hitems⟩ := rawTree_eq_list trie.hashing ht
    rw [refTree_of_short _ hlen, hitems, childNode, rootHash, encodeTree, hitems]
    rfl

theorem refTree_ne_empty (hE : CollisionFree trie.hashing E) (hempty : RLP_EMPTY_STRING ∈ E)
    (ht : t ≠ nil) (hmem : encodeTree trie.hashing t ∈ E) :
    refTree trie.hashing t ≠ .bytes trie.emptyTrieRoot := by
  by_cases hlen : 32 ≤ (encodeTree trie.hashing t).length
  · rw [refTree_of_long _ hlen]
    exact fun h => rootHash_ne_empty _ hE ht hmem hempty (Item.bytes.inj h)
  · obtain ⟨items, hitems⟩ := rawTree_eq_list trie.hashing ht
    rw [refTree_of_short _ hlen, hitems]
    simp

theorem walk_leaf {p : Nibbles} {v : Value} (href : ref ≠ .bytes trie.emptyTrieRoot)
    (hlookup : trie.lookupNode ref = .ok (nodeOf trie.hashing (leaf p v)))
    (hnew : rootHash trie.hashing (leaf p v) ∉ visited) :
    trie.walkTrieIterable isValueNode (fuel + 1) ref currentKey visited =
      some ([(nodeOf trie.hashing (leaf p v), currentKey)],
        rootHash trie.hashing (leaf p v) :: visited) := by
  rw [walkTrieIterable, if_neg href, hlookup]
  exact if_neg hnew

theorem walk_ext {p : Nibbles} {c : MPTree} (href : ref ≠ .bytes trie.emptyTrieRoot)
    (hlookup : trie.lookupNode ref = .ok (nodeOf trie.hashing (ext p c)))
    (hnew : rootHash trie.hashing (ext p c) ∉ visited) :
    trie.walkTrieIterable isValueNode (fuel + 1) ref currentKey visited =
      trie.walkTrieIterable isValueNode fuel (refTree trie.hashing c) (currentKey ++ p)
        (rootHash trie.hashing (ext p c) :: visited) := by
  rw [walkTrieIterable, if_neg href, hlookup]
  refine (if_neg hnew).trans ?_
  simp only [nodeOf]
  exact Option.bind_fun_some _

theorem walk_branch {c : Nibble → MPTree} (href : ref ≠ .bytes trie.emptyTrieRoot)
    (hlookup : trie.lookupNode ref = .ok (nodeOf trie.hashing (branch c none)))
    (hnew : rootHash trie.hashing (branch c none) ∉ visited) :
    trie.walkTrieIterable isValueNode (fuel + 1) ref currentKey visited =
      walkChildren (fun nibble visited =>
        trie.walkTrieIterable isValueNode fuel (trie.childNode (refTree trie.hashing (c nibble)))
          (currentKey ++ [nibble]) visited) (List.finRange 16)
        (rootHash trie.hashing (branch c none) :: visited) := by
  rw [walkTrieIterable, if_neg href, hlookup]
  refine (if_neg hnew).trans ?_
  simp only [nodeOf]
  exact Option.bind_fun_some _

end Step

/-- A walk yields the first of the leaves whose hashes have not been visited, and it visits the
nodes. -/
def Yields (trie : MerklePatriciaTrie) (leaves : List (LeafAt Nibble Value)) (nodes : List MPTree)
    (currentKey : Nibbles) (visited : List Bytes) (r : Option Walked) : Prop :=
  ∃ visited', r = some ((firsts trie.leafHash visited leaves).map (trie.yielded currentKey),
      visited') ∧
    ∀ h, h ∈ visited' ↔ h ∈ visited ∨ ∃ s ∈ nodes, rootHash trie.hashing s = h

section Yields

variable {t : MPTree} {currentKey : Nibbles} {visited : List Bytes} {m : Nat}

theorem yields_nothing : Yields trie [] [] currentKey visited (some ([], visited)) :=
  ⟨visited, rfl, fun h => by simp⟩

/-- A node that has been visited, and is not above itself, has nothing new below it. -/
theorem yields_of_closed (hcanon : t.Canon m) (hkept : t.All (trie.Kept E))
    (hclosed : trie.Closed E visited m) (hvisited : rootHash trie.hashing t ∈ visited) :
    Yields trie (trie.leavesInDb t) (trie.nodesInDb t) currentKey visited
      (some ([], visited)) := by
  have hbelow : ∀ u ∈ trie.nodesInDb t, rootHash trie.hashing u ∈ visited := by
    refine (hclosed t hcanon.ne_nil hkept hvisited).resolve_right ?_
    rintro ⟨d, hd, hlt⟩
    exact absurd (hcanon.depth_unique hd) hlt.ne
  have hnone : firsts trie.leafHash visited (trie.leavesInDb t) = [] :=
    firsts_eq_nil fun e he => hbelow _ (node_mem_nodes he)
  refine ⟨visited, by rw [hnone, List.map_nil], fun h => ?_⟩
  refine (or_iff_left_of_imp ?_).symm
  rintro ⟨u, hu, rfl⟩
  exact hbelow u hu

/-- The nodes below a visited tree stay visited when those of another tree are visited. -/
theorem Closed.of_yields (hE : CollisionFree trie.hashing E) (hclosed : trie.Closed E visited m)
    {visited' : List Bytes} {nodes : List MPTree}
    (hnodes : ∀ u ∈ nodes, u ≠ nil ∧ u.All (trie.Kept E) ∧ ∀ s ∈ trie.nodesInDb u, s ∈ nodes)
    (hvisited : ∀ h, h ∈ visited' ↔ h ∈ visited ∨ ∃ s ∈ nodes, rootHash trie.hashing s = h) :
    trie.Closed E visited' m := by
  intro s hs hkept hmem
  obtain hmem | ⟨u, hu, heq⟩ := (hvisited _).mp hmem
  · refine (hclosed s hs hkept hmem).imp_left fun hbelow u hu => ?_
    exact (hvisited _).mpr (.inl (hbelow u hu))
  · obtain ⟨hne, hukept, hbelow⟩ := hnodes u hu
    obtain rfl := rootHash_inj hE hne hs hukept hkept heq
    exact .inl fun w hw => (hvisited _).mpr (.inr ⟨w, hbelow w hw, rfl⟩)

theorem Closed.cons (hE : CollisionFree trie.hashing E) {d : Nat}
    (hclosed : trie.Closed E visited d) (hcanon : t.Canon d) (hkept : t.All (trie.Kept E))
    (hlt : m < d) :
    trie.Closed E (rootHash trie.hashing t :: visited) m := by
  intro s hs hskept hmem
  obtain heq | hmem := List.mem_cons.mp hmem
  · obtain rfl := rootHash_inj hE hs hcanon.ne_nil hskept hkept heq
    exact .inr ⟨d, hcanon, hlt⟩
  · refine (hclosed s hs hskept hmem).imp (fun hbelow u hu => ?_) fun ⟨e, he, hde⟩ => ?_
    · exact List.mem_cons_of_mem _ (hbelow u hu)
    · exact ⟨e, he, hlt.trans hde⟩

/-- The walk below a node, from any reference to the node. -/
def WalksTree (trie : MerklePatriciaTrie) (E : Set Bytes) (t : MPTree) (m : Nat) : Prop :=
  ∀ ref currentKey visited fuel, trie.lookupNode ref = .ok (nodeOf trie.hashing t) →
    ref ≠ .bytes trie.emptyTrieRoot → trie.Closed E visited m → m < fuel →
      Yields trie (trie.leavesInDb t) (trie.nodesInDb t) currentKey visited
        (trie.walkTrieIterable isValueNode fuel ref currentKey visited)

/-- What a child contributes to the leaves of a branch. -/
def childLeaves (trie : MerklePatriciaTrie) (c : Nibble → MPTree) (a : Nibble) :
    List (LeafAt Nibble Value) :=
  if trie.inDb (c a) then (trie.leavesInDb (c a)).map (LeafAt.under [a]) else []

def childNodes (trie : MerklePatriciaTrie) (c : Nibble → MPTree) (a : Nibble) : List MPTree :=
  if trie.inDb (c a) then trie.nodesInDb (c a) else []

theorem yields_child (currentKey : Nibbles) (hE : CollisionFree trie.hashing E)
    (hempty : RLP_EMPTY_STRING ∈ E) (hnone : trie.db [] = none) {c : Nibble → MPTree} {a : Nibble}
    (hkept : (c a).All (trie.Kept E)) (hwalks : c a ≠ nil → WalksTree trie E (c a) m)
    (hclosed : trie.Closed E visited m) {fuel : Nat} (hfuel : m < fuel) :
    Yields trie (trie.childLeaves c a) (trie.childNodes c a) currentKey visited
      (trie.walkTrieIterable isValueNode fuel (trie.childNode (refTree trie.hashing (c a)))
        (currentKey ++ [a]) visited) := by
  obtain ⟨fuel, rfl⟩ : ∃ n, fuel = n + 1 := ⟨fuel - 1, by omega⟩
  by_cases hnil : c a = nil
  · have hmissing : trie.lookupNode (trie.childNode (refTree trie.hashing (c a))) =
        .error .missingNode := by
      rw [hnil, refTree_nil, childNode, lookupNode, hnone]
    rw [walk_error hmissing, childLeaves, childNodes, hnil]
    simpa [leaves, nodes] using yields_nothing
  · have hself := hkept.self hnil
    rw [childNode_refTree hnil]
    cases hdb : trie.db (rootHash trie.hashing (c a)) with
    | none =>
      have hmissing : trie.lookupNode (.bytes (rootHash trie.hashing (c a))) =
          .error .missingNode := by
        rw [lookupNode, hdb]
      rw [walk_error hmissing, childLeaves, childNodes, inDb, hdb]
      exact yields_nothing
    | some e =>
      obtain rfl := hself.own e hdb
      have hlookup := trie.lookupNode_hash hE hnil hself.encoding hdb
      have href := rootHash_ne_empty trie.hashing hE hnil hself.encoding hempty
      obtain ⟨visited', hr, hvisited'⟩ := hwalks hnil _ (currentKey ++ [a]) visited _ hlookup
        (fun h => href (Item.bytes.inj h)) hclosed hfuel
      have hin : trie.inDb (c a) = true := by
        rw [inDb, hdb]
        rfl
      refine ⟨visited', ?_, ?_⟩
      · rw [hr, childLeaves, if_pos hin, firsts_map, List.map_map]
        refine congrArg (fun found => some (found, visited')) (List.map_congr_left fun e _ => ?_)
        exact (yielded_under currentKey [a] e).symm
      · rw [childNodes, if_pos hin]
        exact hvisited'

theorem node_mem_childNodes {c : Nibble → MPTree} {a : Nibble} {e : LeafAt Nibble Value}
    (he : e ∈ trie.childLeaves c a) : e.node ∈ trie.childNodes c a := by
  unfold childLeaves at he
  unfold childNodes
  split at he
  · next hin =>
    obtain ⟨f, hf, rfl⟩ := List.mem_map.mp he
    have hnode := node_mem_nodes hf
    rw [if_pos hin]
    exact hnode
  · cases he

theorem exists_childLeaf {c : Nibble → MPTree} {a : Nibble} {e : LeafAt Nibble Value}
    (he : e.node ∈ trie.childNodes c a) : ∃ f ∈ trie.childLeaves c a, f.node = e.node := by
  unfold childNodes at he
  unfold childLeaves
  split at he
  · next hin =>
    obtain ⟨f, hf, hnode⟩ := exists_leaf_of_mem_nodes he
    rw [if_pos hin]
    exact ⟨f.under [a], List.mem_map_of_mem hf, hnode⟩
  · cases he

theorem kept_childNodes {c : Nibble → MPTree} {a : Nibble} (hkept : (c a).All (trie.Kept E))
    {u : MPTree} (hu : u ∈ trie.childNodes c a) :
    u ≠ nil ∧ u.All (trie.Kept E) ∧ ∀ s ∈ trie.nodesInDb u, s ∈ trie.childNodes c a := by
  unfold childNodes at hu ⊢
  split at hu
  · next hin =>
    rw [if_pos hin]
    exact ⟨ne_nil_of_mem_nodes hu, hkept.of_mem_nodes hu, fun s hs => nodes_trans hu hs⟩
  · cases hu

/-- The loop over the children of a branch yields what they contribute, one after the other. -/
theorem yields_children (currentKey : Nibbles) (hE : CollisionFree trie.hashing E)
    (hempty : RLP_EMPTY_STRING ∈ E) (hnone : trie.db [] = none) {c : Nibble → MPTree}
    (hkept : ∀ a, (c a).All (trie.Kept E))
    (hwalks : ∀ a, c a ≠ nil → WalksTree trie E (c a) m) {fuel : Nat} (hfuel : m < fuel)
    (nibbles : List Nibble) (hclosed : trie.Closed E visited m) :
    Yields trie (nibbles.flatMap (trie.childLeaves c)) (nibbles.flatMap (trie.childNodes c))
      currentKey visited (walkChildren (fun nibble visited =>
        trie.walkTrieIterable isValueNode fuel (trie.childNode (refTree trie.hashing (c nibble)))
          (currentKey ++ [nibble]) visited) nibbles visited) := by
  induction nibbles generalizing visited with
  | nil => exact yields_nothing
  | cons a nibbles ih =>
    obtain ⟨visited₁, hr₁, hvisited₁⟩ := yields_child currentKey hE hempty hnone
      (hkept a) (hwalks a) hclosed hfuel
    obtain ⟨visited₂, hr₂, hvisited₂⟩ := ih
      (hclosed.of_yields hE (fun u hu => kept_childNodes (hkept a) hu) hvisited₁)
    refine ⟨visited₂, ?_, fun h => ?_⟩
    · have hseen : ∀ e ∈ nibbles.flatMap (trie.childLeaves c), trie.leafHash e ∈ visited₁ ↔
          trie.leafHash e ∈ visited ∨
            ∃ f ∈ trie.childLeaves c a, trie.leafHash f = trie.leafHash e := by
        intro e he
        obtain ⟨b, _, hb⟩ := List.mem_flatMap.mp he
        obtain ⟨hne, heKept, _⟩ := kept_childNodes (hkept b) (node_mem_childNodes hb)
        rw [hvisited₁]
        refine or_congr_right ⟨?_, ?_⟩
        · rintro ⟨u, hu, heq⟩
          obtain ⟨hune, huKept, _⟩ := kept_childNodes (hkept a) hu
          obtain rfl := rootHash_inj hE hune hne huKept heKept heq
          obtain ⟨f, hf, hnode⟩ := exists_childLeaf hu
          exact ⟨f, hf, by rw [leafHash, leafHash, hnode]⟩
        · rintro ⟨f, hf, heq⟩
          exact ⟨f.node, node_mem_childNodes hf, heq⟩
      rw [walkChildren, hr₁, List.flatMap_cons, firsts_append hseen, List.map_append]
      simp only [Option.bind_eq_bind, Option.bind_some, hr₂]
      rfl
    · rw [hvisited₂, hvisited₁, List.flatMap_cons]
      simp only [List.mem_append, or_and_right, exists_or, or_assoc]

theorem walksTree_of_new (hcanon : t.Canon m) (hkept : t.All (trie.Kept E))
    (hnew : ∀ ref currentKey visited fuel, trie.lookupNode ref = .ok (nodeOf trie.hashing t) →
      ref ≠ .bytes trie.emptyTrieRoot → trie.Closed E visited m → m < fuel + 1 →
        rootHash trie.hashing t ∉ visited →
          Yields trie (trie.leavesInDb t) (trie.nodesInDb t) currentKey visited
            (trie.walkTrieIterable isValueNode (fuel + 1) ref currentKey visited)) :
    WalksTree trie E t m := by
  intro ref currentKey visited fuel hlookup href hclosed hfuel
  obtain ⟨fuel, rfl⟩ : ∃ n, fuel = n + 1 := ⟨fuel - 1, by omega⟩
  by_cases hvisited : rootHash trie.hashing t ∈ visited
  · rw [walk_visited hcanon.ne_nil hlookup hvisited]
    exact yields_of_closed hcanon hkept hclosed hvisited
  · exact hnew ref currentKey visited fuel hlookup href hclosed hfuel hvisited

/-- The walk over a canonical tree whose nodes are kept. -/
theorem walksTree (hE : CollisionFree trie.hashing E) (hempty : RLP_EMPTY_STRING ∈ E)
    (hnone : trie.db [] = none) (hcanon : t.Canon m) (hkept : t.All (trie.Kept E)) :
    WalksTree trie E t m := by
  induction t generalizing m with
  | nil => exact absurd hcanon id
  | leaf p v =>
    refine walksTree_of_new hcanon hkept fun ref currentKey visited fuel hlookup href _ _ hnew => ?_
    rw [walk_leaf href hlookup hnew]
    refine ⟨rootHash trie.hashing (leaf p v) :: visited, ?_, fun h => ?_⟩
    · have hfirst : firsts trie.leafHash visited [⟨[], p, v⟩] = [⟨[], p, v⟩] := if_neg hnew
      rw [leavesInDb, leaves, hfirst]
      simp [yielded, LeafAt.node]
    · simp [nodes, or_comm, eq_comm]
  | ext p c ih =>
    refine walksTree_of_new hcanon hkept
      fun ref currentKey visited fuel hlookup href hclosed hfuel hnew => ?_
    obtain ⟨hp, hbranch, d, rfl, hcanonc⟩ := id hcanon
    have hpos := List.length_pos_of_ne_nil hp
    have hself := hkept.2.self hbranch.ne_nil
    rw [walk_ext href hlookup hnew]
    obtain ⟨visited', hr, hvisited'⟩ := ih hcanonc hkept.2 _ (currentKey ++ p) _ fuel
      (trie.lookupNode_resident hE hbranch.ne_nil (fun _ => hself.encoding) hself.resident)
      (refTree_ne_empty hE hempty hbranch.ne_nil hself.encoding)
      (hclosed.cons hE hcanon hkept (by omega)) (by omega)
    refine ⟨visited', ?_, fun h => ?_⟩
    · have hsame : firsts trie.leafHash (rootHash trie.hashing (ext p c) :: visited)
          (trie.leavesInDb c) = firsts trie.leafHash visited (trie.leavesInDb c) := by
        refine firsts_congr fun e he => ?_
        refine List.mem_cons.trans (or_iff_right fun heq => ?_)
        have hnode := node_mem_nodes he
        have hleaf := rootHash_inj hE (ne_nil_of_mem_nodes hnode) hcanon.ne_nil
          (hkept.2.of_mem_nodes hnode) hkept heq
        cases hleaf
      have hleaves : trie.leavesInDb (ext p c) = (trie.leavesInDb c).map (LeafAt.under p) := rfl
      rw [hr, hsame, hleaves, firsts_map, List.map_map]
      refine congrArg (fun found => some (found, visited')) (List.map_congr_left fun e _ => ?_)
      exact (yielded_under currentKey p e).symm
    · have hnodes : trie.nodesInDb (ext p c) = ext p c :: trie.nodesInDb c := rfl
      rw [hvisited', hnodes]
      simp only [List.mem_cons, exists_eq_or_imp, eq_comm, or_assoc, or_left_comm]
  | branch c v ih =>
    refine walksTree_of_new hcanon hkept
      fun ref currentKey visited fuel hlookup href hclosed hfuel hnew => ?_
    obtain ⟨rfl, ⟨d, rfl, hcanonc⟩, _⟩ := id hcanon
    rw [walk_branch href hlookup hnew]
    obtain ⟨visited', hr, hvisited'⟩ := yields_children currentKey hE hempty hnone
      hkept.2 (fun a ha => ih a ((hcanonc a).resolve_left ha) (hkept.2 a))
      (by omega : d < fuel)
      (List.finRange 16) (hclosed.cons hE hcanon hkept (Nat.lt_succ_self d))
    refine ⟨visited', ?_, fun h => ?_⟩
    · have hsame : firsts trie.leafHash (rootHash trie.hashing (branch c none) :: visited)
          ((List.finRange 16).flatMap (trie.childLeaves c)) =
            firsts trie.leafHash visited ((List.finRange 16).flatMap (trie.childLeaves c)) := by
        refine firsts_congr fun e he => ?_
        refine List.mem_cons.trans (or_iff_right fun heq => ?_)
        obtain ⟨a, _, ha⟩ := List.mem_flatMap.mp he
        obtain ⟨hne, heKept, _⟩ := kept_childNodes (hkept.2 a) (node_mem_childNodes ha)
        have hleaf := rootHash_inj hE hne hcanon.ne_nil heKept hkept heq
        cases hleaf
      rw [hr, hsame]
      rfl
    · have hnodes : trie.nodesInDb (branch c none) =
          branch c none :: (List.finRange 16).flatMap (trie.childNodes c) := rfl
      rw [hvisited', hnodes]
      simp only [List.mem_cons, exists_eq_or_imp, eq_comm, or_assoc, or_left_comm]

end Yields

end MerklePatriciaTrie

end EthereumJS
