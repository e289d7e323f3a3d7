import EthereumJS.Mpt.ValueWalk
import EthereumJS.Util.Values

/-! # The range that `getValueMap` returns

An entry is reached if the walk comes to its leaf and no smaller key has an equal one.
`getValueMap` returns the range that was asked for exactly if the entries that are reached are
those from the start key on, with a limit of `n` the first `n + 1` of them.
-/

namespace EthereumJS

open RLP Patricia Patricia.Tree Ordered

section Order

theorem foldl_nibbles_lt {a b : Nibbles} (hlength : a.length = b.length) {m n : Nat} (h : m < n) :
    a.foldl (fun acc d => acc * 16 + d.val) m < b.foldl (fun acc d => acc * 16 + d.val) n := by
  induction a generalizing b m n with
  | nil =>
    obtain rfl := List.length_eq_zero_iff.mp hlength.symm
    exact h
  | cons x a ih =>
    cases b with
    | nil => cases hlength
    | cons y b =>
      have hstep : m * 16 + x.val < n * 16 + y.val := by omega
      exact ih (Nat.succ.inj hlength) hstep

theorem foldl_nibbles_strictMono {a b : Nibbles} (hlength : a.length = b.length) (h : a < b)
    (acc : Nat) :
    a.foldl (fun acc d => acc * 16 + d.val) acc < b.foldl (fun acc d => acc * 16 + d.val) acc := by
  induction a generalizing b acc with
  | nil =>
    obtain rfl := List.length_eq_zero_iff.mp hlength.symm
    exact absurd h (lt_irrefl _)
  | cons x a ih =>
    cases b with
    | nil => cases hlength
    | cons y b =>
      obtain hxy | ⟨rfl, hab⟩ := List.cons_lt_cons_iff.mp h
      · have hstep : acc * 16 + x.val < acc * 16 + y.val := Nat.add_lt_add_left hxy _
        exact foldl_nibbles_lt (Nat.succ.inj hlength) hstep
      · exact ih (Nat.succ.inj hlength) hab _

/-- Paths of one length are in the order of the keys as numbers. -/
theorem bytesToBigInt_packed_lt {a b : Nibbles} (heven : a.length % 2 = 0)
    (hlength : a.length = b.length) (h : a < b) :
    bytesToBigInt (nibblesTypeToPackedBytes a) < bytesToBigInt (nibblesTypeToPackedBytes b) := by
  have hvalue := foldl_nibbles_strictMono hlength h 0
  rw [← foldl_packedBytes a heven, ← foldl_packedBytes b (hlength ▸ heven)] at hvalue
  exact hvalue

end Order

namespace MerklePatriciaTrie

/-- The nodes of a stack that hang below a branch are in the database under their hashes. -/
def Fetched (trie : MerklePatriciaTrie) (stack : List MPTNode) : Prop :=
  stack.IsChain fun node parent =>
    parent.isBranch = true → (trie.db (trie.hash node.serialize)).isSome = true

/-- The walk can come to the leaf of a key. -/
def Shows (trie : MerklePatriciaTrie) (key : Bytes) (node : MPTNode) : Prop :=
  ∃ stack, trie.findPath key false = .ok ⟨some node, [], stack⟩ ∧ node.isLeaf = true ∧
    trie.Fetched stack

/-- The walk comes to the leaf of a key, and has not come to an equal one before. -/
def Reached (trie : MerklePatriciaTrie) (key : Bytes) : Prop :=
  ∃ node, trie.Shows key node ∧ ∀ key' node', bytesToBigInt key' < bytesToBigInt key →
    trie.Shows key' node' → trie.hash node'.serialize ≠ trie.hash node.serialize

end MerklePatriciaTrie

/-- The entries of a tree from a number on, in the order of their keys. -/
structure EntriesFrom (t : MPTree) (startKey : Int) (entries : List (Bytes × Item)) : Prop where
  sorted : entries.Pairwise fun e f => bytesToBigInt e.1 < bytesToBigInt f.1
  mem : ∀ key v, (key, v) ∈ entries ↔
    (t.lookup (bytesToNibbles key)).map (fun v => Item.bytes v.1) = some v ∧
      startKey ≤ bytesToBigInt key

/-- The entries up to a limit, and the key of the first one that is cut off. -/
def ValueMap.cut (entries : List (Bytes × Item)) : Option Nat → ValueMap
  | none => ⟨entries, none⟩
  | some n => ⟨entries.take n, ((entries.drop n).head?).map Prod.fst⟩

/-- Without a limit the entries from the start key on are reached and no others; with one, of
those from the start key on, as many as the limit and the next one. -/
def ReachesRange (trie : MerklePatriciaTrie) (t : MPTree) (startKey : Int)
    (entries : List (Bytes × Item)) : Option Nat → Prop
  | none => ∀ key, t.lookup (bytesToNibbles key) ≠ none →
    (trie.Reached key ↔ startKey ≤ bytesToBigInt key)
  | some n => ∀ (i : Nat) e, entries[i]? = some e → (trie.Reached e.1 ↔ i ≤ n)

namespace FixedLengthTrie

variable {E : Set Bytes} {n : Nat} {trie : MerklePatriciaTrie} {t : MPTree}

theorem kept (h : FixedLengthTrie E n trie t) : t.All (trie.Kept E) :=
  ((h.encodings.and h.represents.stored).and h.own).mono
    fun _ hs => ⟨hs.1.1, hs.1.2, hs.2⟩

/-- The leaves that the walk yields. -/
theorem walkAllValueNodes (h : FixedLengthTrie E n trie t) {fuel : Nat} (hfuel : 2 * n < fuel) :
    trie.walkAllValueNodes fuel =
      some ((firsts trie.leafHash [] (trie.leavesInDb t)).map (trie.yielded [])) := by
  rw [MerklePatriciaTrie.walkAllValueNodes, h.represents.root_eq]
  obtain rfl | hcanon := h.canon
  · obtain ⟨fuel, rfl⟩ : ∃ m, fuel = m + 1 := ⟨fuel - 1, by omega⟩
    have hempty : trie.walkTrieIterable isValueNode (fuel + 1) (.bytes trie.emptyTrieRoot) [] [] =
        some ([], []) := if_pos rfl
    exact congrArg (Option.map Prod.fst) hempty
  · have htop := h.represents.top hcanon.ne_nil
    have hlookup := trie.lookupNode_hash h.collisionFree hcanon.ne_nil htop.1 htop.2
    have hne := rootHash_ne_empty trie.hashing h.collisionFree hcanon.ne_nil htop.1 h.emptyString
    obtain ⟨visited, hr, _⟩ := MerklePatriciaTrie.walksTree h.collisionFree h.emptyString
      h.noEmptyKey hcanon h.kept _ [] [] fuel hlookup (fun heq => hne (Item.bytes.inj heq))
      (fun _ _ _ hmem => absurd hmem List.not_mem_nil) hfuel
    rw [hr, Option.map_some]

/-- Every entry of the trie as a leaf, and every leaf as an entry. -/
theorem exists_leaf (h : FixedLengthTrie E n trie t) {k : Nibbles} {v : Value} :
    (∃ e ∈ t.leaves (List.finRange 16) fun _ => true, e.key = k ∧ e.value = v) ↔
      t.lookup k = some v := by
  obtain rfl | hcanon := h.canon
  · simp [leaves]
  · rw [← hcanon.exists_reach]
    constructor
    · rintro ⟨e, he, hkey, hvalue⟩
      exact ⟨e.path, (exists_mem_leaves List.mem_finRange).mp ⟨e, he, hkey, rfl, hvalue⟩⟩
    · rintro ⟨p, hp⟩
      obtain ⟨e, he, hkey, _, hvalue⟩ := (exists_mem_leaves List.mem_finRange).mpr hp
      exact ⟨e, he, hkey, hvalue⟩

theorem length_key (h : FixedLengthTrie E n trie t) {e : LeafAt Nibble Value}
    (he : e ∈ t.leaves (List.finRange 16) fun _ => true) : e.key.length = 2 * n :=
  h.canon.length_of_lookup (h.exists_leaf.mp ⟨e, he, rfl, rfl⟩)

theorem bytesToNibbles_key (h : FixedLengthTrie E n trie t) {e : LeafAt Nibble Value}
    (he : e ∈ t.leaves (List.finRange 16) fun _ => true) :
    bytesToNibbles (nibblesTypeToPackedBytes e.key) = e.key :=
  bytesToNibbles_packedBytes _ (by rw [h.length_key he]; omega)

/-- The stack of a path is the trail of the key. -/
theorem fetched_trail {k : Nibbles} :
    trie.Fetched (((t.trail k).reverse).map (nodeOf trie.hashing)) ↔
      (t.trail k).IsChain fun s u => s.IsBranch → trie.inDb u = true := by
  rw [MerklePatriciaTrie.Fetched, List.isChain_map, List.isChain_reverse]
  refine List.IsChain.iff_of_mem_imp fun s u hs hu => ?_
  rw [serialize_nodeOf _ (ne_nil_of_mem_trail hu)]
  refine imp_congr ?_ Iff.rfl
  cases s with
  | nil => exact absurd rfl (ne_nil_of_mem_trail hs)
  | leaf p v => simp [nodeOf, MPTNode.isBranch, IsBranch]
  | ext p c => simp [nodeOf, MPTNode.isBranch, IsBranch]
  | branch c v => simp [nodeOf, MPTNode.isBranch, IsBranch]

/-- A path ends at a leaf where the descent does. -/
theorem pathAt_leaf {H : HashKeysFunction} {site : Site Nibble Value} {node : MPTNode}
    {stack : List MPTNode} : (pathAt H site = ⟨some node, [], stack⟩ ∧ node.isLeaf = true) ↔
      ∃ p v, site.focus = leaf p v ∧ site.rest = p ∧ node = nodeOf H (leaf p v) ∧
        stack = (site.focus.node? ++ spine site.ctx site.focus).map (nodeOf H) := by
  obtain ⟨ctx, focus, rest⟩ := site
  cases focus with
  | nil =>
    have hnone : (pathAt H ⟨ctx, nil, rest⟩).node = none := by
      cases ctx with
      | nil => rfl
      | cons f ctx => cases f <;> rfl
    refine iff_of_false (fun h => ?_) ?_
    · rw [h.1] at hnone
      cases hnone
    · rintro ⟨p, v, hfocus, _⟩
      cases hfocus
  | leaf p v =>
    by_cases hrest : rest = p
    · subst hrest
      simp only [pathAt, if_true, Path.mk.injEq, Option.some.injEq, true_and, node?]
      constructor
      · rintro ⟨⟨rfl, rfl⟩, _⟩
        exact ⟨rest, v, rfl, rfl, rfl, rfl⟩
      · rintro ⟨p, w, hfocus, _, rfl, rfl⟩
        cases hfocus
        exact ⟨⟨rfl, rfl⟩, rfl⟩
    · refine iff_of_false ?_ ?_
      · rintro ⟨hpath, _⟩
        simp [pathAt, hrest] at hpath
      · rintro ⟨q, w, hfocus, hq, _⟩
        cases hfocus
        exact hrest hq
  | ext p c =>
    refine iff_of_false ?_ ?_
    · rintro ⟨hpath, _⟩
      simp [pathAt] at hpath
    · rintro ⟨q, w, hfocus, _⟩
      cases hfocus
  | branch c v =>
    refine iff_of_false ?_ ?_
    · rintro ⟨hpath, hleaf⟩
      simp only [pathAt, Path.mk.injEq, Option.some.injEq] at hpath
      rw [← hpath.1] at hleaf
      cases hleaf
    · rintro ⟨q, w, hfocus, _⟩
      cases hfocus

theorem shows_iff (h : FixedLengthTrie E n trie t) {key : Bytes} {node : MPTNode} :
    trie.Shows key node ↔ ∃ e ∈ trie.leavesInDb t, e.key = bytesToNibbles key ∧
      node = nodeOf trie.hashing e.node := by
  have hmem : (∃ e ∈ trie.leavesInDb t, e.key = bytesToNibbles key ∧
      node = nodeOf trie.hashing e.node) ↔ ∃ p v,
        t.reach trie.inDb (bytesToNibbles key) = some (p, v) ∧
          node = nodeOf trie.hashing (leaf p v) := by
    constructor
    · rintro ⟨e, he, hkey, hnode⟩
      exact ⟨e.path, e.value, (exists_mem_leaves List.mem_finRange).mp ⟨e, he, hkey, rfl, rfl⟩,
        hnode⟩
    · rintro ⟨p, v, hreach, hnode⟩
      obtain ⟨e, he, hkey, rfl, rfl⟩ := (exists_mem_leaves List.mem_finRange).mpr hreach
      exact ⟨e, he, hkey, hnode⟩
  rw [hmem]
  by_cases ht : t = nil
  · subst ht
    simp only [MerklePatriciaTrie.Shows, h.represents.findPath_empty, reach_nil, reduceCtorEq,
      false_and, exists_false, iff_false]
    rintro ⟨stack, hpath, _⟩
    cases hpath
  · have htrail := trail_descend t (bytesToNibbles key) []
    rw [spine_nil, List.append_nil] at htrail
    have hfind := h.represents.findPath h.collisionFree ht key false
    constructor
    · rintro ⟨stack, hpath, hleaf, hfetched⟩
      obtain ⟨p, v, hfocus, hrest, hnode, rfl⟩ :=
        pathAt_leaf.mp ⟨Except.ok.inj (hfind.symm.trans hpath), hleaf⟩
      rw [← htrail] at hfetched
      exact ⟨p, v, (reach_eq_some_iff []).mpr ⟨hfocus, hrest, fetched_trail.mp hfetched⟩, hnode⟩
    · rintro ⟨p, v, hreach, hnode⟩
      obtain ⟨hfocus, hrest, hchain⟩ := (reach_eq_some_iff []).mp hreach
      obtain ⟨hpath, hleaf⟩ := pathAt_leaf.mpr ⟨p, v, hfocus, hrest, hnode, rfl⟩
      rw [← htrail] at hpath
      exact ⟨_, hfind.trans (congrArg Except.ok hpath), hleaf, fetched_trail.mpr hchain⟩

theorem number_lt_iff (h : FixedLengthTrie E n trie t) {e f : LeafAt Nibble Value}
    (he : e ∈ t.leaves (List.finRange 16) fun _ => true)
    (hf : f ∈ t.leaves (List.finRange 16) fun _ => true) :
    bytesToBigInt (nibblesTypeToPackedBytes e.key) <
      bytesToBigInt (nibblesTypeToPackedBytes f.key) ↔ e.key < f.key := by
  have hlt : ∀ {e f : LeafAt Nibble Value}, e ∈ t.leaves (List.finRange 16) (fun _ => true) →
      f ∈ t.leaves (List.finRange 16) (fun _ => true) → e.key < f.key →
        bytesToBigInt (nibblesTypeToPackedBytes e.key) <
          bytesToBigInt (nibblesTypeToPackedBytes f.key) := by
    intro e f he hf hkey
    have hlength := h.length_key he
    exact bytesToBigInt_packed_lt (by omega) (hlength.trans (h.length_key hf).symm) hkey
  refine ⟨fun hnum => ?_, hlt he hf⟩
  obtain hkey | hkey | hkey := lt_trichotomy e.key f.key
  · exact hkey
  · rw [hkey] at hnum
    exact absurd hnum (lt_irrefl _)
  · exact absurd hnum (hlt hf he hkey).asymm

theorem mem_leaves_of_inDb {e : LeafAt Nibble Value} (he : e ∈ trie.leavesInDb t) :
    e ∈ t.leaves (List.finRange 16) fun _ => true :=
  leaves_mono (fun _ _ => rfl) he

theorem hash_node (e : LeafAt Nibble Value) :
    trie.hash (nodeOf trie.hashing e.node).serialize = trie.leafHash e := by
  rw [serialize_nodeOf _ (by simp [LeafAt.node])]
  rfl

/-- The entries that are reached are those that the walk yields. -/
theorem reached_iff (h : FixedLengthTrie E n trie t) {e : LeafAt Nibble Value}
    (he : e ∈ t.leaves (List.finRange 16) fun _ => true) :
    trie.Reached (nibblesTypeToPackedBytes e.key) ↔
      e ∈ firsts trie.leafHash [] (trie.leavesInDb t) := by
  have hsorted : (trie.leavesInDb t).Pairwise fun e f => e.key < f.key :=
    sorted_leaves (List.pairwise_lt_finRange 16) t
  rw [mem_firsts (fun _ _ hlt => lt_asymm hlt) hsorted]
  constructor
  · rintro ⟨node, hshows, hfirst⟩
    obtain ⟨f, hf, hkey, rfl⟩ := h.shows_iff.mp hshows
    rw [h.bytesToNibbles_key he] at hkey
    obtain rfl := eq_of_key_eq List.mem_finRange (mem_leaves_of_inDb hf) he hkey
    refine ⟨hf, List.not_mem_nil, fun y hy hlt => ?_⟩
    have hyall := mem_leaves_of_inDb hy
    have hne := hfirst _ _ ((h.number_lt_iff hyall he).mpr hlt)
      (h.shows_iff.mpr ⟨y, hy, (h.bytesToNibbles_key hyall).symm, rfl⟩)
    rwa [hash_node, hash_node] at hne
  · rintro ⟨hdb, _, hfirst⟩
    refine ⟨_, h.shows_iff.mpr ⟨e, hdb, (h.bytesToNibbles_key he).symm, rfl⟩, ?_⟩
    intro key' node' hlt hshows
    obtain ⟨y, hy, hkey, rfl⟩ := h.shows_iff.mp hshows
    have hpacked : key' = nibblesTypeToPackedBytes y.key := by
      rw [hkey, packedBytes_bytesToNibbles]
    rw [hpacked, h.number_lt_iff (mem_leaves_of_inDb hy) he] at hlt
    rw [hash_node, hash_node]
    exact hfirst y hy hlt

end FixedLengthTrie

def leafEntry (e : LeafAt Nibble Value) : Bytes × Item :=
  (nibblesTypeToPackedBytes e.key, .bytes e.value.1)

def allEntries (t : MPTree) : List (Bytes × Item) :=
  (t.leaves (List.finRange 16) fun _ => true).map leafEntry

namespace FixedLengthTrie

variable {E : Set Bytes} {n : Nat} {trie : MerklePatriciaTrie} {t : MPTree}

theorem sorted_allEntries (h : FixedLengthTrie E n trie t) :
    (allEntries t).Pairwise fun e f => bytesToBigInt e.1 < bytesToBigInt f.1 := by
  refine List.pairwise_map.mpr ?_
  refine (sorted_leaves (List.pairwise_lt_finRange 16) t).imp_of_mem fun he hf hlt => ?_
  exact (h.number_lt_iff he hf).mpr hlt

theorem mem_allEntries (h : FixedLengthTrie E n trie t) {key : Bytes} {v : Item} :
    (key, v) ∈ allEntries t ↔
      (t.lookup (bytesToNibbles key)).map (fun v => Item.bytes v.1) = some v := by
  rw [allEntries, List.mem_map, Option.map_eq_some_iff]
  constructor
  · rintro ⟨e, he, hentry⟩
    obtain ⟨rfl, rfl⟩ := Prod.mk.inj hentry
    refine ⟨e.value, h.exists_leaf.mp ⟨e, he, (h.bytesToNibbles_key he).symm, rfl⟩, rfl⟩
  · rintro ⟨w, hw, rfl⟩
    obtain ⟨e, he, hkey, rfl⟩ := h.exists_leaf.mpr hw
    refine ⟨e, he, ?_⟩
    rw [leafEntry, hkey, packedBytes_bytesToNibbles]

theorem entriesFrom (h : FixedLengthTrie E n trie t) (startKey : Int) :
    EntriesFrom t startKey ((allEntries t).filter fun e => startKey ≤ bytesToBigInt e.1) := by
  refine ⟨h.sorted_allEntries.filter _, fun key v => ?_⟩
  rw [List.mem_filter, h.mem_allEntries, decide_eq_true_iff]

open Classical in
theorem firsts_entries (h : FixedLengthTrie E n trie t) :
    (firsts trie.leafHash [] (trie.leavesInDb t)).map leafEntry =
      (allEntries t).filter fun e => trie.Reached e.1 := by
  have hletters := List.pairwise_lt_finRange 16
  have hsame : firsts trie.leafHash [] (trie.leavesInDb t) =
      (t.leaves (List.finRange 16) fun _ => true).filter fun e => trie.Reached (leafEntry e).1 := by
    have hirrefl : Std.Irrefl fun e f : LeafAt Nibble Value => e.key < f.key :=
      ⟨fun _ => lt_irrefl _⟩
    have hantisymm : Std.Antisymm fun e f : LeafAt Nibble Value => e.key < f.key :=
      ⟨fun _ _ hlt hgt => absurd hlt hgt.asymm⟩
    refine List.Pairwise.eq_of_mem_iff (r := fun e f : LeafAt Nibble Value => e.key < f.key)
      ?_ ?_ ?_
    · exact (sorted_leaves hletters t).sublist (firsts_sublist [] _)
    · exact (sorted_leaves hletters t).filter _
    · intro e
      rw [List.mem_filter, decide_eq_true_iff]
      constructor
      · intro he
        have hall := mem_leaves_of_inDb ((firsts_sublist [] _).mem he)
        exact ⟨hall, (h.reached_iff hall).mpr he⟩
      · rintro ⟨hall, hreached⟩
        exact (h.reached_iff hall).mp hreached
  rw [hsame, allEntries, List.filter_map]
  rfl

open Classical in
theorem getValueMap_eq (h : FixedLengthTrie E n trie t) (startKey : Int) (limit : Option Nat)
    {fuel : Nat} (hfuel : 2 * n < fuel) :
    trie.getValueMap fuel startKey limit =
      some (onLeaves startKey limit ⟨limit.isNone, 0, [], none⟩
        ((allEntries t).filter fun e => trie.Reached e.1)).result := by
  rw [MerklePatriciaTrie.getValueMap, h.walkAllValueNodes hfuel, ← h.firsts_entries, onLeaves,
    Option.map_some, List.foldl_map, List.foldl_map]
  rfl

theorem nodup_keys (h : FixedLengthTrie E n trie t) {q : Bytes × Item → Bool} :
    (((allEntries t).filter q).map Prod.fst).Nodup := by
  refine List.pairwise_map.mpr ((h.sorted_allEntries.filter q).imp fun hlt heq => ?_)
  rw [heq] at hlt
  exact lt_irrefl _ hlt

/-- What `getValueMap` returns, next to the range that was asked for. -/
theorem range_iff (h : FixedLengthTrie E n trie t) (startKey : Int) (limit : Option Nat)
    {fuel : Nat} (hfuel : 2 * n < fuel) :
    ∃ entries result, EntriesFrom t startKey entries ∧
      trie.getValueMap fuel startKey limit = some result ∧
        (result = .cut entries limit ↔ ReachesRange trie t startKey entries limit) := by
  classical
  refine ⟨_, _, h.entriesFrom startKey, h.getValueMap_eq startKey limit hfuel, ?_⟩
  cases limit with
  | none =>
    rw [Option.isNone_none, onLeaves_none rfl h.nodup_keys, List.nil_append, ValueMap.cut,
      ValueMap.mk.injEq, and_iff_left rfl, filter_eq_filter_iff]
    simp only [decide_eq_decide]
    constructor
    · intro hall key hkey
      obtain ⟨v, hv⟩ := Option.ne_none_iff_exists'.mp hkey
      exact hall (key, .bytes v.1) (h.mem_allEntries.mpr (by rw [hv]; rfl))
    · intro hall e he
      refine hall e.1 fun hnone => ?_
      have hlookup := h.mem_allEntries.mp he
      rw [hnone] at hlookup
      cases hlookup
  | some limit =>
    rw [Option.isNone_some, onLeaves_filter rfl (h.sorted_allEntries.filter _),
      onLeaves_some rfl (Nat.zero_le limit)
        (by rw [List.nil_append, List.filter_filter]; exact h.nodup_keys),
      List.filter_comm, List.nil_append, Nat.sub_zero, Option.or_none, ValueMap.cut,
      ValueMap.mk.injEq, take_filter_eq_iff h.nodup_keys]
    simp only [decide_eq_true_iff]
    rfl

end FixedLengthTrie

section Runs

variable {E : Set Bytes} {trie : MerklePatriciaTrie} {t : MPTree}

theorem sound_batch {H : HashKeysFunction} {ops : List BatchDBOp}
    (hops : ∀ op ∈ ops, IsStore H E op) {db : MapDB} (h : Sound H E db) :
    Sound H E (db.batch ops) := by
  induction ops generalizing db with
  | nil => exact h
  | cons op ops ih =>
    rw [List.forall_mem_cons] at hops
    obtain ⟨⟨s, _, hs, rfl⟩, hops⟩ := hops
    refine ih hops fun key e he => ?_
    by_cases hkey : key = rootHash H s
    · obtain rfl : encodeTree H s = e := by simpa [MapDB.execute, putNode, hkey] using he
      exact ⟨hkey, hs⟩
    · exact h key e (by simpa [MapDB.execute, putNode, hkey] using he)

/-- A call stores nodes under their hashes. -/
theorem Represents.isStore_effect (h : Represents E trie t) (hE : CollisionFree trie.hashing E)
    (hempty : RLP_EMPTY_STRING ∈ E) (hprune : trie.opts.useNodePruning = false) {op : TrieOp}
    {effect : Effect} (heffect : trie.effectOf op = .ok effect)
    (hmem : ∀ e ∈ putValues effect.batch, e ∈ E) :
    ∀ op ∈ effect.batch, IsStore trie.hashing E op := by
  refine isStore_of_putNode (fun op' hop' => ?_) fun _ e he => hmem e (mem_putValues he)
  cases op with
  | put key v =>
    obtain rfl := Except.ok.inj ((h.putEffect hE hempty hprune key v).symm.trans heffect)
    exact trie.putNode_of_insertOps hprune hop'
  | del key =>
    obtain rfl := Except.ok.inj ((h.delEffect hE hprune key).symm.trans heffect)
    have hdelete : op' ∈ trie.deleteOps (descend t (bytesToNibbles (trie.appliedKey key)) []) := by
      by_cases hfound : found (descend t (bytesToNibbles (trie.appliedKey key)) []) = true
      · simpa [hfound] using hop'
      · simp [hfound] at hop'
    exact trie.putNode_of_deleteOps hprune hdelete

theorem Represents.sound_run (h : Represents E trie t) (hE : CollisionFree trie.hashing E)
    (hempty : RLP_EMPTY_STRING ∈ E) (hprune : trie.opts.useNodePruning = false)
    (hsound : Sound trie.hashing E trie.db) {ops : List TrieOp}
    (hmem : ∀ e ∈ trie.encodings ops, e ∈ E) {after : MerklePatriciaTrie}
    (hrun : trie.run ops = .ok after) : Sound trie.hashing E after.db := by
  induction ops generalizing trie t with
  | nil =>
    obtain rfl := Except.ok.inj hrun
    exact hsound
  | cons op ops ih =>
    obtain ⟨effect, heffect⟩ := h.effectOf hE hempty hprune op
    rw [MerklePatriciaTrie.encodings_cons heffect] at hmem
    have hbatch : ∀ e ∈ putValues effect.batch, e ∈ E :=
      fun e he => hmem e (List.mem_append_left _ he)
    rw [MerklePatriciaTrie.run_cons heffect] at hrun
    have hstep := h.step hE hempty hprune heffect hbatch
    have hafter := ih hstep hE hprune
      (sound_batch (h.isStore_effect hE hempty hprune heffect hbatch) hsound)
      (fun e he => hmem e (List.mem_append_right _ he)) hrun
    exact hafter

/-- The encodings that a run writes, and those of the nodes it leaves. -/
def walkEncodings (opts : MPTOpts) (ops : List TrieOp) : List Bytes :=
  RLP_EMPTY_STRING :: (createMPT opts).encodings ops ++
    ((treeAfter bytesToNibbles nil ops).nodes (List.finRange 16) fun _ => true).map
      (encodeTree opts.useKeyHashingFunction)

/-- A run over keys of one length leaves a trie over keys of one length. -/
theorem run_fixedLengthTrie (opts : MPTOpts) (hprune : opts.useNodePruning = false)
    (hplain : opts.useKeyHashing = false) {ops : List TrieOp} {n : Nat}
    (hlen : ∀ op ∈ ops, op.key.length = n)
    (hE : CollisionFree opts.useKeyHashingFunction { e | e ∈ walkEncodings opts ops }) :
    ∃ trie, (createMPT opts).run ops = .ok trie ∧ trie.opts = opts ∧
      FixedLengthTrie { e | e ∈ walkEncodings opts ops } n trie
        (treeAfter bytesToNibbles nil ops) := by
  have hwritten : ∀ e ∈ RLP_EMPTY_STRING :: (createMPT opts).encodings ops,
      e ∈ walkEncodings opts ops := fun e he => List.mem_append_left _ he
  have hempty : RLP_EMPTY_STRING ∈ { e | e ∈ walkEncodings opts ops } :=
    hwritten _ List.mem_cons_self
  have hencodings : ∀ e ∈ (createMPT opts).encodings ops, e ∈ { e | e ∈ walkEncodings opts ops } :=
    fun e he => hwritten e (List.mem_cons_of_mem _ he)
  obtain ⟨trie, hrun, hopts, _, hcanon, _⟩ :=
    run_fixedLength opts hprune hplain hlen (hE.mono hwritten)
  have hnew := represents_createMPT { e | e ∈ walkEncodings opts ops } opts
  obtain ⟨after, hafter, _, hrep⟩ := hnew.run hE hempty hprune hencodings
  obtain rfl := Except.ok.inj (hafter.symm.trans hrun)
  have hpath : (createMPT opts).pathOf = bytesToNibbles := by
    funext key
    simp [MerklePatriciaTrie.pathOf, MerklePatriciaTrie.appliedKey, createMPT, hplain]
  rw [hpath] at hrep
  have hhash : after.hashing = opts.useKeyHashingFunction := by
    rw [MerklePatriciaTrie.hashing, hopts]
  have hsound : Sound after.hashing { e | e ∈ walkEncodings opts ops } after.db := by
    rw [hhash]
    exact hnew.sound_run hE hempty hprune (fun _ _ h => by cases h) hencodings hrun
  have hnodes : (treeAfter bytesToNibbles nil ops).All fun s =>
      encodeTree after.hashing s ∈ { e | e ∈ walkEncodings opts ops } := by
    rw [hhash]
    exact all_of_nodes List.mem_finRange fun s hs =>
      List.mem_append_right _ (List.mem_map_of_mem hs)
  refine ⟨after, hrun, hopts, hrep, hcanon, hhash ▸ hE, hempty, hnodes, ?_, ?_⟩
  · exact hnodes.mono fun s hs e he => hsound.eq_encodeTree (hhash ▸ hE) hs he
  · cases hdb : after.db [] with
    | none => rfl
    | some e => exact absurd (hsound _ _ hdb).1.symm (hash_ne_nil after.hashing e)

end Runs

/-- `getValueMap` returns a result, and this is the range that was asked for exactly if the walk
reaches the entries of the range, with a limit those up to the one behind it, and no others. -/
theorem getValueMap_range_iff {E : Set Bytes} {n : Nat} {trie : MerklePatriciaTrie} {t : MPTree}
    (h : FixedLengthTrie E n trie t) (startKey : Int) (limit : Option Nat) {fuel : Nat}
    (hfuel : 2 * n < fuel) :
    ∃ entries result, EntriesFrom t startKey entries ∧
      trie.getValueMap fuel startKey limit = some result ∧
        (result = .cut entries limit ↔ ReachesRange trie t startKey entries limit) :=
  h.range_iff startKey limit hfuel

def longCalls : List TrieOp :=
  [.put [0x10] (.cons 1 (List.replicate 39 1)), .put [0x20] (.cons 2 (List.replicate 39 2))]

theorem getValueMap_range_iff_long : ∃ trie,
    (createMPT (plainOpts polynomialHash)).run longCalls = .ok trie ∧
      ∃ entries result, EntriesFrom (treeAfter bytesToNibbles nil longCalls) 5 entries ∧
        trie.getValueMap 3 5 (some 1) = some result ∧
          (result = .cut entries (some 1) ↔
            ReachesRange trie (treeAfter bytesToNibbles nil longCalls) 5 entries (some 1)) := by
  obtain ⟨trie, hrun, _, h⟩ := @run_fixedLengthTrie (plainOpts polynomialHash) rfl rfl
    longCalls 1 (by decide) (collisionFree_of_list (by decide +kernel))
  exact ⟨trie, hrun, getValueMap_range_iff h 5 (some 1) (by decide)⟩

def shortCalls : List TrieOp := [.put [0x10] (.cons 1 []), .put [0x20] (.cons 2 [])]

/-- Leaves that stand in their branch are left out. -/
theorem not_getValueMap_range :
    ¬ ∀ (E : Set Bytes) (n : Nat) (trie : MerklePatriciaTrie) (t : MPTree) (startKey : Int)
      (limit : Option Nat) (fuel : Nat), FixedLengthTrie E n trie t → 2 * n < fuel →
        ∃ entries, EntriesFrom t startKey entries ∧
          trie.getValueMap fuel startKey limit = some (.cut entries limit) := by
  intro hclaim
  obtain ⟨trie, hrun, _, h⟩ := @run_fixedLengthTrie (plainOpts polynomialHash) rfl rfl
    shortCalls 1 (by decide) (collisionFree_of_list (by decide +kernel))
  obtain ⟨entries, hentries, hresult⟩ := hclaim _ _ _ _ 0 none 3 h (by decide)
  have hnothing : ((createMPT (plainOpts polynomialHash)).run shortCalls).toOption.bind (fun trie =>
      (trie.getValueMap 3 0 none).map fun result => result.values.length) = some 0 := by
    decide +kernel
  rw [hrun] at hnothing
  have hempty : entries = [] := by
    simpa [Except.toOption, hresult, ValueMap.cut] using hnothing
  have hfirst := (hentries.mem [0x10] (.bytes [1])).mpr (by decide)
  rw [hempty] at hfirst
  cases hfirst

end EthereumJS
