import EthereumJS.Mpt.Represents

/-! # Tries that hold a part of a tree

A partial trie has the root of a tree, and every entry of its database stands under
its own hash; which nodes of the tree it holds is left open. A walk reads nodes of the
tree up to the first one that is missing.
-/

namespace EthereumJS

open RLP Patricia Patricia.Tree

structure PartOf (E : Set Bytes) (trie : MerklePatriciaTrie) (t : MPTree) : Prop where
  root_eq : trie.root = rootHash trie.hashing t
  ne_nil : t ≠ nil
  wf : t.WF
  encoded : EncodedIn trie.hashing E t
  top : encodeTree trie.hashing t ∈ E
  sound : Sound trie.hashing E trie.db

/-- The root node of a tree is in the database. -/
def RootIn (H : HashKeysFunction) (db : MapDB) (t : MPTree) : Prop :=
  db (rootHash H t) = some (encodeTree H t)

/-- Every node that the walk along a path reads is in the database. -/
def PathIn (H : HashKeysFunction) (db : MapDB) (t : MPTree) (k : Nibbles) : Prop :=
  RootIn H db t ∧ ∀ s ∈ (t.trail k).tail, Resident H db s

/-- A list satisfies a predicate up to its first element that does not. -/
theorem forall_or_split {α : Type*} (P : α → Prop) (l : List α) :
    (∀ x ∈ l, P x) ∨ ∃ above x below, l = above ++ x :: below ∧ (∀ y ∈ above, P y) ∧ ¬ P x := by
  induction l with
  | nil =>
    left
    simp
  | cons a l ih =>
    rcases Classical.em (P a) with ha | ha
    · rcases ih with hall | ⟨above, x, below, rfl, habove, hx⟩
      · left
        exact List.forall_mem_cons.mpr ⟨ha, hall⟩
      · right
        exact ⟨a :: above, x, below, rfl, List.forall_mem_cons.mpr ⟨ha, habove⟩, hx⟩
    · right
      exact ⟨[], a, l, rfl, by simp, ha⟩

namespace PartOf

variable {E : Set Bytes} {trie : MerklePatriciaTrie} {t : MPTree}

theorem lookupNode_root (h : PartOf E trie t) (hE : CollisionFree trie.hashing E)
    (hroot : RootIn trie.hashing trie.db t) :
    trie.lookupNode (.bytes trie.root) = .ok (nodeOf trie.hashing t) := by
  rw [h.root_eq]
  exact trie.lookupNode_hash hE h.ne_nil h.top hroot

theorem lookupNode_root_missing (h : PartOf E trie t) (hE : CollisionFree trie.hashing E)
    (hroot : ¬ RootIn trie.hashing trie.db t) :
    trie.lookupNode (.bytes trie.root) = .error .missingNode := by
  rw [h.root_eq, MerklePatriciaTrie.lookupNode]
  cases hget : trie.db (rootHash trie.hashing t) with
  | none => rfl
  | some e =>
    have he := h.sound.eq_encodeTree hE h.top hget
    exact absurd (hget.trans (congrArg some he)) hroot

theorem lookupNode_of_mem (h : PartOf E trie t) (hE : CollisionFree trie.hashing E) {k : Nibbles}
    {s : MPTree} (hs : s ∈ t.trail k) :
    (Resident trie.hashing trie.db s →
      trie.lookupNode (refTree trie.hashing s) = .ok (nodeOf trie.hashing s)) ∧
    (¬ Resident trie.hashing trie.db s →
      trie.lookupNode (refTree trie.hashing s) = .error .missingNode) := by
  have hne := ne_nil_of_mem_trail hs
  have hmem := (h.encoded.of_mem_trail hs).self hne
  constructor
  · intro hres
    exact trie.lookupNode_resident hE hne hmem hres
  · intro hres
    exact trie.lookupNode_missing hE hmem h.sound hres

/-- Where the whole path is there, the walk is the descent in the tree. -/
theorem findPath_of_pathIn (h : PartOf E trie t) (hE : CollisionFree trie.hashing E) (key : Bytes)
    (throwIfMissing : Bool) (hpath : PathIn trie.hashing trie.db t (bytesToNibbles key)) :
    trie.findPath key throwIfMissing =
      .ok (pathAt trie.hashing (descend t (bytesToNibbles key) [])) := by
  have hroot := h.lookupNode_root hE hpath.1
  exact trie.walk_resident throwIfMissing h.ne_nil h.wf hroot _ [] _ (by omega) fun s hs =>
    (h.lookupNode_of_mem hE (List.mem_of_mem_tail hs)).1 (hpath.2 s hs)

/-- Where a node of the path is missing, the walk ends above the first such node. -/
theorem findPath_of_not_pathIn (h : PartOf E trie t) (hE : CollisionFree trie.hashing E)
    (key : Bytes) (hpath : ¬ PathIn trie.hashing trie.db t (bytesToNibbles key)) :
    ∃ above s below, t.trail (bytesToNibbles key) = above ++ s :: below ∧
      (above = [] ↔ ¬ RootIn trie.hashing trie.db t) ∧
      ∀ throwIfMissing, trie.findPath key throwIfMissing =
        if throwIfMissing then .error .missingNode
        else .ok ⟨none, [], (above.map (nodeOf trie.hashing)).reverse⟩ := by
  have htrail := trail_eq_cons h.ne_nil (bytesToNibbles key)
  rcases Classical.em (RootIn trie.hashing trie.db t) with hroot | hroot
  · rcases forall_or_split (Resident trie.hashing trie.db) (t.trail (bytesToNibbles key)).tail with
      hall | ⟨above, s, below, hsplit, habove, hs⟩
    · exact absurd ⟨hroot, hall⟩ hpath
    rw [hsplit] at htrail
    refine ⟨t :: above, s, below, htrail, by simp [hroot], fun throwIfMissing => ?_⟩
    have hmem : ∀ u, u ∈ above ++ s :: below → u ∈ t.trail (bytesToNibbles key) := by
      intro u hu
      rw [htrail]
      exact List.mem_cons_of_mem _ hu
    have hwalk := trie.walk_missing throwIfMissing h.wf (h.lookupNode_root hE hroot) htrail []
      ((bytesToNibbles key).length + 1) (by omega)
      (fun u hu => (h.lookupNode_of_mem hE (hmem u (by simp [hu]))).1 (habove u hu))
      ((h.lookupNode_of_mem hE (hmem s (by simp))).2 hs)
    rw [List.append_nil] at hwalk
    exact hwalk
  · refine ⟨[], t, (t.trail (bytesToNibbles key)).tail, htrail, by simp [hroot], ?_⟩
    intro throwIfMissing
    rw [MerklePatriciaTrie.findPath, MerklePatriciaTrie.walk, h.lookupNode_root_missing hE hroot]
    rfl

/-- With `throwIfMissing`, a value that is returned is the value in the tree. -/
theorem get_eq_of_ok (h : PartOf E trie t) (hE : CollisionFree trie.hashing E) {key : Bytes}
    {v : Option Item} (hget : trie.get key true = .ok v) :
    v = (t.lookup (bytesToNibbles (trie.appliedKey key))).map fun v => .bytes v.1 := by
  rw [trie.get_eq] at hget
  rcases Classical.em (PathIn trie.hashing trie.db t (bytesToNibbles (trie.appliedKey key))) with
    hpath | hpath
  · rw [h.findPath_of_pathIn hE _ _ hpath] at hget
    rw [lookup_descend t, ← result_pathAt trie.hashing (descend_stuck _ _ _)]
    exact (Except.ok.inj hget).symm
  · obtain ⟨_, _, _, _, _, hfind⟩ := h.findPath_of_not_pathIn hE _ hpath
    rw [hfind true] at hget
    cases hget

theorem get_of_pathIn (h : PartOf E trie t) (hE : CollisionFree trie.hashing E) {key : Bytes}
    (throwIfMissing : Bool)
    (hpath : PathIn trie.hashing trie.db t (bytesToNibbles (trie.appliedKey key))) :
    trie.get key throwIfMissing =
      .ok ((t.lookup (bytesToNibbles (trie.appliedKey key))).map fun v => .bytes v.1) := by
  rw [trie.get_eq, h.findPath_of_pathIn hE _ _ hpath, lookup_descend t]
  exact congrArg Except.ok (result_pathAt _ (descend_stuck _ _ _))

end PartOf

/-- The stack of a path holds the nodes of the trail. -/
theorem stack_pathAt (H : HashKeysFunction) (t : MPTree) (k : Nibbles) :
    (pathAt H (descend t k [])).stack = ((t.trail k).map (nodeOf H)).reverse := by
  have htrail := trail_descend t k []
  rw [spine_nil, List.append_nil] at htrail
  rw [← List.map_reverse, htrail]
  generalize descend t k [] = site
  obtain ⟨ctx, focus, rest⟩ := site
  cases focus with
  | nil =>
    cases ctx with
    | nil => rfl
    | cons f ctx => cases f <;> rfl
  | leaf p v =>
    simp only [pathAt]
    split <;> rfl
  | ext p c => rfl
  | branch c v => rfl

end EthereumJS
