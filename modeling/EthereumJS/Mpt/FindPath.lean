import EthereumJS.Mpt.Encoding

/-! # The walk of a stored trie

`findPath` over a database that holds the nodes on the way is the descent in the
tree. Where a node is missing, the path it returns ends above that node.
-/

namespace EthereumJS

open RLP Patricia

/-- A node that is too long to stand in its parent is in the database. -/
def Resident (H : HashKeysFunction) (db : MapDB) (t : MPTree) : Prop :=
  32 ≤ (encodeTree H t).length → db (rootHash H t) = some (encodeTree H t)

/-- Every entry of the database stands under its own hash. -/
def Sound (H : HashKeysFunction) (E : Set Bytes) (db : MapDB) : Prop :=
  ∀ h e, db h = some e → h = H.hash e ∧ e ∈ E

theorem Sound.eq_encodeTree {H : HashKeysFunction} {E : Set Bytes} {db : MapDB}
    (hdb : Sound H E db) (hE : CollisionFree H E) {t : MPTree} (ht : encodeTree H t ∈ E) {e : Bytes}
    (h : db (rootHash H t) = some e) : e = encodeTree H t := by
  obtain ⟨hhash, he⟩ := hdb _ _ h
  exact (hE.injOn ht he hhash).symm

/-- Where a descent stops, as the path that `findPath` returns. -/
def pathAt (H : HashKeysFunction) (site : Site Nibble Value) : Path :=
  let above := (spine site.ctx site.focus).map (nodeOf H)
  let node := nodeOf H site.focus
  match site.focus, site.ctx with
  | .nil, .branch _ a _ :: _ => ⟨none, a :: site.rest, above⟩
  | .nil, _ => ⟨none, site.rest, above⟩
  | .leaf p _, _ =>
    if site.rest = p then ⟨some node, [], node :: above⟩
    else ⟨none, site.rest, node :: above⟩
  | .ext _ _, _ => ⟨none, site.rest, node :: above⟩
  | .branch _ _, _ => ⟨some node, [], node :: above⟩

namespace MerklePatriciaTrie

variable (trie : MerklePatriciaTrie)

/-- The hash function of a trie. -/
abbrev hashing : HashKeysFunction := trie.opts.useKeyHashingFunction

theorem lookupNode_hash {E : Set Bytes} (hE : CollisionFree trie.hashing E) {t : MPTree}
    (ht : t ≠ .nil) (hmem : encodeTree trie.hashing t ∈ E)
    (hdb : trie.db (rootHash trie.hashing t) = some (encodeTree trie.hashing t)) :
    trie.lookupNode (.bytes (rootHash trie.hashing t)) = .ok (nodeOf trie.hashing t) := by
  rw [lookupNode, hdb]
  exact decodeMPTNode_encodeTree _ hE ht hmem

theorem lookupNode_rawTree {t : MPTree} (ht : t ≠ .nil) :
    trie.lookupNode (rawTree trie.hashing t) = .ok (nodeOf trie.hashing t) := by
  obtain ⟨items, hitems⟩ := rawTree_eq_list trie.hashing ht
  rw [hitems, lookupNode]
  exact decodeRawMPTNode_raw _ _ (by rw [raw_nodeOf _ ht, hitems])

theorem lookupNode_resident {E : Set Bytes} (hE : CollisionFree trie.hashing E) {t : MPTree}
    (ht : t ≠ .nil) (hmem : HashedIn trie.hashing E t)
    (hres : Resident trie.hashing trie.db t) :
    trie.lookupNode (refTree trie.hashing t) = .ok (nodeOf trie.hashing t) := by
  by_cases hlen : 32 ≤ (encodeTree trie.hashing t).length
  · rw [refTree_of_long _ hlen]
    exact trie.lookupNode_hash hE ht (hmem hlen) (hres hlen)
  · rw [refTree_of_short _ hlen]
    exact trie.lookupNode_rawTree ht

theorem lookupNode_missing {E : Set Bytes} (hE : CollisionFree trie.hashing E) {t : MPTree}
    (hmem : HashedIn trie.hashing E t) (hdb : Sound trie.hashing E trie.db)
    (hres : ¬ Resident trie.hashing trie.db t) :
    trie.lookupNode (refTree trie.hashing t) = .error .missingNode := by
  unfold Resident at hres
  push Not at hres
  obtain ⟨hlen, hne⟩ := hres
  rw [refTree_of_long _ hlen, lookupNode]
  cases hget : trie.db (rootHash trie.hashing t) with
  | none => rfl
  | some e => exact absurd (hget.trans (congrArg some (hdb.eq_encodeTree hE (hmem hlen) hget))) hne

/-- The walk below a node whose whole path can be read. -/
theorem walk_resident (throwIfMissing : Bool) {t : MPTree} (ht : t ≠ .nil) (hwf : t.WF)
    {ref : Item} (href : trie.lookupNode ref = .ok (nodeOf trie.hashing t)) (k : Nibbles)
    (ctx : List (Frame Nibble Value)) (fuel : Nat) (hfuel : k.length < fuel)
    (hres : ∀ s ∈ (t.trail k).tail,
      trie.lookupNode (refTree trie.hashing s) = .ok (nodeOf trie.hashing s)) :
    trie.walk throwIfMissing fuel ref k ((spine ctx t).map (nodeOf trie.hashing)) =
      .ok (pathAt trie.hashing (descend t k ctx)) := by
  induction t generalizing ref k ctx fuel with
  | nil => exact absurd rfl ht
  | leaf p v =>
    obtain ⟨fuel, rfl⟩ : ∃ n, fuel = n + 1 := ⟨fuel - 1, by omega⟩
    rw [descend_leaf]
    simp only [walk, href, nodeOf, pathAt]
    by_cases hk : k = p
    · rw [if_pos hk, if_pos hk]
    · rw [if_neg hk, if_neg hk]
  | ext p c ih =>
    obtain ⟨fuel, rfl⟩ : ∃ n, fuel = n + 1 := ⟨fuel - 1, by omega⟩
    obtain ⟨hp, hcb, hc⟩ := hwf
    simp only [walk, href, nodeOf, descend]
    cases hk : stripPrefix p k with
    | none => rfl
    | some r =>
      have hkr := stripPrefix_eq_some.mp hk
      have hlen : r.length < fuel := by
        have hpos := List.length_pos_of_ne_nil hp
        rw [hkr, List.length_append] at hfuel
        omega
      have htail : c ∈ ((Tree.ext p c).trail k).tail := by
        rw [Tree.trail_ext_of_some c hk, Tree.trail_eq_cons hcb.ne_nil]
        simp
      refine ih hcb.ne_nil hc (hres c htail) r (.ext p :: ctx) fuel hlen fun s hs => hres s ?_
      rw [Tree.trail_ext_of_some c hk]
      exact List.mem_of_mem_tail hs
  | branch c v ih =>
    obtain ⟨fuel, rfl⟩ : ∃ n, fuel = n + 1 := ⟨fuel - 1, by omega⟩
    cases k with
    | nil =>
      simp only [walk, href, nodeOf, descend]
      rfl
    | cons a k =>
      simp only [walk, href, nodeOf, descend]
      have hget := getBranch_nodeOf trie.hashing c v a
      rw [nodeOf] at hget
      rw [hget]
      by_cases hca : c a = .nil
      · have hsame : Function.update c a .nil = c := by
          rw [← hca, Function.update_eq_self]
        simp [hca, pathAt, Frame.fill, hsame, nodeOf]
      · have htail : c a ∈ ((Tree.branch c v).trail (a :: k)).tail := by
          rw [Tree.trail_branch_cons, Tree.trail_eq_cons hca]
          simp
        have hlen : k.length < fuel := by
          simp only [List.length_cons] at hfuel
          omega
        have hfill : Tree.branch c v = (Frame.branch c a v).fill (c a) := by
          rw [Frame.fill, Function.update_eq_self]
        have hstep := ih a hca (hwf a) (hres _ htail) k (.branch c a v :: ctx) fuel hlen
          fun s hs => hres s (List.mem_of_mem_tail hs)
        rw [spine_cons, ← hfill] at hstep
        simpa [hca, nodeOf] using hstep

/-- The walk below a node of which a later node on the path is missing. -/
theorem walk_missing (throwIfMissing : Bool) {t s : MPTree} (hwf : t.WF) {ref : Item}
    (href : trie.lookupNode ref = .ok (nodeOf trie.hashing t)) {k : Nibbles}
    {above below : List MPTree} (htrail : t.trail k = t :: above ++ s :: below)
    (stack : List MPTNode) (fuel : Nat) (hfuel : k.length < fuel)
    (hres : ∀ u ∈ above, trie.lookupNode (refTree trie.hashing u) = .ok (nodeOf trie.hashing u))
    (hmiss : trie.lookupNode (refTree trie.hashing s) = .error .missingNode) :
    trie.walk throwIfMissing fuel ref k stack =
      if throwIfMissing then .error .missingNode
      else .ok ⟨none, [], ((t :: above).map (nodeOf trie.hashing)).reverse ++ stack⟩ := by
  induction t generalizing ref k above stack fuel with
  | nil => simp at htrail
  | leaf p v => simp at htrail
  | ext p c ih =>
    obtain ⟨fuel, rfl⟩ : ∃ n, fuel = n + 1 := ⟨fuel - 1, by omega⟩
    obtain ⟨hp, hcb, hc⟩ := hwf
    cases hk : stripPrefix p k with
    | none =>
      rw [Tree.trail_ext_of_none c hk] at htrail
      simp at htrail
    | some r =>
      have hlen : r.length < fuel := by
        have hpos := List.length_pos_of_ne_nil hp
        rw [stripPrefix_eq_some.mp hk, List.length_append] at hfuel
        omega
      rw [Tree.trail_ext_of_some c hk, List.cons_append] at htrail
      have hrest := (List.cons.inj htrail).2
      simp only [walk, href, nodeOf, hk]
      cases above with
      | nil =>
        obtain rfl : c = s := by
          rw [Tree.trail_eq_cons hcb.ne_nil, List.nil_append] at hrest
          exact (List.cons.inj hrest).1
        obtain ⟨fuel, rfl⟩ : ∃ n, fuel = n + 1 := ⟨fuel - 1, by omega⟩
        simp only [walk, hmiss]
        rfl
      | cons u above =>
        obtain rfl : c = u := by
          rw [Tree.trail_eq_cons hcb.ne_nil, List.cons_append] at hrest
          exact (List.cons.inj hrest).1
        refine (ih hc (hres c (by simp)) hrest (nodeOf trie.hashing (.ext p c) :: stack) fuel hlen
          fun u hu => hres u (List.mem_cons_of_mem _ hu)).trans ?_
        simp [nodeOf]
  | branch c v ih =>
    obtain ⟨fuel, rfl⟩ : ∃ n, fuel = n + 1 := ⟨fuel - 1, by omega⟩
    cases k with
    | nil => simp at htrail
    | cons a k =>
      have hlen : k.length < fuel := by
        simp only [List.length_cons] at hfuel
        omega
      rw [Tree.trail_branch_cons, List.cons_append] at htrail
      have hrest := (List.cons.inj htrail).2
      have hca : c a ≠ .nil := by
        intro h
        rw [h, Tree.trail_nil] at hrest
        simp at hrest
      have hget := getBranch_nodeOf trie.hashing c v a
      rw [nodeOf, if_neg (by simpa using hca)] at hget
      simp only [walk, href, nodeOf, hget]
      cases above with
      | nil =>
        obtain rfl : c a = s := by
          rw [Tree.trail_eq_cons hca, List.nil_append] at hrest
          exact (List.cons.inj hrest).1
        obtain ⟨fuel, rfl⟩ : ∃ n, fuel = n + 1 := ⟨fuel - 1, by omega⟩
        simp only [walk, hmiss]
        rfl
      | cons u above =>
        obtain rfl : c a = u := by
          rw [Tree.trail_eq_cons hca, List.cons_append] at hrest
          exact (List.cons.inj hrest).1
        refine (ih a (hwf a) (hres _ (by simp)) hrest (nodeOf trie.hashing (.branch c v) :: stack)
          fuel hlen fun u hu => hres u (List.mem_cons_of_mem _ hu)).trans ?_
        simp [nodeOf]

end MerklePatriciaTrie

/-- The value that `get` reads off a path. -/
def Path.result (path : Path) : Option Item :=
  match path.node, path.remaining with
  | some node, [] => node.value
  | _, _ => none

theorem MerklePatriciaTrie.get_eq (trie : MerklePatriciaTrie) (key : Bytes) (throwIfMissing : Bool) :
    trie.get key throwIfMissing =
      (trie.findPath (trie.appliedKey key) throwIfMissing).map Path.result := by
  unfold MerklePatriciaTrie.get
  cases trie.findPath (trie.appliedKey key) throwIfMissing with
  | error e => rfl
  | ok path =>
    obtain ⟨node, remaining, stack⟩ := path
    cases node <;> cases remaining <;> rfl

/-- At the end of a descent, the path holds the value of the key. -/
theorem result_pathAt (H : HashKeysFunction) {site : Site Nibble Value} (h : site.Stuck) :
    (pathAt H site).result = (site.focus.lookup site.rest).map fun v => .bytes v.1 := by
  obtain ⟨ctx, focus, rest⟩ := site
  cases focus with
  | nil =>
    cases ctx with
    | nil => simp [pathAt, Path.result]
    | cons f ctx => cases f <;> simp [pathAt, Path.result]
  | leaf p v =>
    by_cases hp : rest = p
    · simp [pathAt, Path.result, hp, nodeOf, MPTNode.value]
    · simp [pathAt, Path.result, hp]
  | ext p c =>
    have hnone : stripPrefix p rest = none := h
    simp [pathAt, Path.result, Tree.lookup_ext_of_none c hnone]
  | branch c v =>
    obtain rfl : rest = [] := h
    simp [pathAt, Path.result, nodeOf, MPTNode.value, nonEmpty_value]

end EthereumJS
