import EthereumJS.Mpt.Full

/-! # The trie as a map

A trie without pruning returns for every key what was written to it last, as long as
no removal meets a branch whose value it would keep or drop wrongly. For keys of one
length no removal does, and the root is a function of the map.
-/

namespace EthereumJS

open RLP Patricia Patricia.Tree

def plainOpts (H : HashKeysFunction) : MPTOpts := ⟨false, H, false⟩

/-- The calls end, and every key then has the given value. -/
def MerklePatriciaTrie.Gets (trie : MerklePatriciaTrie) (ops : List TrieOp)
    (m : Bytes → Option Value) : Prop :=
  ∃ trie', trie.run ops = .ok trie' ∧
    ∀ key, trie'.get key false = .ok ((m key).map fun v => .bytes v.1)

/-- After the calls on a new trie, every key has the value that was written to it last. -/
def GetsLastWrites (H : HashKeysFunction) (ops : List TrieOp) : Prop :=
  CollisionFree H (runEncodings (plainOpts H) ops) →
    (createMPT (plainOpts H)).Gets ops (lastWrite ops)

namespace MerklePatriciaTrie

/-- A removal may meet the value of a branch. At a branch that is not the root, the
value must be absent or the branch must have one child; a root must have none. The
branch above a leaf must have no value or not exactly two children. -/
def delKeepsOthers (trie : MerklePatriciaTrie) (key : Bytes) : Bool :=
  match trie.findPath (trie.appliedKey key) false with
  | .ok ⟨some node, _, _ :: parentNode :: _⟩ =>
    if node.isBranch then node.value.isNone || node.getChildren.length == 1
    else parentNode.value.isNone || parentNode.getChildren.length != 2
  | .ok ⟨some node, _, _⟩ => node.getChildren.isEmpty
  | _ => true

def stepKeepsOthers (trie : MerklePatriciaTrie) : TrieOp → Bool
  | .put _ _ => true
  | .del key => trie.delKeepsOthers key

/-- Every removal of a run meets the condition in the state before it. -/
def runKeepsOthers : MerklePatriciaTrie → List TrieOp → Bool
  | _, [] => true
  | trie, op :: ops =>
    trie.stepKeepsOthers op &&
      match trie.step op with
      | .ok trie' => runKeepsOthers trie' ops
      | .error _ => true

theorem runKeepsOthers_cons {trie : MerklePatriciaTrie} {op : TrieOp} {effect : Effect}
    (h : trie.effectOf op = .ok effect) (ops : List TrieOp) :
    trie.runKeepsOthers (op :: ops) = true ↔
      trie.stepKeepsOthers op = true ∧ (trie.write effect).runKeepsOthers ops = true := by
  rw [runKeepsOthers, step, h, Bool.and_eq_true]
  rfl

theorem runKeepsOthers_before {trie : MerklePatriciaTrie} {ops before : List TrieOp}
    (h : trie.runKeepsOthers ops = true) (hbefore : before <+: ops) :
    trie.runKeepsOthers before = true := by
  obtain ⟨after, rfl⟩ := hbefore
  induction before generalizing trie with
  | nil => rfl
  | cons op before ih =>
    rw [List.cons_append] at h
    cases heffect : trie.effectOf op with
    | error e =>
      rw [runKeepsOthers, step, heffect, Bool.and_eq_true] at h ⊢
      exact ⟨h.1, rfl⟩
    | ok effect =>
      rw [runKeepsOthers_cons heffect] at h ⊢
      exact ⟨h.1, ih h.2⟩

end MerklePatriciaTrie

/-- A branch has one slot more with a child put into a free slot. -/
theorem length_childSlots_update (c : Nibble → MPTree) (a : Nibble) {s : MPTree} (hs : s ≠ nil) :
    (childSlots (Function.update c a s)).length =
      (childSlots (Function.update c a nil)).length + 1 := by
  have hperm : (childSlots (Function.update c a s)).Perm
      (a :: childSlots (Function.update c a nil)) := by
    have hnodup : ∀ d : Nibble → MPTree, (childSlots d).Nodup :=
      fun d => (List.nodup_finRange 16).filter _
    refine (List.perm_ext_iff_of_nodup (hnodup _) ?_).mpr fun b => ?_
    · refine List.nodup_cons.mpr ⟨fun hmem => ?_, hnodup _⟩
      exact mem_childSlots.mp hmem (by simp)
    · rw [List.mem_cons, mem_childSlots, mem_childSlots]
      by_cases hb : b = a
      · subst hb
        simp [hs]
      · simp [hb]
  rw [hperm.length_eq, List.length_cons]

theorem length_childSlots_eq_one {c : Nibble → MPTree} :
    (childSlots c).length = 1 ↔ ∃ a, Only c a := by
  constructor
  · intro h
    obtain ⟨a, ha⟩ := List.length_eq_one_iff.mp h
    exact ⟨a, only_of_childSlots ha⟩
  · rintro ⟨a, ha⟩
    rw [childSlots_of_only ha, List.length_singleton]

theorem value_nodeOf_branch (H : HashKeysFunction) (c : Nibble → MPTree) (w : Option Value) :
    (nodeOf H (branch c w)).value.isNone = true ↔ w = none := by
  rw [nodeOf, MPTNode.value, nonEmpty_value, Option.isNone_iff_eq_none, Option.map_eq_none_iff]

namespace Represents

variable {E : Set Bytes} {trie : MerklePatriciaTrie} {t : MPTree}

/-- The condition on the stored nodes is the condition on the tree. -/
theorem delKeepsOthers_iff (h : Represents E trie t) (hE : CollisionFree trie.hashing E)
    (key : Bytes) :
    trie.delKeepsOthers key = true ↔ (found (descend t (trie.pathOf key) []) = true →
      SafeSite (descend t (trie.pathOf key) [])) := by
  unfold MerklePatriciaTrie.delKeepsOthers MerklePatriciaTrie.pathOf
  by_cases ht : t = nil
  · subst ht
    rw [h.findPath_empty]
    simp [found]
  rw [h.findPath hE ht]
  have hneed := (site_of_wf h.wf ht (bytesToNibbles (trie.appliedKey key))).2
  generalize descend t (bytesToNibbles (trie.appliedKey key)) [] = site at hneed ⊢
  obtain ⟨ctx, focus, rest⟩ := site
  cases focus with
  | nil =>
    cases ctx with
    | nil => simp [pathAt, found]
    | cons f ctx => cases f <;> simp [pathAt, found]
  | ext p c => simp [pathAt, found]
  | leaf p w =>
    by_cases hp : rest = p
    swap
    · simp [pathAt, found, hp]
    cases ctx with
    | nil => simp [pathAt, found, hp, SafeSite, remnant, nodeOf, MPTNode.getChildren]
    | cons f ctx =>
      cases f with
      | ext q => exact absurd (hneed trivial) id
      | branch c a v =>
        have hlen := length_childSlots_update c a (s := leaf p w) (by simp)
        have hleaf : (nodeOf trie.hashing (leaf p w)).isBranch = false := rfl
        simp only [pathAt, hp, if_true, spine_cons, List.map_cons, hleaf, Bool.false_eq_true,
          if_false, Bool.or_eq_true, bne_iff_ne, Frame.fill, value_nodeOf_branch, MerklePatriciaTrie.getChildren_nodeOf,
          List.length_map, hlen, found, decide_true, forall_const, SafeSite, remnant]
        refine or_congr_right ?_
        rw [← not_exists, ← length_childSlots_eq_one]
        omega
  | branch c w =>
    cases ctx with
    | nil =>
      have hbranch : (nodeOf trie.hashing (branch c w)).getChildren.isEmpty = true ↔
          ∀ a, c a = nil := by
        rw [MerklePatriciaTrie.getChildren_nodeOf, List.isEmpty_iff, List.map_eq_nil_iff,
          List.eq_nil_iff_forall_not_mem]
        simp [mem_childSlots]
      simpa [pathAt, found, SafeSite, remnant] using hbranch
    | cons f ctx =>
      have hbranch : (nodeOf trie.hashing (branch c w)).isBranch = true := rfl
      simp only [pathAt, spine_cons, List.map_cons, hbranch, if_true, Bool.or_eq_true,
        beq_iff_eq, value_nodeOf_branch, MerklePatriciaTrie.getChildren_nodeOf, List.length_map, length_childSlots_eq_one, found,
        forall_const, SafeSite, remnant]

/-- The tree has the given values at the paths of the keys. -/
def Holds (trie : MerklePatriciaTrie) (t : MPTree) (m : Bytes → Option Value) : Prop :=
  ∀ key, t.lookup (trie.pathOf key) = m key

theorem pathOf_injective {trie : MerklePatriciaTrie} (h : trie.opts.useKeyHashing = false) :
    Function.Injective trie.pathOf := by
  intro key key' hkey
  unfold MerklePatriciaTrie.pathOf MerklePatriciaTrie.appliedKey at hkey
  simp only [h, Bool.false_eq_true, if_false] at hkey
  exact bytesToNibbles_injective hkey

theorem holds_insert (hpath : Function.Injective trie.pathOf) {m : Bytes → Option Value}
    (hm : Holds trie t m) (key : Bytes) (v : Value) :
    Holds trie (Patricia.insert t (trie.pathOf key) v) (Function.update m key (some v)) := by
  intro key'
  rw [lookup_insert, Function.update_apply]
  simp only [hpath.eq_iff, hm key']

theorem holds_delete (h : t.WF) (hpath : Function.Injective trie.pathOf)
    {m : Bytes → Option Value} (hm : Holds trie t m) {key : Bytes}
    (hsafe : found (descend t (trie.pathOf key) []) = true →
      SafeSite (descend t (trie.pathOf key) [])) :
    Holds trie (delete t (trie.pathOf key)) (Function.update m key none) := by
  intro key'
  rw [lookup_delete h hsafe, Function.update_apply]
  simp only [hpath.eq_iff, hm key']

theorem holds_of_get (h : Represents E trie t) (hE : CollisionFree trie.hashing E)
    {m : Bytes → Option Value}
    (hget : ∀ key, trie.get key false = .ok ((m key).map fun v => .bytes v.1)) :
    Holds trie t m := by
  intro key
  have hinj : Function.Injective (Option.map fun v : Value => Item.bytes v.1) :=
    Option.map_injective fun v w hvw => Subtype.ext (Item.bytes.inj hvw)
  exact hinj (Except.ok.inj ((h.get hE key).symm.trans (hget key)))

/-- Every key of the tree is the path of a key of the trie. -/
def KeysIn (keyOf : Bytes → Nibbles) (t : MPTree) : Prop :=
  ∀ k v, t.lookup k = some v → ∃ key, k = keyOf key

theorem keysIn_insert {keyOf : Bytes → Nibbles} (h : KeysIn keyOf t) (key : Bytes) (v : Value) :
    KeysIn keyOf (Patricia.insert t (keyOf key) v) := by
  intro k w hk
  rw [lookup_insert] at hk
  split at hk
  · rename_i hkey
    exact ⟨key, hkey⟩
  · exact h k w hk

theorem keysIn_delete {keyOf : Bytes → Nibbles} (h : KeysIn keyOf t) (hwf : t.WF) {k : Nibbles}
    (hsafe : found (descend t k []) = true → SafeSite (descend t k [])) :
    KeysIn keyOf (delete t k) := by
  intro k' w hk'
  rw [lookup_delete hwf hsafe] at hk'
  split at hk'
  · cases hk'
  · exact h k' w hk'

/-- A removal after which the keys have the values they should have was safe. -/
theorem delKeepsOthers_of_holds (h : Represents E trie t) (hE : CollisionFree trie.hashing E)
    (hfull : Full t) (hkeys : KeysIn trie.pathOf t) {m : Bytes → Option Value}
    (hm : Holds trie t m) {key : Bytes}
    (hnext : Holds trie (delete t (trie.pathOf key)) (Function.update m key none)) :
    trie.delKeepsOthers key = true := by
  refine (h.delKeepsOthers_iff hE key).mpr fun hfound => ?_
  refine safeSite_of_lookup h.wf hfull hfound ?_ fun x hx hnone => ?_
  · rw [hnext key, Function.update_self]
  · by_contra hsome
    obtain ⟨v, hv⟩ := Option.ne_none_iff_exists'.mp hsome
    obtain ⟨key', rfl⟩ := hkeys x v hv
    have hne : key' ≠ key := fun he => hx (by rw [he])
    rw [hnext key', Function.update_of_ne hne, ← hm key', hv] at hnone
    cases hnone

/-- The condition on the removals of a run is equivalent to the right values after
every part of the run. -/
theorem gets_iff_runKeepsOthers (h : Represents E trie t) (hE : CollisionFree trie.hashing E)
    (hempty : RLP_EMPTY_STRING ∈ E) (hopts : trie.opts = plainOpts trie.hashing)
    {ops : List TrieOp} (hmem : ∀ e ∈ trie.encodings ops, e ∈ E) (hfull : Full t)
    (hkeys : KeysIn trie.pathOf t) {m : Bytes → Option Value} (hm : Holds trie t m) :
    (∀ before, before <+: ops → trie.Gets before (mapAfter m before)) ↔
      trie.runKeepsOthers ops = true := by
  have hprune : trie.opts.useNodePruning = false := by rw [hopts]; rfl
  have hpath : Function.Injective trie.pathOf := pathOf_injective (by rw [hopts]; rfl)
  induction ops generalizing trie t m with
  | nil =>
    refine iff_of_true ?_ rfl
    intro before hbefore
    obtain rfl := List.prefix_nil.mp hbefore
    refine ⟨trie, rfl, fun key => ?_⟩
    rw [mapAfter, ← hm key]
    exact h.get hE key
  | cons op ops ih =>
    obtain ⟨effect, heffect⟩ := h.effectOf hE hempty hprune op
    rw [MerklePatriciaTrie.encodings_cons heffect] at hmem
    have hstep := h.step hE hempty hprune heffect fun e he =>
      hmem e (List.mem_append_left _ he)
    have hsplit : (∀ before, before <+: op :: ops → trie.Gets before (mapAfter m before)) ↔
        ∀ before, before <+: ops → (trie.write effect).Gets before (mapAfter m (op :: before)) := by
      have hcons : ∀ before, trie.Gets (op :: before) (mapAfter m (op :: before)) ↔
          (trie.write effect).Gets before (mapAfter m (op :: before)) := by
        intro before
        unfold MerklePatriciaTrie.Gets
        rw [MerklePatriciaTrie.run_cons heffect]
      constructor
      · intro hall before hbefore
        exact (hcons before).mp (hall _ (List.cons_prefix_cons.mpr ⟨rfl, hbefore⟩))
      · intro hall before hbefore
        cases before with
        | nil =>
          refine ⟨trie, rfl, fun key => ?_⟩
          rw [mapAfter, ← hm key]
          exact h.get hE key
        | cons op' before =>
          obtain ⟨rfl, hrest⟩ := List.cons_prefix_cons.mp hbefore
          exact (hcons before).mpr (hall before hrest)
    have hnow : (∀ before, before <+: ops →
        (trie.write effect).Gets before (mapAfter m (op :: before))) →
        Holds (trie.write effect) (treeStep trie.pathOf t op) (mapAfter m [op]) := by
      intro hall
      obtain ⟨trie', hrun, hget⟩ := hall [] List.nil_prefix
      obtain rfl := Except.ok.inj hrun
      exact hstep.holds_of_get hE hget
    rw [hsplit, MerklePatriciaTrie.runKeepsOthers_cons heffect]
    cases op with
    | put key v =>
      have hrest := ih hstep hE hopts (fun e he => hmem e (List.mem_append_right _ he))
        (full_insert h.wf hfull _ v) (keysIn_insert hkeys key v) (holds_insert hpath hm key v)
        hprune hpath
      exact hrest.trans (and_iff_right rfl).symm
    | del key =>
      have hrest := fun hsafe => ih hstep hE hopts
        (fun e he => hmem e (List.mem_append_right _ he)) (full_delete hfull _)
        (keysIn_delete hkeys h.wf hsafe) (holds_delete h.wf hpath hm hsafe) hprune hpath
      constructor
      · intro hall
        have hsafe := h.delKeepsOthers_of_holds hE hfull hkeys hm (hnow hall)
        exact ⟨hsafe, (hrest ((h.delKeepsOthers_iff hE key).mp hsafe)).mp hall⟩
      · rintro ⟨hsafe, hkeeps⟩
        exact (hrest ((h.delKeepsOthers_iff hE key).mp hsafe)).mpr hkeeps

end Represents

theorem encodings_before {trie : MerklePatriciaTrie} {before ops : List TrieOp}
    (h : before <+: ops) : ∀ e ∈ trie.encodings before, e ∈ trie.encodings ops := by
  obtain ⟨after, rfl⟩ := h
  induction before generalizing trie with
  | nil => simp [MerklePatriciaTrie.encodings]
  | cons op before ih =>
    intro e he
    rw [List.cons_append]
    cases heffect : trie.effectOf op with
    | error err =>
      rw [MerklePatriciaTrie.encodings, heffect] at he
      cases he
    | ok effect =>
      rw [MerklePatriciaTrie.encodings_cons heffect] at he ⊢
      exact List.mem_append.mpr ((List.mem_append.mp he).imp_right (ih e))

/-- The trie returns the last writes after every part of a run exactly when no removal
of the run meets the value of a branch as `delKeepsOthers` excludes it. -/
theorem getsLastWrites_iff (H : HashKeysFunction) (ops : List TrieOp)
    (hE : CollisionFree H (runEncodings (plainOpts H) ops)) :
    (∀ before, before <+: ops → GetsLastWrites H before) ↔
      (createMPT (plainOpts H)).runKeepsOthers ops = true := by
  have hiff := (represents_createMPT (runEncodings (plainOpts H) ops)
    (plainOpts H)).gets_iff_runKeepsOthers hE List.mem_cons_self rfl
    (fun _ he => List.mem_cons_of_mem _ he) trivial (fun _ _ h => by simp at h)
    (m := fun _ => none) fun _ => lookup_nil _
  rw [← hiff]
  have hpart : ∀ before, before <+: ops →
      CollisionFree H (runEncodings (plainOpts H) before) := by
    intro before hbefore
    refine hE.mono fun e he => ?_
    exact List.mem_cons.mpr ((List.mem_cons.mp he).imp_right (encodings_before hbefore e))
  exact ⟨fun h before hbefore => h before hbefore (hpart before hbefore),
    fun h before hbefore _ => h before hbefore⟩

/-- The condition on a list of encodings, as a test of their pairs. -/
theorem collisionFree_of_list {H : HashKeysFunction} {l : List Bytes}
    (h : (∀ a ∈ l, ∀ b ∈ l, H.hash a = H.hash b → a = b) ∧ ∀ e ∈ l, e.length < maxLength) :
    CollisionFree H { e | e ∈ l } :=
  ⟨fun a ha b hb => h.1 a ha b hb, h.2⟩

def keptCalls : List TrieOp :=
  [.put [0x12] (.cons 1 []), .put [0x12, 0x34] (.cons 2 []),
    .put [0x12, 0x56] (.cons 3 []), .put [0x12, 0x78] (.cons 4 []), .del [0x12, 0x34],
    .put [0x20] (.cons 5 []), .del [0x20]]

theorem getsLastWrites_iff_kept :
    CollisionFree polynomialHash (runEncodings (plainOpts polynomialHash) keptCalls) ∧
      ((∀ before, before <+: keptCalls → GetsLastWrites polynomialHash before) ↔
        (createMPT (plainOpts polynomialHash)).runKeepsOthers keptCalls = true) ∧
      (createMPT (plainOpts polynomialHash)).runKeepsOthers keptCalls = true :=
  have hE := collisionFree_of_list (by decide +kernel)
  ⟨hE, getsLastWrites_iff polynomialHash keptCalls hE, by decide +kernel⟩

def lostCalls : List TrieOp :=
  [.put [0x12] (.cons 1 []), .put [0x12, 0x34] (.cons 2 []),
    .put [0x12, 0x56] (.cons 3 []), .del [0x12]]

/-- A branch with two children keeps its value when its key is removed. -/
theorem not_getsLastWrites_lost : ¬ GetsLastWrites polynomialHash lostCalls := by
  intro h
  obtain ⟨trie, hrun, hget⟩ := h (collisionFree_of_list (by decide +kernel))
  have hkept : (((createMPT (plainOpts polynomialHash)).run lostCalls).bind fun trie =>
      trie.get [0x12] false) = .ok (some (.bytes [1])) := by decide +kernel
  rw [hrun] at hkept
  have hlost : lastWrite lostCalls [0x12] = none := by decide
  rw [Except.bind, hget, hlost] at hkept
  cases hkept

end EthereumJS
