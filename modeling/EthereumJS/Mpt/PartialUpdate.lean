import EthereumJS.Mpt.Astray

/-! # Updates of partial tries

When `put` and `del` on a partial trie end with the root that they give on the complete
trie: `put` needs the walk along the key to meet no missing node behind the root, `del`
needs this only for a key that the complete trie holds.
-/

namespace EthereumJS

open RLP Patricia Patricia.Tree

/-- The root of another trie over a database that holds some nodes under their hashes. -/
structure HoldsPart (E : Set Bytes) (trie full : MerklePatriciaTrie) : Prop where
  opts_eq : trie.opts = full.opts
  root_eq : trie.root = full.root
  sound : Sound trie.hashing E trie.db
  empty : trie.db trie.emptyTrieRoot = none

namespace MerklePatriciaTrie

/-- The call throws, which changes nothing, or it ends with the root that it ends with
on the other trie. -/
def Agrees (trie full : MerklePatriciaTrie) (op : TrieOp) : Prop :=
  ∀ trie', trie.step op = .ok trie' → ∃ full', full.step op = .ok full' ∧ trie'.root = full'.root

/-- The walk along the path of a key meets no missing node. -/
def ReadsPath (trie : MerklePatriciaTrie) (key : Bytes) : Prop := ∃ v, trie.get key true = .ok v

/-- A `put` needs the nodes on the path of its key, or no root node; a `del` needs them
for a key of the complete trie. -/
def HasNodesFor (trie full : MerklePatriciaTrie) : TrieOp → Prop
  | .put key _ => trie.db trie.root = none ∨ trie.ReadsPath key
  | .del key => full.get key false = .ok none ∨ trie.ReadsPath key

theorem agrees_of_error {trie full : MerklePatriciaTrie} {op : TrieOp} {e : MPTError}
    (h : trie.effectOf op = .error e) : trie.Agrees full op := by
  intro trie' hstep
  rw [step, h] at hstep
  cases hstep

theorem agrees_iff_root {trie full : MerklePatriciaTrie} {op : TrieOp} {effect effect' : Effect}
    (h : trie.effectOf op = .ok effect) (h' : full.effectOf op = .ok effect') :
    trie.Agrees full op ↔ effect.root = effect'.root := by
  unfold Agrees step
  rw [h, h']
  constructor
  · intro hall
    obtain ⟨full', hfull, hroot⟩ := hall _ rfl
    obtain rfl := Except.ok.inj hfull
    exact hroot
  · rintro hroot trie' htrie
    obtain rfl := Except.ok.inj htrie
    exact ⟨_, rfl, hroot⟩

end MerklePatriciaTrie

namespace PartOf

variable {E : Set Bytes} {trie : MerklePatriciaTrie} {t : MPTree}

theorem readsPath_iff (h : PartOf E trie t) (hE : CollisionFree trie.hashing E) (key : Bytes) :
    trie.ReadsPath key ↔ PathIn trie.hashing trie.db t (trie.pathOf key) := by
  constructor
  · rintro ⟨v, hv⟩
    by_contra hpath
    obtain ⟨_, _, _, _, _, hfind⟩ := h.findPath_of_not_pathIn hE _ hpath
    rw [trie.get_eq, hfind true] at hv
    cases hv
  · intro hpath
    exact ⟨_, h.get_of_pathIn hE true hpath⟩

theorem root_missing_iff (h : PartOf E trie t) (hE : CollisionFree trie.hashing E) :
    trie.db trie.root = none ↔ ¬ RootIn trie.hashing trie.db t := by
  rw [h.root_eq, RootIn]
  constructor
  · intro hnone
    simp [hnone]
  · intro hroot
    cases hget : trie.db (rootHash trie.hashing t) with
    | none => rfl
    | some e =>
      have he := h.sound.eq_encodeTree hE h.top hget
      exact absurd (hget.trans (congrArg some he)) hroot

/-- A `put` whose walk is complete inserts into the complete tree. -/
theorem putEffect_of_pathIn (h : PartOf E trie t) (hE : CollisionFree trie.hashing E)
    (hprune : trie.opts.useNodePruning = false) (hroot : trie.root ≠ trie.emptyTrieRoot)
    {key : Bytes} (hpath : PathIn trie.hashing trie.db t (trie.pathOf key)) (v : Value) :
    ∃ ops, trie.putEffect key (some v.1) false =
      .ok ⟨rootHash trie.hashing (Patricia.insert t (trie.pathOf key) v), ops⟩ := by
  have hkey := ctxPath_descend t (trie.pathOf key) []
  rw [ctxPath_nil, List.nil_append] at hkey
  have hsite := Represents.site_of_wf h.wf h.ne_nil (trie.pathOf key)
  rw [MerklePatriciaTrie.putEffect_of_findPath hprune hroot (h.findPath_of_pathIn hE _ _ hpath)]
  exact ⟨_, trie.updateNode_pathAt (descend_stuck _ _ _) hsite.1 v hkey.symm⟩

/-- A `put` whose walk meets a missing node throws if that is the root, and else ends with
the root of a tree that is not canonical. -/
theorem putEffect_of_not_pathIn (h : PartOf E trie t) (hE : CollisionFree trie.hashing E)
    (hprune : trie.opts.useNodePruning = false) (hroot : trie.root ≠ trie.emptyTrieRoot)
    {key : Bytes} (hpath : ¬ PathIn trie.hashing trie.db t (trie.pathOf key)) (v : Value) :
    (¬ RootIn trie.hashing trie.db t ∧
      trie.putEffect key (some v.1) false = .error .stackUnderflow) ∨
    (RootIn trie.hashing trie.db t ∧ ∃ u ops,
      trie.putEffect key (some v.1) false = .ok ⟨rootHash trie.hashing u, ops⟩ ∧
      ¬ u.All PlainNode ∧
      ((∀ key e, BatchDBOp.put key e ∈ ops → e ∈ E) →
        encodeTree trie.hashing u ∈ E ∧ EncodedIn trie.hashing E u)) := by
  obtain ⟨above, s, below, htrail, habove, hfind⟩ := h.findPath_of_not_pathIn hE _ hpath
  rw [MerklePatriciaTrie.putEffect_of_findPath hprune hroot (hfind false)]
  rcases Classical.em (above = []) with hnil | hne
  · left
    refine ⟨habove.mp hnil, ?_⟩
    rw [hnil]
    rfl
  · right
    refine ⟨not_not.mp fun hno => hne (habove.mpr hno), ?_⟩
    exact h.updateNode_astray (trie.appliedKey key) v hne htrail

/-- A `del` whose walk is complete removes from the complete tree or throws. -/
theorem delEffect_of_pathIn (h : PartOf E trie t) (hE : CollisionFree trie.hashing E)
    (hprune : trie.opts.useNodePruning = false) {key : Bytes}
    (hpath : PathIn trie.hashing trie.db t (trie.pathOf key)) :
    trie.delEffect key false = .error .missingNode ∨ ∃ ops, trie.delEffect key false =
      .ok ⟨rootHash trie.hashing (delete t (trie.pathOf key)), ops⟩ := by
  have hfind : trie.findPath (trie.appliedKey key) false =
      .ok (pathAt trie.hashing (descend t (trie.pathOf key) [])) :=
    h.findPath_of_pathIn hE _ _ hpath
  have hkey : bytesToNibbles (trie.appliedKey key) = _ := (ctxPath_descend t _ []).symm
  have hplug := plug_descend t (trie.pathOf key) []
  rw [plug_nil] at hplug
  have hneed := (Represents.site_of_wf h.wf h.ne_nil (trie.pathOf key)).2
  have hstuck := descend_stuck t (trie.pathOf key) []
  rw [MerklePatriciaTrie.delEffect_of_findPath hprune hfind, found_iff]
  rcases Classical.em (found (descend t (trie.pathOf key) []) = true) with hfound | hfound
  · simp only [hfound, if_true, Option.isSome_some]
    have hmem : ∀ r a, remnant (descend t (trie.pathOf key) []) = some r → Only r.children a →
        HashedIn trie.hashing E (r.children a) := fun r a hr ha =>
      ((all_remnant (hplug.symm ▸ h.encoded) hr).1 a).self ha.1
    rcases Classical.em (∃ r a, remnant (descend t (trie.pathOf key) []) = some r ∧
      Only r.children a ∧ ¬ Resident trie.hashing trie.db (r.children a)) with
      ⟨r, a, hr, ha, hmissing⟩ | hall
    · left
      exact trie.deleteNode_missing hstuck hfound hneed hkey hr ha
        (trie.lookupNode_missing hE (hmem r a hr ha) h.sound hmissing)
    · right
      refine ⟨_, trie.deleteNode_spec hstuck hfound hneed hkey t fun r a hr ha => ?_⟩
      refine trie.lookupNode_resident hE ha.1 (hmem r a hr ha) ?_
      by_contra hmissing
      exact hall ⟨r, a, hr, ha, hmissing⟩
  · right
    simp [hfound, delete, deleteAt, h.root_eq]

/-- A `del` whose walk meets a missing node changes nothing. -/
theorem delEffect_of_not_pathIn (h : PartOf E trie t) (hE : CollisionFree trie.hashing E)
    (hprune : trie.opts.useNodePruning = false) {key : Bytes}
    (hpath : ¬ PathIn trie.hashing trie.db t (trie.pathOf key)) :
    trie.delEffect key false = .ok ⟨trie.root, []⟩ := by
  obtain ⟨_, _, _, _, _, hfind⟩ := h.findPath_of_not_pathIn hE _ hpath
  rw [MerklePatriciaTrie.delEffect_of_findPath hprune (hfind false)]
  rfl

end PartOf

namespace HoldsPart

variable {E : Set Bytes} {trie full : MerklePatriciaTrie} {t : MPTree}

theorem partOf (h : HoldsPart E trie full) (hfull : Represents E full t) (ht : t ≠ nil) :
    PartOf E trie t where
  root_eq := by
    rw [h.root_eq, hfull.root_eq]
    simp only [MerklePatriciaTrie.hashing, h.opts_eq]
  ne_nil := ht
  wf := hfull.wf
  encoded := by
    rw [MerklePatriciaTrie.hashing, h.opts_eq]
    exact hfull.encoded
  top := by
    rw [MerklePatriciaTrie.hashing, h.opts_eq]
    exact (hfull.top ht).1
  sound := h.sound

theorem findPath_empty (h : HoldsPart E trie full) (hfull : Represents E full nil) (key : Bytes) :
    trie.findPath key false = .ok ⟨none, [], []⟩ := by
  have hroot : trie.root = trie.emptyTrieRoot := by
    rw [h.root_eq, hfull.root_eq, MerklePatriciaTrie.emptyTrieRoot, MerklePatriciaTrie.hash,
      h.opts_eq]
    rfl
  rw [MerklePatriciaTrie.findPath, MerklePatriciaTrie.walk, MerklePatriciaTrie.lookupNode, hroot,
    h.empty]
  rfl

theorem pathOf_eq (h : HoldsPart E trie full) : trie.pathOf = full.pathOf := by
  funext key
  unfold MerklePatriciaTrie.pathOf MerklePatriciaTrie.appliedKey MerklePatriciaTrie.hash
  rw [h.opts_eq]

/-- A `put` agrees with the complete trie exactly if it meets no missing node. -/
theorem agrees_put_iff (h : HoldsPart E trie full) (hfull : Represents E full t)
    (hE : CollisionFree full.hashing E) (hempty : RLP_EMPTY_STRING ∈ E)
    (hprune : full.opts.useNodePruning = false) {m : Nat} (hcanon : CanonAt m t) {key : Bytes}
    {v : Value} (hkey : (full.pathOf key).length = m)
    (hfullE : ∀ e ∈ full.encodings [.put key v], e ∈ E)
    (hstepE : ∀ e ∈ trie.encodings [.put key v], e ∈ E) :
    trie.Agrees full (.put key v) ↔ trie.HasNodesFor full (.put key v) := by
  have hhash : trie.hashing = full.hashing := by rw [MerklePatriciaTrie.hashing, h.opts_eq]
  have hpath := congrFun h.pathOf_eq key
  have hput : full.effectOf (.put key v) = _ := hfull.putEffect hE hempty hprune key v
  rcases Classical.em (t = nil) with rfl | ht
  · have hroot : trie.root = trie.emptyTrieRoot := by
      rw [h.root_eq, hfull.root_eq, MerklePatriciaTrie.emptyTrieRoot, MerklePatriciaTrie.hash,
        h.opts_eq]
      rfl
    have heffect : trie.effectOf (.put key v) = _ :=
      MerklePatriciaTrie.putEffect_of_empty hroot key v
    refine iff_of_true ((MerklePatriciaTrie.agrees_iff_root heffect hput).mpr ?_) (Or.inl ?_)
    · have hsame := MerklePatriciaTrie.putEffect_of_empty hfull.root_eq key v
      have hfullRoot := congrArg Effect.root (Except.ok.inj (hsame.symm.trans hput))
      rw [← hfullRoot]
      simp only [MerklePatriciaTrie.createInitialNode, MerklePatriciaTrie.hash,
        MerklePatriciaTrie.appliedKey, h.opts_eq]
    · rw [hroot]
      exact h.empty
  · have hpart := h.partOf hfull ht
    have hEt : CollisionFree trie.hashing E := hhash ▸ hE
    have hprune' : trie.opts.useNodePruning = false := h.opts_eq ▸ hprune
    have hroot : trie.root ≠ trie.emptyTrieRoot := by
      rw [h.root_eq, MerklePatriciaTrie.emptyTrieRoot, MerklePatriciaTrie.hash, h.opts_eq]
      exact hfull.root_ne_empty hE hempty ht
    rw [MerklePatriciaTrie.HasNodesFor, hpart.root_missing_iff hEt, hpart.readsPath_iff hEt]
    rcases Classical.em (PathIn trie.hashing trie.db t (trie.pathOf key)) with hin | hout
    · obtain ⟨ops, hin'⟩ := hpart.putEffect_of_pathIn hEt hprune' hroot hin v
      have heffect : trie.effectOf (.put key v) = _ := hin'
      refine iff_of_true ((MerklePatriciaTrie.agrees_iff_root heffect hput).mpr ?_) (Or.inr hin)
      rw [hpath, hhash]
      rfl
    · rcases hpart.putEffect_of_not_pathIn hEt hprune' hroot hout v with
        ⟨hmissing, herror⟩ | ⟨hthere, u, ops, hastray, hplain, henc⟩
      · exact iff_of_true (MerklePatriciaTrie.agrees_of_error herror) (Or.inl hmissing)
      · have heffect : trie.effectOf (.put key v) = _ := hastray
        refine iff_of_false (fun hagree => hplain ?_) ?_
        · have hu := henc fun key' e he => hstepE e (by
            rw [MerklePatriciaTrie.encodings_cons heffect]
            exact List.mem_append_left _ (mem_putValues he))
          have hnew := hfull.put hE hempty hprune hput fun key' e he => hfullE e (by
            rw [MerklePatriciaTrie.encodings_cons hput]
            exact List.mem_append_left _ (mem_putValues he))
          have hsame := (MerklePatriciaTrie.agrees_iff_root heffect hput).mp hagree
          rw [hhash] at hu hsame
          obtain rfl := rootHash_injective full.hashing hE hu.2 hnew.encoded hu.1
            (hnew.top (insert_ne_nil _ _ v)).1 hsame
          rcases hcanon with rfl | hcanon
          · exact absurd rfl ht
          · exact plain_of_canon (canon_insert (Or.inr hcanon) v hkey)
        · rintro (hmissing | hin)
          · exact hmissing hthere
          · exact hout hin

/-- A `del` agrees with the complete trie exactly if it meets no missing node, or there is
nothing to remove. -/
theorem agrees_del_iff (h : HoldsPart E trie full) (hfull : Represents E full t)
    (hE : CollisionFree full.hashing E) (hempty : RLP_EMPTY_STRING ∈ E)
    (hprune : full.opts.useNodePruning = false) {m : Nat} (hcanon : CanonAt m t) {key : Bytes}
    (hkey : (full.pathOf key).length = m) (hfullE : ∀ e ∈ full.encodings [.del key], e ∈ E) :
    trie.Agrees full (.del key) ↔ trie.HasNodesFor full (.del key) := by
  have hhash : trie.hashing = full.hashing := by rw [MerklePatriciaTrie.hashing, h.opts_eq]
  have hpath := congrFun h.pathOf_eq key
  have hdel : full.effectOf (.del key) = _ := hfull.delEffect hE hprune key
  have hEt : CollisionFree trie.hashing E := hhash ▸ hE
  have hprune' : trie.opts.useNodePruning = false := h.opts_eq ▸ hprune
  have hlookup := lookup_delete hcanon.wf (hcanon.safeSite hkey)
  have hgetnone : full.get key false = .ok none ↔ t.lookup (full.pathOf key) = none := by
    rw [hfull.get hE key]
    simp only [Except.ok.injEq, Option.map_eq_none_iff]
    rfl
  -- an absent key leaves the tree as it is
  have habsent : t.lookup (full.pathOf key) = none → delete t (full.pathOf key) = t := by
    intro hnone
    refine CanonAt.eq_of_lookup (canon_delete hcanon hkey) hcanon fun k => ?_
    rw [hlookup]
    split
    · rename_i hk
      rw [hk, hnone]
    · rfl
  rw [MerklePatriciaTrie.HasNodesFor, hgetnone]
  rcases Classical.em (t = nil) with rfl | ht
  · have heffect : trie.effectOf (.del key) = _ :=
      MerklePatriciaTrie.delEffect_of_findPath hprune' (h.findPath_empty hfull _)
    refine iff_of_true ((MerklePatriciaTrie.agrees_iff_root heffect hdel).mpr ?_)
      (Or.inl (lookup_nil _))
    rw [h.root_eq, hfull.root_eq]
    exact congrArg (rootHash full.hashing) (habsent (lookup_nil _)).symm
  · have hpart := h.partOf hfull ht
    rw [hpart.readsPath_iff hEt]
    rcases Classical.em (PathIn trie.hashing trie.db t (trie.pathOf key)) with hin | hout
    · refine iff_of_true ?_ (Or.inr hin)
      rcases hpart.delEffect_of_pathIn hEt hprune' hin with herror | ⟨ops, hin'⟩
      · have herr : trie.effectOf (.del key) = .error .missingNode := herror
        exact MerklePatriciaTrie.agrees_of_error herr
      · have heffect : trie.effectOf (.del key) = _ := hin'
        refine (MerklePatriciaTrie.agrees_iff_root heffect hdel).mpr ?_
        rw [hpath, hhash]
        rfl
    · have heffect : trie.effectOf (.del key) = _ := hpart.delEffect_of_not_pathIn hEt hprune' hout
      rw [MerklePatriciaTrie.agrees_iff_root heffect hdel, or_iff_left hout, h.root_eq,
        hfull.root_eq]
      constructor
      · intro hsame
        have hnew := hfull.del hE hempty hprune hdel fun key' e he => hfullE e (by
          rw [MerklePatriciaTrie.encodings_cons hdel]
          exact List.mem_append_left _ (mem_putValues he))
        have htop : encodeTree full.hashing (delete t (full.pathOf key)) ∈ E := by
          rcases Classical.em (delete t (full.pathOf key) = nil) with hnil | hne
          · rw [hnil]
            exact hempty
          · exact (hnew.top hne).1
        have heq : t = delete t (full.pathOf key) := rootHash_injective full.hashing hE
          hfull.encoded hnew.encoded (hfull.top ht).1 htop hsame
        rw [heq, hlookup, if_pos rfl]
      · intro hnone
        exact congrArg (rootHash full.hashing) (habsent hnone).symm

end HoldsPart

/-- A trie of which only the root node is kept. -/
def MerklePatriciaTrie.keepRoot (trie : MerklePatriciaTrie) : MerklePatriciaTrie :=
  { trie with db := fun h => if h = trie.root then trie.db h else none }

theorem Represents.holdsPart_keepRoot {E : Set Bytes} {full : MerklePatriciaTrie} {t : MPTree}
    (h : Represents E full t) : HoldsPart E full.keepRoot full where
  opts_eq := rfl
  root_eq := rfl
  sound := by
    intro key e he
    change (if key = full.root then full.db key else none) = some e at he
    split at he
    · rename_i hroot
      rw [hroot, h.root_eq] at he
      rcases Classical.em (t = nil) with rfl | ht
      · rw [show full.db (rootHash full.hashing nil) = none from h.empty] at he
        cases he
      · rw [(h.top ht).2] at he
        obtain rfl := Option.some.inj he
        exact ⟨hroot.trans h.root_eq, (h.top ht).1⟩
    · cases he
  empty := by
    change (if full.emptyTrieRoot = full.root then full.db full.emptyTrieRoot else none) = none
    split
    · exact h.empty
    · rfl

/-- On a trie over keys of one length, a call on a partial trie throws or ends with the
root that it ends with on the complete trie, exactly if it has the nodes that it needs. -/
theorem agrees_iff_hasNodesFor {opts : MPTOpts} (hprune : opts.useNodePruning = false)
    {ops : List TrieOp} {op : TrieOp} {n : Nat}
    (hlen : ∀ o ∈ ops ++ [op], ((createMPT opts).appliedKey o.key).length = n)
    {full trie : MerklePatriciaTrie} (hrun : (createMPT opts).run ops = .ok full) {E : Set Bytes}
    (hpart : HoldsPart E trie full) (hE : CollisionFree opts.useKeyHashingFunction E)
    (hrunE : ∀ e ∈ runEncodings opts (ops ++ [op]), e ∈ E)
    (hstepE : ∀ e ∈ trie.encodings [op], e ∈ E) :
    trie.Agrees full op ↔ trie.HasNodesFor full op := by
  have hempty : RLP_EMPTY_STRING ∈ E := hrunE _ List.mem_cons_self
  have hsplit := MerklePatriciaTrie.encodings_append hrun [op]
  have hopsE : ∀ e ∈ (createMPT opts).encodings ops, e ∈ E := fun e he =>
    hrunE e (List.mem_cons_of_mem _ (hsplit ▸ List.mem_append_left _ he))
  have hfullE : ∀ e ∈ full.encodings [op], e ∈ E := fun e he =>
    hrunE e (List.mem_cons_of_mem _ (hsplit ▸ List.mem_append_right _ he))
  obtain ⟨full', hrun', hopts, hrep⟩ :=
    (represents_createMPT E opts).run hE hempty hprune hopsE
  obtain rfl : full = full' := Except.ok.inj (hrun.symm.trans hrun')
  have hpath : full.pathOf = (createMPT opts).pathOf := by
    funext key
    unfold MerklePatriciaTrie.pathOf MerklePatriciaTrie.appliedKey MerklePatriciaTrie.hash
    rw [hopts]
  have hbits : ∀ o ∈ ops ++ [op], (((createMPT opts).pathOf o.key)).length = 2 * n := by
    intro o ho
    rw [MerklePatriciaTrie.pathOf, length_bytesToNibbles, hlen o ho]
  have hcanon := CanonAt.treeAfter (t := nil) (Or.inl rfl) fun o ho =>
    hbits o (List.mem_append_left [op] ho)
  have hkey : (full.pathOf op.key).length = 2 * n := by
    rw [hpath]
    exact hbits op (by simp)
  have hEf : CollisionFree full.hashing E := by
    rw [MerklePatriciaTrie.hashing, hopts]
    exact hE
  have hprunef : full.opts.useNodePruning = false := by
    rw [hopts]
    exact hprune
  cases op with
  | put key v => exact hpart.agrees_put_iff hrep hEf hempty hprunef hcanon hkey hfullE hstepE
  | del key => exact hpart.agrees_del_iff hrep hEf hempty hprunef hcanon hkey hfullE

def splitCalls : List TrieOp :=
  [.put [0x11] (.cons 1 (List.replicate 39 1)), .put [0x12] (.cons 2 (List.replicate 39 2)),
    .put [0x21] (.cons 3 (List.replicate 39 3))]

/-- The encodings of a call after these, on the complete trie and on its root node. -/
def splitEncodings (op : TrieOp) : List Bytes :=
  RLP_EMPTY_STRING :: (createMPT (plainOpts polynomialHash)).encodings (splitCalls ++ [op]) ++
    match (createMPT (plainOpts polynomialHash)).run splitCalls with
    | .ok full => full.keepRoot.encodings [op]
    | .error _ => []

theorem run_splitCalls (op : TrieOp)
    (hE : CollisionFree polynomialHash { e | e ∈ splitEncodings op }) :
    ∃ full, (createMPT (plainOpts polynomialHash)).run splitCalls = .ok full ∧
      HoldsPart { e | e ∈ splitEncodings op } full.keepRoot full ∧
      (∀ e ∈ runEncodings (plainOpts polynomialHash) (splitCalls ++ [op]),
        e ∈ splitEncodings op) ∧
      ∀ e ∈ full.keepRoot.encodings [op], e ∈ splitEncodings op := by
  have hrunE : ∀ e ∈ runEncodings (plainOpts polynomialHash) (splitCalls ++ [op]),
      e ∈ splitEncodings op := fun e he => List.mem_append_left _ he
  obtain ⟨full, hrun, _, hrep⟩ :=
    (represents_createMPT _ (plainOpts polynomialHash)).run hE List.mem_cons_self rfl
      fun e he => hrunE e (List.mem_cons_of_mem _ (encodings_before (List.prefix_append _ [op]) e he))
  refine ⟨full, hrun, hrep.holdsPart_keepRoot, hrunE, fun e he => ?_⟩
  unfold splitEncodings
  rw [hrun]
  exact List.mem_append_right _ he

theorem agrees_iff_hasNodesFor_free : ∃ full,
    (createMPT (plainOpts polynomialHash)).run splitCalls = .ok full ∧
      (full.keepRoot.Agrees full (.put [0x31] ⟨[4], by simp⟩) ↔
        full.keepRoot.HasNodesFor full (.put [0x31] ⟨[4], by simp⟩)) := by
  have hE := collisionFree_of_list (H := polynomialHash)
    (l := splitEncodings (.put [0x31] ⟨[4], by simp⟩)) (by decide +kernel)
  obtain ⟨full, hrun, hpart, hrunE, hstepE⟩ := run_splitCalls _ hE
  exact ⟨full, hrun, agrees_iff_hasNodesFor (n := 1) rfl (by decide) hrun hpart hE hrunE hstepE⟩

/-- With the root node alone, a `put` into a subtree that is missing ends with another
root than on the complete trie. -/
theorem not_agrees_missing : ∃ full,
    (createMPT (plainOpts polynomialHash)).run splitCalls = .ok full ∧
      CollisionFree polynomialHash { e | e ∈ splitEncodings (.put [0x11] ⟨[4], by simp⟩) } ∧
      HoldsPart { e | e ∈ splitEncodings (.put [0x11] ⟨[4], by simp⟩) } full.keepRoot full ∧
      ¬ full.keepRoot.Agrees full (.put [0x11] ⟨[4], by simp⟩) := by
  have hE := collisionFree_of_list (H := polynomialHash)
    (l := splitEncodings (.put [0x11] ⟨[4], by simp⟩)) (by decide +kernel)
  obtain ⟨full, hrun, hpart, _, _⟩ := run_splitCalls _ hE
  refine ⟨full, hrun, hE, hpart, fun hagree => ?_⟩
  have hok : (((createMPT (plainOpts polynomialHash)).run splitCalls).bind fun full =>
      full.keepRoot.step (.put [0x11] ⟨[4], by simp⟩)).isOk = true := by decide +kernel
  have hne : (((createMPT (plainOpts polynomialHash)).run splitCalls).bind fun full =>
        (full.keepRoot.step (.put [0x11] ⟨[4], by simp⟩)).map MerklePatriciaTrie.root) ≠
      (((createMPT (plainOpts polynomialHash)).run splitCalls).bind fun full =>
        (full.step (.put [0x11] ⟨[4], by simp⟩)).map MerklePatriciaTrie.root) := by
    decide +kernel
  rw [hrun, Except.bind] at hok
  rw [hrun, Except.bind, Except.bind] at hne
  cases htrie : full.keepRoot.step (.put [0x11] ⟨[4], by simp⟩) with
  | error e =>
    rw [htrie] at hok
    cases hok
  | ok trie' =>
    obtain ⟨full', hfull, hsame⟩ := hagree trie' htrie
    rw [htrie, hfull] at hne
    exact hne (congrArg Except.ok hsame)

end EthereumJS
