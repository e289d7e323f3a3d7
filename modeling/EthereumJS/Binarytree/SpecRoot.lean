import EthereumJS.Binarytree.Map

/-! # The specified root

The root of a map by recursion over the bits of its stems, and the root of a tree after any
sequence of `put`.
-/

namespace EthereumJS.Binarytree

open StemTree

section Spec

variable (H : HashKeysFunction) (map : Bytes → UInt8 → Option Bytes)

def allSuffixes : List UInt8 := (List.range 256).map UInt8.ofNat

/-- The root over some stems that share the bits before `depth`. -/
def specRoot : Nat → Nat → List Bytes → Bytes
  | _, _, [] => List.replicate 32 0
  | _, _, [key] =>
    digest H (key ++ [0] ++ merkleRoot H 8 (allSuffixes.map fun i => valueHash H (map key i)))
  | 0, _, _ => List.replicate 32 0
  | levels + 1, depth, stems =>
    digest H (specRoot levels (depth + 1) (stems.filter fun s => !(keyBits s).getD depth false) ++
      specRoot levels (depth + 1) (stems.filter fun s => (keyBits s).getD depth false))

/-- A list of the stems that have a value. -/
structure StemsOf (stems : List Bytes) : Prop where
  nodup : stems.Nodup
  mem_iff : ∀ stem : Bytes, stem ∈ stems ↔ stem.length = 31 ∧ ∃ i, map stem i ≠ none

variable {H map} {t : StemTree} {path : Bits} {node : StemBinaryNode}

theorem values_eq_getValue (hnode : node.Valid) :
    node.values = allSuffixes.map node.getValue := by
  have hlen := hnode.2.1
  refine List.ext_getElem (by simp [hlen, allSuffixes]) fun i hi _ => ?_
  have hsmall : i < 256 := hlen ▸ hi
  simp only [allSuffixes, List.getElem_map, List.getElem_range, StemBinaryNode.getValue,
    UInt8.toNat_ofNat', Nat.mod_eq_of_lt hsmall, List.getD_eq_getElem?_getD,
    List.getElem?_eq_getElem hi, Option.getD_some]

/-- The bit after the path of a child. -/
theorem StemTree.At.bit_of_mem {bit : Bool} (h : t.At (path ++ [bit])) (hmem : node ∈ t.stems) :
    (keyBits node.stem).getD path.length false = bit := by
  obtain ⟨-, rest, hpre⟩ := h.prefix_of_mem hmem
  rw [← hpre, List.getD_eq_getElem?_getD]
  simp

theorem StemTree.At.nodup_stems (h : t.At path) : (t.stems.map StemBinaryNode.stem).Nodup := by
  induction t generalizing path with
  | nil => exact List.nodup_nil
  | stem node => exact List.nodup_singleton _
  | internal left right ihleft ihright =>
    rw [stems, List.map_append, List.nodup_append]
    refine ⟨ihleft h.1, ihright h.2.1, ?_⟩
    rintro a ha b hb rfl
    obtain ⟨node, hnode, rfl⟩ := List.mem_map.mp ha
    obtain ⟨other, hother, heq⟩ := List.mem_map.mp hb
    have hright := h.2.1.bit_of_mem hother
    rw [heq, h.1.bit_of_mem hnode] at hright
    cases hright

/-- The stems of a tree on the side of a bit. -/
theorem StemTree.At.mem_filter {left right : StemTree} (h : (internal left right).At path)
    {stems : List Bytes}
    (hmem : ∀ s, s ∈ stems ↔ s ∈ (internal left right).stems.map StemBinaryNode.stem) (s : Bytes) :
    (s ∈ stems.filter (fun s => !(keyBits s).getD path.length false) ↔
        s ∈ left.stems.map StemBinaryNode.stem) ∧
      (s ∈ stems.filter (fun s => (keyBits s).getD path.length false) ↔
        s ∈ right.stems.map StemBinaryNode.stem) := by
  have hleft : ∀ s ∈ left.stems.map StemBinaryNode.stem,
      (keyBits s).getD path.length false = false := by
    intro s hs
    obtain ⟨node, hnode, rfl⟩ := List.mem_map.mp hs
    exact h.1.bit_of_mem hnode
  have hright : ∀ s ∈ right.stems.map StemBinaryNode.stem,
      (keyBits s).getD path.length false = true := by
    intro s hs
    obtain ⟨node, hnode, rfl⟩ := List.mem_map.mp hs
    exact h.2.1.bit_of_mem hnode
  have hall : s ∈ stems ↔ s ∈ left.stems.map StemBinaryNode.stem ∨
      s ∈ right.stems.map StemBinaryNode.stem := by
    rw [hmem, StemTree.stems, List.map_append, List.mem_append]
  rw [List.mem_filter, List.mem_filter, hall]
  constructor
  · constructor
    · rintro ⟨hl | hr, hbit⟩
      · exact hl
      · rw [hright s hr] at hbit
        cases hbit
    · exact fun hl => ⟨.inl hl, by rw [hleft s hl]; rfl⟩
  · constructor
    · rintro ⟨hl | hr, hbit⟩
      · rw [hleft s hl] at hbit
        cases hbit
      · exact hr
    · exact fun hr => ⟨.inr hr, hright s hr⟩

/-- The root of a tree of stems is the specified one. -/
theorem StemTree.At.root_of_stems (h : t.At path)
    (hvalues : ∀ node ∈ t.stems, ∀ i, node.getValue i = map node.stem i) {levels : Nat}
    (hlevels : levels + path.length = 248) {stems : List Bytes} (hnodup : stems.Nodup)
    (hmem : ∀ s, s ∈ stems ↔ s ∈ t.stems.map StemBinaryNode.stem) :
    t.root H = specRoot H map levels path.length stems := by
  have hperm : stems.Perm (t.stems.map StemBinaryNode.stem) :=
    (List.perm_ext_iff_of_nodup hnodup h.nodup_stems).mpr hmem
  induction t generalizing path levels stems with
  | nil =>
    rw [List.perm_nil.mp hperm]
    cases levels <;> rfl
  | stem node =>
    rw [List.perm_singleton.mp hperm]
    have hmap : node.values.map (valueHash H) =
        allSuffixes.map fun i => valueHash H (map node.stem i) := by
      rw [values_eq_getValue h.1, List.map_map]
      exact List.map_congr_left fun i _ =>
        congrArg (valueHash H) (hvalues node (List.mem_singleton_self _) i)
    change digest H (node.stem ++ [0] ++ merkleRoot H 8 (node.values.map (valueHash H))) = _
    rw [hmap]
    cases levels <;> rfl
  | internal left right ihleft ihright =>
    have hdepth := h.length_lt rfl
    obtain ⟨levels, rfl⟩ : ∃ n, levels = n + 1 := ⟨levels - 1, by omega⟩
    have htwo : 2 ≤ stems.length := by
      rw [hperm.length_eq, List.length_map, StemTree.stems, List.length_append]
      exact h.2.2
    have hfilter := h.mem_filter hmem
    have hlen : ∀ bit, (path ++ [bit]).length = path.length + 1 := fun _ => by simp
    have hl := ihleft h.1 (fun n hn => hvalues n (List.mem_append_left _ hn))
      (show levels + (path ++ [false]).length = 248 by rw [hlen]; omega) (hnodup.filter _) (fun s => (hfilter s).1)
      ((List.perm_ext_iff_of_nodup (hnodup.filter _) h.1.nodup_stems).mpr fun s => (hfilter s).1)
    have hr := ihright h.2.1 (fun n hn => hvalues n (List.mem_append_right _ hn))
      (show levels + (path ++ [true]).length = 248 by rw [hlen]; omega) (hnodup.filter _) (fun s => (hfilter s).2)
      ((List.perm_ext_iff_of_nodup (hnodup.filter _) h.2.1.nodup_stems).mpr fun s => (hfilter s).2)
    rw [hlen] at hl hr
    rcases stems with _ | ⟨a, _ | ⟨b, rest⟩⟩
    · exact absurd htwo (by decide)
    · exact absurd htwo (by simp)
    · rw [root, hl, hr]
      rfl

end Spec

section Puts

variable {H : HashKeysFunction} {tree : BinaryTree} {t : StemTree} {op : TreeOp}
  {ops : List TreeOp} {fuel : Nat}

theorem exists_getValue_of_full {node : StemBinaryNode} (hnode : node.Valid) (h : Full node) :
    ∃ i, node.getValue i ≠ none := by
  by_contra hnone
  apply h.exists_some
  intro value hvalue
  rw [values_eq_getValue hnode] at hvalue
  obtain ⟨i, -, rfl⟩ := List.mem_map.mp hvalue
  exact by_contra fun hne => hnone ⟨i, hne⟩

theorem assign_ne_none {entries : List (UInt8 × Option Bytes)} (hsome : ∀ e ∈ entries, e.2 ≠ none)
    {values : UInt8 → Option Bytes} {i : UInt8}
    (h : values i ≠ none ∨ ∃ e ∈ entries, e.1 = i) : assign entries values i ≠ none := by
  induction entries generalizing values with
  | nil => exact h.resolve_right fun ⟨e, he, _⟩ => (List.not_mem_nil he).elim
  | cons e entries ih =>
    refine ih (fun e he => hsome e (List.mem_cons_of_mem _ he)) ?_
    beta_reduce
    rw [Function.update_apply]
    by_cases heq : i = e.1
    · rw [if_pos heq]
      exact .inl (hsome e List.mem_cons_self)
    · rw [if_neg heq]
      refine h.imp_right ?_
      rintro ⟨e', he', hi⟩
      rcases List.mem_cons.mp he' with rfl | he'
      · exact absurd hi.symm heq
      · exact ⟨e', he', hi⟩

/-- A `put` without nulls leaves a value unless it writes nothing to a new stem. -/
theorem full_newNode (hAt : t.At []) (hfull : ∀ node ∈ t.stems, Full node) (hop : op.Valid)
    (hput : none ∉ op.values) (h : op.suffixes ≠ [] ∨ t.find op.stem ≠ none) :
    Full (newNode t op.stem op.suffixes op.values) := by
  intro hempty
  have hnone := congrFun (getValue_newNode hAt hop.stem op.suffixes op.values)
  have hsome : ∀ e ∈ op.suffixes.zip op.values, e.2 ≠ none := by
    intro e he hnone
    exact hput (hnone ▸ (List.of_mem_zip he).2)
  obtain ⟨i, hi⟩ : ∃ i, t.value op.stem i ≠ none ∨ ∃ e ∈ op.suffixes.zip op.values, e.1 = i := by
    rcases h with hne | hfound
    · have hlen : 0 < (op.suffixes.zip op.values).length := by
        rw [List.length_zip, hop.values, Nat.min_self]
        exact List.length_pos_iff.mpr hne
      obtain ⟨e, he⟩ := List.exists_mem_of_length_pos hlen
      exact ⟨e.1, .inr ⟨e, he, rfl⟩⟩
    · obtain ⟨node, hfind⟩ := Option.ne_none_iff_exists'.mp hfound
      have hmem := ((find_eq_some_iff hop.stem hAt).mp hfind).1
      obtain ⟨i, hi⟩ := exists_getValue_of_full (hAt.prefix_of_mem hmem).1 (hfull node hmem)
      refine ⟨i, .inl ?_⟩
      unfold StemTree.value
      rw [hfind]
      exact hi
  exact assign_ne_none hsome hi ((hnone i).symm.trans (getValue_of_all_none hempty i))

/-- No `put` with an empty list of suffixes meets an empty tree, save one of the zero stem. -/
def BinaryTree.StartsFull (fuel : Nat) : BinaryTree → List TreeOp → Prop
  | _, [] => True
  | tree, op :: ops =>
    (tree.root = EMPTY_TREE_ROOT → op.suffixes = [] → op.stem = List.replicate 31 0) ∧
      ∀ tree', op.run fuel tree = .ok tree' → tree'.StartsFull fuel ops

theorem told_of_full (h : ∀ node ∈ t.stems, Full node) : t.Told H :=
  fun ⟨node, hnode, hnot⟩ => absurd (h node hnode) hnot

theorem merkleRoot_replicate_zero (H : HashKeysFunction) (k : Nat) :
    merkleRoot H k (List.replicate (2 ^ k) (List.replicate 32 0)) = List.replicate 32 0 := by
  induction k with
  | zero => rfl
  | succ k ih =>
    rw [merkleRoot, List.take_replicate, List.drop_replicate, Nat.pow_succ,
      Nat.min_eq_left (by omega), show 2 ^ k * 2 - 2 ^ k = 2 ^ k by omega, ih]
    exact if_pos (by decide)

theorem stemHash_create_zero (H : HashKeysFunction) :
    stemHash H (.create (List.replicate 31 0)) = EMPTY_TREE_ROOT := by
  have hvalues : (StemBinaryNode.create (List.replicate 31 0)).values.map (valueHash H) =
      List.replicate (2 ^ 8) (List.replicate 32 0) := List.map_replicate
  rw [stemHash, hvalues, merkleRoot_replicate_zero]
  exact if_pos (by decide)

theorem Holds.full_step (h : Holds tree t) (hfull : ∀ node ∈ t.stems, Full node) (hop : op.Valid)
    (hput : none ∉ op.values)
    (hstart : tree.root = EMPTY_TREE_ROOT → op.suffixes = [] → op.stem = List.replicate 31 0) :
    ∀ node ∈ (t.step tree.hashFunction op).stems, Full node := by
  have hAt := h.represents.atRoot
  obtain ⟨hvalid, -⟩ := newNode_valid hAt hop.stem op.suffixes hop.short
  unfold StemTree.step
  dsimp only
  split
  · rename_i hempty
    split
    · exact hfull
    · rename_i hkeep
      -- nothing is written to an empty tree
      have hnot : ¬ (op.suffixes ≠ [] ∨ t.find op.stem ≠ none) := fun hwritten =>
        full_newNode hAt hfull hop hput hwritten hempty
      rw [not_or, not_not, not_not] at hnot
      have hnil : t = .nil := by_contra fun hnil => hkeep ⟨hnil, hnot.2⟩
      subst hnil
      have hzero : newNode .nil op.stem op.suffixes op.values =
          .create (List.replicate 31 0) := by
        rw [hnot.1, hstart h.represents.root_eq hnot.1]
        rfl
      rw [hzero, if_pos (stemHash_create_zero _)]
      exact fun node hnode => (List.not_mem_nil hnode).elim
  · rename_i hnew
    intro node hnode
    rcases (mem_stems_set hvalid hAt).mp hnode with rfl | ⟨hold, -⟩
    · exact hnew
    · exact hfull node hold

theorem Holds.not_unlinks (h : Holds tree t) (hfull : ∀ node ∈ t.stems, Full node)
    (hop : op.Valid) (hput : none ∉ op.values) (hfuel : 248 ≤ fuel) : ¬ tree.Unlinks fuel op := by
  rintro ⟨path, node, hpath, hnode, -, hempty⟩
  rw [h.represents.findPath hop.stem hfuel] at hpath
  cases hpath
  rw [fullPath_node] at hnode
  obtain ⟨found, hfind, hfound⟩ := Option.map_eq_some_iff.mp hnode
  cases hfound
  refine full_newNode h.represents.atRoot hfull hop hput (.inr (by simp [hfind])) ?_
  rw [newNode, hfind]
  exact hempty

theorem Holds.stemsOf (h : Holds tree t) (hfull : ∀ node ∈ t.stems, Full node)
    {map : Bytes → UInt8 → Option Bytes}
    (hmap : ∀ key : Bytes, key.length = 31 → t.value key = map key) :
    StemsOf map (t.stems.map StemBinaryNode.stem) ∧
      ∀ node ∈ t.stems, ∀ i, node.getValue i = map node.stem i := by
  have hAt := h.represents.atRoot
  have hvalues : ∀ node ∈ t.stems, ∀ i, node.getValue i = map node.stem i := by
    intro node hnode i
    have hlen := (hAt.prefix_of_mem hnode).1.1
    rw [← hmap _ hlen, StemTree.value, (find_eq_some_iff hlen hAt).mpr ⟨hnode, rfl⟩]
    rfl
  refine ⟨⟨hAt.nodup_stems, fun stem => ⟨fun hs => ?_, fun ⟨hlen, i, hi⟩ => ?_⟩⟩, hvalues⟩
  · obtain ⟨node, hnode, rfl⟩ := List.mem_map.mp hs
    have hvalid := (hAt.prefix_of_mem hnode).1
    obtain ⟨i, hi⟩ := exists_getValue_of_full hvalid (hfull node hnode)
    exact ⟨hvalid.1, i, hvalues node hnode i ▸ hi⟩
  · rw [← hmap stem hlen, StemTree.value] at hi
    obtain ⟨node, hfind⟩ : ∃ node, t.find stem = some node := by
      cases hfind : t.find stem with
      | none => exact absurd (by rw [hfind]; rfl) hi
      | some node => exact ⟨node, rfl⟩
    obtain ⟨hmem, hstem⟩ := (find_eq_some_iff hlen hAt).mp hfind
    exact hstem ▸ List.mem_map_of_mem hmem

theorem Holds.run_puts (h : Holds tree t) (hfull : ∀ node ∈ t.stems, Full node)
    (hops : ∀ op ∈ ops, op.Valid) (hputs : ∀ op ∈ ops, none ∉ op.values) (hfuel : 248 ≤ fuel)
    (hstart : tree.StartsFull fuel ops) {E : Set Bytes} (hE : NoCollision tree.hashFunction E)
    (hmsg : ∀ ops', ops' <+: ops → ∀ msg ∈ (ops'.foldl (StemTree.step tree.hashFunction) t).messages
      tree.hashFunction, msg ∈ E) :
    tree.StaysLinked fuel ops ∧ ∀ ops', ops' <+: ops →
      ∀ node ∈ (ops'.foldl (StemTree.step tree.hashFunction) t).stems, Full node := by
  induction ops generalizing tree t with
  | nil =>
    refine ⟨trivial, fun ops' hp => ?_⟩
    rw [List.prefix_nil.mp hp]
    exact hfull
  | cons op ops ih =>
    have hop := hops op List.mem_cons_self
    have hput := hputs op List.mem_cons_self
    have hfirst : [op] <+: op :: ops := List.prefix_append [op] ops
    have hlinked := h.not_unlinks hfull hop hput hfuel
    have hfull' := h.full_step hfull hop hput hstart.1
    obtain ⟨tree', hok, hhash, hnext⟩ := h.step hop hfuel hlinked hE (hmsg [op] hfirst)
      (told_of_full hfull')
    have hrest := ih (t := t.step tree.hashFunction op) hnext hfull'
      (fun o ho => hops o (List.mem_cons_of_mem _ ho))
      (fun o ho => hputs o (List.mem_cons_of_mem _ ho)) (hstart.2 tree' hok) (hhash ▸ hE)
    rw [hhash] at hrest
    obtain ⟨hstays, hfulls⟩ := hrest fun ops' hp =>
      hmsg _ (List.cons_prefix_cons.mpr ⟨rfl, hp⟩)
    refine ⟨⟨hlinked, fun tree'' hok'' => ?_⟩, fun ops' hp => ?_⟩
    · cases hok.symm.trans hok''
      exact hstays
    · cases ops' with
      | nil => exact hfull
      | cons first ops' =>
        obtain ⟨rfl, htail⟩ := List.cons_prefix_cons.mp hp
        exact hfulls ops' htail

/-- The root after any sequence of `put` of values is the one of the final map. -/
theorem root_eq_specRoot (H : HashKeysFunction) (ops : List TreeOp) (hops : ∀ op ∈ ops, op.Valid)
    (hputs : ∀ op ∈ ops, none ∉ op.values) (hfuel : 248 ≤ fuel)
    (hE : NoCollision H (runMessages H ops)) (hstart : (createBinaryTree H).StartsFull fuel ops) :
    ∃ tree, runOps fuel (createBinaryTree H) ops = .ok tree ∧
      (∃ stems, StemsOf (mapAfter ops) stems) ∧
      ∀ stems, StemsOf (mapAfter ops) stems →
        tree.root = specRoot H (mapAfter ops) 248 0 stems := by
  have hmsg : ∀ ops', ops' <+: ops →
      ∀ msg ∈ (ops'.foldl (StemTree.step H) .nil).messages H, msg ∈ runMessages H ops :=
    fun ops' hp msg hm => ⟨ops', hp, hm⟩
  obtain ⟨hlinked, hfull⟩ := (holds_createBinaryTree H).run_puts
    (fun _ hn => (List.not_mem_nil hn).elim) hops hputs hfuel hstart hE hmsg
  obtain ⟨tree, hrun, hhash, hholds, hvalue⟩ := (holds_createBinaryTree H).run hops hfuel hlinked
    hE hmsg fun ops' hp => told_of_full (hfull ops' hp)
  have hmap : ∀ key : Bytes, key.length = 31 →
      (ops.foldl (StemTree.step H) .nil).value key = mapAfter ops key := fun key hkey =>
    (hvalue key hkey).trans
      (foldl_apply_congr hops (fun _ _ => (rfl : StemTree.nil.value _ = fun _ => none)) hkey)
  obtain ⟨hstems, hvalues⟩ := hholds.stemsOf (hfull ops List.prefix_rfl) hmap
  refine ⟨tree, hrun, ⟨_, hstems⟩, fun stems h => ?_⟩
  rw [hholds.represents.root_eq, show tree.hashFunction = H from hhash]
  exact hholds.represents.atRoot.root_of_stems hvalues rfl h.nodup fun s =>
    (h.mem_iff s).trans (hstems.mem_iff s).symm

/-- A stem gets two values, the second one in another `put`. -/
theorem root_eq_specRoot_sample :
    ∃ tree, runOps 248 (createBinaryTree polynomialHash)
        [.put sampleStem [0] [some sampleValue], .put sampleStem [1] [some sampleValue]] =
          .ok tree ∧
      (∃ stems, StemsOf (mapAfter
        [.put sampleStem [0] [some sampleValue], .put sampleStem [1] [some sampleValue]]) stems) ∧
      ∀ stems, StemsOf (mapAfter
          [.put sampleStem [0] [some sampleValue], .put sampleStem [1] [some sampleValue]]) stems →
        tree.root = specRoot polynomialHash (mapAfter
          [.put sampleStem [0] [some sampleValue], .put sampleStem [1] [some sampleValue]])
          248 0 stems := by
  have hops : ∀ op ∈ [TreeOp.put sampleStem [0] [some sampleValue],
      .put sampleStem [1] [some sampleValue]], op.Valid := by
    intro op hop
    obtain rfl | rfl := List.mem_pair.mp hop
    · exact valid_put_sample rfl
    · exact ⟨rfl, rfl, (valid_put_sample (rfl : sampleStem.length = 31)).short⟩
  refine root_eq_specRoot polynomialHash _ hops ?_ le_rfl
    (noCollision_of_nodup hops (by decide +kernel))
    ⟨fun _ h => absurd h (by decide), fun _ _ => ⟨fun _ h => absurd h (by decide), fun _ _ => trivial⟩⟩
  intro op hop
  obtain rfl | rfl := List.mem_pair.mp hop
  · exact fun h => by cases List.mem_singleton.mp h
  · exact fun h => by cases List.mem_singleton.mp h

/-- A `put` that writes nothing to a fresh tree leaves a stem in it. -/
theorem not_root_eq_specRoot : ∃ ops : List TreeOp, (∀ op ∈ ops, op.Valid) ∧
    (∀ op ∈ ops, none ∉ op.values) ∧ NoCollision polynomialHash (runMessages polynomialHash ops) ∧
    StemsOf (mapAfter ops) [] ∧
    ∀ tree, runOps 248 (createBinaryTree polynomialHash) ops = .ok tree →
      tree.root ≠ specRoot polynomialHash (mapAfter ops) 248 0 [] := by
  have hops : ∀ op ∈ [TreeOp.put sampleStem [] []], op.Valid := by
    intro op hop
    rw [List.mem_singleton.mp hop]
    exact ⟨rfl, rfl, fun _ h => (List.not_mem_nil h).elim⟩
  refine ⟨_, hops, ?_, noCollision_of_nodup hops (by decide +kernel),
    ⟨List.nodup_nil, fun stem => ?_⟩, fun tree hrun hroot => ?_⟩
  · intro op hop
    rw [List.mem_singleton.mp hop]
    exact List.not_mem_nil
  · refine iff_of_false List.not_mem_nil ?_
    rintro ⟨-, i, hi⟩
    apply hi
    change (Function.update (fun _ _ => none) sampleStem (fun _ => none) :
      Bytes → UInt8 → Option Bytes) stem i = none
    rw [Function.update_apply]
    split <;> rfl
  · have hne : ((runOps 248 (createBinaryTree polynomialHash) [.put sampleStem [] []]).map
        fun tree => decide (tree.root = List.replicate 32 0)).toOption = some false := by
      decide +kernel
    rw [hrun] at hne
    exact of_decide_eq_false (Option.some.inj hne) hroot

end Puts

end EthereumJS.Binarytree
