import EthereumJS.Binarytree.Put

/-! # The tree behind the database

A `put` that leaves a value moves the tree of stems that the database holds by one stem node.
-/

namespace EthereumJS.Binarytree

open StemTree

section Distinct

variable {H : HashKeysFunction} {t : StemTree} {path path' : Bits}

/-- The hash tells the nodes of a tree apart, and the tree from an empty one. -/
structure Distinct (H : HashKeysFunction) (t : StemTree) : Prop where
  nodes : ∀ x ∈ t.nodes [], ∀ y ∈ t.nodes [], x.2.root H = y.2.root H → x.2 = y.2
  root_ne : t ≠ .nil → t.root H ≠ EMPTY_TREE_ROOT

/-- Two stems that part below a tree fix the path that it stands at. -/
theorem At.path_eq (h : t.At path) (h' : t.At path') (hinternal : t.isInternal) :
    path = path' := by
  induction t generalizing path path' with
  | nil => cases hinternal
  | stem node => cases hinternal
  | internal left right ihleft ihright =>
    obtain ⟨hleft, hright, htwo⟩ := h
    obtain ⟨hleft', hright', -⟩ := h'
    have hcancel : ∀ {bit : Bool}, path ++ [bit] = path' ++ [bit] → path = path' := fun heq =>
      List.append_cancel_right heq
    have hinner : ∀ {u : StemTree}, 2 ≤ u.stems.length → u.isInternal := by
      intro u hu
      cases u with
      | nil => exact absurd hu (by decide)
      | stem node => exact absurd hu (by simp [stems])
      | internal l r => rfl
    rcases Nat.eq_zero_or_pos left.stems.length with hzero | hpos
    · exact hcancel (ihright hright hright' (hinner (by omega)))
    rcases Nat.eq_zero_or_pos right.stems.length with hzero | hpos'
    · exact hcancel (ihleft hleft hleft' (hinner (by omega)))
    obtain ⟨node, hnode⟩ := List.exists_mem_of_length_pos hpos
    obtain ⟨other, hother⟩ := List.exists_mem_of_length_pos hpos'
    have hlen : ∀ {p q : Bits}, p ++ [false] <+: keyBits node.stem →
        p ++ [true] <+: keyBits other.stem → q <+: keyBits node.stem → q <+: keyBits other.stem →
        q.length ≤ p.length := by
      intro p q hp hp' hq hq'
      by_contra hlt
      have hle : (p ++ [false]).length ≤ q.length := by
        rw [List.length_append, List.length_singleton]
        omega
      obtain ⟨tail, htail⟩ := List.prefix_of_prefix_length_le hp hq hle
      obtain ⟨tail', htail'⟩ := List.prefix_of_prefix_length_le hp' hq'
        (by rw [List.length_append, List.length_singleton] at hle ⊢; exact hle)
      have hbits := htail.trans htail'.symm
      simp at hbits
    have hpath : path <+: keyBits node.stem :=
      (List.prefix_append _ _).trans (hleft.prefix_of_mem hnode).2
    have hpath' : path' <+: keyBits node.stem :=
      (List.prefix_append _ _).trans (hleft'.prefix_of_mem hnode).2
    have hother₁ : path <+: keyBits other.stem :=
      (List.prefix_append _ _).trans (hright.prefix_of_mem hother).2
    have hother₂ : path' <+: keyBits other.stem :=
      (List.prefix_append _ _).trans (hright'.prefix_of_mem hother).2
    have hle := hlen (hleft.prefix_of_mem hnode).2 (hright.prefix_of_mem hother).2 hpath' hother₂
    have hle' := hlen (hleft'.prefix_of_mem hnode).2 (hright'.prefix_of_mem hother).2 hpath hother₁
    exact (List.prefix_of_prefix_length_le hpath hpath' hle').eq_of_length (by omega)

theorem ne_nil_of_mem_nodes {x : Bits × StemTree} (hx : x ∈ t.nodes path) : x.2 ≠ .nil := by
  induction t generalizing path with
  | nil => cases hx
  | stem node =>
    rw [List.mem_singleton.mp hx]
    simp
  | internal left right ihleft ihright =>
    rcases List.mem_cons.mp hx with rfl | hx
    · simp
    · rcases List.mem_append.mp hx with hleft | hright
      · exact ihleft hleft
      · exact ihright hright

/-- Nodes with one hash are the same node. -/
theorem Distinct.nodeOf_eq (hd : Distinct H t) (hAt : t.At []) {x y : Bits × StemTree}
    (hx : x ∈ t.nodes []) (hy : y ∈ t.nodes []) (h : x.2.root H = y.2.root H) :
    x.2.nodeOf H x.1 = y.2.nodeOf H y.1 := by
  have heq := hd.nodes x hx y hy h
  have hAtx := hAt.of_mem_nodes hx
  have hAty := hAt.of_mem_nodes hy
  obtain ⟨p, u⟩ := x
  obtain ⟨q, v⟩ := y
  cases heq
  cases hu : u with
  | nil => rfl
  | stem node => rfl
  | internal left right =>
    have hinternal : u.isInternal := by
      rw [hu]
      rfl
    rw [At.path_eq hAtx hAty hinternal]

end Distinct

section Save

variable {tree : BinaryTree} {t : StemTree} {stemNode : StemBinaryNode}

/-- What stands in the database after nodes are saved. -/
theorem saveStack_db (tree : BinaryTree) (puts : List (Bytes × BinaryNode)) (key : Bytes) :
    (∃ p ∈ puts, p.1 = key ∧
        (tree.saveStack (puts.map fun p => (p.1, some p.2))).db key = some p.2.serialize) ∨
      (∀ p ∈ puts, p.1 ≠ key) ∧
        (tree.saveStack (puts.map fun p => (p.1, some p.2))).db key = tree.db key := by
  have hbatch : ∀ (ps : List (Bytes × BinaryNode)) (db : MapDB),
      (∃ p ∈ ps, p.1 = key ∧
          db.batch (ps.map fun p => BatchDBOp.put p.1 p.2.serialize) key = some p.2.serialize) ∨
        (∀ p ∈ ps, p.1 ≠ key) ∧
          db.batch (ps.map fun p => BatchDBOp.put p.1 p.2.serialize) key = db key := by
    intro ps
    induction ps with
    | nil => exact fun db => .inr ⟨by simp, rfl⟩
    | cons p ps ih =>
      intro db
      rcases ih (db.execute (.put p.1 p.2.serialize)) with ⟨q, hq, hkey, hread⟩ | ⟨hnone, hread⟩
      · exact .inl ⟨q, List.mem_cons_of_mem _ hq, hkey, hread⟩
      · by_cases hp : p.1 = key
        · refine .inl ⟨p, List.mem_cons_self, hp, hread.trans ?_⟩
          rw [MapDB.execute, hp, Function.update_self]
        · refine .inr ⟨fun q hq => ?_, hread.trans ?_⟩
          · rcases List.mem_cons.mp hq with rfl | hq
            · exact hp
            · exact hnone q hq
          · rw [MapDB.execute, Function.update_of_ne (Ne.symm hp)]
  have hops : ((puts.map fun p => (p.1, some p.2)).reverse.map BinaryTree.stackOp) =
      puts.reverse.map fun p => BatchDBOp.put p.1 p.2.serialize := by
    rw [← List.map_reverse, List.map_map]
    rfl
  have hsaved := hbatch puts.reverse tree.db
  unfold BinaryTree.saveStack
  rw [hops]
  simpa only [List.mem_reverse] using hsaved

/-- The subtrees beside the path of a stem stay in the database. -/
theorem stored_around {H : HashKeysFunction} {db : MapDB} (hnode : stemNode.Valid) (hAt : t.At [])
    (hdb : Stored H db [] t) {x : Bits × StemTree}
    (hx : x ∈ around (keyBits stemNode.stem) 0 (t.siblings stemNode.stem)) :
    db (x.2.root H) = some (x.2.nodeOf H x.1).serialize := by
  have hbits := length_bits hnode.1
  have hplug := plug_descend (keyBits stemNode.stem) t []
  unfold StemTree.siblings at hx
  generalize descend (keyBits stemNode.stem) t [] = found at *
  obtain ⟨sibs, u⟩ := found
  change plug (keyBits stemNode.stem) 0 sibs u = t at hplug
  subst hplug
  have hAt' : (plug (keyBits stemNode.stem) 0 sibs u).At ((keyBits stemNode.stem).take 0) := hAt
  have hdepth : 0 + sibs.length ≤ (keyBits stemNode.stem).length := by
    cases sibs with
    | nil => exact Nat.zero_le _
    | cons sib sibs => exact hbits ▸ (At.of_plug hAt' hbits).2 (by simp)
  have haround : ∀ x ∈ around (keyBits stemNode.stem) 0 sibs,
      db (x.2.root H) = some (x.2.nodeOf H x.1).serialize := fun x hx =>
    hdb x ((mem_nodes_plug hdepth).mpr (.inr (.inr hx)))
  have hnils : ∀ n, around (keyBits stemNode.stem) 0 (List.replicate n .nil ++ sibs) =
      around (keyBits stemNode.stem) 0 sibs := by
    intro n
    induction n with
    | zero => rfl
    | succ n ih =>
      rw [List.replicate_succ, List.cons_append, around, ih]
      rfl
  cases u with
  | nil => exact haround x hx
  | internal left right => exact haround x hx
  | stem other =>
    dsimp only at hx
    split at hx
    · exact haround x hx
    · rw [around, hnils] at hx
      rcases List.mem_append.mp hx with hother | hx
      · rw [List.mem_singleton.mp hother]
        exact hdb ((keyBits stemNode.stem).take (0 + sibs.length), .stem other)
          ((mem_nodes_plug hdepth).mpr (.inl (mem_nodes_self _ (by simp))))
      · exact haround x hx

/-- Writing a stem and the nodes above it gives the tree with the stem in its place. -/
theorem Represents.saved (h : Represents tree t) (hnode : stemNode.Valid)
    (hd : Distinct tree.hashFunction (t.set stemNode))
    {puts : List (Bytes × Option BinaryNode)} (hputs : Writes tree.hashFunction stemNode t puts) :
    Represents (Binarytree.saved tree (t.set stemNode) puts) (t.set stemNode) := by
  have hbits := length_bits hnode.1
  have hAt := at_set hnode h.atRoot
  refine ⟨rfl, hAt, fun x hx => ?_, hd.root_ne⟩
  have hdepth : 0 + (t.siblings stemNode.stem).length ≤ (keyBits stemNode.stem).length := by
    rcases List.eq_nil_or_concat (t.siblings stemNode.stem) with hnil | ⟨_, _, hcons⟩
    · rw [hnil]
      exact Nat.zero_le _
    · refine hbits ▸ (At.of_plug (show (plug _ 0 (t.siblings stemNode.stem) _).At
        ((keyBits stemNode.stem).take 0) from hAt) hbits).2 ?_
      rw [hcons]
      simp
  -- every written entry is a node of the new tree
  have hwritten : ∀ y ∈ puts, ∃ z ∈ (t.set stemNode).nodes [], y = entry tree.hashFunction z := by
    intro y hy
    rcases (hputs y).mp hy with rfl | hy
    · exact ⟨(_, .stem stemNode), (mem_nodes_plug hdepth).mpr
        (.inl (mem_nodes_self _ (by simp))), rfl⟩
    · obtain ⟨z, hz, rfl⟩ := List.mem_map.mp hy
      exact ⟨z, (mem_nodes_plug hdepth).mpr (.inr (.inl hz)), rfl⟩
  obtain ⟨nodes, hnodes⟩ : ∃ nodes : List (Bytes × BinaryNode),
      puts = nodes.map fun p => (p.1, some p.2) := by
    refine ⟨puts.map fun p => (p.1, p.2.getD (.internal .create)), ?_⟩
    rw [List.map_map]
    refine (List.map_id puts).symm.trans (List.map_congr_left fun y hy => ?_)
    obtain ⟨z, -, rfl⟩ := hwritten y hy
    rfl
  have hread := saveStack_db { tree with root := (t.set stemNode).root tree.hashFunction } nodes
    (x.2.root tree.hashFunction)
  rw [← hnodes] at hread
  rcases hread with ⟨p, hp, hkey, hread⟩ | ⟨hnone, hread⟩
  · obtain ⟨z, hz, heq⟩ := hwritten (p.1, some p.2) (hnodes ▸ List.mem_map_of_mem hp)
    obtain ⟨hhash, hnodeOf⟩ := Prod.mk.inj heq
    refine hread.trans ?_
    change _ = some (x.2.nodeOf tree.hashFunction x.1).serialize
    rw [Option.some.inj hnodeOf, hd.nodeOf_eq hAt hx hz (hkey ▸ hhash)]
  · refine hread.trans ?_
    have hunwritten : entry tree.hashFunction x ∉ puts := by
      intro hmem
      rw [hnodes] at hmem
      obtain ⟨p, hp, heq⟩ := List.mem_map.mp hmem
      exact hnone p hp (congrArg Prod.fst heq)
    rcases (mem_nodes_plug hdepth).mp hx with hself | habove | haround
    · rw [List.mem_singleton.mp hself] at hunwritten
      exact absurd ((hputs _).mpr (.inl rfl)) hunwritten
    · exact absurd ((hputs _).mpr (.inr (List.mem_map_of_mem habove))) hunwritten
    · exact stored_around hnode h.atRoot h.stored haround

end Save

section Put

variable {tree : BinaryTree} {t : StemTree} {key : Bytes} {suffixes : List UInt8}
  {values : List (Option Bytes)} {fuel : Nat}

theorem setValues_valid (entries : List (UInt8 × Option Bytes)) {node : StemBinaryNode}
    (h : node.Valid) (hvalues : ∀ e ∈ entries, ∀ value, e.2 = some value → value.length = 32) :
    (entries.foldl (fun node e => node.setValue e.1 e.2) node).Valid ∧
      (entries.foldl (fun node e => node.setValue e.1 e.2) node).stem = node.stem := by
  induction entries generalizing node with
  | nil => exact ⟨h, rfl⟩
  | cons e entries ih =>
    obtain ⟨hstem, hlen, h32⟩ := h
    have hnext : (node.setValue e.1 e.2).Valid := by
      refine ⟨hstem, (List.length_set).trans hlen, fun value hvalue => ?_⟩
      rcases List.mem_or_eq_of_mem_set hvalue with hold | hnew
      · exact h32 value hold
      · exact hvalues e List.mem_cons_self value hnew.symm
    exact ih hnext fun e' he' => hvalues e' (List.mem_cons_of_mem _ he')

/-- The stem node that `put` writes. -/
def newNode (t : StemTree) (key : Bytes) (suffixes : List UInt8) (values : List (Option Bytes)) :
    StemBinaryNode :=
  BinaryTree.setValues ((t.find key).getD (.create key)) suffixes values

theorem create_valid (hkey : key.length = 31) : (StemBinaryNode.create key).Valid := by
  refine ⟨hkey, List.length_replicate, fun value hvalue => ?_⟩
  cases List.eq_of_mem_replicate hvalue

theorem newNode_valid (hAt : t.At []) (hkey : key.length = 31) (suffixes : List UInt8)
    (hvalues : ∀ value, some value ∈ values → value.length = 32) :
    (newNode t key suffixes values).Valid ∧ (newNode t key suffixes values).stem = key := by
  have hold : ((t.find key).getD (.create key)).Valid ∧
      ((t.find key).getD (.create key)).stem = key := by
    cases hfind : t.find key with
    | none => exact ⟨create_valid hkey, rfl⟩
    | some node =>
      obtain ⟨hmem, hstem⟩ := (find_eq_some_iff hkey hAt).mp hfind
      exact ⟨(hAt.prefix_of_mem hmem).1, hstem⟩
  obtain ⟨hvalid, hstem⟩ := setValues_valid (suffixes.zip values) hold.1 (by
    rintro ⟨i, value⟩ he value' rfl
    exact hvalues value' (List.of_mem_zip he).2)
  exact ⟨hvalid, hstem.trans hold.2⟩

theorem set_nil (stemNode : StemBinaryNode) : StemTree.nil.set stemNode = .stem stemNode := rfl

/-- A fresh tree becomes a stem. -/
theorem Represents.createInitialNode (h : Represents tree .nil) (hkey : key.length = 31)
    (suffixes : List UInt8) (hvalues : ∀ value, some value ∈ values → value.length = 32) :
    ∃ tree', tree.createInitialNode key suffixes values = .ok tree' ∧
      tree'.hashFunction = tree.hashFunction ∧
      tree'.root = stemHash tree.hashFunction (newNode .nil key suffixes values) ∧
      (stemHash tree.hashFunction (newNode .nil key suffixes values) ≠ EMPTY_TREE_ROOT →
        Represents tree' (.stem (newNode .nil key suffixes values))) := by
  obtain ⟨hvalid, -⟩ := newNode_valid h.atRoot hkey suffixes hvalues
  unfold BinaryTree.createInitialNode
  change ∃ tree', (merkelize _ (some (.stem (newNode .nil key suffixes values))) >>= _) = _ ∧ _
  rw [merkelize_stem _ hvalid]
  refine ⟨_, rfl, rfl, rfl, fun hne => ⟨rfl, ⟨hvalid, List.nil_prefix⟩, fun x hx => ?_, fun _ => hne⟩⟩
  rw [List.mem_singleton.mp hx]
  exact Function.update_self _ _ _

/-- The checks of `put` on its arguments. -/
theorem put_of_valid (tree : BinaryTree) (fuel : Nat) (hkey : key.length = 31)
    (hlen : values.length = suffixes.length) :
    tree.put fuel key suffixes values =
      if tree.root = EMPTY_TREE_ROOT then tree.createInitialNode key suffixes values
      else tree.findPath fuel key >>= tree.putFound key suffixes values := by
  unfold BinaryTree.put
  rw [if_neg (by omega), if_neg (by omega), if_neg (by omega)]

/-- What `put` does on a tree that is not empty. -/
theorem Represents.put_eq (h : Represents tree t) (hnil : t ≠ .nil) (hkey : key.length = 31)
    (hfuel : 248 ≤ fuel) (hlen : values.length = suffixes.length)
    (hvalues : ∀ value, some value ∈ values → value.length = 32) :
    tree.put fuel key suffixes values =
      if (newNode t key suffixes values).values.all Option.isNone then
        match t.find key with
        | none => .ok tree
        | some _ => tree.putNode (newNode t key suffixes values)
            (fullPath tree.hashFunction key t).stack
            [(stemHash tree.hashFunction (newNode t key suffixes values), none)]
      else tree.putNode (newNode t key suffixes values)
        (fullPath tree.hashFunction key t).stack
        [entry tree.hashFunction ([], .stem (newNode t key suffixes values))] := by
  obtain ⟨hvalid, -⟩ := newNode_valid h.atRoot hkey suffixes hvalues
  have hstack : (fullPath tree.hashFunction key t).stack.isEmpty = false := by
    cases t with
    | nil => exact absurd rfl hnil
    | stem node => rfl
    | internal left right =>
      have hne := descend_ne_nil (keyBits key) (.internal left right) [] (.inl rfl)
      unfold fullPath
      dsimp only
      generalize descend (keyBits key) (.internal left right) [] = found at *
      obtain ⟨sibs, u⟩ := found
      cases sibs with
      | nil => exact absurd rfl hne
      | cons sib sibs =>
        unfold pathOf
        dsimp only
        cases u with
        | nil => rw [stackOf_cons]; rfl
        | internal l r => rw [stackOf_cons]; rfl
        | stem node =>
          dsimp only
          split
          · rw [stackOf_cons]; rfl
          · rfl
  have hstem : (fullPath tree.hashFunction key t).stemNode key =
      (t.find key).getD (.create key) := by
    rw [Path.stemNode, fullPath_node]
    cases hfind : t.find key with
    | none => rfl
    | some node => exact if_pos ((find_eq_some_iff hkey h.atRoot).mp hfind).2
  rw [put_of_valid tree fuel hkey hlen, if_neg (h.root_eq ▸ h.nonempty hnil),
    h.findPath hkey hfuel]
  change tree.putFound key suffixes values (fullPath tree.hashFunction key t) = _
  unfold BinaryTree.putFound
  rw [if_neg (by rw [hstack]; decide), hstem,
    show BinaryTree.setValues ((t.find key).getD (.create key)) suffixes values =
      newNode t key suffixes values from rfl, fullPath_node]
  generalize newNode t key suffixes values = node at *
  dsimp only
  rw [merkelize_stem _ hvalid]
  split
  · cases t.find key <;> rfl
  · rfl

/-- A `put` that leaves a value. -/
theorem Represents.put (h : Represents tree t) (hkey : key.length = 31) (hfuel : 248 ≤ fuel)
    (hlen : values.length = suffixes.length)
    (hvalues : ∀ value, some value ∈ values → value.length = 32)
    (hsome : t ≠ .nil → ¬ (newNode t key suffixes values).values.all Option.isNone)
    (hd : Distinct tree.hashFunction (t.set (newNode t key suffixes values))) :
    ∃ tree', tree.put fuel key suffixes values = .ok tree' ∧
      tree'.hashFunction = tree.hashFunction ∧
      Represents tree' (t.set (newNode t key suffixes values)) := by
  obtain ⟨hvalid, hstem⟩ := newNode_valid h.atRoot hkey suffixes hvalues
  by_cases hnil : t = .nil
  · subst hnil
    obtain ⟨tree', hok, hhash, -, hrep⟩ :=
      h.createInitialNode hkey suffixes hvalues
    refine ⟨tree', ?_, hhash, hrep (hd.root_ne (by simp [set_nil]))⟩
    rw [put_of_valid tree fuel hkey hlen,
      if_pos (show tree.root = EMPTY_TREE_ROOT from h.root_eq), hok]
  · obtain ⟨puts, hok, hputs⟩ := putNode_eq tree hvalid h.atRoot hnil
    rw [h.put_eq hnil hkey hfuel hlen hvalues, if_neg (hsome hnil)]
    rw [hstem] at hok
    exact ⟨_, hok, rfl, h.saved hvalid hd hputs⟩

end Put

end EthereumJS.Binarytree
