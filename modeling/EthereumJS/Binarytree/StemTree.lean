import EthereumJS.Binarytree.Tree

/-! # Trees of stems

The tree that the database of a `BinaryTree` holds: its root, its nodes with their paths, and
the context of a path in it.
-/

namespace EthereumJS.Binarytree

inductive StemTree
  | nil
  | stem (node : StemBinaryNode)
  | internal (left right : StemTree)
  deriving DecidableEq

section Root

variable (H : HashKeysFunction)

def digest (msg : Bytes) : Bytes :=
  if msg.length = 64 ∧ msg.all (· = 0) then List.replicate 32 0 else H.hash msg

def valueHash : Option Bytes → Bytes
  | none => List.replicate 32 0
  | some value => digest H value

/-- The root over `2 ^ k` hashes. -/
def merkleRoot : Nat → List Bytes → Bytes
  | 0, hashes => hashes.headD []
  | k + 1, hashes =>
    digest H (merkleRoot k (hashes.take (2 ^ k)) ++ merkleRoot k (hashes.drop (2 ^ k)))

def stemHash (node : StemBinaryNode) : Bytes :=
  digest H (node.stem ++ [0] ++ merkleRoot H 8 (node.values.map (valueHash H)))

namespace StemTree

def root : StemTree → Bytes
  | nil => List.replicate 32 0
  | stem node => stemHash H node
  | internal left right => digest H (left.root ++ right.root)

def reference (path : Bits) : StemTree → Option ChildBinaryNode
  | nil => none
  | stem node => some ⟨stemHash H node, keyBits node.stem⟩
  | internal left right => some ⟨(internal left right).root H, path⟩

/-- The node of a tree that is not empty. -/
def nodeOf (path : Bits) : StemTree → BinaryNode
  | nil => .internal .create
  | stem node => .stem node
  | internal left right =>
    .internal ⟨left.reference H (path ++ [false]), right.reference H (path ++ [true])⟩

end StemTree

end Root

namespace StemTree

def stems : StemTree → List StemBinaryNode
  | nil => []
  | stem node => [node]
  | internal left right => left.stems ++ right.stems

def isInternal : StemTree → Bool
  | internal _ _ => true
  | _ => false

/-- The subtrees that are not empty, with their paths. -/
def nodes (path : Bits) : StemTree → List (Bits × StemTree)
  | nil => []
  | stem node => [(path, stem node)]
  | internal left right =>
    (path, internal left right) ::
      (left.nodes (path ++ [false]) ++ right.nodes (path ++ [true]))

end StemTree

def StemBinaryNode.Valid (node : StemBinaryNode) : Prop := (BinaryNode.stem node).Valid

namespace StemTree

/-- A tree that stands at a path: every stem extends its position, and an internal node has at
least two stems below it. -/
def At : Bits → StemTree → Prop
  | _, nil => True
  | path, stem node => node.Valid ∧ path <+: keyBits node.stem
  | path, internal left right =>
    left.At (path ++ [false]) ∧ right.At (path ++ [true]) ∧
      2 ≤ left.stems.length + right.stems.length

def branch (bit : Bool) (child sibling : StemTree) : StemTree :=
  if bit then internal sibling child else internal child sibling

variable (bits : Bits)

/-- A tree below some siblings, the lowest one first; the highest one stands at `base`. -/
def plug (base : Nat) : List StemTree → StemTree → StemTree
  | [], t => t
  | sib :: sibs, t => plug base sibs (branch (bits.getD (base + sibs.length) false) t sib)

/-- The trees above a tree, with their paths. -/
def above (base : Nat) : List StemTree → StemTree → List (Bits × StemTree)
  | [], _ => []
  | sib :: sibs, t =>
    let parent := branch (bits.getD (base + sibs.length) false) t sib
    (bits.take (base + sibs.length), parent) :: above base sibs parent

/-- The nodes of the siblings. -/
def around (base : Nat) : List StemTree → List (Bits × StemTree)
  | [] => []
  | sib :: sibs =>
    sib.nodes (bits.take (base + sibs.length) ++ [!bits.getD (base + sibs.length) false]) ++
      around base sibs

/-- The siblings along a key and the subtree where its path ends. -/
def descend : StemTree → List StemTree → List StemTree × StemTree
  | internal left right, sibs =>
    if bits.getD sibs.length false then descend right (left :: sibs)
    else descend left (right :: sibs)
  | t, sibs => (sibs, t)

end StemTree

section Lengths

variable (H : HashKeysFunction)

@[simp] theorem length_digest (msg : Bytes) : (digest H msg).length = 32 := by
  unfold digest
  split
  · simp
  · exact H.length_hash msg

@[simp] theorem length_valueHash (value : Option Bytes) : (valueHash H value).length = 32 := by
  cases value with
  | none => simp [valueHash]
  | some value => exact length_digest H value

@[simp] theorem StemTree.length_root (t : StemTree) : (t.root H).length = 32 := by
  cases t with
  | nil => simp [StemTree.root]
  | stem node => exact length_digest H _
  | internal left right => exact length_digest H _

theorem hash_some {msg : Bytes} (h : msg.length = 32 ∨ msg.length = 64) :
    hash H (some msg) = .ok (digest H msg) := by
  unfold digest
  change (if _ then _ else _) = _
  split
  · rfl
  · rw [if_neg (by omega)]

end Lengths

section Merkle

variable (H : HashKeysFunction)

/-- A layer of hashes above another one. -/
def layerAbove : List Bytes → List Bytes
  | a :: b :: layer => digest H (a ++ b) :: layerAbove layer
  | _ => []

theorem combineLayer_eq {layer : List Bytes} (n : Nat) (hlen : layer.length = 2 * n)
    (h32 : ∀ h ∈ layer, h.length = 32) :
    combineLayer H layer = .ok (layerAbove H layer) ∧ (layerAbove H layer).length = n ∧
      ∀ h ∈ layerAbove H layer, h.length = 32 := by
  induction n generalizing layer with
  | zero =>
    rw [List.eq_nil_of_length_eq_zero hlen]
    exact ⟨rfl, rfl, by simp [layerAbove]⟩
  | succ n ih =>
    match layer, hlen with
    | a :: b :: layer, hlen =>
      have hpair : (a ++ b).length = 64 := by
        rw [List.length_append, h32 a (by simp), h32 b (by simp)]
      obtain ⟨hrest, hcount, hlengths⟩ := ih
        (show layer.length = 2 * n by simp only [List.length_cons] at hlen; omega)
        fun h hh => h32 h (List.mem_cons_of_mem _ (List.mem_cons_of_mem _ hh))
      refine ⟨?_, congrArg Nat.succ hcount, ?_⟩
      · rw [combineLayer, hash_some H (.inr hpair), hrest]
        rfl
      · intro h hh
        rcases List.mem_cons.mp hh with rfl | hh
        · exact length_digest H _
        · exact hlengths h hh

theorem take_layerAbove (n : Nat) (layer : List Bytes) :
    (layerAbove H layer).take n = layerAbove H (layer.take (2 * n)) := by
  induction n generalizing layer with
  | zero => rfl
  | succ n ih =>
    match layer with
    | [] => rfl
    | [_] => simp [layerAbove, Nat.mul_succ]
    | a :: b :: layer => simp [layerAbove, Nat.mul_succ, ih]

theorem drop_layerAbove (n : Nat) (layer : List Bytes) :
    (layerAbove H layer).drop n = layerAbove H (layer.drop (2 * n)) := by
  induction n generalizing layer with
  | zero => rfl
  | succ n ih =>
    match layer with
    | [] => rfl
    | [_] => simp [layerAbove, Nat.mul_succ]
    | a :: b :: layer => simp [layerAbove, Nat.mul_succ, ih]

/-- Combining pairs first gives the same root as splitting in halves. -/
theorem merkleRoot_layerAbove (k : Nat) (layer : List Bytes) (hlen : layer.length = 2 ^ (k + 1)) :
    merkleRoot H k (layerAbove H layer) = merkleRoot H (k + 1) layer := by
  induction k generalizing layer with
  | zero =>
    match layer, hlen with
    | [a, b], _ => rfl
  | succ k ih =>
    have hdouble : 2 ^ (k + 1) = 2 * 2 ^ k := by rw [Nat.pow_succ, Nat.mul_comm]
    rw [merkleRoot, merkleRoot, take_layerAbove, drop_layerAbove, ← hdouble, ih, ih]
    · rw [List.length_drop, hlen, Nat.pow_succ 2 (k + 1)]
      omega
    · rw [List.length_take, hlen, Nat.pow_succ 2 (k + 1)]
      omega

theorem combineLayers_eq {fuel k : Nat} (hfuel : k ≤ fuel) {layer : List Bytes}
    (hlen : layer.length = 2 ^ k) (h32 : ∀ h ∈ layer, h.length = 32) :
    combineLayers H fuel layer = .ok [merkleRoot H k layer] := by
  induction k generalizing fuel layer with
  | zero =>
    match layer, hlen with
    | [a], _ => cases fuel <;> rfl
  | succ k ih =>
    obtain ⟨fuel, rfl⟩ : ∃ n, fuel = n + 1 := ⟨fuel - 1, by omega⟩
    have hpos : 0 < 2 ^ k := Nat.two_pow_pos k
    obtain ⟨habove, hcount, hlengths⟩ := combineLayer_eq H (2 ^ k)
      (show layer.length = 2 * 2 ^ k by rw [hlen, Nat.pow_succ, Nat.mul_comm]) h32
    rw [combineLayers, if_pos (by rw [hlen, Nat.pow_succ]; omega), habove,
      ← merkleRoot_layerAbove H k layer hlen]
    exact ih (by omega) hcount hlengths

theorem length_merkleRoot (k : Nat) {layer : List Bytes} (hlen : layer.length = 2 ^ k)
    (h32 : ∀ h ∈ layer, h.length = 32) : (merkleRoot H k layer).length = 32 := by
  cases k with
  | zero =>
    match layer, hlen with
    | [a], _ => exact h32 a (by simp)
  | succ k => exact length_digest H _

theorem mapM_hash {values : List (Option Bytes)}
    (h : ∀ value, some value ∈ values → value.length = 32) :
    values.mapM (hash H) = .ok (values.map (valueHash H)) := by
  apply mapM_eq_ok
  intro value hvalue
  cases value with
  | none => rfl
  | some value => exact hash_some H (.inl (h value hvalue))

end Merkle

section Nodes

variable (H : HashKeysFunction)

theorem merkelize_stem {node : StemBinaryNode} (h : node.Valid) :
    merkelize H (some (.stem node)) = .ok (stemHash H node) := by
  obtain ⟨hstem, hlen, hvalues⟩ := h
  have h32 : ∀ h ∈ node.values.map (valueHash H), h.length = 32 := by
    intro h hh
    obtain ⟨value, -, rfl⟩ := List.mem_map.mp hh
    exact length_valueHash H value
  have h256 : (node.values.map (valueHash H)).length = 2 ^ 8 := by
    rw [List.length_map, hlen]
    rfl
  have hpad : setLengthRight node.stem 32 = .ok (node.stem ++ [0]) := by
    rw [setLengthRight, if_neg (by omega), hstem]
    rfl
  have hmsg : (node.stem ++ [0] ++ merkleRoot H 8 (node.values.map (valueHash H))).length = 64 := by
    rw [List.length_append, List.length_append, hstem, length_merkleRoot H 8 h256 h32]
    rfl
  change (node.values.mapM (hash H) >>= _) = _
  rw [mapM_hash H hvalues]
  change (combineLayers H (node.values.map (valueHash H)).length _ >>= _) = _
  rw [combineLayers_eq H (by rw [h256]; decide) h256 h32]
  change (setLengthRight node.stem 32 >>= _) = _
  rw [hpad]
  exact hash_some H (.inr hmsg)

theorem childHash_reference (path : Bits) (t : StemTree) :
    childHash (t.reference H path) = t.root H := by
  cases t <;> rfl

theorem merkelize_nodeOf {path : Bits} {t : StemTree} (h : t.At path) :
    merkelize H (some (t.nodeOf H path)) = .ok (t.root H) := by
  cases t with
  | nil => rfl
  | stem node => exact merkelize_stem H h.1
  | internal left right =>
    rw [StemTree.nodeOf, merkelize, childHash_reference, childHash_reference]
    exact hash_some H (.inr (by simp))

namespace StemTree

variable {bits : Bits} {path : Bits} {t u sib : StemTree} {sibs : List StemTree}

theorem At.prefix_of_mem (h : t.At path) {node : StemBinaryNode} (hmem : node ∈ t.stems) :
    node.Valid ∧ path <+: keyBits node.stem := by
  induction t generalizing path with
  | nil => cases hmem
  | stem node' =>
    rw [List.mem_singleton.mp hmem]
    exact h
  | internal left right ihleft ihright =>
    rcases List.mem_append.mp hmem with hleft | hright
    · obtain ⟨hvalid, hpre⟩ := ihleft h.1 hleft
      exact ⟨hvalid, (List.prefix_append _ _).trans hpre⟩
    · obtain ⟨hvalid, hpre⟩ := ihright h.2.1 hright
      exact ⟨hvalid, (List.prefix_append _ _).trans hpre⟩

theorem At.length_lt (h : t.At path) (hinternal : t.isInternal) : path.length < 248 := by
  cases t with
  | nil => cases hinternal
  | stem node => cases hinternal
  | internal left right =>
    have hstem : ∃ (bit : Bool) (node : StemBinaryNode),
        node.Valid ∧ path ++ [bit] <+: keyBits node.stem := by
      by_cases hleft : left.stems = []
      · have hright : 0 < right.stems.length := by
          have htwo := h.2.2
          rw [hleft, List.length_nil] at htwo
          omega
        obtain ⟨node, hnode⟩ := List.exists_mem_of_length_pos hright
        exact ⟨true, node, h.2.1.prefix_of_mem hnode⟩
      · obtain ⟨node, hnode⟩ := List.exists_mem_of_ne_nil _ hleft
        exact ⟨false, node, h.1.prefix_of_mem hnode⟩
    obtain ⟨bit, node, hvalid, hpre⟩ := hstem
    have hlen := hpre.length_le
    rw [length_keyBits, hvalid.1, List.length_append, List.length_singleton] at hlen
    omega

/-- Every node stands at its path. -/
theorem At.of_mem_nodes (h : t.At path) {x : Bits × StemTree} (hx : x ∈ t.nodes path) :
    x.2.At x.1 := by
  induction t generalizing path with
  | nil => cases hx
  | stem node =>
    rw [List.mem_singleton.mp hx]
    exact h
  | internal left right ihleft ihright =>
    rcases List.mem_cons.mp hx with rfl | hx
    · exact h
    · rcases List.mem_append.mp hx with hleft | hright
      · exact ihleft h.1 hleft
      · exact ihright h.2.1 hright

theorem nodeOf_valid (h : t.At path) : (t.nodeOf H path).Valid := by
  cases t with
  | nil =>
    rintro child (hchild | hchild)
    · cases hchild
    · cases hchild
  | stem node => exact h.1
  | internal left right =>
    have hlt := h.length_lt rfl
    have hchild : ∀ {t : StemTree} {bit : Bool} {child : ChildBinaryNode}, t.At (path ++ [bit]) →
        some child = t.reference H (path ++ [bit]) → child.Valid := by
      intro t bit child ht heq
      cases t with
      | nil => cases heq
      | stem node =>
        cases heq
        refine ⟨length_digest H _, ?_⟩
        rw [length_keyBits, ht.1.1]
        decide
      | internal left right =>
        cases heq
        refine ⟨length_digest H _, ?_⟩
        rw [List.length_append, List.length_singleton]
        omega
    rintro child (heq | heq)
    · exact hchild h.1 heq
    · exact hchild h.2.1 heq

theorem stems_branch_length (bit : Bool) (t sib : StemTree) :
    (branch bit t sib).stems.length = t.stems.length + sib.stems.length := by
  cases bit
  · exact List.length_append
  · rw [Nat.add_comm]
    exact List.length_append

theorem at_branch_iff {bit : Bool} : (branch bit t sib).At path ↔
    t.At (path ++ [bit]) ∧ sib.At (path ++ [!bit]) ∧ 2 ≤ t.stems.length + sib.stems.length := by
  cases bit
  · exact Iff.rfl
  · change sib.At _ ∧ t.At _ ∧ _ ↔ _
    rw [Nat.add_comm]
    exact ⟨fun h => ⟨h.2.1, h.1, h.2.2⟩, fun h => ⟨h.2.1, h.1, h.2.2⟩⟩

theorem isInternal_branch (bit : Bool) (t sib : StemTree) : (branch bit t sib).isInternal := by
  cases bit <;> rfl

theorem mem_nodes_branch {bit : Bool} {x : Bits × StemTree} :
    x ∈ (branch bit t sib).nodes path ↔ x = (path, branch bit t sib) ∨
      x ∈ t.nodes (path ++ [bit]) ∨ x ∈ sib.nodes (path ++ [!bit]) := by
  cases bit
  · simp [branch, nodes]
  · simp [branch, nodes, or_comm]

theorem nodeOf_branch (path : Bits) (bit : Bool) (t sib : StemTree) :
    (branch bit t sib).nodeOf H path = .internal
      ((InternalBinaryNode.create.setChild bit (t.reference H (path ++ [bit]))).setChild (!bit)
        (sib.reference H (path ++ [!bit]))) := by
  cases bit <;> rfl

theorem take_append_bit {n : Nat} (h : n < bits.length) :
    bits.take n ++ [bits.getD n false] = bits.take (n + 1) := by
  rw [List.take_add_one, List.getD_eq_getElem?_getD]
  simp [h]

/-- The frames are not deeper than the bits. -/
theorem At.of_plug {base : Nat} (h : (plug bits base sibs t).At (bits.take base))
    (hbits : bits.length = 248) :
    t.At (bits.take (base + sibs.length)) ∧ (sibs ≠ [] → base + sibs.length ≤ 248) := by
  induction sibs generalizing t with
  | nil => exact ⟨h, fun hne => absurd rfl hne⟩
  | cons sib sibs ih =>
    have hbranch := (ih h).1
    have hlt := hbranch.length_lt (isInternal_branch _ _ _)
    rw [List.length_take, hbits] at hlt
    have ht := (at_branch_iff.mp hbranch).1
    rw [take_append_bit (by omega)] at ht
    exact ⟨ht, fun _ => by rw [List.length_cons]; omega⟩

/-- A tree is replaced by one with as many stems at least. -/
theorem At.plug_of_le {base : Nat} (h : (plug bits base sibs t).At (bits.take base))
    (hbits : bits.length = 248) (hu : u.At (bits.take (base + sibs.length)))
    (hle : t.stems.length ≤ u.stems.length) : (plug bits base sibs u).At (bits.take base) := by
  induction sibs generalizing t u with
  | nil => exact hu
  | cons sib sibs ih =>
    have hbranch := (At.of_plug (show (plug bits base sibs _).At _ from h) hbits).1
    have hlt := hbranch.length_lt (isInternal_branch _ _ _)
    rw [List.length_take, hbits] at hlt
    obtain ⟨-, hsib, htwo⟩ := at_branch_iff.mp hbranch
    refine ih h (at_branch_iff.mpr ⟨?_, hsib, by omega⟩) ?_
    · rw [take_append_bit (by omega)]
      exact hu
    · rw [stems_branch_length, stems_branch_length]
      omega

theorem mem_nodes_plug {base : Nat} {x : Bits × StemTree} (hbits : base + sibs.length ≤ bits.length) :
    x ∈ (plug bits base sibs t).nodes (bits.take base) ↔
      x ∈ t.nodes (bits.take (base + sibs.length)) ∨ x ∈ above bits base sibs t ∨
        x ∈ around bits base sibs := by
  induction sibs generalizing t with
  | nil => simp [plug, above, around]
  | cons sib sibs ih =>
    rw [List.length_cons] at hbits
    rw [plug, ih (by omega), mem_nodes_branch, take_append_bit (by omega)]
    simp only [above, around, List.mem_cons, List.mem_append, List.length_cons, Nat.add_assoc]
    simp only [or_assoc, or_comm, or_left_comm]

theorem plug_descend (bits : Bits) (t : StemTree) (sibs : List StemTree) :
    plug bits 0 (descend bits t sibs).1 (descend bits t sibs).2 = plug bits 0 sibs t := by
  induction t generalizing sibs with
  | nil => rfl
  | stem node => rfl
  | internal left right ihleft ihright =>
    rw [descend]
    split
    · rename_i hbit
      rw [ihright, plug, Nat.zero_add, hbit]
      rfl
    · rename_i hbit
      rw [ihleft, plug, Nat.zero_add, Bool.eq_false_iff.mpr hbit]
      rfl

theorem descend_stuck (bits : Bits) (t : StemTree) (sibs : List StemTree) :
    (descend bits t sibs).2.isInternal = false := by
  induction t generalizing sibs with
  | nil => rfl
  | stem node => rfl
  | internal left right ihleft ihright =>
    rw [descend]
    split
    · exact ihright _
    · exact ihleft _

theorem plug_append {base : Nat} (low sibs : List StemTree) (t : StemTree) :
    plug bits base (low ++ sibs) t = plug bits base sibs (plug bits (base + sibs.length) low t) := by
  induction low generalizing t with
  | nil => rfl
  | cons sib low ih =>
    simp only [List.cons_append, plug, ih, List.length_append]
    rw [Nat.add_comm low.length, ← Nat.add_assoc]

theorem above_append {base : Nat} (low sibs : List StemTree) (t : StemTree) :
    above bits base (low ++ sibs) t = above bits (base + sibs.length) low t ++
      above bits base sibs (plug bits (base + sibs.length) low t) := by
  induction low generalizing t with
  | nil => rfl
  | cons sib low ih =>
    simp only [List.cons_append, above, plug, ih, List.length_append]
    rw [Nat.add_comm low.length, ← Nat.add_assoc]

end StemTree

end Nodes

end EthereumJS.Binarytree
