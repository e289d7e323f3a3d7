import EthereumJS.Binarytree.StemTree

/-! # Paths in a stored tree

What `findPath` and `get` find in a database that holds a tree of stems.
-/

namespace EthereumJS.Binarytree

open StemTree

variable (H : HashKeysFunction)

/-- The database holds every node of a tree under its hash. -/
def Stored (db : MapDB) (path : Bits) (t : StemTree) : Prop :=
  ∀ x ∈ t.nodes path, db (x.2.root H) = some (x.2.nodeOf H x.1).serialize

/-- The nodes that a walk along some bits comes to, the highest one first. -/
def onPath (bits : Bits) : StemTree → Nat → List (Bits × StemTree)
  | .nil, _ => []
  | .stem node, depth => [(bits.take depth, .stem node)]
  | .internal left right, depth =>
    (bits.take depth, .internal left right) ::
      if bits.getD depth false then onPath bits right (depth + 1)
      else onPath bits left (depth + 1)

def stackOf (bits : Bits) (sibs : List StemTree) (t : StemTree) : List (BinaryNode × Bits) :=
  (above bits 0 sibs t).map fun x => (x.2.nodeOf H x.1, x.1)

/-- The path to the subtree where a key ends. -/
def pathOf (key : Bytes) (sibs : List StemTree) (t : StemTree) : Path :=
  let bits := keyBits key
  match t with
  | .stem node =>
    if node.stem = key then ⟨some (.stem node), stackOf H bits sibs t⟩
    else
      ⟨none, (.stem node, bits.take (matchingBitsLength bits (keyBits node.stem))) ::
        stackOf H bits sibs t⟩
  | _ => ⟨none, stackOf H bits sibs t⟩

section Read

variable {H} {db : MapDB} {key : Bytes} {t sib : StemTree} {sibs : List StemTree}

theorem mem_nodes_self (path : Bits) (h : t ≠ .nil) : (path, t) ∈ t.nodes path := by
  cases t with
  | nil => exact absurd rfl h
  | stem node => exact List.mem_singleton_self _
  | internal left right => exact List.mem_cons_self

theorem length_bits (h : key.length = 31) : (keyBits key).length = 248 := by
  rw [length_keyBits, h]

theorem exists_branch (bit : Bool) (left right : StemTree) :
    ∃ child sib, internal left right = branch bit child sib := by
  cases bit with
  | true => exact ⟨right, left, rfl⟩
  | false => exact ⟨left, right, rfl⟩

theorem getChild_branch {bit : Bool} {left right child : StemTree} (path : Bits)
    (hbranch : internal left right = branch bit child sib) :
    InternalBinaryNode.getChild
        ⟨left.reference H (path ++ [false]), right.reference H (path ++ [true])⟩ bit =
      child.reference H (path ++ [bit]) := by
  cases bit with
  | true =>
    cases hbranch
    rfl
  | false =>
    cases hbranch
    rfl

theorem onPath_branch {bits : Bits} {depth : Nat} {child : StemTree}
    (hbranch : t = branch (bits.getD depth false) child sib) :
    onPath bits t depth = (bits.take depth, t) :: onPath bits child (depth + 1) := by
  subst hbranch
  cases hb : bits.getD depth false with
  | true => exact congrArg (List.cons _) (if_pos hb)
  | false => exact congrArg (List.cons _) (if_neg (by rw [hb]; decide))

theorem descend_branch {bits : Bits} {child : StemTree}
    (hbranch : t = branch (bits.getD sibs.length false) child sib) :
    descend bits t sibs = descend bits child (sib :: sibs) := by
  subst hbranch
  cases hb : bits.getD sibs.length false with
  | true => exact if_pos hb
  | false => exact if_neg (by rw [hb]; decide)

/-- What a walk does at an inner node: it goes on to the child at the next bit. -/
theorem walk_branch (hkey : key.length = 31) (fuel : Nat) {child : StemTree}
    (hbranch : t = branch ((keyBits key).getD sibs.length false) child sib)
    (ht : t.At ((keyBits key).take sibs.length))
    (hread : db (t.root H) = some (t.nodeOf H ((keyBits key).take sibs.length)).serialize) :
    BinaryTree.walk db (keyBits key) (fuel + 1) (t.reference H ((keyBits key).take sibs.length))
        (stackOf H (keyBits key) sibs t) =
      BinaryTree.walk db (keyBits key) fuel
        (child.reference H ((keyBits key).take (sibs.length + 1)))
        (stackOf H (keyBits key) (sib :: sibs) child) := by
  have hbits := length_bits hkey
  obtain ⟨left, right, rfl⟩ : ∃ left right, t = internal left right := by
    rw [hbranch, branch]
    split
    · exact ⟨sib, child, rfl⟩
    · exact ⟨child, sib, rfl⟩
  have hdepth := ht.length_lt rfl
  have htake : ((keyBits key).take sibs.length).length = sibs.length := by
    rw [List.length_take] at hdepth ⊢
    omega
  rw [htake] at hdepth
  have hbit : (keyBits key)[sibs.length]? = some ((keyBits key).getD sibs.length false) := by
    simp [List.getD_eq_getElem?_getD, hbits, hdepth]
  have hnext := take_append_bit (by omega : sibs.length < (keyBits key).length)
  rw [StemTree.reference, BinaryTree.walk, hread]
  dsimp only
  rw [decodeBinaryNode_serialize (nodeOf_valid H ht)]
  change (if _ then _ else _) = _
  rw [if_neg]
  · rw [matchingBitsLength_take, htake, hbit]
    dsimp only [StemTree.nodeOf]
    rw [getChild_branch _ hbranch, hnext, stackOf, stackOf, above, Nat.zero_add, ← hbranch]
    rfl
  · rintro ⟨-, hfull | hstem⟩
    · rw [matchingBitsLength_take, htake, hbits] at hfull
      omega
    · cases hstem

/-- The rest of a walk that stands at a subtree. -/
theorem walk_reference (hkey : key.length = 31) (fuel : Nat)
    (hAt : (plug (keyBits key) 0 sibs t).At [])
    (hdb : ∀ x ∈ onPath (keyBits key) t sibs.length,
      db (x.2.root H) = some (x.2.nodeOf H x.1).serialize)
    (hfuel : 249 ≤ fuel + sibs.length) :
    BinaryTree.walk db (keyBits key) fuel (t.reference H ((keyBits key).take sibs.length))
        (stackOf H (keyBits key) sibs t) =
      .ok (pathOf H key (descend (keyBits key) t sibs).1 (descend (keyBits key) t sibs).2) := by
  have hbits := length_bits hkey
  induction t generalizing sibs fuel with
  | nil => cases fuel <;> rfl
  | stem node =>
    obtain ⟨ht, hle⟩ :=
      At.of_plug (show (plug (keyBits key) 0 sibs _).At ((keyBits key).take 0) from hAt) hbits
    obtain ⟨⟨hstem, -⟩, -⟩ := id ht
    have hdepth : sibs.length ≤ 248 := by
      cases sibs with
      | nil => exact Nat.zero_le _
      | cons sib sibs =>
        rw [← Nat.zero_add (sib :: sibs).length]
        exact hle (by simp)
    obtain ⟨fuel, rfl⟩ : ∃ n, fuel = n + 1 := ⟨fuel - 1, by omega⟩
    have hread := hdb _ (List.mem_singleton_self _)
    change db (stemHash H node) = some (BinaryNode.stem node).serialize at hread
    rw [StemTree.reference, BinaryTree.walk, hread]
    dsimp only
    rw [decodeBinaryNode_serialize (show (BinaryNode.stem node).Valid from ht.1)]
    change (if _ then _ else _) = _
    dsimp only [descend, pathOf, BinaryNode.isStem]
    have hlen : (keyBits key).length = (keyBits node.stem).length := by
      rw [length_keyBits, length_keyBits, hkey, hstem]
    by_cases heq : node.stem = key
    · subst heq
      rw [matchingBitsLength_self, if_pos (rfl : node.stem = node.stem)]
      exact (if_pos ⟨rfl, .inl rfl⟩).trans (if_pos ⟨rfl, rfl⟩)
    · have hlt := matchingBitsLength_lt hlen fun h => heq (keyBits_injective (by omega) h).symm
      rw [if_neg heq]
      exact if_neg fun h => by omega
  | internal left right ihleft ihright =>
    obtain ⟨ht, -⟩ :=
      At.of_plug (show (plug (keyBits key) 0 sibs _).At ((keyBits key).take 0) from hAt) hbits
    rw [Nat.zero_add] at ht
    have hlt := ht.length_lt rfl
    rw [List.length_take, hbits] at hlt
    obtain ⟨fuel, rfl⟩ : ∃ n, fuel = n + 1 := ⟨fuel - 1, by omega⟩
    have hread := hdb _ List.mem_cons_self
    cases hb : (keyBits key).getD sibs.length false with
    | true =>
      have hbranch : internal left right =
          branch ((keyBits key).getD sibs.length false) right left := by
        rw [hb]
        rfl
      have hplug : plug (keyBits key) 0 (left :: sibs) right =
          plug (keyBits key) 0 sibs (internal left right) := by
        rw [plug, Nat.zero_add, ← hbranch]
      rw [walk_branch hkey fuel hbranch ht hread, descend_branch hbranch]
      exact ihright fuel (hplug ▸ hAt)
        (fun x hx => hdb x (by rw [onPath_branch hbranch]; exact List.mem_cons_of_mem _ hx))
        (by rw [List.length_cons]; omega)
    | false =>
      have hbranch : internal left right =
          branch ((keyBits key).getD sibs.length false) left right := by
        rw [hb]
        rfl
      have hplug : plug (keyBits key) 0 (right :: sibs) left =
          plug (keyBits key) 0 sibs (internal left right) := by
        rw [plug, Nat.zero_add, ← hbranch]
      rw [walk_branch hkey fuel hbranch ht hread, descend_branch hbranch]
      exact ihleft fuel (hplug ▸ hAt)
        (fun x hx => hdb x (by rw [onPath_branch hbranch]; exact List.mem_cons_of_mem _ hx))
        (by rw [List.length_cons]; omega)

end Read

section Find

variable {bits : Bits} {t : StemTree} {sibs : List StemTree} {node : StemBinaryNode}

/-- The stem node of a key. -/
def StemTree.find (key : Bytes) (t : StemTree) : Option StemBinaryNode :=
  match (descend (keyBits key) t []).2 with
  | .stem node => if node.stem = key then some node else none
  | _ => none

theorem mem_stems_plug {base : Nat} :
    node ∈ (plug bits base sibs t).stems ↔ node ∈ t.stems ∨ ∃ sib ∈ sibs, node ∈ sib.stems := by
  induction sibs generalizing t with
  | nil => simp [plug]
  | cons sib sibs ih =>
    have hbranch : ∀ bit, node ∈ (branch bit t sib).stems ↔ node ∈ t.stems ∨ node ∈ sib.stems := by
      intro bit
      cases bit
      · exact List.mem_append
      · exact List.mem_append.trans or_comm
    rw [plug, ih, hbranch]
    simp only [List.exists_mem_cons_iff, or_assoc]

/-- The stems beside the path of some bits have other bits. -/
theorem keyBits_ne_of_sibling {base : Nat} (hbits : bits.length = 248)
    (hAt : (plug bits base sibs t).At (bits.take base)) {sib : StemTree} (hsib : sib ∈ sibs)
    (hmem : node ∈ sib.stems) : keyBits node.stem ≠ bits := by
  induction sibs generalizing t with
  | nil => cases hsib
  | cons first sibs ih =>
    rcases List.mem_cons.mp hsib with rfl | hsib
    · have hbranch := (At.of_plug (show (plug bits base sibs _).At _ from hAt) hbits).1
      have hlt := hbranch.length_lt (isInternal_branch _ _ _)
      rw [List.length_take, hbits] at hlt
      obtain ⟨-, hfirst, -⟩ := at_branch_iff.mp hbranch
      obtain ⟨-, rest, hpre⟩ := hfirst.prefix_of_mem hmem
      intro heq
      have hnext := take_append_bit (by omega : base + sibs.length < bits.length)
      have htake := congrArg (List.take (base + sibs.length + 1)) (hpre.trans heq)
      rw [List.take_append_of_le_length (by simp [hbits]; omega), ← hnext,
        List.take_of_length_le (by simp [hbits])] at htake
      have hlast := List.append_cancel_left htake
      cases hb : bits.getD (base + sibs.length) false <;> rw [hb] at hlast <;> cases hlast
    · exact ih hAt hsib

theorem find_eq_some_iff {key : Bytes} (hkey : key.length = 31) (hAt : t.At []) :
    t.find key = some node ↔ node ∈ t.stems ∧ node.stem = key := by
  have hplug := plug_descend (keyBits key) t []
  have hstuck := descend_stuck (keyBits key) t []
  unfold StemTree.find
  generalize descend (keyBits key) t [] = found at *
  obtain ⟨sibs, u⟩ := found
  change plug (keyBits key) 0 sibs u = t at hplug
  subst hplug
  have hside : ∀ sib ∈ sibs, node ∈ sib.stems → node.stem ≠ key := by
    intro sib hsib hmem heq
    exact keyBits_ne_of_sibling (length_bits hkey)
      (show (plug (keyBits key) 0 sibs u).At ((keyBits key).take 0) from hAt) hsib hmem (heq ▸ rfl)
  rw [mem_stems_plug]
  cases u with
  | internal left right => cases hstuck
  | nil =>
    refine iff_of_false (by simp) ?_
    rintro ⟨hnil | ⟨sib, hsib, hmem⟩, heq⟩
    · cases hnil
    · exact hside sib hsib hmem heq
  | stem other =>
    dsimp only
    constructor
    · intro h
      split at h
      · rename_i heq
        cases h
        exact ⟨.inl (List.mem_singleton_self _), heq⟩
      · cases h
    · rintro ⟨hother | ⟨sib, hsib, hmem⟩, heq⟩
      · rw [List.mem_singleton.mp hother] at heq ⊢
        exact if_pos heq
      · exact absurd heq (hside sib hsib hmem)

end Find

/-- A `BinaryTree` that holds a tree of stems. -/
structure Represents (tree : BinaryTree) (t : StemTree) : Prop where
  root_eq : tree.root = t.root tree.hashFunction
  atRoot : t.At []
  stored : Stored tree.hashFunction tree.db [] t
  nonempty : t ≠ .nil → t.root tree.hashFunction ≠ EMPTY_TREE_ROOT

section Spec

variable {tree : BinaryTree} {t : StemTree} {key : Bytes} {fuel : Nat}

/-- The whole path of a key; a stem at the root is on the stack also when it is found. -/
def fullPath (key : Bytes) : StemTree → Path
  | .nil => ⟨none, []⟩
  | .stem node => ⟨if key = node.stem then some (.stem node) else none, [(.stem node, [])]⟩
  | t => pathOf H key (descend (keyBits key) t []).1 (descend (keyBits key) t []).2

theorem onPath_subset {bits : Bits} (hbits : bits.length = 248) {depth : Nat}
    (hAt : t.At (bits.take depth)) {x : Bits × StemTree} (hx : x ∈ onPath bits t depth) :
    x ∈ t.nodes (bits.take depth) := by
  induction t generalizing depth with
  | nil => cases hx
  | stem node => exact hx
  | internal left right ihleft ihright =>
    have hlt := hAt.length_lt rfl
    rw [List.length_take, hbits] at hlt
    have hnext := take_append_bit (by omega : depth < bits.length)
    rcases List.mem_cons.mp hx with rfl | hx
    · exact List.mem_cons_self
    · refine List.mem_cons_of_mem _ (List.mem_append.mpr ?_)
      cases hb : bits.getD depth false with
      | true =>
        rw [hb] at hx hnext
        have hright := hAt.2.1
        rw [hnext] at hright ⊢
        exact .inr (ihright hright hx)
      | false =>
        rw [hb] at hx hnext
        have hleft := hAt.1
        rw [hnext] at hleft ⊢
        exact .inl (ihleft hleft hx)

/-- `findPath` in a database that has the nodes on the path of a key. -/
theorem findPath_of_onPath (hroot : tree.root = t.root tree.hashFunction) (hAt : t.At [])
    (hdb : ∀ x ∈ onPath (keyBits key) t 0,
      tree.db (x.2.root tree.hashFunction) = some (x.2.nodeOf tree.hashFunction x.1).serialize)
    (hne : t ≠ .nil → t.root tree.hashFunction ≠ EMPTY_TREE_ROOT) (hkey : key.length = 31)
    (hfuel : 248 ≤ fuel) :
    tree.findPath fuel key = .ok (fullPath tree.hashFunction key t) := by
  have hbits := length_bits hkey
  unfold BinaryTree.findPath
  by_cases hnil : t = .nil
  · subst hnil
    exact if_pos hroot
  · have hread : tree.db (t.root tree.hashFunction) =
        some (t.nodeOf tree.hashFunction []).serialize := by
      cases t with
      | nil => exact absurd rfl hnil
      | stem node => exact hdb _ List.mem_cons_self
      | internal left right => exact hdb _ List.mem_cons_self
    rw [if_neg (hroot ▸ hne hnil), hroot, hread]
    change (decodeBinaryNode _ >>= _) = _
    rw [decodeBinaryNode_serialize (nodeOf_valid _ hAt)]
    cases t with
    | nil => exact absurd rfl hnil
    | stem node => rfl
    | internal left right =>
      have hbit : (keyBits key)[0]? = some ((keyBits key).getD 0 false) := by
        simp [List.getD_eq_getElem?_getD, hbits]
      obtain ⟨child, sib, hbranch⟩ := exists_branch ((keyBits key).getD 0 false) left right
      have hplug : plug (keyBits key) 0 [sib] child = internal left right := hbranch.symm
      have hrest := walk_reference (H := tree.hashFunction) hkey fuel
        (show (plug (keyBits key) 0 [sib] child).At [] from hplug ▸ hAt)
        (fun x hx => hdb x (by rw [onPath_branch hbranch]; exact List.mem_cons_of_mem _ hx))
        (by rw [List.length_singleton]; omega)
      have hnext := take_append_bit (by omega : 0 < (keyBits key).length)
      dsimp only [bind, Except.bind, StemTree.nodeOf, fullPath]
      rw [hbit]
      dsimp only
      rw [getChild_branch [] hbranch, @descend_branch _ _ [] _ _ hbranch, ← hrest,
        List.length_singleton, ← hnext, stackOf, above]
      simp only [List.length_nil, Nat.add_zero, ← hbranch]
      rfl

theorem Represents.findPath (h : Represents tree t) (hkey : key.length = 31) (hfuel : 248 ≤ fuel) :
    tree.findPath fuel key = .ok (fullPath tree.hashFunction key t) :=
  findPath_of_onPath h.root_eq h.atRoot
    (fun x hx => h.stored x (onPath_subset (length_bits hkey)
      (show t.At ((keyBits key).take 0) from h.atRoot) hx)) h.nonempty hkey hfuel

theorem fullPath_node (t : StemTree) :
    (fullPath H key t).node = (t.find key).map BinaryNode.stem := by
  unfold fullPath StemTree.find
  cases t with
  | nil => rfl
  | stem node =>
    dsimp only [descend]
    by_cases heq : node.stem = key
    · rw [if_pos heq, if_pos heq.symm]
      rfl
    · rw [if_neg heq, if_neg (Ne.symm heq)]
      rfl
  | internal left right =>
    dsimp only
    cases (descend (keyBits key) (internal left right) []).2 with
    | nil => rfl
    | stem node =>
      dsimp only [pathOf]
      split <;> rfl
    | internal left right => rfl

theorem get_of_findPath (hkey : key.length = 31)
    (hpath : tree.findPath fuel key = .ok (fullPath tree.hashFunction key t))
    (suffixes : List UInt8) :
    tree.get fuel key suffixes =
      .ok (((t.find key).map fun node => suffixes.map node.getValue).getD []) := by
  unfold BinaryTree.get
  rw [if_neg (by omega), hpath]
  dsimp only [bind, Except.bind]
  rw [fullPath_node]
  cases t.find key <;> rfl

/-- `get` reads the values of the stem. -/
theorem Represents.get (h : Represents tree t) (hkey : key.length = 31) (hfuel : 248 ≤ fuel)
    (suffixes : List UInt8) :
    tree.get fuel key suffixes =
      .ok (((t.find key).map fun node => suffixes.map node.getValue).getD []) :=
  get_of_findPath hkey (h.findPath hkey hfuel) suffixes

end Spec

end EthereumJS.Binarytree
