import EthereumJS.Binarytree.Walk

/-! # Writing a stem

What `put` does to the tree that a database holds: a stem node takes its place below the
siblings of its path, and all nodes above it are written.
-/

namespace EthereumJS.Binarytree

open StemTree

variable (H : HashKeysFunction)

section Frames

variable {H} {bits : Bits} {t u sib : StemTree} {sibs : List StemTree}

def entry (H : HashKeysFunction) (x : Bits × StemTree) : Bytes × Option BinaryNode :=
  (x.2.root H, some (x.2.nodeOf H x.1))

theorem setChild_again (bit : Bool) (child child' sibling : Option ChildBinaryNode) :
    ((InternalBinaryNode.create.setChild bit child).setChild (!bit) sibling).setChild bit child' =
      (InternalBinaryNode.create.setChild bit child').setChild (!bit) sibling := by
  cases bit <;> rfl

theorem reference_of_internal (path : Bits) (h : t.isInternal) :
    t.reference H path = some ⟨t.root H, path⟩ := by
  cases t with
  | nil => cases h
  | stem node => cases h
  | internal left right => rfl

/-- Step 3 replaces the subtree in every node above it, the root apart. -/
theorem updateParents_eq (hbits : bits.length = 248) (hne : sibs ≠ [])
    (hAt : (plug bits 0 sibs t).At []) (ht : t.isInternal)
    {putStack : List (Bytes × Option BinaryNode)}
    (hhead : putStack.head? = some (entry H (bits.take sibs.length, t))) :
    ∃ child root sib putStack', BinaryTree.updateParents H (stackOf H bits sibs u) putStack
        (bits.take sibs.length) =
          .ok ((branch (bits.getD 0 false) child sib).nodeOf H [], putStack', bits.take 1) ∧
      plug bits 0 sibs t = branch (bits.getD 0 false) root sib ∧ root.isInternal ∧
      putStack'.head? = some (entry H (bits.take 1, root)) ∧
      entry H ([], plug bits 0 sibs t) :: putStack' =
        ((above bits 0 sibs t).map (entry H)).reverse ++ putStack := by
  induction sibs generalizing t u putStack with
  | nil => exact absurd rfl hne
  | cons sib sibs ih =>
    cases sibs with
    | nil => exact ⟨u, t, sib, putStack, rfl, rfl, ht, hhead, rfl⟩
    | cons next sibs =>
      have hparent := (At.of_plug (show (plug bits 0 (next :: sibs) _).At (bits.take 0) from hAt)
        hbits).1
      have hlt := hparent.length_lt (isInternal_branch _ _ _)
      rw [List.length_take, hbits] at hlt
      have hdepth : 0 + (next :: sibs).length < bits.length := by omega
      have hnext := take_append_bit hdepth
      rw [Nat.zero_add] at hnext hdepth
      have hlast : (bits.take (sib :: next :: sibs).length).getLast? =
          some (bits.getD (next :: sibs).length false) := by
        rw [List.length_cons, ← hnext, List.getLast?_concat]
      have hchild : (branch (bits.getD (next :: sibs).length false) t sib).nodeOf H
            (bits.take (next :: sibs).length) = .internal
          (((InternalBinaryNode.create.setChild (bits.getD (next :: sibs).length false)
            (u.reference H (bits.take (next :: sibs).length ++
              [bits.getD (next :: sibs).length false]))).setChild
              (!bits.getD (next :: sibs).length false) (sib.reference H
                (bits.take (next :: sibs).length ++
                  [!bits.getD (next :: sibs).length false]))).setChild
            (bits.getD (next :: sibs).length false)
            (some ⟨t.root H, bits.take (sib :: next :: sibs).length⟩)) := by
        rw [setChild_again, nodeOf_branch, hnext, reference_of_internal _ ht]
        rfl
      rw [Nat.zero_add] at hparent
      obtain ⟨child, root, sib', putStack', hok, hplug, hinternal, hhead', hpushed⟩ := ih
        (t := branch (bits.getD (next :: sibs).length false) t sib)
        (u := branch (bits.getD (next :: sibs).length false) u sib) (by simp)
        (by rw [plug, Nat.zero_add] at hAt; exact hAt) (isInternal_branch _ _ _)
        (show (entry H (bits.take (next :: sibs).length,
          branch (bits.getD (next :: sibs).length false) t sib) :: putStack).head? = _ from rfl)
      refine ⟨child, root, sib', putStack', ?_, ?_, hinternal, hhead', ?_⟩
      · refine Eq.trans ?_ hok
        conv_lhs => rw [stackOf, above, List.map_cons]
        dsimp only
        rw [Nat.zero_add, nodeOf_branch]
        simp only [above, List.map_cons]
        rw [BinaryTree.updateParents, hlast, hhead]
        dsimp only [entry]
        rw [← hchild, merkelize_nodeOf H hparent]
        simp only [stackOf, above, List.map_cons]
        rfl
      · rw [plug, Nat.zero_add]
        exact hplug
      · rw [plug, Nat.zero_add, hpushed]
        conv_rhs => rw [above, Nat.zero_add]
        simp

/-- Step 4 replaces the subtree in an internal root. -/
theorem updateRoot_branch {path : Bits} {putStack : List (Bytes × Option BinaryNode)}
    {stemNode : StemBinaryNode} (hbits : (keyBits stemNode.stem).length = 248)
    (hAt : t.At ((keyBits stemNode.stem).take 1))
    (ht : t.isInternal ∧ path = (keyBits stemNode.stem).take 1 ∨ t = .stem stemNode)
    (hhead : putStack.head? = some (entry H ((keyBits stemNode.stem).take 1, t))) :
    BinaryTree.updateRoot H ((branch ((keyBits stemNode.stem).getD 0 false) u sib).nodeOf H [])
        stemNode putStack path =
      .ok ((branch ((keyBits stemNode.stem).getD 0 false) t sib).nodeOf H [], putStack) := by
  have hbit : (keyBits stemNode.stem)[0]? = some ((keyBits stemNode.stem).getD 0 false) := by
    simp [List.getD_eq_getElem?_getD, hbits]
  have hnext := take_append_bit (by omega : 0 < (keyBits stemNode.stem).length)
  rw [List.take_zero] at hnext
  rw [nodeOf_branch, nodeOf_branch]
  unfold BinaryTree.updateRoot
  dsimp only
  rw [hhead, hbit]
  dsimp only [entry]
  rw [merkelize_nodeOf H hAt]
  have href : t.reference H ([] ++ [(keyBits stemNode.stem).getD 0 false]) =
      some ⟨t.root H, if (t.nodeOf H ((keyBits stemNode.stem).take 1)).isStem
        then keyBits stemNode.stem else path⟩ := by
    rcases ht with ⟨hinternal, rfl⟩ | rfl
    · rw [hnext]
      cases t with
      | nil => cases hinternal
      | stem node => cases hinternal
      | internal left right => rfl
    · rfl
  rw [href]
  change Except.ok (BinaryNode.internal _, putStack) = _
  rw [setChild_again]

end Frames

section Finish

variable {tree : BinaryTree} {stemNode : StemBinaryNode} {t u sib : StemTree}
  {sibs : List StemTree} {putStack : List (Bytes × Option BinaryNode)}

/-- The tree with a new root and the nodes of a stack. -/
def saved (tree : BinaryTree) (t : StemTree) (putStack : List (Bytes × Option BinaryNode)) :
    BinaryTree :=
  { tree with root := t.root tree.hashFunction }.saveStack putStack

/-- What is written above an internal node that stands below some siblings. -/
theorem putParents_internal (hbits : (keyBits stemNode.stem).length = 248) (hne : sibs ≠ [])
    (hAt : (plug (keyBits stemNode.stem) 0 sibs t).At []) (ht : t.isInternal)
    (hhead : putStack.head? =
      some (entry tree.hashFunction ((keyBits stemNode.stem).take sibs.length, t))) :
    tree.putParents stemNode (stackOf tree.hashFunction (keyBits stemNode.stem) sibs u) putStack
        ((keyBits stemNode.stem).take sibs.length) =
      .ok (saved tree (plug (keyBits stemNode.stem) 0 sibs t)
        (((above (keyBits stemNode.stem) 0 sibs t).map (entry tree.hashFunction)).reverse ++
          putStack)) := by
  obtain ⟨child, root, sib, putStack', hok, hplug, hinternal, hhead', hpushed⟩ :=
    updateParents_eq (u := u) hbits hne hAt ht hhead
  have hroot : root.At ((keyBits stemNode.stem).take 1) := by
    rw [hplug] at hAt
    exact take_append_bit (by omega : 0 < (keyBits stemNode.stem).length) ▸
      (at_branch_iff.mp hAt).1
  change (BinaryTree.updateParents _ _ _ _ >>= _) = _
  rw [hok]
  change (BinaryTree.updateRoot _ _ _ _ _ >>= _) = _
  rw [updateRoot_branch hbits hroot (.inl ⟨hinternal, rfl⟩) hhead']
  change (merkelize _ _ >>= _) = _
  rw [merkelize_nodeOf _ (hplug ▸ hAt), ← hpushed, hplug]
  rfl

/-- What is written above a stem right below the root. -/
theorem putParents_stem (hbits : (keyBits stemNode.stem).length = 248)
    (hAt : (plug (keyBits stemNode.stem) 0 [sib] (.stem stemNode)).At [])
    (hhead : putStack.head? = some
      (entry tree.hashFunction ((keyBits stemNode.stem).take 1, .stem stemNode))) (path : Bits) :
    tree.putParents stemNode (stackOf tree.hashFunction (keyBits stemNode.stem) [sib] u) putStack
        path =
      .ok (saved tree (plug (keyBits stemNode.stem) 0 [sib] (.stem stemNode))
        (((above (keyBits stemNode.stem) 0 [sib] (.stem stemNode)).map
          (entry tree.hashFunction)).reverse ++ putStack)) := by
  have hstem : (StemTree.stem stemNode).At ((keyBits stemNode.stem).take 1) :=
    take_append_bit (by omega : 0 < (keyBits stemNode.stem).length) ▸ (at_branch_iff.mp hAt).1
  unfold BinaryTree.putParents
  change (BinaryTree.updateRoot _
    ((branch ((keyBits stemNode.stem).getD 0 false) u sib).nodeOf _ []) _ _ _ >>= _) = _
  rw [updateRoot_branch hbits hstem (.inr rfl) hhead]
  have hroot : (branch ((keyBits stemNode.stem).getD 0 false) (.stem stemNode) sib).At [] := hAt
  change (merkelize _ _ >>= _) = _
  rw [merkelize_nodeOf _ hroot]
  rfl

end Finish

section Split

variable {H} {bits : Bits} {t : StemTree} {stemNode other : StemBinaryNode}

theorem At.two_le {path : Bits} (h : t.At path) (hinternal : t.isInternal) :
    2 ≤ t.stems.length := by
  cases t with
  | nil => cases hinternal
  | stem node => cases hinternal
  | internal left right =>
    rw [stems, List.length_append]
    exact h.2.2

theorem at_branch_nil {n : Nat} (hn : n < bits.length) (h : t.At (bits.take (n + 1)))
    (hinternal : t.isInternal) : (branch (bits.getD n false) t .nil).At (bits.take n) :=
  at_branch_iff.mpr ⟨take_append_bit hn ▸ h, trivial, At.two_le h hinternal⟩

theorem nodeOf_branch_nil {n : Nat} (hn : n < bits.length) (hinternal : t.isInternal) :
    (branch (bits.getD n false) t .nil).nodeOf H (bits.take n) =
      .internal (InternalBinaryNode.create.setChild (bits.getD n false)
        (some ⟨t.root H, bits.take (n + 1)⟩)) := by
  rw [nodeOf_branch, take_append_bit hn, reference_of_internal _ hinternal]
  cases bits.getD n false <;> rfl

/-- A chain of internal nodes with one child each. -/
theorem at_plug_nil (hbits : bits.length = 248) (base m : Nat) (hm : base + m ≤ 248)
    (h : t.At (bits.take (base + m))) (hinternal : t.isInternal) :
    (plug bits base (List.replicate m .nil) t).At (bits.take base) ∧
      (plug bits base (List.replicate m .nil) t).isInternal ∧
      t.stems.length ≤ (plug bits base (List.replicate m .nil) t).stems.length := by
  induction m generalizing t with
  | zero => exact ⟨h, hinternal, le_rfl⟩
  | succ m ih =>
    rw [List.replicate_succ, plug, List.length_replicate]
    obtain ⟨hAt, hint, hle⟩ := ih (by omega) (at_branch_nil (by omega) h hinternal)
      (isInternal_branch _ _ _)
    refine ⟨hAt, hint, ?_⟩
    rw [stems_branch_length] at hle
    omega

theorem prefixNodes_eq (hbits : bits.length = 248) (bottom m : Nat) (hm : bottom + 1 + m ≤ 248)
    (h : t.At (bits.take (bottom + 1 + m))) (hinternal : t.isInternal) :
    BinaryTree.prefixNodes H bits bottom (bottom + 1 + m)
        (t.nodeOf H (bits.take (bottom + 1 + m))) =
      .ok ((above bits (bottom + 1) (List.replicate m .nil) t).map
        fun x => (x.2.nodeOf H x.1, x.1)) := by
  induction m generalizing t with
  | zero =>
    rw [Nat.add_zero, BinaryTree.prefixNodes, if_neg (by omega)]
    rfl
  | succ m ih =>
    have hrest := ih (by omega) (at_branch_nil (by omega) h hinternal) (isInternal_branch _ _ _)
    rw [← Nat.add_assoc] at h ⊢
    rw [BinaryTree.prefixNodes, if_pos (by omega), merkelize_nodeOf H h]
    change (BinaryTree.prefixNodes H bits bottom (bottom + 1 + m) (.internal
      (InternalBinaryNode.create.setChild (bits.getD (bottom + 1 + m) false)
        (some ⟨t.root H, bits.take (bottom + 1 + m + 1)⟩))) >>= _) = _
    rw [← nodeOf_branch_nil (by omega) hinternal, hrest]
    rw [List.replicate_succ, above, List.length_replicate]
    rfl

theorem splitRoot_eq (hbits : bits.length = 248) (m : Nat) (hm : m ≤ 248)
    (h : t.At (bits.take m)) (hinternal : t.isInternal)
    (putStack : List (Bytes × Option BinaryNode)) :
    ∃ putStack', BinaryTree.updateRoot.splitRoot H bits m (t.nodeOf H (bits.take m)) putStack =
        .ok ((plug bits 0 (List.replicate m .nil) t).nodeOf H [], putStack') ∧
      entry H ([], plug bits 0 (List.replicate m .nil) t) :: putStack' =
        ((above bits 0 (List.replicate m .nil) t).map (entry H)).reverse ++
          entry H (bits.take m, t) :: putStack := by
  induction m generalizing t putStack with
  | zero => exact ⟨putStack, rfl, rfl⟩
  | succ m ih =>
    obtain ⟨putStack', hok, hpushed⟩ := ih (by omega)
      (at_branch_nil (by omega) h hinternal) (isInternal_branch _ _ _)
      (entry H (bits.take (m + 1), t) :: putStack)
    rw [List.replicate_succ, plug, above, List.length_replicate, Nat.zero_add]
    refine ⟨putStack', ?_, ?_⟩
    · rw [BinaryTree.updateRoot.splitRoot, merkelize_nodeOf H h, ← hok,
        nodeOf_branch_nil (by omega) hinternal]
      rfl
    · rw [hpushed]
      simp

/-- The node where two stems part. -/
theorem splitNode_eq (hnode : stemNode.Valid) (hother : other.Valid)
    (hne : keyBits stemNode.stem ≠ keyBits other.stem) :
    ∃ node, BinaryTree.splitNode H stemNode other = .ok node ∧ .internal node =
      (branch ((keyBits stemNode.stem).getD
          (matchingBitsLength (keyBits stemNode.stem) (keyBits other.stem)) false)
        (.stem stemNode) (.stem other)).nodeOf H ((keyBits stemNode.stem).take
          (matchingBitsLength (keyBits stemNode.stem) (keyBits other.stem))) := by
  have hlen : (keyBits stemNode.stem).length = (keyBits other.stem).length := by
    rw [length_keyBits, length_keyBits, hnode.1, hother.1]
  unfold BinaryTree.splitNode
  dsimp only
  rw [merkelize_stem H hnode, merkelize_stem H hother, getD_matchingBitsLength hlen hne]
  refine ⟨_, rfl, ?_⟩
  rw [nodeOf_branch]
  rfl

theorem at_split (hnode : stemNode.Valid) (hother : other.Valid)
    (hne : keyBits stemNode.stem ≠ keyBits other.stem) :
    (branch ((keyBits stemNode.stem).getD
        (matchingBitsLength (keyBits stemNode.stem) (keyBits other.stem)) false)
      (.stem stemNode) (.stem other)).At ((keyBits stemNode.stem).take
        (matchingBitsLength (keyBits stemNode.stem) (keyBits other.stem))) := by
  have hlen : (keyBits stemNode.stem).length = (keyBits other.stem).length := by
    rw [length_keyBits, length_keyBits, hnode.1, hother.1]
  have hlt := matchingBitsLength_lt hlen hne
  refine at_branch_iff.mpr ⟨⟨hnode, ?_⟩, ⟨hother, ?_⟩, le_rfl⟩
  · rw [take_append_bit hlt]
    exact List.take_prefix _ _
  · rw [← getD_matchingBitsLength hlen hne, ← take_matchingBitsLength, take_append_bit (by omega)]
    exact List.take_prefix _ _

theorem pushAll_eq (xs : List (Bits × StemTree)) (h : ∀ x ∈ xs, x.2.At x.1)
    (putStack : List (Bytes × Option BinaryNode)) (path : Bits) :
    BinaryTree.pushAll H (xs.map fun x => (x.2.nodeOf H x.1, x.1)) putStack path =
      .ok ((xs.map (entry H)).reverse ++ putStack, (xs.getLast?.map Prod.fst).getD path) := by
  induction xs generalizing putStack path with
  | nil => rfl
  | cons x xs ih =>
    rw [List.map_cons, BinaryTree.pushAll, merkelize_nodeOf H (h x List.mem_cons_self)]
    refine (ih (fun y hy => h y (List.mem_cons_of_mem _ hy)) (entry H x :: putStack) x.1).trans ?_
    rw [List.map_cons, List.reverse_cons, List.append_assoc, List.singleton_append,
      List.getLast?_cons]
    cases xs.getLast? <;> rfl

theorem getLast_above (bits : Bits) (base : Nat) (sibs : List StemTree) (t : StemTree) :
    ((bits.take (base + sibs.length), t) :: above bits base sibs t).getLast? =
      some (bits.take base, plug bits base sibs t) := by
  induction sibs generalizing t with
  | nil => rfl
  | cons sib sibs ih =>
    rw [above, List.getLast?_cons_cons, plug]
    exact ih _

end Split

section Set

variable {t : StemTree} {key : Bytes} {stemNode : StemBinaryNode}

/-- The siblings of a key once its stem is there: a stem in its place becomes the lowest one. -/
def StemTree.siblings (key : Bytes) (t : StemTree) : List StemTree :=
  let found := descend (keyBits key) t []
  match found.2 with
  | .stem other =>
    if other.stem = key then found.1
    else
      .stem other :: (List.replicate
        (matchingBitsLength (keyBits key) (keyBits other.stem) - found.1.length) .nil ++ found.1)
  | _ => found.1

/-- The stem node in its place. -/
def StemTree.set (stemNode : StemBinaryNode) (t : StemTree) : StemTree :=
  plug (keyBits stemNode.stem) 0 (t.siblings stemNode.stem) (.stem stemNode)

/-- How deep the path of a key and a stem in its place agree. -/
theorem length_le_matching {sibs : List StemTree} {other : StemBinaryNode} (hkey : key.length = 31)
    (hAt : (plug (keyBits key) 0 sibs (.stem other)).At []) :
    sibs.length ≤ matchingBitsLength (keyBits key) (keyBits other.stem) := by
  obtain ⟨⟨-, rest, hpre⟩, hle⟩ := At.of_plug
    (show (plug (keyBits key) 0 sibs _).At ((keyBits key).take 0) from hAt) (length_bits hkey)
  rw [Nat.zero_add] at hpre hle
  cases sibs with
  | nil => exact Nat.zero_le _
  | cons sib sibs =>
    have hdepth := hle (by simp)
    have hmatch := matchingBitsLength_append ((keyBits key).take (sib :: sibs).length)
      ((keyBits key).drop (sib :: sibs).length) rest
    rw [List.take_append_drop, hpre, List.length_take, length_bits hkey,
      Nat.min_eq_left hdepth] at hmatch
    omega

/-- The tree where a new stem parts from the stem in its place. -/
def forked (stemNode other : StemBinaryNode) (depth : Nat) : StemTree :=
  let bits := keyBits stemNode.stem
  let diffIndex := matchingBitsLength bits (keyBits other.stem)
  plug bits depth (List.replicate (diffIndex - depth) .nil)
    (branch (bits.getD diffIndex false) (.stem stemNode) (.stem other))

section Fork

variable {other : StemBinaryNode} {sibs : List StemTree} {diffIndex : Nat}

theorem forked_eq (hdiff : diffIndex = matchingBitsLength (keyBits stemNode.stem) (keyBits other.stem))
    (depth : Nat) : forked stemNode other depth =
      plug (keyBits stemNode.stem) depth (List.replicate (diffIndex - depth) .nil)
        (branch ((keyBits stemNode.stem).getD diffIndex false) (.stem stemNode) (.stem other)) := by
  subst hdiff
  rfl

theorem plug_fork (stemNode other : StemBinaryNode) (sibs : List StemTree)
    (hdiff : diffIndex = matchingBitsLength (keyBits stemNode.stem) (keyBits other.stem))
    (hle : sibs.length ≤ diffIndex) :
    plug (keyBits stemNode.stem) 0
        (.stem other :: (List.replicate (diffIndex - sibs.length) .nil ++ sibs)) (.stem stemNode) =
      plug (keyBits stemNode.stem) 0 sibs (forked stemNode other sibs.length) := by
  have hdepth : 0 + (List.replicate (diffIndex - sibs.length) StemTree.nil ++ sibs).length =
      diffIndex := by
    simp
    omega
  rw [plug, hdepth, plug_append, Nat.zero_add, hdiff]
  rfl

theorem above_fork (stemNode other : StemBinaryNode) (sibs : List StemTree)
    (hdiff : diffIndex = matchingBitsLength (keyBits stemNode.stem) (keyBits other.stem))
    (hle : sibs.length ≤ diffIndex) :
    above (keyBits stemNode.stem) 0
        (.stem other :: (List.replicate (diffIndex - sibs.length) .nil ++ sibs)) (.stem stemNode) =
      ((keyBits stemNode.stem).take diffIndex,
        branch ((keyBits stemNode.stem).getD diffIndex false) (.stem stemNode) (.stem other)) ::
      above (keyBits stemNode.stem) sibs.length (List.replicate (diffIndex - sibs.length) .nil)
        (branch ((keyBits stemNode.stem).getD diffIndex false) (.stem stemNode) (.stem other)) ++
      above (keyBits stemNode.stem) 0 sibs (forked stemNode other sibs.length) := by
  have hdepth : 0 + (List.replicate (diffIndex - sibs.length) StemTree.nil ++ sibs).length =
      diffIndex := by
    simp
    omega
  rw [above, hdepth, above_append, Nat.zero_add, hdiff]
  rfl

theorem at_forked (hnode : stemNode.Valid) (hother : other.Valid)
    (hne : keyBits stemNode.stem ≠ keyBits other.stem) {depth : Nat}
    (hle : depth ≤ matchingBitsLength (keyBits stemNode.stem) (keyBits other.stem)) :
    (forked stemNode other depth).At ((keyBits stemNode.stem).take depth) ∧
      (forked stemNode other depth).isInternal ∧
      2 ≤ (forked stemNode other depth).stems.length := by
  have hbits := length_bits hnode.1
  have hmatch := (matchingBitsLength_le (keyBits stemNode.stem) (keyBits other.stem)).1
  obtain ⟨hAt, hinternal, hstems⟩ := at_plug_nil hbits depth
    (matchingBitsLength (keyBits stemNode.stem) (keyBits other.stem) - depth) (by omega)
    (by rw [Nat.add_sub_cancel' hle]; exact at_split hnode hother hne) (isInternal_branch _ _ _)
  rw [stems_branch_length] at hstems
  exact ⟨hAt, hinternal, hstems⟩

end Fork

theorem at_set (hnode : stemNode.Valid) (hAt : t.At []) : (t.set stemNode).At [] := by
  have hkey : stemNode.stem.length = 31 := hnode.1
  have hbits := length_bits hkey
  have hplug := plug_descend (keyBits stemNode.stem) t []
  have hstuck := descend_stuck (keyBits stemNode.stem) t []
  unfold StemTree.set StemTree.siblings
  generalize descend (keyBits stemNode.stem) t [] = found at *
  obtain ⟨sibs, u⟩ := found
  change plug (keyBits stemNode.stem) 0 sibs u = t at hplug
  subst hplug
  have hstem : (StemTree.stem stemNode).At ((keyBits stemNode.stem).take (0 + sibs.length)) :=
    ⟨hnode, List.take_prefix _ _⟩
  have hAt' : (plug (keyBits stemNode.stem) 0 sibs u).At ((keyBits stemNode.stem).take 0) := hAt
  cases u with
  | internal left right => cases hstuck
  | nil => exact At.plug_of_le hAt' hbits hstem (Nat.zero_le _)
  | stem other =>
    dsimp only
    split
    · exact At.plug_of_le hAt' hbits hstem le_rfl
    · rename_i hne
      have hother : other.Valid := (At.of_plug hAt' hbits).1.1
      have hle := length_le_matching hkey hAt
      have hbitsne : keyBits stemNode.stem ≠ keyBits other.stem := fun h =>
        hne (keyBits_injective (hkey.trans hother.1.symm) h).symm
      obtain ⟨hforked, -, hstems⟩ := at_forked hnode hother hbitsne hle
      rw [plug_fork _ _ _ rfl hle]
      refine At.plug_of_le hAt' hbits ?_ ((show 1 ≤ 2 by decide).trans hstems)
      rw [Nat.zero_add]
      exact hforked

theorem descend_ne_nil (bits : Bits) (t : StemTree) (sibs : List StemTree)
    (h : t.isInternal ∨ sibs ≠ []) : (descend bits t sibs).1 ≠ [] := by
  induction t generalizing sibs with
  | nil => exact h.resolve_left (by decide)
  | stem node => exact h.resolve_left (by simp [isInternal])
  | internal left right ihleft ihright =>
    rw [descend]
    split
    · exact ihright _ (.inr (by simp))
    · exact ihleft _ (.inr (by simp))

variable {tree : BinaryTree}

/-- The nodes that `put` writes for a stem: the stem and every node above it. -/
def Writes (H : HashKeysFunction) (stemNode : StemBinaryNode) (t : StemTree)
    (puts : List (Bytes × Option BinaryNode)) : Prop :=
  ∀ y, y ∈ puts ↔ y = entry H ([], .stem stemNode) ∨
    y ∈ (above (keyBits stemNode.stem) 0 (t.siblings stemNode.stem) (.stem stemNode)).map (entry H)

theorem putNode_root (tree : BinaryTree) (hnode : stemNode.Valid) {root : StemBinaryNode}
    (hroot : root.Valid) :
    ∃ puts, tree.putNode stemNode
        (fullPath tree.hashFunction stemNode.stem (.stem root)).stack
        [entry tree.hashFunction ([], .stem stemNode)] =
          .ok (saved tree ((StemTree.stem root).set stemNode) puts) ∧
      Writes tree.hashFunction stemNode (.stem root) puts := by
  have hbits := length_bits hnode.1
  unfold Writes StemTree.set StemTree.siblings
  change ∃ puts, tree.putParents stemNode [(.stem root, [])] _ [] = _ ∧ _
  unfold BinaryTree.putParents
  change ∃ puts, (BinaryTree.updateRoot _ (.stem root) stemNode _ [] >>= _) = _ ∧ _
  unfold BinaryTree.updateRoot
  dsimp only [descend]
  by_cases heq : root.stem = stemNode.stem
  · rw [if_pos heq, if_pos heq]
    refine ⟨[entry tree.hashFunction ([], .stem stemNode),
      entry tree.hashFunction ([], .stem stemNode)], ?_, fun y => ?_⟩
    · change (merkelize _ (some (.stem stemNode)) >>= _) = _
      rw [merkelize_stem _ hnode]
      rfl
    · simp [above]
  · have hne : keyBits stemNode.stem ≠ keyBits root.stem := fun h =>
      heq (keyBits_injective (hnode.1.trans hroot.1.symm) h).symm
    have hle := Nat.zero_le (matchingBitsLength (keyBits stemNode.stem) (keyBits root.stem))
    rw [if_neg heq, if_neg heq]
    obtain ⟨node, hsplit, hnodeOf⟩ := splitNode_eq (H := tree.hashFunction) hnode hroot hne
    obtain ⟨hforked, -⟩ := at_forked hnode hroot hne hle
    rw [List.take_zero] at hforked
    have hmatch := (matchingBitsLength_le (keyBits stemNode.stem) (keyBits root.stem)).1
    obtain ⟨putStack', hok, hpushed⟩ := splitRoot_eq (H := tree.hashFunction) hbits
      (matchingBitsLength (keyBits stemNode.stem) (keyBits root.stem)) (by omega)
      (at_split hnode hroot hne) (isInternal_branch _ _ _)
      [entry tree.hashFunction ([], .stem stemNode)]
    have hplug := plug_fork stemNode root [] rfl hle
    have habove := above_fork stemNode root [] rfl hle
    simp only [List.length_nil] at hplug habove
    rw [hsplit]
    change ∃ puts, ((BinaryTree.updateRoot.splitRoot _ _ _ _ _) >>= _) = _ ∧ _
    rw [hnodeOf, matchingBitsLength_comm (keyBits root.stem), hok]
    simp only [List.length_nil]
    rw [hplug, habove]
    refine ⟨entry tree.hashFunction ([], forked stemNode root 0) :: putStack', ?_, fun y => ?_⟩
    · change (merkelize _ (some ((forked stemNode root 0).nodeOf _ [])) >>= _) = _
      rw [merkelize_nodeOf _ hforked]
      rfl
    · rw [show entry tree.hashFunction ([], forked stemNode root 0) :: putStack' = _ from hpushed]
      simp only [List.mem_append, List.mem_reverse, List.mem_cons, List.not_mem_nil, or_false,
        List.map_cons, above, List.append_nil, Nat.sub_zero]
      simp only [or_assoc, or_comm]

/-- Step 2 with a parent: the nodes up to the branch parent are pushed. -/
theorem putNode_step (tree : BinaryTree) {nearestNode : BinaryNode} {path parentPath last : Bits}
    {stack : List (BinaryNode × Bits)} (hparent : stack.head?.map Prod.snd = some parentPath)
    {xs : List (Bits × StemTree)}
    (hupdate : BinaryTree.updateBranch tree.hashFunction stemNode nearestNode path parentPath =
      .ok (xs.map fun x => (x.2.nodeOf tree.hashFunction x.1, x.1)))
    (hxs : ∀ x ∈ xs, x.2.At x.1) (hlast : xs.getLast?.map Prod.fst = some last)
    (putStack : List (Bytes × Option BinaryNode)) :
    tree.putNode stemNode ((nearestNode, path) :: stack) putStack =
      tree.putParents stemNode stack ((xs.map (entry tree.hashFunction)).reverse ++ putStack)
        last := by
  cases stack with
  | nil => cases hparent
  | cons parent stack =>
    obtain ⟨parentNode, parentPath'⟩ := parent
    cases hparent
    unfold BinaryTree.putNode
    dsimp only
    rw [hupdate]
    change (BinaryTree.pushAll _ _ _ _ >>= _) = _
    rw [pushAll_eq xs hxs, hlast]
    rfl

theorem stackOf_cons (bits : Bits) (sib : StemTree) (sibs : List StemTree) (t : StemTree) :
    stackOf H bits (sib :: sibs) t =
      ((branch (bits.getD sibs.length false) t sib).nodeOf H (bits.take sibs.length),
        bits.take sibs.length) :: stackOf H bits sibs (branch (bits.getD sibs.length false) t sib) := by
  simp only [stackOf, above, List.map_cons, Nat.zero_add]

/-- A stem that replaces nothing or itself takes its place below internal nodes. -/
theorem putNode_place (tree : BinaryTree) (hnode : stemNode.Valid) {sibs : List StemTree}
    (hne : sibs ≠ []) (hAt : (plug (keyBits stemNode.stem) 0 sibs (.stem stemNode)).At [])
    (u : StemTree) :
    ∃ puts, tree.putNode stemNode (stackOf tree.hashFunction (keyBits stemNode.stem) sibs u)
        [entry tree.hashFunction ([], .stem stemNode)] =
          .ok (saved tree (plug (keyBits stemNode.stem) 0 sibs (.stem stemNode)) puts) ∧
      ∀ y, y ∈ puts ↔ y = entry tree.hashFunction ([], .stem stemNode) ∨
        y ∈ (above (keyBits stemNode.stem) 0 sibs (.stem stemNode)).map
          (entry tree.hashFunction) := by
  have hbits := length_bits hnode.1
  match sibs, hne, hAt with
  | [sib], _, hAt =>
    refine ⟨_, putParents_stem hbits hAt rfl [], fun y => ?_⟩
    simp only [List.mem_append, List.mem_reverse, List.mem_singleton]
    exact or_comm
  | sib :: next :: sibs, _, hAt =>
    have hparent := (At.of_plug (show (plug (keyBits stemNode.stem) 0 (next :: sibs) _).At
      ((keyBits stemNode.stem).take 0) from hAt) hbits).1
    have hlt := hparent.length_lt (isInternal_branch _ _ _)
    rw [List.length_take, hbits] at hlt
    rw [Nat.zero_add] at hparent hlt
    have hdepth : (next :: sibs).length < (keyBits stemNode.stem).length := by omega
    have htake : ((keyBits stemNode.stem).take (next :: sibs).length).length =
        (next :: sibs).length := by
      rw [List.length_take]
      omega
    have hbit : (keyBits stemNode.stem)[(next :: sibs).length]? =
        some ((keyBits stemNode.stem).getD (next :: sibs).length false) := by
      rw [List.getD_eq_getElem?_getD, List.getElem?_eq_getElem hdepth]
      rfl
    have hplug : plug (keyBits stemNode.stem) 0 (sib :: next :: sibs) (.stem stemNode) =
        plug (keyBits stemNode.stem) 0 (next :: sibs)
          (branch ((keyBits stemNode.stem).getD (next :: sibs).length false) (.stem stemNode) sib) := by
      rw [plug, Nat.zero_add]
    have hupdated : ∀ pathToParent, BinaryTree.updateBranch tree.hashFunction stemNode
        ((branch ((keyBits stemNode.stem).getD (next :: sibs).length false) u sib).nodeOf
          tree.hashFunction ((keyBits stemNode.stem).take (next :: sibs).length))
        ((keyBits stemNode.stem).take (next :: sibs).length) pathToParent =
        .ok ([((keyBits stemNode.stem).take (next :: sibs).length,
          branch ((keyBits stemNode.stem).getD (next :: sibs).length false)
            (.stem stemNode) sib)].map fun x => (x.2.nodeOf tree.hashFunction x.1, x.1)) := by
      intro pathToParent
      rw [nodeOf_branch]
      unfold BinaryTree.updateBranch
      dsimp only
      rw [htake, hbit]
      dsimp only
      rw [merkelize_stem _ hnode]
      simp only [List.map_cons, List.map_nil]
      rw [nodeOf_branch]
      change Except.ok [(BinaryNode.internal _, _)] = _
      rw [setChild_again]
      rfl
    have hrest := putParents_internal (u := branch ((keyBits stemNode.stem).getD (next :: sibs).length false) u sib) hbits
      (by simp) (hplug ▸ hAt) (isInternal_branch _ _ _)
      (show (entry tree.hashFunction ((keyBits stemNode.stem).take (next :: sibs).length,
        branch ((keyBits stemNode.stem).getD (next :: sibs).length false) (.stem stemNode) sib) ::
          [entry tree.hashFunction ([], .stem stemNode)]).head? = _ from rfl)
    rw [stackOf_cons, putNode_step tree (by rw [stackOf_cons]; rfl) (hupdated _)
      (by simpa using hparent) rfl, hplug]
    refine ⟨_, hrest, fun y => ?_⟩
    conv_rhs => rw [above, Nat.zero_add]
    simp only [List.mem_append, List.mem_reverse, List.mem_cons, List.map_cons, List.not_mem_nil,
      or_false]
    simp only [or_assoc, or_comm]

/-- A stem parts from another one below internal nodes. -/
theorem putNode_fork (tree : BinaryTree) (hnode : stemNode.Valid) {sibs : List StemTree}
    {other : StemBinaryNode} (hne : sibs ≠ [])
    (hAt : (plug (keyBits stemNode.stem) 0 sibs (.stem other)).At [])
    (hstems : other.stem ≠ stemNode.stem) {diffIndex : Nat}
    (hdiff : diffIndex = matchingBitsLength (keyBits stemNode.stem) (keyBits other.stem)) :
    ∃ puts, tree.putNode stemNode
        ((.stem other, (keyBits stemNode.stem).take diffIndex) ::
          stackOf tree.hashFunction (keyBits stemNode.stem) sibs (.stem other))
        [entry tree.hashFunction ([], .stem stemNode)] =
          .ok (saved tree (plug (keyBits stemNode.stem) 0 (.stem other ::
            (List.replicate (diffIndex - sibs.length) .nil ++ sibs)) (.stem stemNode)) puts) ∧
      ∀ y, y ∈ puts ↔ y = entry tree.hashFunction ([], .stem stemNode) ∨
        y ∈ (above (keyBits stemNode.stem) 0 (.stem other ::
          (List.replicate (diffIndex - sibs.length) .nil ++ sibs)) (.stem stemNode)).map
            (entry tree.hashFunction) := by
  have hbits := length_bits hnode.1
  have hle := length_le_matching hnode.1 hAt
  have hAt' : (plug (keyBits stemNode.stem) 0 sibs (.stem other)).At
    ((keyBits stemNode.stem).take 0) := hAt
  have hother : other.Valid := (At.of_plug hAt' hbits).1.1
  have hbitsne : keyBits stemNode.stem ≠ keyBits other.stem := fun h =>
    hstems (keyBits_injective (hnode.1.trans hother.1.symm) h).symm
  have hlt := matchingBitsLength_lt (by rw [hbits, length_bits hother.1]) hbitsne
  rw [← hdiff] at hle hlt
  obtain ⟨hforked, hinternal, hcount⟩ := at_forked hnode hother hbitsne (hdiff ▸ hle)
  have hsplitAt := at_split hnode hother hbitsne
  obtain ⟨node, hsplit, hnodeOf⟩ := splitNode_eq (H := tree.hashFunction) hnode hother hbitsne
  rw [← hdiff] at hsplitAt hnodeOf
  have hset : (plug (keyBits stemNode.stem) 0 sibs (forked stemNode other sibs.length)).At [] :=
    At.plug_of_le hAt' hbits (by rw [Nat.zero_add]; exact hforked)
      ((show 1 ≤ 2 by decide).trans hcount)
  obtain ⟨bottom, hbottom⟩ : ∃ bottom, sibs.length = bottom + 1 :=
    ⟨sibs.length - 1, by have := List.length_pos_iff.mpr hne; omega⟩
  have hparent : (stackOf tree.hashFunction (keyBits stemNode.stem) sibs (.stem other)).head?.map
      Prod.snd = some ((keyBits stemNode.stem).take bottom) := by
    cases sibs with
    | nil => exact absurd rfl hne
    | cons sib sibs =>
      rw [stackOf_cons, List.head?_cons, Option.map_some]
      cases hbottom
      rfl
  obtain ⟨xs, heq⟩ : ∃ xs, xs = ((keyBits stemNode.stem).take diffIndex,
      branch ((keyBits stemNode.stem).getD diffIndex false) (.stem stemNode) (.stem other)) ::
      above (keyBits stemNode.stem) sibs.length (List.replicate (diffIndex - sibs.length) .nil)
        (branch ((keyBits stemNode.stem).getD diffIndex false) (.stem stemNode) (.stem other)) :=
    ⟨_, rfl⟩
  have hxs : ∀ x ∈ xs, x.2.At x.1 := by
    intro x hx
    rw [heq] at hx
    rcases List.mem_cons.mp hx with rfl | hx
    · exact hsplitAt
    · refine hforked.of_mem_nodes ?_
      rw [forked_eq hdiff]
      exact (mem_nodes_plug (by rw [List.length_replicate]; omega)).mpr (.inr (.inl hx))
  have hlast : xs.getLast? = some ((keyBits stemNode.stem).take sibs.length,
      forked stemNode other sibs.length) := by
    have hlast := getLast_above (keyBits stemNode.stem) sibs.length
      (List.replicate (diffIndex - sibs.length) .nil)
      (branch ((keyBits stemNode.stem).getD diffIndex false) (.stem stemNode) (.stem other))
    rw [List.length_replicate, Nat.add_sub_cancel' hle] at hlast
    rw [heq, hlast, forked_eq hdiff]
  have hupdate : BinaryTree.updateBranch tree.hashFunction stemNode (.stem other)
      ((keyBits stemNode.stem).take diffIndex) ((keyBits stemNode.stem).take bottom) =
      .ok (xs.map fun x => (x.2.nodeOf tree.hashFunction x.1, x.1)) := by
    have hmatch : matchingBitsLength ((keyBits stemNode.stem).take diffIndex)
        ((keyBits stemNode.stem).take bottom) = bottom := by
      have htake := matchingBitsLength_take ((keyBits stemNode.stem).take diffIndex) bottom
      rw [List.take_take, Nat.min_eq_left (by omega), List.length_take, hbits,
        Nat.min_eq_left (by omega)] at htake
      exact htake
    have hsum : bottom + 1 + (diffIndex - sibs.length) = diffIndex := by omega
    have hpre := prefixNodes_eq (H := tree.hashFunction) hbits bottom (diffIndex - sibs.length)
      (by omega) (hsum.symm ▸ hsplitAt) (isInternal_branch _ _ _)
    rw [hsum] at hpre
    unfold BinaryTree.updateBranch
    dsimp only
    rw [hsplit, hmatch, ← hdiff]
    change (BinaryTree.prefixNodes _ _ _ _ _ >>= _) = _
    rw [hnodeOf, hpre, ← hbottom, heq]
    rfl
  have hhead : ((xs.map (entry tree.hashFunction)).reverse ++
      [entry tree.hashFunction ([], .stem stemNode)]).head? = some (entry tree.hashFunction
        ((keyBits stemNode.stem).take sibs.length, forked stemNode other sibs.length)) := by
    rw [List.head?_append, List.head?_reverse, List.getLast?_map, hlast]
    rfl
  rw [putNode_step tree hparent hupdate hxs (by rw [hlast]; rfl), plug_fork _ _ _ hdiff hle,
    above_fork _ _ _ hdiff hle, ← heq]
  refine ⟨_, putParents_internal hbits hne hset hinternal hhead, fun y => ?_⟩
  simp only [List.mem_append, List.mem_reverse, List.map_append, List.mem_singleton]
  simp only [or_assoc, or_comm, or_left_comm]

/-- `put` from step 2 on gives the stem its place in any tree that is not empty. -/
theorem putNode_eq (tree : BinaryTree) (hnode : stemNode.Valid) (hAt : t.At [])
    (hnil : t ≠ .nil) :
    ∃ puts, tree.putNode stemNode (fullPath tree.hashFunction stemNode.stem t).stack
        [entry tree.hashFunction ([], .stem stemNode)] =
          .ok (saved tree (t.set stemNode) puts) ∧ Writes tree.hashFunction stemNode t puts := by
  cases t with
  | nil => exact absurd rfl hnil
  | stem root => exact putNode_root tree hnode hAt.1
  | internal left right =>
    have hset := at_set hnode hAt
    have hne := descend_ne_nil (keyBits stemNode.stem) (.internal left right) [] (.inl rfl)
    have hplug := plug_descend (keyBits stemNode.stem) (.internal left right) []
    have hstuck := descend_stuck (keyBits stemNode.stem) (.internal left right) []
    change ∃ puts, tree.putNode stemNode (pathOf tree.hashFunction stemNode.stem
      (descend (keyBits stemNode.stem) (.internal left right) []).1
      (descend (keyBits stemNode.stem) (.internal left right) []).2).stack _ = _ ∧ _
    unfold Writes
    unfold StemTree.set at hset ⊢
    unfold StemTree.siblings at hset ⊢
    generalize descend (keyBits stemNode.stem) (.internal left right) [] = found at *
    obtain ⟨sibs, u⟩ := found
    change plug (keyBits stemNode.stem) 0 sibs u = .internal left right at hplug
    rw [← hplug] at hAt
    cases u with
    | internal left right => cases hstuck
    | nil => exact putNode_place tree hnode hne hset _
    | stem other =>
      dsimp only [pathOf] at hset ⊢
      by_cases heq : other.stem = stemNode.stem
      · rw [if_pos heq] at hset
        simp only [if_pos heq]
        exact putNode_place tree hnode hne hset _
      · simp only [if_neg heq]
        exact putNode_fork tree hnode hne hAt heq rfl

end Set

end EthereumJS.Binarytree
