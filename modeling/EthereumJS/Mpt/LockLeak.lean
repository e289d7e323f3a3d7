import EthereumJS.Mpt.Lock

/-! # When the lock of a trie stays taken

A call that throws between its acquire and its release leaves the lock taken. The calls that do so
are found from the nodes that they read.
-/

namespace EthereumJS

open RLP Overlay Patricia

section Fails

variable {α β : Type}

/-- The computation throws; one that is out of fuel goes on. -/
def Fails (r : Except MPTError α) : Prop := ∃ e, r = .error e ∧ e ≠ .outOfFuel

theorem not_fails_ok (a : α) : ¬ Fails (Except.ok a : Except MPTError α) := by
  rintro ⟨e, h, _⟩
  cases h

theorem fails_error {e : MPTError} (he : e ≠ .outOfFuel) :
    Fails (.error e : Except MPTError α) := ⟨e, rfl, he⟩

theorem fails_bind {r : Except MPTError α} {f : α → Except MPTError β} :
    Fails (r >>= f) ↔ Fails r ∨ ∃ a, r = .ok a ∧ Fails (f a) := by
  cases r with
  | error e =>
    constructor
    · rintro ⟨e', h, he⟩
      cases h
      exact .inl ⟨e, rfl, he⟩
    · rintro (⟨e', h, he⟩ | ⟨a, h, _⟩)
      · cases h
        exact ⟨e, rfl, he⟩
      · cases h
  | ok a =>
    constructor
    · exact fun h => .inr ⟨a, rfl, h⟩
    · rintro (h | ⟨b, hb, h⟩)
      · exact absurd h (not_fails_ok a)
      · cases hb
        exact h

theorem fails_map {r : Except MPTError α} {f : α → β} : Fails (r.map f) ↔ Fails r := by
  cases r with
  | error e =>
    constructor
    · rintro ⟨e', h, he⟩
      cases h
      exact ⟨e, rfl, he⟩
    · rintro ⟨e', h, he⟩
      cases h
      exact ⟨e, rfl, he⟩
  | ok a => exact iff_of_false (not_fails_ok _) (not_fails_ok _)

end Fails

theorem decodeRawMPTNode_error {raw : List Item} {e : MPTError}
    (h : decodeRawMPTNode raw = .error e) : e = .invalidNode := by
  unfold decodeRawMPTNode at h
  split at h
  · cases h
  · split at h
    · cases h
    · cases h
      rfl

theorem decodeMPTNode_error {node : Bytes} {e : MPTError} (h : decodeMPTNode node = .error e) :
    e = .invalidNode ∨ ∃ error, e = .rlp error := by
  unfold decodeMPTNode at h
  split at h
  · exact .inl (decodeRawMPTNode_error h)
  · cases h
    exact .inl rfl
  · cases h
    exact .inr ⟨_, rfl⟩

namespace MerklePatriciaTrie

variable {trie : MerklePatriciaTrie} {fuel : Nat} {key : Bytes} {path : Path}

theorem lookupNode_error {nodeRef : Item} {e : MPTError} (h : trie.lookupNode nodeRef = .error e) :
    e ≠ .outOfFuel := by
  cases nodeRef with
  | list raw =>
    rw [decodeRawMPTNode_error h]
    simp
  | bytes node =>
    rw [lookupNode] at h
    split at h
    · cases h
      simp
    · obtain rfl | ⟨error, rfl⟩ := decodeMPTNode_error h
      · simp
      · simp

theorem lookupNode_missing_iff {hash : Bytes} :
    trie.lookupNode (.bytes hash) = .error .missingNode ↔ trie.db hash = none := by
  rw [lookupNode]
  split
  · next hnone => simp [hnone]
  · next value hvalue =>
    refine iff_of_false (fun h => ?_) (by simp [hvalue])
    obtain heq | ⟨error, heq⟩ := decodeMPTNode_error h
    · cases heq
    · cases heq

/-- A search that ends goes the same way with more fuel. -/
theorem searchFrom_succ (fuel : Nat) : ∀ {nodeRef : Item} {pathProgress : Nat}
    {targetKey : Nibbles} {stack : List (Nat × MPTNode)},
    trie.searchFrom fuel nodeRef pathProgress targetKey stack ≠ .error .outOfFuel →
      trie.searchFrom (fuel + 1) nodeRef pathProgress targetKey stack =
        trie.searchFrom fuel nodeRef pathProgress targetKey stack := by
  induction fuel with
  | zero => exact fun h => absurd rfl h
  | succ fuel ih =>
    intro nodeRef pathProgress targetKey stack h
    rw [searchFrom] at h
    rw [searchFrom, searchFrom]
    cases hlookup : trie.lookupNode nodeRef with
    | error e => cases e <;> rfl
    | ok node =>
      rw [hlookup] at h
      cases node with
      | leaf nibbles v => rfl
      | extension nibbles v =>
        dsimp only at h ⊢
        cases hrest : stripPrefix nibbles targetKey with
        | none => rfl
        | some rest =>
          rw [hrest] at h
          exact ih h
      | branch branches v =>
        cases targetKey with
        | nil => rfl
        | cons branchIndex rest =>
          dsimp only at h ⊢
          cases hchild : (MPTNode.branch branches v).getBranch branchIndex with
          | none => rfl
          | some branchNode =>
            rw [hchild] at h
            exact ih h

theorem placeNode_tail {pathProgress : Nat} {node : MPTNode} {stack : List (Nat × MPTNode)} :
    ∀ entry ∈ (placeNode pathProgress node stack).tail, entry ∈ stack := by
  intro entry hentry
  cases stack with
  | nil => cases hentry
  | cons last stack =>
    obtain ⟨other, last⟩ := last
    rw [placeNode] at hentry
    split at hentry
    · exact List.mem_cons_of_mem _ hentry
    · exact hentry

theorem exists_placeNode (pathProgress : Nat) (node : MPTNode) (stack : List (Nat × MPTNode)) :
    ∃ rest, placeNode pathProgress node stack = (pathProgress, node) :: rest := by
  cases stack with
  | nil => exact ⟨[], rfl⟩
  | cons last stack =>
    obtain ⟨other, last⟩ := last
    rw [placeNode]
    split
    · exact ⟨_, rfl⟩
    · exact ⟨_, rfl⟩

/-- What holds of the stack of every path: only its last node may be a leaf, and it is empty only
where the first node is missing. -/
structure Sound (found : Bool) (path : Path) : Prop where
  above : ∀ node ∈ path.stack.tail, node.isLeaf = false
  nonempty : found → path.stack ≠ []
  node : path.node.isSome → path.stack ≠ []

theorem sound_place {pathProgress : Nat} {node : MPTNode} {stack : List (Nat × MPTNode)}
    (hstack : ∀ entry ∈ stack, entry.2.isLeaf = false) (target : Option MPTNode)
    (remaining : Nibbles) (found : Bool) :
    Sound found ⟨target, remaining, (placeNode pathProgress node stack).map Prod.snd⟩ := by
  obtain ⟨rest, hplaced⟩ := exists_placeNode pathProgress node stack
  refine ⟨?_, fun _ => ?_, fun _ => ?_⟩
  · intro above habove
    rw [← List.map_tail] at habove
    obtain ⟨entry, hentry, rfl⟩ := List.mem_map.mp habove
    exact hstack entry (placeNode_tail entry hentry)
  · simp [hplaced]
  · simp [hplaced]

theorem leafless_place {pathProgress : Nat} {node : MPTNode} {stack : List (Nat × MPTNode)}
    (hstack : ∀ entry ∈ stack, entry.2.isLeaf = false) (hnode : node.isLeaf = false) :
    ∀ entry ∈ placeNode pathProgress node stack, entry.2.isLeaf = false := by
  obtain ⟨rest, hplaced⟩ := exists_placeNode pathProgress node stack
  have htail := @placeNode_tail pathProgress node stack
  rw [hplaced] at htail ⊢
  intro entry hentry
  obtain rfl | hentry := List.mem_cons.mp hentry
  · exact hnode
  · exact hstack entry (htail entry hentry)

theorem sound_searchFrom (fuel : Nat) : ∀ {nodeRef : Item} {pathProgress : Nat}
    {targetKey : Nibbles} {stack : List (Nat × MPTNode)} {path : Path} {found : Bool},
    (∀ entry ∈ stack, entry.2.isLeaf = false) →
    (found → stack ≠ [] ∨ trie.lookupNode nodeRef ≠ .error .missingNode) →
    trie.searchFrom fuel nodeRef pathProgress targetKey stack = .ok path → Sound found path := by
  induction fuel with
  | zero =>
    intro nodeRef pathProgress targetKey stack path found hstack hfound h
    cases h
  | succ fuel ih =>
    intro nodeRef pathProgress targetKey stack path found hstack hfound h
    have hplaced := @sound_place pathProgress
    have hmore : ∀ {node child progress rest}, node.isLeaf = false →
        trie.searchFrom fuel child progress rest (placeNode pathProgress node stack) = .ok path →
        Sound found path := by
      intro node child progress rest hnode hchild
      refine ih (leafless_place hstack hnode) (fun _ => .inl ?_) hchild
      obtain ⟨rest, hnonempty⟩ := exists_placeNode pathProgress node stack
      simp [hnonempty]
    rw [searchFrom] at h
    split at h
    · next hmissing =>
      cases h
      refine ⟨fun node hnode => ?_, fun hf => ?_, fun hn => absurd hn (by simp)⟩
      · obtain ⟨entry, hentry, rfl⟩ := List.mem_map.mp (List.mem_of_mem_tail hnode)
        exact hstack entry hentry
      · obtain hne | hlookup := hfound hf
        · simpa using hne
        · exact absurd hmissing hlookup
    · cases h
    · next node hnode =>
      dsimp only at h
      split at h
      · split at h
        · cases h
          exact hplaced hstack _ _ found
        · split at h
          · cases h
            exact hplaced hstack _ _ found
          · exact hmore rfl h
      · split at h
        · cases h
          exact hplaced hstack _ _ found
        · cases h
          exact hplaced hstack _ _ found
      · split at h
        · cases h
          exact hplaced hstack _ _ found
        · exact hmore rfl h

theorem sound_searchPath (h : trie.searchPath fuel key = .ok path) :
    Sound (trie.db trie.root).isSome path := by
  refine sound_searchFrom fuel (by simp) (fun hroot => .inr fun hmissing => ?_) h
  rw [lookupNode_missing_iff.mp hmissing] at hroot
  cases hroot

/-- The only child of the node, if it has just one, is there and decodes. -/
def ChildReadable (trie : MerklePatriciaTrie) (node : MPTNode) : Prop :=
  ∀ child, node.getChildren = [child] → ∃ found, trie.lookupNode child.2 = .ok found

/-- The branch that a leaf is cut off. -/
def cutBranch (key : Bytes) (lastNode parentNode : MPTNode) : MPTNode :=
  match (spliceTail (bytesToNibbles key) lastNode.key.length).getLast? with
  | some branchIndex => parentNode.setBranch branchIndex (.bytes [])
  | none => parentNode

/-- The nodes at the end of the path are those of a trie, as far as the deletion reads them. -/
def CanDelete (trie : MerklePatriciaTrie) (key : Bytes) : List MPTNode → Prop
  | lastNode :: parentNode :: _ =>
    if lastNode.isBranch then trie.ChildReadable (lastNode.setValue none)
    else parentNode.isBranch ∧ trie.ChildReadable (cutBranch key lastNode parentNode)
  | _ => True

theorem fails_lookupNode {nodeRef : Item} :
    Fails (trie.lookupNode nodeRef) ↔ ¬ ∃ found, trie.lookupNode nodeRef = .ok found := by
  cases hlookup : trie.lookupNode nodeRef with
  | error e => exact iff_of_true (fails_error (lookupNode_error hlookup)) (by simp)
  | ok found => exact iff_of_false (not_fails_ok found) (by simp)

theorem not_fails_collapse {nibbles : Nibbles} {branchIndex : Nibble} {childNode : MPTNode}
    {stack : List MPTNode} (hstack : ∀ node ∈ stack, node.isLeaf = false) :
    ¬ Fails (collapseBranchWithOneChild nibbles branchIndex childNode stack) := by
  unfold collapseBranchWithOneChild
  split
  · split
    · exact not_fails_ok _
    · exact not_fails_ok _
  · exact absurd (hstack _ List.mem_cons_self) (by simp [MPTNode.isLeaf])
  · split
    · exact not_fails_ok _
    · exact not_fails_ok _

theorem fails_saveShrunk {nibbles : Nibbles} {lastNode : MPTNode} {stack : List MPTNode}
    {opStack : List BatchDBOp} (hstack : ∀ node ∈ stack, node.isLeaf = false) :
    Fails (trie.saveShrunk nibbles lastNode stack opStack) ↔ ¬ trie.ChildReadable lastNode := by
  rw [saveShrunk]
  split
  · next branchNodeKey branchNode hchildren =>
    have hreadable : trie.ChildReadable lastNode ↔
        ∃ found, trie.lookupNode branchNode = .ok found := by
      rw [ChildReadable, hchildren]
      constructor
      · exact fun h => h _ rfl
      · intro h child hchild
        obtain rfl := List.singleton_inj.mp hchild
        exact h
    rw [hreadable, ← fails_lookupNode]
    constructor
    · intro h
      obtain h | ⟨found, _, h⟩ := fails_bind.mp h
      · exact h
      · obtain h | ⟨collapsed, _, h⟩ := fails_bind.mp h
        · exact absurd h (not_fails_collapse hstack)
        · exact absurd h (not_fails_ok _)
    · exact fun h => fails_bind.mpr (.inl h)
  · next hmany =>
    refine iff_of_false (not_fails_ok _) (not_not_intro fun child hchild => ?_)
    exact absurd hchild (hmany child.1 child.2)

theorem fails_deleteNode {stack : List MPTNode} (hnonempty : stack ≠ [])
    (habove : ∀ node ∈ stack.tail, node.isLeaf = false) :
    Fails (trie.deleteNode key stack) ↔ ¬ trie.CanDelete key stack := by
  cases stack with
  | nil => exact absurd rfl hnonempty
  | cons lastNode stack =>
    cases stack with
    | nil => exact iff_of_false (not_fails_ok _) (not_not_intro trivial)
    | cons parentNode stack =>
      rw [deleteNode, CanDelete]
      dsimp only
      by_cases hlast : lastNode.isBranch
      · rw [if_pos hlast, if_pos hlast]
        exact fails_saveShrunk habove
      · rw [if_neg hlast, if_neg hlast]
        by_cases hparent : parentNode.isBranch
        · rw [if_pos hparent, not_and, imp_iff_right hparent]
          exact fails_saveShrunk fun node hnode => habove node (List.mem_cons_of_mem _ hnode)
        · rw [if_neg hparent]
          exact iff_of_true (fails_error (by simp)) fun h => hparent h.1

/-- What `del` needs: the nodes that the search meets decode, and where it finds the key the
deletion reads what it has to. -/
def DelMeets (trie : MerklePatriciaTrie) (fuel : Nat) (key : Bytes) : Prop :=
  ¬ Fails (trie.searchPath fuel key) ∧
    ∀ path, trie.searchPath fuel key = .ok path → path.node.isSome → trie.CanDelete key path.stack

/-- What `put` needs: the nodes that the search meets decode and the first one is there. A trie
that prunes searches for the transformed key as well. -/
def PutMeets (trie : MerklePatriciaTrie) (fuel : Nat) (key : Bytes) (skipKeyTransform : Bool) :
    Prop :=
  let appliedKey := if skipKeyTransform then key else trie.appliedKey key
  trie.root ≠ trie.emptyTrieRoot → ¬ Fails (trie.searchPath fuel appliedKey) ∧
    ∀ path, trie.searchPath fuel appliedKey = .ok path → (trie.db trie.root).isSome ∧
      (trie.opts.useNodePruning → ¬ Fails (trie.searchPath fuel (trie.appliedKey key)))

theorem fails_delLocked {skipKeyTransform : Bool} :
    Fails (trie.delLocked fuel key skipKeyTransform) ↔
      ¬ trie.DelMeets fuel (if skipKeyTransform then key else trie.appliedKey key) := by
  rw [delLocked, fails_bind, DelMeets, not_and_or, not_not]
  refine or_congr_right ?_
  simp only [not_forall]
  constructor
  · rintro ⟨path, hpath, h⟩
    cases hnode : path.node with
    | none =>
      rw [hnode] at h
      exact absurd h (not_fails_ok _)
    | some node =>
      rw [hnode] at h
      obtain h | ⟨effect, _, h⟩ := fails_bind.mp h
      · have hsound := sound_searchPath hpath
        refine ⟨path, hpath, by simp [hnode], ?_⟩
        exact (fails_deleteNode (hsound.node (by simp [hnode])) hsound.above).mp h
      · exact absurd h (not_fails_ok _)
  · rintro ⟨path, hpath, hnode, h⟩
    obtain ⟨node, hnode⟩ := Option.isSome_iff_exists.mp hnode
    have hsound := sound_searchPath hpath
    refine ⟨path, hpath, ?_⟩
    rw [hnode]
    refine fails_bind.mpr (.inl ?_)
    exact (fails_deleteNode (hsound.node (by simp [hnode])) hsound.above).mpr h

theorem fails_pruneOps {value : Bytes} {stack : List MPTNode} :
    Fails (trie.pruneOps fuel key value stack) ↔
      trie.opts.useNodePruning ∧ Fails (trie.searchPath fuel (trie.appliedKey key)) := by
  rw [pruneOps]
  by_cases hpruning : trie.opts.useNodePruning
  · rw [if_pos hpruning, and_iff_right hpruning, fails_bind, searchValue, fails_bind]
    constructor
    · rintro ((h | ⟨path, _, h⟩) | ⟨val, _, h⟩)
      · exact h
      · split at h
        · exact absurd h (not_fails_ok _)
        · exact absurd h (not_fails_ok _)
      · exact absurd h (not_fails_ok _)
    · exact fun h => .inl (.inl h)
  · rw [if_neg hpruning]
    exact iff_of_false (not_fails_ok _) fun h => hpruning h.1

theorem fails_updateNode {value : Bytes} {keyRemainder : Nibbles} {stack : List MPTNode} :
    Fails (trie.updateNode key value keyRemainder stack) ↔ stack = [] := by
  cases stack with
  | nil => exact iff_of_true (fails_error (by simp)) rfl
  | cons lastNode stack =>
    refine iff_of_false ?_ (by simp)
    unfold updateNode
    dsimp only
    split
    · exact not_fails_ok _
    · split
      · split
        · exact not_fails_ok _
        · exact not_fails_ok _
      · exact not_fails_ok _

/-- Where the first node is missing no search meets a node. -/
theorem searchPath_of_missing {other : Bytes} (hroot : trie.db trie.root = none)
    (h : trie.searchPath fuel key = .ok path) :
    path.stack = [] ∧ trie.searchPath fuel other = .ok ⟨none, [], []⟩ := by
  cases fuel with
  | zero => cases h
  | succ fuel =>
    rw [searchPath, searchFrom, lookupNode_missing_iff.mpr hroot] at h ⊢
    cases h
    exact ⟨rfl, rfl⟩

theorem exists_pruneOps_of_missing {value : Bytes} {stack : List MPTNode}
    (h : trie.searchPath fuel (trie.appliedKey key) = .ok ⟨none, [], []⟩) :
    ∃ ops, trie.pruneOps fuel key value stack = .ok ops := by
  rw [pruneOps, searchValue, h]
  split
  · exact ⟨_, rfl⟩
  · exact ⟨_, rfl⟩

theorem fails_putLocked {value : Bytes} {skipKeyTransform : Bool} :
    Fails (trie.putLocked fuel key value skipKeyTransform) ↔
      ¬ trie.PutMeets fuel key skipKeyTransform := by
  rw [putLocked, PutMeets]
  by_cases hempty : trie.root = trie.emptyTrieRoot
  · rw [if_pos hempty]
    exact iff_of_false (not_fails_ok _) (not_not_intro fun h => absurd hempty h)
  · rw [if_neg hempty, imp_iff_right hempty, fails_bind, not_and_or, not_not]
    refine or_congr_right ?_
    constructor
    · rintro ⟨path, hpath, h⟩ hmeets
      obtain ⟨hroot, hpruning⟩ := hmeets path hpath
      obtain h | ⟨ops, _, h⟩ := fails_bind.mp h
      · obtain ⟨huse, h⟩ := fails_pruneOps.mp h
        exact hpruning huse h
      · obtain h | ⟨effect, _, h⟩ := fails_bind.mp h
        · exact (sound_searchPath hpath).nonempty hroot (fails_updateNode.mp h)
        · exact absurd h (not_fails_ok _)
    · intro h
      obtain ⟨path, h⟩ := not_forall.mp h
      obtain ⟨hpath, h⟩ := Classical.not_imp.mp h
      refine ⟨path, hpath, fails_bind.mpr ?_⟩
      cases hroot : trie.db trie.root with
      | none =>
        obtain ⟨hstack, hother⟩ := searchPath_of_missing hroot hpath
        obtain ⟨ops, hops⟩ := exists_pruneOps_of_missing hother
        exact .inr ⟨ops, hops, fails_bind.mpr (.inl (fails_updateNode.mpr hstack))⟩
      | some root =>
        rw [hroot, Option.isSome_some, and_iff_right rfl, Classical.not_imp, not_not] at h
        exact .inl (fails_pruneOps.mpr h)

/-- The root that is set is a hash. -/
theorem length_saveNodes (stack : List MPTNode) : ∀ (nibbles : Nibbles) (childHash : Option Item)
    (opStack : List BatchDBOp), stack ≠ [] →
      ∃ hash ops, trie.saveNodes nibbles stack childHash opStack = (some (.bytes hash), ops) ∧
        hash.length = 32 := by
  induction stack with
  | nil => exact fun _ _ _ h => absurd rfl h
  | cons node stack ih =>
    intro nibbles childHash opStack _
    rw [saveNodes]
    cases stack with
    | nil =>
      dsimp only [saveNodes, formatNode, List.isEmpty]
      rw [if_pos (.inr rfl)]
      exact ⟨_, _, rfl, trie.opts.useKeyHashingFunction.length_hash _⟩
    | cons above stack => exact ih _ _ _ (by simp)

theorem length_saveStack {nibbles : Nibbles} {stack : List MPTNode} {opStack : List BatchDBOp}
    (hroot : trie.root.length = 32) : (trie.saveStack nibbles stack opStack).root.length = 32 := by
  cases stack with
  | nil => exact hroot
  | cons node stack =>
    obtain ⟨hash, ops, hsaved, hlength⟩ :=
      @length_saveNodes trie (node :: stack) nibbles none opStack (by simp)
    rw [saveStack, hsaved]
    exact hlength

/-- Every effect that the computation ends with sets a root of 32 bytes. -/
def Rooted (r : Except MPTError Effect) : Prop := ∀ effect, r = .ok effect → effect.root.length = 32

theorem rooted_ok {effect : Effect} (h : effect.root.length = 32) : Rooted (.ok effect) := by
  intro other hother
  cases hother
  exact h

theorem rooted_error (e : MPTError) : Rooted (.error e) := fun _ h => by cases h

theorem rooted_bind {α : Type} {r : Except MPTError α} {f : α → Except MPTError Effect}
    (h : ∀ a, r = .ok a → Rooted (f a)) : Rooted (r >>= f) := by
  cases r with
  | error e => exact rooted_error e
  | ok a => exact h a rfl

theorem rooted_saveShrunk (hroot : trie.root.length = 32) {nibbles : Nibbles} {lastNode : MPTNode}
    {stack : List MPTNode} {opStack : List BatchDBOp} :
    Rooted (trie.saveShrunk nibbles lastNode stack opStack) := by
  rw [saveShrunk]
  split
  · exact rooted_bind fun _ _ => rooted_bind fun _ _ => rooted_ok (length_saveStack hroot)
  · exact rooted_ok (length_saveStack hroot)

theorem rooted_deleteNode (hroot : trie.root.length = 32) (stack : List MPTNode) :
    Rooted (trie.deleteNode key stack) := by
  unfold deleteNode
  split
  · exact rooted_error _
  · exact rooted_ok (trie.opts.useKeyHashingFunction.length_hash _)
  · dsimp only
    split
    · exact rooted_saveShrunk hroot
    · split
      · exact rooted_saveShrunk hroot
      · exact rooted_error _

theorem rooted_updateNode (hroot : trie.root.length = 32) {value : Bytes} {keyRemainder : Nibbles}
    (stack : List MPTNode) : Rooted (trie.updateNode key value keyRemainder stack) := by
  unfold updateNode
  split
  · exact rooted_error _
  · dsimp only
    split
    · exact rooted_ok (length_saveStack hroot)
    · split
      · split
        · exact rooted_ok (length_saveStack hroot)
        · exact rooted_ok (length_saveStack hroot)
      · exact rooted_ok (length_saveStack hroot)

theorem rooted_delLocked (hroot : trie.root.length = 32) (skipKeyTransform : Bool) :
    Rooted (trie.delLocked fuel key skipKeyTransform) := by
  refine rooted_bind fun path _ => ?_
  split
  · exact rooted_ok hroot
  · refine rooted_bind fun effect heffect => rooted_ok ?_
    exact rooted_deleteNode hroot path.stack effect heffect

theorem rooted_putLocked (hroot : trie.root.length = 32) (value : Bytes)
    (skipKeyTransform : Bool) : Rooted (trie.putLocked fuel key value skipKeyTransform) := by
  unfold putLocked
  dsimp only
  split
  · exact rooted_ok (trie.opts.useKeyHashingFunction.length_hash _)
  · refine rooted_bind fun path _ => rooted_bind fun ops _ => ?_
    refine rooted_bind fun effect heffect => rooted_ok ?_
    exact rooted_updateNode hroot path.stack effect heffect

end MerklePatriciaTrie

namespace LockedTrie

variable {self next : LockedTrie} {fuel : Nat} {result : Except LockedError Unit}

/-- All roots have the length of a hash, which the setter of the root checks. -/
structure Rooted (list : LockedTrie) : Prop where
  current : list.tries.current.root.length = 32
  saved : ∀ trie ∈ list.tries.saved, trie.root.length = 32

/-- What the calls need that the lock is free again. -/
def Meets (self : LockedTrie) (fuel : Nat) : LockedOp → Prop
  | .put key value skipKeyTransform =>
    ¬ (self.useRootPersistence ∧ key = ROOT_DB_KEY) →
      match value with
      | none | some [] =>
        self.tries.current.DelMeets fuel (self.tries.current.appliedKey key)
      | some _ => self.tries.current.PutMeets fuel key skipKeyTransform
  | .del key skipKeyTransform =>
    self.tries.current.DelMeets fuel
      (if skipKeyTransform then key else self.tries.current.appliedKey key)
  | .checkpoint | .commit | .revert => True

def MeetsRun (self : LockedTrie) (fuel : Nat) : List LockedOp → Prop
  | [] => True
  | op :: ops => self.Meets fuel op ∧
    ∀ result next, self.step fuel op = some (result, next) → next.MeetsRun fuel ops

/-- A call that acquires the free lock leaves it free if and only if its body does not throw. -/
theorem withLock_free {body : Except MPTError (Nested MerklePatriciaTrie)}
    (hlock : self.lock = .new) :
    (∀ result next, self.withLock body = some (result, next) → next.lock = .new) ↔
      ¬ Fails body := by
  rw [withLock, hlock, Lock.acquire_new]
  dsimp only
  split
  · exact iff_of_true (fun result next h => by cases h) fun ⟨e, h, he⟩ => he (by cases h; rfl)
  · next e he =>
    refine iff_of_false (fun h => ?_) (not_not_intro (fails_error he))
    have hfree := h _ _ rfl
    cases hfree
  · next tries =>
    refine iff_of_true (fun result next h => ?_) (not_fails_ok _)
    cases h
    rfl

/-- Where a call ends without the lock, the lock is as it was. -/
theorem free_of_unlocked {outcome : Except LockedError Unit × LockedTrie}
    (h : outcome.2.lock = .new) : ∀ result next, some outcome = some (result, next) →
      next.lock = .new := by
  intro result next heq
  cases heq
  exact h

theorem del_free {key : Bytes} {skipKeyTransform : Bool} (hlock : self.lock = .new) :
    (∀ result next, self.del fuel key skipKeyTransform = some (result, next) →
      next.lock = .new) ↔
    self.tries.current.DelMeets fuel
      (if skipKeyTransform then key else self.tries.current.appliedKey key) := by
  rw [del, withLock_free hlock, fails_map, MerklePatriciaTrie.fails_delLocked, not_not]

theorem put_free {key : Bytes} {value : Option Bytes} {skipKeyTransform : Bool}
    (hlock : self.lock = .new) :
    (∀ result next, self.put fuel key value skipKeyTransform = some (result, next) →
      next.lock = .new) ↔ self.Meets fuel (.put key value skipKeyTransform) := by
  unfold put Meets
  by_cases hkey : self.useRootPersistence ∧ key = ROOT_DB_KEY
  · rw [if_pos hkey]
    exact iff_of_true (free_of_unlocked hlock) fun h => absurd hkey h
  · rw [if_neg hkey]
    dsimp only
    rw [imp_iff_right hkey]
    match value with
    | none => exact del_free hlock
    | some [] => exact del_free hlock
    | some (byte :: bytes) =>
      rw [withLock_free hlock, fails_map, MerklePatriciaTrie.fails_putLocked, not_not]

theorem commit_free (hlock : self.lock = .new) :
    ∀ result next, self.commit = some (result, next) → next.lock = .new := by
  rw [commit]
  split
  · exact free_of_unlocked hlock
  · exact (withLock_free hlock).mpr (not_fails_ok _)

theorem Rooted.reverted (h : self.Rooted) {tries : Nested MerklePatriciaTrie}
    (htries : self.tries.revert = some tries) :
    tries.current.root.length = 32 ∧ ∀ trie ∈ tries.saved, trie.root.length = 32 := by
  rw [Nested.revert] at htries
  split at htries
  · cases htries
  · next trie saved hsaved =>
    cases htries
    have hall := h.saved
    rw [hsaved] at hall
    exact List.forall_mem_cons.mp hall

theorem setRoot_self {trie : MerklePatriciaTrie} (h : trie.root.length = 32) :
    trie.setRoot trie.root = .ok trie := by
  rw [MerklePatriciaTrie.setRoot]
  have hhash := trie.opts.useKeyHashingFunction.length_hash RLP_EMPTY_STRING
  exact if_neg (not_not_intro (h.trans hhash.symm))

theorem revert_free (hlock : self.lock = .new) (hrooted : self.Rooted) :
    ∀ result next, self.revert = some (result, next) → next.lock = .new := by
  rw [revert]
  split
  · exact free_of_unlocked hlock
  · next tries htries =>
    refine (withLock_free hlock).mpr fun h => ?_
    rw [setRoot_self (hrooted.reverted htries).1] at h
    exact not_fails_ok _ h

theorem step_free (op : LockedOp) (hlock : self.lock = .new) (hrooted : self.Rooted) :
    (∀ result next, self.step fuel op = some (result, next) → next.lock = .new) ↔
      self.Meets fuel op := by
  cases op with
  | put key value skipKeyTransform => exact put_free hlock
  | del key skipKeyTransform => exact del_free hlock
  | checkpoint => exact iff_of_true (free_of_unlocked hlock) trivial
  | commit => exact iff_of_true (commit_free hlock) trivial
  | revert => exact iff_of_true (revert_free hlock hrooted) trivial

theorem root_persistRoot (trie : MerklePatriciaTrie) : (self.persistRoot trie).root = trie.root := by
  rw [persistRoot]
  split
  · rfl
  · rfl

/-- A call with the lock keeps the roots, if what it does keeps them. -/
theorem Rooted.withLock (h : self.Rooted) {body : Except MPTError (Nested MerklePatriciaTrie)}
    (hbody : ∀ tries, body = .ok tries → tries.current.root.length = 32 ∧
      ∀ trie ∈ tries.saved, trie.root.length = 32)
    (hnext : self.withLock body = some (result, next)) : next.Rooted := by
  rw [LockedTrie.withLock] at hnext
  split at hnext
  · cases hnext
  · split at hnext
    · cases hnext
    · cases hnext
      exact ⟨h.current, h.saved⟩
    · next tries =>
      cases hnext
      obtain ⟨hcurrent, hsaved⟩ := hbody tries rfl
      exact ⟨hcurrent, hsaved⟩

theorem Rooted.save (h : self.Rooted) {body : Except MPTError Effect}
    (hbody : MerklePatriciaTrie.Rooted body)
    (hnext : self.withLock (body.map self.save) = some (result, next)) : next.Rooted := by
  refine h.withLock (fun tries htries => ?_) hnext
  cases body with
  | error e => cases htries
  | ok effect =>
    cases htries
    refine ⟨?_, h.saved⟩
    exact (congrArg List.length (root_persistRoot _)).trans (hbody effect rfl)

theorem Rooted.del (h : self.Rooted) {key : Bytes} {skipKeyTransform : Bool}
    (hnext : self.del fuel key skipKeyTransform = some (result, next)) : next.Rooted :=
  h.save (MerklePatriciaTrie.rooted_delLocked h.current skipKeyTransform) hnext

theorem Rooted.step (h : self.Rooted) {op : LockedOp}
    (hnext : self.step fuel op = some (result, next)) : next.Rooted := by
  cases op with
  | put key value skipKeyTransform =>
    rw [LockedTrie.step] at hnext
    unfold LockedTrie.put at hnext
    split at hnext
    · cases hnext
      exact h
    · split at hnext
      · exact h.del hnext
      · exact h.del hnext
      · exact h.save (MerklePatriciaTrie.rooted_putLocked h.current _ skipKeyTransform) hnext
  | del key skipKeyTransform => exact h.del hnext
  | checkpoint =>
    cases hnext
    refine ⟨h.current, fun trie htrie => ?_⟩
    obtain rfl | htrie := List.mem_cons.mp htrie
    · exact h.current
    · exact h.saved trie htrie
  | commit =>
    rw [LockedTrie.step, LockedTrie.commit] at hnext
    split at hnext
    · cases hnext
      exact h
    · next tries htries =>
      refine h.withLock (fun other hother => ?_) hnext
      cases hother
      rw [Nested.commit] at htries
      split at htries
      · cases htries
      · next trie saved hsaved =>
        cases htries
        refine ⟨(congrArg List.length (root_persistRoot _)).trans h.current, fun trie htrie => ?_⟩
        exact h.saved trie (by rw [hsaved]; exact List.mem_cons_of_mem _ htrie)
  | revert =>
    rw [LockedTrie.step, LockedTrie.revert] at hnext
    split at hnext
    · cases hnext
      exact h
    · next tries htries =>
      refine h.withLock (fun other hother => ?_) hnext
      obtain ⟨hcurrent, hsaved⟩ := h.reverted htries
      rw [setRoot_self hcurrent] at hother
      cases hother
      exact ⟨(congrArg List.length (root_persistRoot _)).trans hcurrent, hsaved⟩

section Sample

/-- A trie with the root over an empty database. -/
def openedAt (root : Bytes) : LockedTrie where
  tries := ⟨⟨⟨false, polynomialHash, false⟩, fun _ => none, root⟩, []⟩
  useRootPersistence := false
  lock := .new

def emptyTrie : LockedTrie := openedAt (polynomialHash.hash RLP_EMPTY_STRING)

def putAndRevert : List LockedOp :=
  [.del [1] false, .put [1] (some [2]) false, .checkpoint, .revert, .commit]

end Sample

end LockedTrie

end EthereumJS
