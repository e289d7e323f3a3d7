import EthereumJS.Binarytree.SpecRoot

/-! # Proofs of the binary tree

`createBinaryProof` and the verification of `proof.ts`.
-/

namespace EthereumJS.Binarytree

open StemTree

/-- The encoded nodes of a path, the root first. -/
def Path.proof (path : Path) : List Bytes :=
  let proof := path.stack.reverse.map fun entry => entry.1.serialize
  match path.node with
  | none => proof
  | some node => proof ++ [node.serialize]

def BinaryTree.createBinaryProof (tree : BinaryTree) (fuel : Nat) (key : Bytes) :
    Except TreeError (List Bytes) := do
  let path ← tree.findPath fuel (key.take 31)
  return path.proof

section Verify

variable (H : HashKeysFunction)

def proofEntry (bytes : Bytes) : Except TreeError (Bytes × BinaryNode) := do
  let node ← decodeBinaryNode bytes
  let key ← merkelize H (some node)
  return (key, node)

/-- The nodes of a proof in a fresh tree. -/
def proofTree (putStack : List (Bytes × BinaryNode)) (root : Bytes) : BinaryTree :=
  { (createBinaryTree H).saveStack (putStack.reverse.map fun p => (p.1, some p.2)) with root := root }

def binaryTreeFromProof (proof : List Bytes) : Except TreeError BinaryTree := do
  let putStack ← proof.mapM (proofEntry H)
  match putStack with
  | [] => throw .typeError
  | (root, _) :: _ => return proofTree H putStack root

/-- The comparison of the value that was read with the one of the last node. -/
def checkValue (value : Option Bytes) (suffix : UInt8) : BinaryNode → Except TreeError (Option Bytes)
  -- An internal node has no `values`.
  | .internal _ => .error .typeError
  | .stem valueNode =>
    match valueNode.getValue suffix, value with
    | none, some _ => .error .invalidProof
    | some expectedValue, some v => if v = expectedValue then .ok value else .error .invalidProof
    | _, none => .ok none

def verifyBinaryProof (fuel : Nat) (rootHash key : Bytes) (proof : List Bytes) :
    Except TreeError (Option Bytes) := do
  let proofTrie ← binaryTreeFromProof H proof
  if proofTrie.root ≠ rootHash then throw .rootMismatch
  else
    let suffix := key.getD 31 0
    let values ← proofTrie.get fuel (key.take 31) [suffix]
    let valueNode ← decodeBinaryNode (proof.getLastD [])
    checkValue values.head?.join suffix valueNode

end Verify

section Own

variable {H : HashKeysFunction} {tree : BinaryTree} {t : StemTree} {key : Bytes} {fuel : Nat}

def encoded (H : HashKeysFunction) (x : Bits × StemTree) : Bytes := (x.2.nodeOf H x.1).serialize

theorem onPath_eq (bits : Bits) (t : StemTree) (sibs : List StemTree) :
    ((above bits 0 (descend bits t sibs).1 (descend bits t sibs).2).map (encoded H)).reverse ++
        ((descend bits t sibs).2.nodes []).map (encoded H) =
      ((above bits 0 sibs t).map (encoded H)).reverse ++
        (onPath bits t sibs.length).map (encoded H) := by
  induction t generalizing sibs with
  | nil => rfl
  | stem node => rfl
  | internal left right ihleft ihright =>
    cases hb : bits.getD sibs.length false with
    | true =>
      have hrest := ihright (left :: sibs)
      simp only [descend, hb, if_true, onPath]
      rw [hrest]
      simp only [above, Nat.zero_add, hb, List.map_cons, List.reverse_cons, List.append_assoc,
        List.length_cons]
      rfl
    | false =>
      have hrest := ihleft (right :: sibs)
      simp only [descend, hb, Bool.false_eq_true, if_false, onPath]
      rw [hrest]
      simp only [above, Nat.zero_add, hb, List.map_cons, List.reverse_cons, List.append_assoc,
        List.length_cons]
      rfl

/-- The proof of a key is its path; a stem at the root that is found stands in it twice. -/
theorem proof_fullPath (H : HashKeysFunction) (key : Bytes) (t : StemTree) :
    ∃ extra, (fullPath H key t).proof = (onPath (keyBits key) t 0).map (encoded H) ++ extra ∧
      (extra = [] ∨ ∃ node, t = .stem node ∧ extra = [(BinaryNode.stem node).serialize]) := by
  cases t with
  | nil => exact ⟨[], rfl, .inl rfl⟩
  | stem node =>
    unfold fullPath Path.proof
    dsimp only
    by_cases heq : key = node.stem
    · rw [if_pos heq]
      exact ⟨_, rfl, .inr ⟨node, rfl, rfl⟩⟩
    · rw [if_neg heq]
      exact ⟨[], rfl, .inl rfl⟩
  | internal left right =>
    have hpath := onPath_eq (H := H) (keyBits key) (internal left right) []
    have hstuck := descend_stuck (keyBits key) (internal left right) []
    refine ⟨[], ?_, .inl rfl⟩
    rw [List.append_nil, show (onPath (keyBits key) (internal left right) 0).map (encoded H) =
      _ from hpath.symm]
    unfold fullPath
    dsimp only
    generalize descend (keyBits key) (internal left right) [] = found at *
    obtain ⟨sibs, u⟩ := found
    have hstack : (stackOf H (keyBits key) sibs u).reverse.map
        (fun entry => entry.1.serialize) =
        ((above (keyBits key) 0 sibs u).map (encoded H)).reverse := by
      rw [List.map_reverse, stackOf, List.map_map]
      rfl
    unfold Path.proof
    cases u with
    | internal l r => cases hstuck
    | nil =>
      change List.map _ (List.reverse (stackOf _ _ _ _)) = _
      rw [hstack]
      exact (List.append_nil _).symm
    | stem node =>
      unfold pathOf
      dsimp only
      by_cases heq : node.stem = key
      · simp only [if_pos heq]
        rw [hstack]
        rfl
      · simp only [if_neg heq]
        rw [List.reverse_cons, List.map_append, hstack]
        rfl

theorem onPath_ne_nil (bits : Bits) (hnil : t ≠ .nil) (depth : Nat) :
    ∃ rest, onPath bits t depth = (bits.take depth, t) :: rest := by
  cases t with
  | nil => exact absurd rfl hnil
  | stem node => exact ⟨_, rfl⟩
  | internal left right => exact ⟨_, rfl⟩

/-- The last node on a path is the stem where it ends, or an internal node. -/
theorem getLast_onPath (bits : Bits) (hnil : t ≠ .nil) (sibs : List StemTree) :
    ∃ x, (onPath bits t sibs.length).getLast? = some x ∧
      ((descend bits t sibs).2 = x.2 ∧ (∃ node, x.2 = .stem node) ∨
        (descend bits t sibs).2 = .nil ∧ x.2.isInternal) := by
  induction t generalizing sibs with
  | nil => exact absurd rfl hnil
  | stem node => exact ⟨_, rfl, .inl ⟨rfl, node, rfl⟩⟩
  | internal left right ihleft ihright =>
    have hlast : ∀ {child sib : StemTree},
        (child ≠ .nil → ∃ x, (onPath bits child (sib :: sibs).length).getLast? = some x ∧
          ((descend bits child (sib :: sibs)).2 = x.2 ∧ (∃ node, x.2 = .stem node) ∨
            (descend bits child (sib :: sibs)).2 = .nil ∧ x.2.isInternal)) →
        ∃ x, ((bits.take sibs.length, internal left right) ::
            onPath bits child (sibs.length + 1)).getLast? = some x ∧
          ((descend bits child (sib :: sibs)).2 = x.2 ∧ (∃ node, x.2 = .stem node) ∨
            (descend bits child (sib :: sibs)).2 = .nil ∧ x.2.isInternal) := by
      intro child sib ih
      by_cases hchild : child = .nil
      · subst hchild
        exact ⟨_, rfl, .inr ⟨rfl, rfl⟩⟩
      · obtain ⟨x, hx, hend⟩ := ih hchild
        refine ⟨x, ?_, hend⟩
        rw [List.getLast?_cons, show (onPath bits child (sibs.length + 1)).getLast? = _ from hx]
        rfl
    cases hb : bits.getD sibs.length false with
    | true =>
      simp only [onPath, descend, hb, if_true]
      exact hlast fun hne => ihright hne _
    | false =>
      simp only [onPath, descend, hb, Bool.false_eq_true, if_false]
      exact hlast fun hne => ihleft hne _

end Own

section Trees

variable {H : HashKeysFunction} {tree : BinaryTree} {t : StemTree} {key : Bytes} {fuel : Nat}

theorem walk_mono {db db' : MapDB} (hdb : ∀ k value, db k = some value → db' k = some value)
    {bits : Bits} {path : Path} (fuel : Nat) (child : Option ChildBinaryNode)
    (stack : List (BinaryNode × Bits)) (h : BinaryTree.walk db bits fuel child stack = .ok path) :
    BinaryTree.walk db' bits fuel child stack = .ok path := by
  induction fuel generalizing child stack with
  | zero =>
    cases child with
    | none => exact h
    | some child => cases h
  | succ fuel ih =>
    cases child with
    | none => exact h
    | some child =>
      unfold BinaryTree.walk at h ⊢
      cases hread : db child.hash with
      | none =>
        rw [hread] at h
        cases h
      | some rawNode =>
        rw [hread] at h
        rw [hdb _ _ hread]
        dsimp only at h ⊢
        cases hnode : decodeBinaryNode rawNode with
        | error e =>
          rw [hnode] at h
          cases h
        | ok node =>
          rw [hnode] at h
          simp only [bind, Except.bind] at h ⊢
          split
          · rename_i hend
            rw [if_pos hend] at h
            exact h
          · rename_i hend
            rw [if_neg hend] at h
            cases node with
            | stem node => exact h
            | internal node =>
              dsimp only at h ⊢
              split
              · rename_i hbit
                rw [hbit] at h
                exact h
              · rename_i index hbit
                rw [hbit] at h
                exact ih _ _ h

theorem findPath_mono (tree' : BinaryTree) (hroot : tree'.root = tree.root)
    (hdb : ∀ k value, tree.db k = some value → tree'.db k = some value) {path : Path}
    (h : tree.findPath fuel key = .ok path) : tree'.findPath fuel key = .ok path := by
  unfold BinaryTree.findPath at h ⊢
  rw [hroot]
  split
  · rename_i hempty
    rw [if_pos hempty] at h
    exact h
  · rename_i hempty
    rw [if_neg hempty] at h
    cases hread : tree.db tree.root with
    | none =>
      rw [hread] at h
      cases h
    | some rawNode =>
      rw [hread] at h
      rw [hdb _ _ hread]
      dsimp only at h ⊢
      cases hnode : decodeBinaryNode rawNode with
      | error e =>
        rw [hnode] at h
        cases h
      | ok node =>
        rw [hnode] at h
        simp only [bind, Except.bind] at h ⊢
        cases node with
        | stem node => exact h
        | internal node =>
          dsimp only at h ⊢
          split
          · rename_i hbit
            rw [hbit] at h
            exact h
          · rename_i index hbit
            rw [hbit] at h
            exact walk_mono hdb _ _ _ h

end Trees

section Entries

variable {H : HashKeysFunction} {t : StemTree} {putStack : List (Bytes × BinaryNode)}

/-- No node of a proof has the hash of a node of another proof without being that node. -/
def Honest (H : HashKeysFunction) (own proof : List Bytes) : Prop :=
  ∀ bytes ∈ proof, ∀ ownBytes ∈ own, ∀ p q, proofEntry H bytes = .ok p →
    proofEntry H ownBytes = .ok q → p.1 = q.1 → p.2 = q.2

theorem proofEntry_encoded {x : Bits × StemTree} (h : x.2.At x.1) :
    proofEntry H (encoded H x) = .ok (x.2.root H, x.2.nodeOf H x.1) := by
  unfold proofEntry encoded
  rw [decodeBinaryNode_serialize (nodeOf_valid H h)]
  change (merkelize H (some (x.2.nodeOf H x.1)) >>= _) = _
  rw [merkelize_nodeOf H h]
  rfl

theorem mapM_encoded {xs : List (Bits × StemTree)} (h : ∀ x ∈ xs, x.2.At x.1) :
    (xs.map (encoded H)).mapM (proofEntry H) =
      .ok (xs.map fun x => (x.2.root H, x.2.nodeOf H x.1)) :=
  mapM_map_eq_ok fun x hx => proofEntry_encoded (h x hx)

theorem binaryTreeFromProof_ok {proof : List Bytes} {proofTrie : BinaryTree}
    (h : binaryTreeFromProof H proof = .ok proofTrie) :
    ∃ putStack root, proof.mapM (proofEntry H) = .ok putStack ∧
      proofTrie = proofTree H putStack root := by
  unfold binaryTreeFromProof at h
  cases hmap : proof.mapM (proofEntry H) with
  | error e =>
    rw [hmap] at h
    cases h
  | ok putStack =>
    rw [hmap] at h
    cases putStack with
    | nil => cases h
    | cons p putStack =>
      cases h
      exact ⟨_, _, rfl, rfl⟩

theorem proofTree_db (putStack : List (Bytes × BinaryNode)) (root key : Bytes) :
    (∃ p ∈ putStack, p.1 = key ∧ (proofTree H putStack root).db key = some p.2.serialize) ∨
      (∀ p ∈ putStack, p.1 ≠ key) ∧ (proofTree H putStack root).db key = none := by
  have hempty : (createBinaryTree H).db key = none := by
    change Function.update (fun _ => none) EMPTY_TREE_ROOT none key = none
    rw [Function.update_apply]
    split <;> rfl
  have hsaved := saveStack_db (createBinaryTree H) putStack.reverse key
  rw [hempty] at hsaved
  simp only [List.mem_reverse] at hsaved
  exact hsaved

end Entries

section Check

variable {H : HashKeysFunction} {tree : BinaryTree} {t : StemTree} {key : Bytes} {fuel : Nat}

theorem checkValue_ok {value v : Option Bytes} {suffix : UInt8} {node : BinaryNode}
    (h : checkValue value suffix node = .ok v) : v = value := by
  cases node with
  | internal node => cases h
  | stem node =>
    unfold checkValue at h
    dsimp only at h
    cases hget : node.getValue suffix with
    | none =>
      rw [hget] at h
      cases value with
      | none => exact (Except.ok.inj h).symm
      | some w => cases h
    | some expectedValue =>
      rw [hget] at h
      cases value with
      | none => exact (Except.ok.inj h).symm
      | some w =>
        dsimp only at h
        split at h
        · exact (Except.ok.inj h).symm
        · cases h

/-- The value of a key of 32 bytes. -/
def StemTree.valueAt (t : StemTree) (key : Bytes) : Option Bytes :=
  t.value (key.take 31) (key.getD 31 0)

theorem get_valueAt {proofTrie : BinaryTree} (hkey : (key.take 31).length = 31)
    (hpath : proofTrie.findPath fuel (key.take 31) =
      .ok (fullPath proofTrie.hashFunction (key.take 31) t)) :
    ∃ values, proofTrie.get fuel (key.take 31) [key.getD 31 0] = .ok values ∧
      values.head?.join = t.valueAt key := by
  refine ⟨_, get_of_findPath hkey hpath _, ?_⟩
  unfold StemTree.valueAt StemTree.value
  cases t.find (key.take 31) <;> rfl

/-- A tree over whose database the nodes of another one are laid. -/
def BinaryTree.overlaid (tree : BinaryTree) (db : MapDB) : BinaryTree :=
  { tree with db := fun k => (db k).or (tree.db k) }

/-- A proof whose nodes on the path of the key are those of the tree gives the value of the tree. -/
theorem Represents.verify_sound (h : Represents tree t) (hkey : (key.take 31).length = 31)
    (hfuel : 248 ≤ fuel) {proof : List Bytes}
    (hhonest : Honest tree.hashFunction (fullPath tree.hashFunction (key.take 31) t).proof proof)
    {v : Option Bytes}
    (hok : verifyBinaryProof tree.hashFunction fuel tree.root key proof = .ok v) :
    v = t.valueAt key := by
  have hbits := length_bits hkey
  have hAt : t.At ((keyBits (key.take 31)).take 0) := h.atRoot
  obtain ⟨extra, hown, -⟩ := proof_fullPath tree.hashFunction (key.take 31) t
  unfold verifyBinaryProof at hok
  cases htrie : binaryTreeFromProof tree.hashFunction proof with
  | error e =>
    rw [htrie] at hok
    cases hok
  | ok proofTrie =>
    rw [htrie] at hok
    simp only [bind, Except.bind] at hok
    split at hok
    · cases hok
    · rename_i hroot
      rw [not_not] at hroot
      obtain ⟨putStack, root, hmap, heq⟩ := binaryTreeFromProof_ok htrie
      have hhash : proofTrie.hashFunction = tree.hashFunction := by rw [heq]; rfl
      cases hfound : proofTrie.findPath fuel (key.take 31) with
      | error e =>
        have hget : proofTrie.get fuel (key.take 31) [key.getD 31 0] = .error e := by
          unfold BinaryTree.get
          rw [if_neg (by omega), hfound]
          rfl
        rw [hget] at hok
        cases hok
      | ok path =>
        have hmono : (tree.overlaid proofTrie.db).findPath fuel (key.take 31) = .ok path :=
          findPath_mono (tree.overlaid proofTrie.db) hroot.symm
            (fun k value hread => by
              change (proofTrie.db k).or _ = _
              rw [hread]
              rfl) hfound
        have hfull : (tree.overlaid proofTrie.db).findPath fuel (key.take 31) =
            .ok (fullPath tree.hashFunction (key.take 31) t) := by
          refine findPath_of_onPath h.root_eq h.atRoot (fun x hx => ?_) h.nonempty hkey hfuel
          have hxAt := h.atRoot.of_mem_nodes (onPath_subset hbits hAt hx)
          have hstored := h.stored x (onPath_subset hbits hAt hx)
          change (proofTrie.db _).or (tree.db _) = _
          rw [heq]
          rcases proofTree_db putStack root (x.2.root tree.hashFunction) with
            ⟨p, hp, hpkey, hread⟩ | ⟨-, hread⟩
          · obtain ⟨bytes, hbytes, hentry⟩ := exists_of_mem_mapM hmap hp
            have hnode := hhonest bytes hbytes (encoded _ x)
              (hown ▸ List.mem_append_left _ (List.mem_map_of_mem hx)) p _ hentry
              (proofEntry_encoded hxAt) hpkey
            rw [show (proofTree tree.hashFunction putStack root).db
              (x.2.root (tree.overlaid _).hashFunction) = _ from hread, hnode]
            rfl
          · rw [show (proofTree tree.hashFunction putStack root).db
              (x.2.root (tree.overlaid _).hashFunction) = _ from hread]
            exact hstored
        cases hmono.symm.trans hfull
        · have hpath : proofTrie.findPath fuel (key.take 31) =
              .ok (fullPath proofTrie.hashFunction (key.take 31) t) := by
            rw [hfound, hhash]
          obtain ⟨values, hget, hvalue⟩ := get_valueAt hkey hpath
          rw [hget] at hok
          dsimp only at hok
          cases hlast : decodeBinaryNode (proof.getLastD []) with
          | error e =>
            rw [hlast] at hok
            cases hok
          | ok node =>
            rw [hlast] at hok
            exact (checkValue_ok hok).trans hvalue

/-- The verification of the tree's own proof compares its value with the last node. -/
theorem Represents.verify_own (h : Represents tree t) (hd : Distinct tree.hashFunction t)
    (hnil : t ≠ .nil) (hkey : (key.take 31).length = 31) (hfuel : 248 ≤ fuel) :
    ∃ x : Bits × StemTree, x.2.At x.1 ∧
      decodeBinaryNode ((fullPath tree.hashFunction (key.take 31) t).proof.getLastD []) =
        .ok (x.2.nodeOf tree.hashFunction x.1) ∧
      verifyBinaryProof tree.hashFunction fuel tree.root key
          (fullPath tree.hashFunction (key.take 31) t).proof =
        checkValue (t.valueAt key) (key.getD 31 0) (x.2.nodeOf tree.hashFunction x.1) ∧
      ((descend (keyBits (key.take 31)) t []).2 = x.2 ∧ (∃ node, x.2 = .stem node) ∨
        (descend (keyBits (key.take 31)) t []).2 = .nil ∧ x.2.isInternal) := by
  have hbits := length_bits hkey
  have hAt : t.At ((keyBits (key.take 31)).take 0) := h.atRoot
  obtain ⟨x, hx, hend⟩ := getLast_onPath (keyBits (key.take 31)) hnil []
  obtain ⟨rest, hrest⟩ := onPath_ne_nil (keyBits (key.take 31)) hnil 0
  obtain ⟨ys, hys, hproof, hlast⟩ : ∃ ys : List (Bits × StemTree),
      (∀ y ∈ ys, y ∈ t.nodes []) ∧
      (fullPath tree.hashFunction (key.take 31) t).proof =
        (onPath (keyBits (key.take 31)) t 0 ++ ys).map (encoded tree.hashFunction) ∧
      (onPath (keyBits (key.take 31)) t 0 ++ ys).getLast? = some x := by
    obtain ⟨extra, hown, rfl | ⟨node, rfl, rfl⟩⟩ := proof_fullPath tree.hashFunction (key.take 31) t
    · refine ⟨[], fun y hy => (List.not_mem_nil hy).elim, ?_, ?_⟩
      · rw [hown, List.append_nil, List.append_nil]
      · rw [List.append_nil]
        exact hx
    · cases hx
      refine ⟨[([], .stem node)], fun y hy => hy, ?_, rfl⟩
      rw [hown, List.map_append]
      rfl
  have hnodes : ∀ y ∈ onPath (keyBits (key.take 31)) t 0 ++ ys, y ∈ t.nodes [] := by
    intro y hy
    rcases List.mem_append.mp hy with hy | hy
    · exact onPath_subset hbits hAt hy
    · exact hys y hy
  have hxnode := hnodes x (List.mem_of_getLast? hlast)
  have hxAt := h.atRoot.of_mem_nodes hxnode
  have hdecode : decodeBinaryNode ((fullPath tree.hashFunction (key.take 31) t).proof.getLastD []) =
      .ok (x.2.nodeOf tree.hashFunction x.1) := by
    rw [hproof, List.getLastD_eq_getLast?, List.getLast?_map, hlast]
    exact decodeBinaryNode_serialize (nodeOf_valid _ hxAt)
  have hmap := mapM_encoded (H := tree.hashFunction)
    fun y hy => h.atRoot.of_mem_nodes (hnodes y hy)
  obtain ⟨putStack, hput⟩ : ∃ putStack, putStack =
      (onPath (keyBits (key.take 31)) t 0 ++ ys).map fun y =>
        (y.2.root tree.hashFunction, y.2.nodeOf tree.hashFunction y.1) := ⟨_, rfl⟩
  have htrie : binaryTreeFromProof tree.hashFunction
      (fullPath tree.hashFunction (key.take 31) t).proof =
        .ok (proofTree tree.hashFunction putStack (t.root tree.hashFunction)) := by
    unfold binaryTreeFromProof
    rw [hproof, hmap, hput, hrest]
    rfl
  have hpath : (proofTree tree.hashFunction putStack (t.root tree.hashFunction)).findPath fuel
      (key.take 31) = .ok (fullPath tree.hashFunction (key.take 31) t) := by
    refine findPath_of_onPath rfl h.atRoot (fun y hy => ?_) h.nonempty hkey hfuel
    change (proofTree tree.hashFunction putStack _).db (y.2.root tree.hashFunction) = _
    rcases proofTree_db putStack (t.root tree.hashFunction) (y.2.root tree.hashFunction) with
      ⟨p, hp, hpkey, hread⟩ | ⟨hnone, -⟩
    · rw [hput] at hp
      obtain ⟨z, hz, rfl⟩ := List.mem_map.mp hp
      rw [hread]
      change some (z.2.nodeOf _ z.1).serialize = some (y.2.nodeOf _ y.1).serialize
      rw [hd.nodeOf_eq h.atRoot (hnodes z hz) (onPath_subset hbits hAt hy) hpkey]
      rfl
    · refine absurd rfl (hnone (y.2.root tree.hashFunction, y.2.nodeOf tree.hashFunction y.1) ?_)
      rw [hput]
      exact List.mem_map.mpr ⟨y, List.mem_append_left _ hy, rfl⟩
  obtain ⟨values, hget, hvalue⟩ := get_valueAt hkey hpath
  refine ⟨x, hxAt, hdecode, ?_, hend⟩
  unfold verifyBinaryProof
  rw [htrie]
  simp only [bind, Except.bind]
  have hroot : (proofTree tree.hashFunction putStack (t.root tree.hashFunction)).root = tree.root :=
    h.root_eq.symm
  rw [if_neg (not_not.mpr hroot), hget, hdecode]
  dsimp only
  rw [hvalue]

/-- The own proof gives the value of the tree iff its last node is a stem. -/
theorem Represents.verify_own_iff (h : Represents tree t) (hd : Distinct tree.hashFunction t)
    (hnil : t ≠ .nil) (hkey : (key.take 31).length = 31) (hfuel : 248 ≤ fuel) :
    verifyBinaryProof tree.hashFunction fuel tree.root key
        (fullPath tree.hashFunction (key.take 31) t).proof = .ok (t.valueAt key) ↔
      ∃ node, decodeBinaryNode
        ((fullPath tree.hashFunction (key.take 31) t).proof.getLastD []) = .ok (.stem node) := by
  obtain ⟨⟨path, u⟩, -, hdecode, hverify, ⟨hend, node, hu⟩ | ⟨-, hinternal⟩⟩ :=
    h.verify_own hd hnil hkey hfuel
  · cases hu
    rw [hdecode, hverify]
    refine iff_of_true ?_ ⟨node, rfl⟩
    change checkValue (t.valueAt key) (key.getD 31 0) (.stem node) = _
    unfold checkValue StemTree.valueAt StemTree.value StemTree.find
    rw [hend]
    dsimp only
    by_cases heq : node.stem = key.take 31
    · rw [if_pos heq]
      dsimp only [Option.bind_some]
      cases node.getValue (key.getD 31 0) with
      | none => rfl
      | some value => exact if_pos rfl
    · rw [if_neg heq]
      cases node.getValue (key.getD 31 0) <;> rfl
  · rw [hdecode, hverify]
    cases u with
    | nil => cases hinternal
    | stem node => cases hinternal
    | internal left right =>
      refine iff_of_false (fun hok => by cases hok) ?_
      rintro ⟨node, hnode⟩
      cases hnode

end Check

section Samples

/-- Two stems with the first bits 00 and 01. -/
def forkedOps : List TreeOp :=
  [.put sampleStem [0] [some sampleValue], .put (List.replicate 31 64) [0] [some sampleValue]]

/-- The own proof of a tree of the two stems, with the path of the first stem in its parent
replaced by that of another stem. -/
def forgedProof (otherStem : Bytes) : List Bytes :=
  let first := newNode .nil sampleStem [0] [some sampleValue]
  let second := newNode .nil (List.replicate 31 64) [0] [some sampleValue]
  let hash := stemHash polynomialHash
  let parent : BinaryNode := .internal ⟨some ⟨hash first, keyBits otherStem⟩,
    some ⟨hash second, keyBits second.stem⟩⟩
  let root : BinaryNode := .internal
    ⟨some ⟨digest polynomialHash (hash first ++ hash second), [false]⟩, none⟩
  [root.serialize, parent.serialize, (BinaryNode.stem first).serialize]

end Samples

end EthereumJS.Binarytree
