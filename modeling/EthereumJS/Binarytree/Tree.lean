import EthereumJS.Binarytree.Node

/-! # The binary tree

`binaryTree.ts` over a database of encoded nodes. The stacks of `findPath` and `put` grow at
the head here. A walk takes a number of iterations that may run out, since the nodes in a
database may refer to each other in any way.
-/

namespace EthereumJS.Binarytree

structure BinaryTree where
  hashFunction : HashKeysFunction
  db : MapDB
  root : Bytes

def EMPTY_TREE_ROOT : Bytes := List.replicate 32 0

structure Path where
  node : Option BinaryNode
  stack : List (BinaryNode × Bits)

/-- The stem node of a path if it has the stem, else a new one. -/
def Path.stemNode (path : Path) (stem : Bytes) : StemBinaryNode :=
  match path.node with
  | some (.stem node) => if node.stem = stem then node else .create stem
  | _ => .create stem

section Hash

variable (H : HashKeysFunction)

def hash (msg : Option Bytes) : Except TreeError Bytes :=
  match msg with
  | none => .ok (List.replicate 32 0)
  | some msg =>
    if msg.length = 64 ∧ msg.all (· = 0) then .ok (List.replicate 32 0)
    else if msg.length ≠ 32 ∧ msg.length ≠ 64 then .error .dataLength
    else .ok (H.hash msg)

/-- One pass over a layer; a hash without a partner is concatenated with `undefined`. -/
def combineLayer : List Bytes → Except TreeError (List Bytes)
  | [] => .ok []
  | [_] => .error .typeError
  | a :: b :: layer => do
    let first ← hash H (some (a ++ b))
    let rest ← combineLayer layer
    return first :: rest

/-- The loop over the layers; each has half the length of the one before. -/
def combineLayers : Nat → List Bytes → Except TreeError (List Bytes)
  | 0, layer => .ok layer
  | fuel + 1, layer =>
    if layer.length > 1 then combineLayer H layer >>= combineLayers fuel else .ok layer

def setLengthRight (msg : Bytes) (length : Nat) : Except TreeError Bytes :=
  if msg.length > length then .error .exceedsLength
  else .ok (msg ++ List.replicate (length - msg.length) 0)

def childHash (child : Option ChildBinaryNode) : Bytes :=
  match child with
  | none => List.replicate 32 0
  | some child => child.hash

def merkelize : Option BinaryNode → Except TreeError Bytes
  | none => .ok (List.replicate 32 0)
  | some (.internal node) => hash H (some (childHash node.left ++ childHash node.right))
  | some (.stem node) => do
    let leaves ← node.values.mapM (hash H)
    let layers ← combineLayers H leaves.length leaves
    match layers with
    | [] => throw .typeError
    | top :: _ =>
      let stem ← setLengthRight node.stem 32
      hash H (some (stem ++ top))

end Hash

namespace BinaryTree

variable (tree : BinaryTree)

def walk (db : MapDB) (keyInBits : Bits) :
    Nat → Option ChildBinaryNode → List (BinaryNode × Bits) → Except TreeError Path
  | _, none, stack => .ok ⟨none, stack⟩
  | 0, some _, _ => .error .outOfFuel
  | fuel + 1, some child, stack =>
    match db child.hash with
    | none => .error (.missingNode child.path)
    | some rawNode => do
      let decodedNode ← decodeBinaryNode rawNode
      let matchingKeyLength := matchingBitsLength keyInBits child.path
      if matchingKeyLength = child.path.length ∧
          (matchingKeyLength = keyInBits.length ∨ decodedNode.isStem) then
        if matchingKeyLength = keyInBits.length ∧ keyInBits = child.path then
          return ⟨some decodedNode, stack⟩
        else return ⟨none, (decodedNode, child.path) :: stack⟩
      else
        let stack := (decodedNode, keyInBits.take matchingKeyLength) :: stack
        match decodedNode with
        | .stem _ => return ⟨none, stack⟩
        | .internal node =>
          match keyInBits[matchingKeyLength]? with
          | none => throw .typeError
          | some childIndex => walk db keyInBits fuel (node.getChild childIndex) stack

def findPath (fuel : Nat) (keyInBytes : Bytes) : Except TreeError Path :=
  let keyInBits := keyBits keyInBytes
  if tree.root = EMPTY_TREE_ROOT then .ok ⟨none, []⟩
  else
    match tree.db tree.root with
    | none => .error .rootMissing
    | some rawNode => do
      let rootNode ← decodeBinaryNode rawNode
      match rootNode with
      | .stem node =>
        return ⟨if keyInBytes = node.stem then some rootNode else none, [(rootNode, [])]⟩
      | .internal node =>
        match keyInBits[0]? with
        | none => throw .typeError
        | some childIndex =>
          walk tree.db keyInBits fuel (node.getChild childIndex) [(rootNode, [])]

def get (fuel : Nat) (stem : Bytes) (suffixes : List UInt8) :
    Except TreeError (List (Option Bytes)) := do
  if stem.length ≠ 31 then throw .stemLength
  else
    let stemPath ← tree.findPath fuel stem
    match stemPath.node with
    | some (.stem node) => return suffixes.map node.getValue
    | _ => return []

def stackOp : Bytes × Option BinaryNode → BatchDBOp
  | (key, some node) => .put key node.serialize
  | (key, none) => .del key

/-- The operations of a stack of nodes, the last one pushed at the head. -/
def saveStack (putStack : List (Bytes × Option BinaryNode)) : BinaryTree :=
  { tree with db := tree.db.batch (putStack.reverse.map stackOp) }

def setValues (node : StemBinaryNode) (suffixes : List UInt8) (values : List (Option Bytes)) :
    StemBinaryNode :=
  (suffixes.zip values).foldl (fun node entry => node.setValue entry.1 entry.2) node

def createInitialNode (stem : Bytes) (suffixes : List UInt8) (values : List (Option Bytes)) :
    Except TreeError BinaryTree := do
  let initialNode := setValues (.create stem) suffixes values
  let root ← merkelize tree.hashFunction (some (.stem initialNode))
  return { tree with
    db := tree.db.execute (.put root (BinaryNode.stem initialNode).serialize)
    root := root }

/-- A new internal node for each bit from `depth` down to the one above `bottom`. -/
def prefixNodes (H : HashKeysFunction) (stemBits : Bits) (bottom : Nat) :
    Nat → BinaryNode → Except TreeError (List (BinaryNode × Bits))
  | 0, _ => .ok []
  | depth + 1, parent =>
    if depth > bottom then do
      let newParent := BinaryNode.internal (InternalBinaryNode.create.setChild
        (stemBits.getD depth false)
        (some ⟨← merkelize H (some parent), stemBits.take (depth + 1)⟩))
      let rest ← prefixNodes H stemBits bottom depth newParent
      return (newParent, stemBits.take depth) :: rest
    else .ok []

/-- The internal node at the first bit in which two stems differ. -/
def splitNode (H : HashKeysFunction) (stemNode other : StemBinaryNode) :
    Except TreeError InternalBinaryNode := do
  let stemBits := keyBits stemNode.stem
  let otherBits := keyBits other.stem
  let diffIndex := matchingBitsLength stemBits otherBits
  let node := InternalBinaryNode.create.setChild (stemBits.getD diffIndex false)
    (some ⟨← merkelize H (some (.stem stemNode)), stemBits⟩)
  return node.setChild (otherBits.getD diffIndex false)
    (some ⟨← merkelize H (some (.stem other)), otherBits⟩)

/-- The nodes from the new stem up to the branch parent, the lowest one first. -/
def updateBranch (H : HashKeysFunction) (stemNode : StemBinaryNode) (nearestNode : BinaryNode)
    (pathToNode pathToParent : Bits) : Except TreeError (List (BinaryNode × Bits)) := do
  let stemBits := keyBits stemNode.stem
  match nearestNode with
  | .stem other =>
    let diffIndex := matchingBitsLength stemBits (keyBits other.stem)
    let parentDiffIndex := matchingBitsLength pathToNode pathToParent
    let newInternal := BinaryNode.internal (← splitNode H stemNode other)
    let rest ← prefixNodes H stemBits parentDiffIndex diffIndex newInternal
    return (newInternal, stemBits.take diffIndex) :: rest
  | .internal node =>
    match stemBits[pathToNode.length]? with
    | none => throw .typeError
    | some branchIndex =>
      return [(.internal (node.setChild branchIndex
        (some ⟨← merkelize H (some (.stem stemNode)), stemBits⟩)), pathToNode)]

/-- Pushes nodes with their hashes; the path of the last one is kept. -/
def pushAll (H : HashKeysFunction) : List (BinaryNode × Bits) →
    List (Bytes × Option BinaryNode) → Bits → Except TreeError
      (List (Bytes × Option BinaryNode) × Bits)
  | [], putStack, path => .ok (putStack, path)
  | (node, parentPath) :: updates, putStack, _ => do
    let key ← merkelize H (some node)
    pushAll H updates ((key, some node) :: putStack) parentPath

/-- Step 3 of `put`: the hashes of the parents up to the root, which is left. -/
def updateParents (H : HashKeysFunction) : List (BinaryNode × Bits) →
    List (Bytes × Option BinaryNode) → Bits → Except TreeError
      (BinaryNode × List (Bytes × Option BinaryNode) × Bits)
  | [], _, _ => .error .typeError
  | [(rootNode, _)], putStack, lastUpdatedParentPath =>
    .ok (rootNode, putStack, lastUpdatedParentPath)
  | (.stem _, path) :: _ :: _, _, _ => .error (.expectedInternal path)
  | (.internal node, path) :: entry :: stack, putStack, lastUpdatedParentPath => do
    match lastUpdatedParentPath.getLast?, putStack.head? with
    | some index, some (hash, _) =>
      let node := BinaryNode.internal
        (node.setChild index (some ⟨hash, lastUpdatedParentPath⟩))
      let key ← merkelize H (some node)
      updateParents H (entry :: stack) ((key, some node) :: putStack) path
    | _, _ => throw .typeError

/-- Step 4 of `put`: the new root and the nodes above a split root stem. The root node is the
stem node itself when it has the stem. -/
def updateRoot (H : HashKeysFunction) (rootNode : BinaryNode) (stemNode : StemBinaryNode)
    (putStack : List (Bytes × Option BinaryNode)) (lastUpdatedParentPath : Bits) :
    Except TreeError (BinaryNode × List (Bytes × Option BinaryNode)) := do
  let stemBits := keyBits stemNode.stem
  match rootNode with
  | .stem root =>
    if root.stem = stemNode.stem then return (.stem stemNode, putStack)
    else
      let diffIndex := matchingBitsLength (keyBits root.stem) stemBits
      let newRoot := BinaryNode.internal (← splitNode H stemNode root)
      splitRoot stemBits diffIndex newRoot putStack
  | .internal root =>
    match putStack.head?, stemBits[0]? with
    | some (_, some childReference), some index =>
      let path := if childReference.isStem then stemBits else lastUpdatedParentPath
      return (.internal (root.setChild index
        (some ⟨← merkelize H (some childReference), path⟩)), putStack)
    | some (_, none), _ => return (rootNode, putStack)
    | _, _ => throw .typeError
where
  /-- The chain of internal nodes for a common prefix. -/
  splitRoot (stemBits : Bits) : Nat → BinaryNode → List (Bytes × Option BinaryNode) →
      Except TreeError (BinaryNode × List (Bytes × Option BinaryNode))
    | 0, newRoot, putStack => .ok (newRoot, putStack)
    | depth + 1, newRoot, putStack => do
      let key ← merkelize H (some newRoot)
      splitRoot stemBits depth (.internal (InternalBinaryNode.create.setChild
        (stemBits.getD depth false) (some ⟨key, stemBits.take (depth + 1)⟩)))
        ((key, some newRoot) :: putStack)

/-- Steps 3 and 4 of `put` and the saving of the nodes. -/
def putParents (stemNode : StemBinaryNode) (stack : List (BinaryNode × Bits))
    (putStack : List (Bytes × Option BinaryNode)) (lastUpdatedParentPath : Bits) :
    Except TreeError BinaryTree := do
  let H := tree.hashFunction
  let (rootNode, putStack, path) ← updateParents H stack putStack lastUpdatedParentPath
  let (rootNode, putStack) ← updateRoot H rootNode stemNode putStack path
  let root ← merkelize H (some rootNode)
  return { tree with root := root }.saveStack ((root, some rootNode) :: putStack)

/-- `put` from step 2 on. -/
def putNode (stemNode : StemBinaryNode) (stack : List (BinaryNode × Bits))
    (putStack : List (Bytes × Option BinaryNode)) : Except TreeError BinaryTree :=
  match stack with
  | (nearestNode, nearestNodePath) :: (parent, parentPath) :: stack => do
    let updated ← updateBranch tree.hashFunction stemNode nearestNode nearestNodePath parentPath
    let (putStack, path) ← pushAll tree.hashFunction updated putStack []
    tree.putParents stemNode ((parent, parentPath) :: stack) putStack path
  | stack => tree.putParents stemNode stack putStack []

/-- `put` with the path to the stem or to the nearest node. -/
def putFound (stem : Bytes) (suffixes : List UInt8) (values : List (Option Bytes))
    (foundPath : Path) : Except TreeError BinaryTree :=
  if foundPath.stack.isEmpty then .error .rootNotFound
  else
    let stemNode := setValues (foundPath.stemNode stem) suffixes values
    if stemNode.values.all Option.isNone then
      match foundPath.node with
      | none => .ok tree
      | some _ => do
        let key ← merkelize tree.hashFunction (some (.stem stemNode))
        tree.putNode stemNode foundPath.stack [(key, none)]
    else do
      let key ← merkelize tree.hashFunction (some (.stem stemNode))
      tree.putNode stemNode foundPath.stack [(key, some (.stem stemNode))]

def put (fuel : Nat) (stem : Bytes) (suffixes : List UInt8) (values : List (Option Bytes)) :
    Except TreeError BinaryTree :=
  if stem.length ≠ 31 then .error .stemLength
  else if values.length > 0 ∧ values.length ≠ suffixes.length then .error .valuesLength
  -- A missing value is `undefined`, which cannot be hashed.
  else if values.length < suffixes.length then .error .typeError
  else if tree.root = EMPTY_TREE_ROOT then tree.createInitialNode stem suffixes values
  else tree.findPath fuel stem >>= tree.putFound stem suffixes values

def del (fuel : Nat) (stem : Bytes) (suffixes : List UInt8) : Except TreeError BinaryTree :=
  tree.put fuel stem suffixes (List.replicate suffixes.length none)

end BinaryTree

/-- The empty node of a fresh tree is saved as a deletion of its hash. -/
def createBinaryTree (H : HashKeysFunction) : BinaryTree :=
  { hashFunction := H
    db := MapDB.execute (fun _ => none) (.del EMPTY_TREE_ROOT)
    root := EMPTY_TREE_ROOT }

end EthereumJS.Binarytree
