import EthereumJS.Mpt.Proof

/-! # Merkle proofs of ranges

The functions of `proof/range.ts`. The nodes on a stack are shared and changed in place
by the source; here a stack is handed on with the nodes that came out of a call.
-/

namespace EthereumJS

open RLP Patricia

inductive RangeProofError
  | mpt (error : MPTError)
  | invalidNode
  | invalidRange
  | invalidKeysLength
  | invalidKeysOrder
  | invalidValues
  | allElementsRoot
  | zeroElementValue
  | nullMismatch
  | oneElementKey
  | oneElementValue
  | twoEdgeOrder
  | twoEdgeLength
  | twoEdgeRoot
  deriving DecidableEq

def RangeProofError.message : RangeProofError → String
  | mpt error => error.message
  | invalidNode => "invalid node"
  | invalidRange => "invalid range"
  | invalidKeysLength => "invalid keys length or values length"
  | invalidKeysOrder => "invalid keys order"
  | invalidValues => "invalid values"
  | allElementsRoot => "invalid all elements proof: root mismatch"
  | zeroElementValue => "invalid zero element proof: value mismatch"
  | nullMismatch =>
    "invalid all elements proof: proof, firstKey, lastKey must be null at the same time"
  | oneElementKey => "invalid one element proof: firstKey should be equal to keys[0]"
  | oneElementValue => "invalid one element proof: value mismatch"
  | twoEdgeOrder => "invalid two edge elements proof: firstKey should be less than lastKey"
  | twoEdgeLength =>
    "invalid two edge elements proof: the length of firstKey should be equal to the length of lastKey"
  | twoEdgeRoot => "invalid two edge elements proof: root mismatch"

/-- What reading a branch at an index behind the end of the key throws. -/
def noBranchIndex : MPTError := .typeError "Cannot read properties of undefined (reading 'length')"

namespace MPTNode

/-- `setBranch` with `null` at every slot that is to go. -/
def clearBranches (gone : Nibble → Bool) : MPTNode → MPTNode
  | branch branches v => branch (fun i => if gone i then .bytes [] else branches i) v
  | node => node

end MPTNode

namespace MerklePatriciaTrie

variable (trie : MerklePatriciaTrie)

/-- The nodes of a stack as `saveStack` leaves them. -/
def wiredNodes : Nibbles → List MPTNode → Option Item → List MPTNode
  | _, [], _ => []
  | path, node :: stack, childHash =>
    let (path, node) := wire path childHash node
    let (hash, _) := trie.formatNode node stack.isEmpty false
    node :: wiredNodes path stack (some hash)

/-- `(parent as BranchMPTNode).setBranch(index, null)` on the last node of a stack. -/
def removeFromParent (index : Option Nibble) : List MPTNode → Except MPTError (List MPTNode)
  | .branch branches v :: stack =>
    match index with
    | some i => .ok ((MPTNode.branch branches v).setBranch i (.bytes []) :: stack)
    | none => .ok (.branch branches v :: stack)
  | _ => .error (.typeError "parent.setBranch is not a function")

/-- The `parent` of the source is the last node of the stack. -/
def unset (key : Nibbles) (removeLeft : Bool) :
    Nat → Option MPTNode → Nat → List MPTNode → Except MPTError (Nat × List MPTNode)
  | 0, _, _, _ => .error .outOfFuel
  | _ + 1, none, pos, stack => .ok (pos - 1, stack)
  | fuel + 1, some (.branch branches v), pos, stack =>
    match key[pos]? with
    | none => .error noBranchIndex
    | some index => do
      let child := (MPTNode.branch branches v).clearBranches fun i =>
        if removeLeft then i < index else index < i
      let next ← (child.getBranch index).mapM trie.lookupNode
      unset key removeLeft fuel next (pos + 1) (child :: stack)
  | fuel + 1, some child, pos, stack =>
    match stripPrefix child.key (key.drop pos) with
    | none =>
      if nibblesCompare child.key (key.drop pos) = if removeLeft then .lt else .gt then do
        pure (pos - 1, ← removeFromParent key[pos - 1]? stack)
      else .ok (pos - 1, stack)
    | some _ =>
      match child with
      | .extension nibbles v => do
        let next ← trie.lookupNode v
        if next.isLeaf then pure (pos - 1, ← removeFromParent key[pos - 1]? stack)
        else unset key removeLeft fuel (some next) (pos + nibbles.length) (child :: stack)
      | _ => do pure (pos - 1, ← removeFromParent key[pos - 1]? stack)

/-- The elements of two raw nodes are compared as byte arrays, which other arrays are
only if they are empty. -/
def equalsElements : Item → Item → Bool
  | .bytes a, .bytes b => a = b
  | .list a, .list b => a = [] ∧ b = []
  | .bytes a, .list b => a = [] ∧ b = []
  | .list a, .bytes b => a = [] ∧ b = []

def equalsNodes : Item → Item → Bool
  | .bytes leftNode, .bytes rightNode => leftNode = rightNode
  | .list leftNode, .list rightNode =>
    leftNode.length = rightNode.length ∧
      (leftNode.zip rightNode).all fun (a, b) => equalsElements a b
  | _, _ => false

/-- Where the search of `unsetInternal` stops: the position, the node there, and the
nodes above it. -/
structure Fork where
  pos : Nat
  node : MPTNode
  stack : List MPTNode

/-- The comparison of a key at a position with the path of a node. -/
def shortFork (key : Nibbles) (pos : Nat) (node : MPTNode) : Ordering :=
  nibblesCompare ((key.drop pos).take node.key.length) node.key

/-- Part 1 of `unsetInternal`. -/
def findFork (left right : Nibbles) :
    Nat → MPTNode → Nat → List MPTNode → Except RangeProofError Fork
  | 0, _, _, _ => .error (.mpt .outOfFuel)
  | fuel + 1, .branch branches v, pos, stack =>
    match left[pos]?, right[pos]? with
    | some l, some r =>
      let node := MPTNode.branch branches v
      match node.getBranch l, node.getBranch r with
      | some leftNode, some rightNode =>
        -- one slot holds one object, which equals itself
        if l = r ∨ equalsNodes leftNode rightNode then
          match trie.lookupNode leftNode with
          | .error e => .error (.mpt e)
          | .ok next => findFork left right fuel next (pos + 1) (node :: stack)
        else .ok ⟨pos, node, stack⟩
      | _, _ => .ok ⟨pos, node, stack⟩
    | _, _ => .error (.mpt noBranchIndex)
  | fuel + 1, node, pos, stack =>
    if shortFork left pos node ≠ .eq ∨ shortFork right pos node ≠ .eq then .ok ⟨pos, node, stack⟩
    else
      match node with
      | .extension nibbles v =>
        match trie.lookupNode v with
        | .error e => .error (.mpt e)
        | .ok next => findFork left right fuel next (pos + nibbles.length) (node :: stack)
      | _ => .error .invalidNode

def removeSelfFromParentAndSaveStack (key : Nibbles) (pos : Nat) (stack : List MPTNode) :
    Except MPTError (MerklePatriciaTrie × Bool) :=
  match stack with
  | [] => .ok (trie, true)
  | _ => do
    let stack ← removeFromParent key[pos - 1]? stack
    pure (trie.write (trie.saveStack (key.take (pos - 1)) stack []), false)

/-- One edge below the fork is unset and saved; the nodes above and at the fork are
returned as they are then. -/
def unsetEdge (key : Nibbles) (removeLeft : Bool) (pos step : Nat) (child : Option MPTNode)
    (stack : List MPTNode) : Except MPTError (MerklePatriciaTrie × List MPTNode) := do
  let (endPos, stack') ← trie.unset (key.drop pos) removeLeft (key.length + 2) child step stack
  let path := key.take (pos + endPos)
  let wired := trie.wiredNodes path stack' none
  pure (trie.write (trie.saveStack path stack' []), wired.drop (stack'.length - stack.length))

/-- The cases of part 2 with one edge that runs through the extension or leaf. -/
def unsetShort (key : Nibbles) (removeLeft : Bool) (fork : Fork) :
    Except MPTError (MerklePatriciaTrie × Bool) :=
  match fork.node with
  | .extension nibbles v => do
    let child ← trie.lookupNode v
    if child.isLeaf then trie.removeSelfFromParentAndSaveStack key fork.pos fork.stack
    else do
      let (trie, _) ← trie.unsetEdge key removeLeft fork.pos nibbles.length (some child)
        (fork.node :: fork.stack)
      pure (trie, false)
  | _ => trie.removeSelfFromParentAndSaveStack key fork.pos fork.stack

/-- Part 2 of `unsetInternal` at an extension or a leaf. -/
def unsetAtPath (left right : Nibbles) (fork : Fork) :
    Except RangeProofError (MerklePatriciaTrie × Bool) :=
  match shortFork left fork.pos fork.node, shortFork right fork.pos fork.node with
  | .lt, .lt => .error .invalidRange
  | .gt, .gt => .error .invalidRange
  | .eq, .eq => .ok (trie, false)
  | .eq, _ => (trie.unsetShort left false fork).mapError .mpt
  | _, .eq => (trie.unsetShort right true fork).mapError .mpt
  | _, _ => (trie.removeSelfFromParentAndSaveStack left fork.pos fork.stack).mapError .mpt

/-- Part 2 of `unsetInternal` at a branch. -/
def unsetAtBranch (left right : Nibbles) (fork : Fork) :
    Except MPTError (MerklePatriciaTrie × Bool) :=
  match left[fork.pos]?, right[fork.pos]? with
  | some l, some r => do
    let node := fork.node.clearBranches fun i => l < i ∧ i < r
    let child ← (node.getBranch l).mapM trie.lookupNode
    let (trie, stack) ← trie.unsetEdge left false fork.pos 1 child (node :: fork.stack)
    match stack with
    | [] => .error noBranchIndex
    | node :: _ => do
      let child ← (node.getBranch r).mapM trie.lookupNode
      let (trie, _) ← trie.unsetEdge right true fork.pos 1 child stack
      pure (trie, false)
  | _, _ => .error noBranchIndex

/-- The trie without the nodes between the keys, and whether nothing is left of it. -/
def unsetInternal (left right : Nibbles) : Except RangeProofError (MerklePatriciaTrie × Bool) := do
  let root ← (trie.lookupNode (.bytes trie.root)).mapError .mpt
  let fork ← trie.findFork left right (left.length + 2) root 0 []
  if fork.node.isBranch then (trie.unsetAtBranch left right fork).mapError .mpt
  else trie.unsetAtPath left right fork

/-- The loop of `hasRightElement`, with the key from the position on. -/
def hasRightElement : Nat → Item → Nibbles → Except MPTError Bool
  | 0, _, _ => .error .outOfFuel
  | fuel + 1, nodeRef, key =>
    match trie.lookupNode nodeRef with
    | .error e => .error e
    | .ok (.branch branches v) =>
      let node := MPTNode.branch branches v
      match key with
      | [] => .error noBranchIndex
      | index :: rest =>
        if ∃ i, index < i ∧ (node.getBranch i).isSome then .ok true
        else
          match node.getBranch index with
          | none => .ok false
          | some next => hasRightElement fuel next rest
    | .ok (.extension nibbles v) =>
      match stripPrefix nibbles key with
      | none => .ok (nibblesCompare nibbles key = .gt)
      | some rest => hasRightElement fuel v rest
    | .ok (.leaf _ _) => .ok false

/-- `hasRightElement` with the last key of an empty list. -/
def hasRightElementOfUndefined : Except MPTError Bool :=
  match trie.lookupNode (.bytes trie.root) with
  | .error e => .error e
  | .ok (.branch _ _) => .error (.typeError "Cannot read properties of undefined (reading '0')")
  | .ok (.extension _ _) => .error noBranchIndex
  | .ok (.leaf _ _) => .ok false

def putAll : MerklePatriciaTrie → List (Nibbles × Bytes) → Except MPTError MerklePatriciaTrie
  | trie, [] => .ok trie
  | trie, (key, value) :: elements => do
    putAll (← trie.put (nibblesTypeToPackedBytes key) (some value) false) elements

end MerklePatriciaTrie

/-- The options of the trie that is checked. -/
def rangeOpts (H : HashKeysFunction) : MPTOpts := ⟨false, H, false⟩

/-- `verifyMPTWithMerkleProof` of `range.ts`: the proved trie with the value of the key. -/
def verifyMPTWithMerkleProof (rootHash key : Bytes) (proof : List Bytes) (H : HashKeysFunction) :
    Except MPTError (MerklePatriciaTrie × Option Item) := do
  let proofTrie ← createMPTFromProof proof (rangeOpts H) (some rootHash)
  match proofTrie.get key true with
  | .ok value => .ok (proofTrie, value)
  | .error .missingNode => .error .invalidProof
  | .error e => .error e

def verifyZeroElement (rootHash : Bytes) (firstKey : Nibbles) (proof : List Bytes)
    (H : HashKeysFunction) : Except RangeProofError Bool := do
  let (trie, value) ←
    (verifyMPTWithMerkleProof rootHash (nibblesTypeToPackedBytes firstKey) proof H).mapError .mpt
  if value ≠ none then .error .zeroElementValue
  else
    let right ← (trie.hasRightElement (firstKey.length + 1) (.bytes trie.root) firstKey).mapError
      .mpt
    if right then .error .zeroElementValue else pure false

def verifyOneElement (rootHash : Bytes) (firstKey key : Nibbles) (keyValue : Bytes)
    (proof : List Bytes) (H : HashKeysFunction) : Except RangeProofError Bool := do
  let (trie, value) ←
    (verifyMPTWithMerkleProof rootHash (nibblesTypeToPackedBytes firstKey) proof H).mapError .mpt
  if nibblesCompare firstKey key ≠ .eq then .error .oneElementKey
  else if value ≠ some (.bytes keyValue) then .error .oneElementValue
  else (trie.hasRightElement (firstKey.length + 1) (.bytes trie.root) firstKey).mapError .mpt

def verifyTwoEdges (rootHash : Bytes) (firstKey lastKey : Nibbles)
    (elements : List (Nibbles × Bytes)) (proof : List Bytes) (H : HashKeysFunction) :
    Except RangeProofError Bool := do
  let trie ← (createMPTFromProof proof (rangeOpts H) (some rootHash)).mapError .mpt
  let (trie, empty) ← trie.unsetInternal firstKey lastKey
  let trie := if empty then { trie with root := trie.emptyTrieRoot } else trie
  let trie ← (trie.putAll elements).mapError .mpt
  if trie.root ≠ rootHash then .error .twoEdgeRoot
  else
    match elements.getLast? with
    | some (key, _) =>
      (trie.hasRightElement (key.length + 1) (.bytes trie.root) key).mapError .mpt
    | none => (trie.hasRightElementOfUndefined).mapError .mpt

def verifyMerkleRangeProof (rootHash : Bytes) (firstKeyRaw lastKeyRaw : Option Bytes)
    (keysRaw values : List Bytes) (proof : Option (List Bytes)) (H : HashKeysFunction) :
    Except RangeProofError Bool :=
  let firstKey := firstKeyRaw.map bytesToNibbles
  let lastKey := lastKeyRaw.map bytesToNibbles
  let keys := keysRaw.map bytesToNibbles
  if keys.length ≠ values.length then .error .invalidKeysLength
  else if ¬ (keys.zip keys.tail).all fun (a, b) => nibblesCompare a b = .lt then
    .error .invalidKeysOrder
  else if values.any List.isEmpty then .error .invalidValues
  else
    match proof, firstKey, lastKey with
    | none, none, none => do
      let trie ← ((createMPT (rangeOpts H)).putAll (keys.zip values)).mapError .mpt
      if rootHash ≠ trie.root then .error .allElementsRoot else pure false
    | some proof, some firstKey, none =>
      if keys = [] then verifyZeroElement rootHash firstKey proof H else .error .nullMismatch
    | some proof, some firstKey, some lastKey =>
      match keys, values with
      | [key], [value] =>
        if nibblesCompare firstKey lastKey = .eq then
          verifyOneElement rootHash firstKey key value proof H
        else if nibblesCompare firstKey lastKey ≠ .lt then .error .twoEdgeOrder
        else if firstKey.length ≠ lastKey.length then .error .twoEdgeLength
        else verifyTwoEdges rootHash firstKey lastKey (keys.zip values) proof H
      | _, _ =>
        if nibblesCompare firstKey lastKey ≠ .lt then .error .twoEdgeOrder
        else if firstKey.length ≠ lastKey.length then .error .twoEdgeLength
        else verifyTwoEdges rootHash firstKey lastKey (keys.zip values) proof H
    | _, _, _ => .error .nullMismatch

end EthereumJS
