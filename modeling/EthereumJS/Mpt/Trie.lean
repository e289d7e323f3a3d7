import EthereumJS.Mpt.Node

/-! # The Merkle Patricia trie

`MerklePatriciaTrie` of `mpt.ts` over a database without checkpoints and cache. An
operation reads the database first and writes at its end, so it is split into the
effect it computes and the write. A stack of nodes is a list whose head is the node
that was pushed last.
-/

namespace EthereumJS

open RLP Patricia

/-- The hash function of the options, for instance `keccak_256`. -/
structure HashKeysFunction where
  hash : Bytes → Bytes
  length_hash : ∀ msg, (hash msg).length = 32

/-- A hash function that can be evaluated: the message as a number in another base,
modulo 2^256. It stands in for `keccak_256` on single inputs. -/
def polynomialHash : HashKeysFunction where
  hash msg :=
    let n := msg.foldl (fun acc b => (acc * 257 + b.toNat + 1) % 2 ^ 256) 7
    (List.range 32).map fun i => UInt8.ofNat (n / 256 ^ i)
  length_hash := by simp

structure MPTOpts where
  useKeyHashing : Bool
  useKeyHashingFunction : HashKeysFunction
  useNodePruning : Bool

inductive BatchDBOp
  | put (key value : Bytes)
  | del (key : Bytes)

abbrev MapDB := Bytes → Option Bytes

namespace MapDB

def execute (db : MapDB) : BatchDBOp → MapDB
  | .put key value => Function.update db key (some value)
  | .del key => Function.update db key none

def batch : MapDB → List BatchDBOp → MapDB
  | db, [] => db
  | db, op :: opStack => batch (db.execute op) opStack

end MapDB

structure MerklePatriciaTrie where
  opts : MPTOpts
  db : MapDB
  root : Bytes

structure Path where
  node : Option MPTNode
  remaining : Nibbles
  stack : List MPTNode

/-- What an operation does in the end: the root it sets and the entries it writes. -/
structure Effect where
  root : Bytes
  batch : List BatchDBOp

def RLP_EMPTY_STRING : Bytes := [0x80]

/-- `splice(path.length - n)`, where a negative start counts from the end. -/
def spliceTail (path : Nibbles) (n : Nat) : Nibbles :=
  if n ≤ path.length then path.take (path.length - n) else path.take (2 * path.length - n)

namespace MerklePatriciaTrie

variable (trie : MerklePatriciaTrie)

def hash (input : Bytes) : Bytes := trie.opts.useKeyHashingFunction.hash input

def emptyTrieRoot : Bytes := trie.hash RLP_EMPTY_STRING

def appliedKey (key : Bytes) : Bytes := if trie.opts.useKeyHashing then trie.hash key else key

def lookupNode : Item → Except MPTError MPTNode
  | .list raw => decodeRawMPTNode raw
  | .bytes node =>
    match trie.db node with
    | none => .error .missingNode
    | some value => decodeMPTNode value

/-- The walk of `findPath` and its handler for a missing node. The fuel exceeds the
number of nibbles that are left; every node above the last takes one at least. -/
def walk (throwIfMissing : Bool) : Nat → Item → Nibbles → List MPTNode → Except MPTError Path
  | 0, _, _, _ => .error .outOfFuel
  | fuel + 1, nodeRef, targetKey, stack =>
    match trie.lookupNode nodeRef with
    | .error .missingNode =>
      if throwIfMissing then .error .missingNode else .ok ⟨none, [], stack⟩
    | .error e => .error e
    | .ok (.branch branches v) =>
      let node := .branch branches v
      match targetKey with
      | [] => .ok ⟨some node, [], node :: stack⟩
      | branchIndex :: rest =>
        match node.getBranch branchIndex with
        | none => .ok ⟨none, targetKey, node :: stack⟩
        | some branchNode => walk throwIfMissing fuel branchNode rest (node :: stack)
    | .ok (.leaf nibbles v) =>
      let node := .leaf nibbles v
      if targetKey = nibbles then .ok ⟨some node, [], node :: stack⟩
      else .ok ⟨none, targetKey, node :: stack⟩
    | .ok (.extension nibbles v) =>
      let node := .extension nibbles v
      match stripPrefix nibbles targetKey with
      | none => .ok ⟨none, targetKey, node :: stack⟩
      | some rest => walk throwIfMissing fuel v rest (node :: stack)

def findPath (key : Bytes) (throwIfMissing : Bool) : Except MPTError Path :=
  let targetKey := bytesToNibbles key
  trie.walk throwIfMissing (targetKey.length + 1) (.bytes trie.root) targetKey []

def get (key : Bytes) (throwIfMissing : Bool) : Except MPTError (Option Item) := do
  let path ← trie.findPath (trie.appliedKey key) throwIfMissing
  match path.node, path.remaining with
  | some node, [] => .ok node.value
  | _, _ => .ok none

def formatNode (node : MPTNode) (topLevel remove : Bool) : Item × List BatchDBOp :=
  let encoded := node.serialize
  if 32 ≤ encoded.length ∨ topLevel then
    let nodeHash := trie.hash encoded
    if remove then
      (.bytes nodeHash, if trie.opts.useNodePruning then [.del nodeHash] else [])
    else (.bytes nodeHash, [.put nodeHash encoded])
  else (node.raw, [])

/-- A node on the way up, with its reference to the child that was saved before it. -/
def wire (path : Nibbles) (childHash : Option Item) : MPTNode → Nibbles × MPTNode
  | .leaf nibbles v => (spliceTail path nibbles.length, .leaf nibbles v)
  | .extension nibbles v =>
    (spliceTail path nibbles.length, .extension nibbles (childHash.getD v))
  | .branch branches v =>
    match childHash, path.getLast? with
    | none, _ => (path, .branch branches v)
    | some _, none => (path, .branch branches v)
    | some hash, some branchIndex =>
      (path.dropLast, (MPTNode.branch branches v).setBranch branchIndex hash)

/-- The loop of `saveStack`. -/
def saveNodes : Nibbles → List MPTNode → Option Item → List BatchDBOp →
    Option Item × List BatchDBOp
  | _, [], childHash, opStack => (childHash, opStack)
  | path, node :: stack, childHash, opStack =>
    let (path, node) := wire path childHash node
    let (hash, ops) := trie.formatNode node stack.isEmpty false
    saveNodes path stack (some hash) (opStack ++ ops)

def saveStack (path : Nibbles) (stack : List MPTNode) (opStack : List BatchDBOp) : Effect :=
  match trie.saveNodes path stack none opStack with
  | (some (.bytes hash), ops) => ⟨hash, ops⟩
  | (_, ops) => ⟨trie.root, ops⟩

def createInitialNode (key value : Bytes) : Effect :=
  let encoded := (MPTNode.leaf (bytesToNibbles key) (.bytes value)).serialize
  ⟨trie.hash encoded, [.put (trie.hash encoded) encoded]⟩

def isMatchingLeafUpdate (lastNode : MPTNode) (stack : List MPTNode)
    (fullKeyNibbles keyRemainder : Nibbles) : Bool :=
  if ¬ lastNode.isLeaf ∨ keyRemainder.length ≠ 0 then false
  else
    let keyOffset := (stack.map fun n => if n.isBranch then 1 else n.key.length).sum
    matchingNibbleLength lastNode.key (fullKeyNibbles.drop keyOffset) = lastNode.key.length

/-- The new branch of case 3 of `_updateNode` with what is left of the last node, whose
key lost the nibbles that match. -/
def newBranchMPTNode (lastNode : MPTNode) : Nibbles → MPTNode × List BatchDBOp
  | branchKey :: lastKey =>
    if lastKey.length ≠ 0 ∨ lastNode.isLeaf then
      let (formattedNode, ops) := trie.formatNode (lastNode.setKey lastKey) false false
      (MPTNode.emptyBranch.setBranch branchKey formattedNode, ops)
    else
      let (_, ops) := trie.formatNode lastNode false true
      (MPTNode.emptyBranch.setBranch branchKey (lastNode.value.getD (.bytes [])), ops)
  | [] => (MPTNode.emptyBranch.setValue lastNode.value, [])

/-- Case 3 of `_updateNode`: a branch where the path of the last node and the key part. -/
def divergeNode (lastNode : MPTNode) (value : Item) (keyRemainder : Nibbles)
    (stack : List MPTNode) : List MPTNode × List BatchDBOp :=
  let matchingLength := matchingNibbleLength lastNode.key keyRemainder
  let above :=
    if matchingLength ≠ 0 then
      .extension (lastNode.key.take matchingLength) value :: stack
    else stack
  let (newBranch, opStack) := trie.newBranchMPTNode lastNode (lastNode.key.drop matchingLength)
  match keyRemainder.drop matchingLength with
  | _ :: rest => (.leaf rest value :: newBranch :: above, opStack)
  | [] => (newBranch.setValue (some value) :: above, opStack)

def updateNode (key value : Bytes) (keyRemainder : Nibbles) :
    List MPTNode → Except MPTError Effect
  | [] => .error .stackUnderflow
  | lastNode :: stack =>
    let fullKeyNibbles := bytesToNibbles key
    if isMatchingLeafUpdate lastNode stack fullKeyNibbles keyRemainder then
      .ok (trie.saveStack fullKeyNibbles (lastNode.setValue (some (.bytes value)) :: stack) [])
    else if lastNode.isBranch then
      match keyRemainder with
      | _ :: rest =>
        .ok (trie.saveStack fullKeyNibbles (.leaf rest (.bytes value) :: lastNode :: stack) [])
      | [] =>
        .ok (trie.saveStack fullKeyNibbles (lastNode.setValue (some (.bytes value)) :: stack) [])
    else
      let (stack, opStack) := trie.divergeNode lastNode (.bytes value) keyRemainder stack
      .ok (trie.saveStack fullKeyNibbles stack opStack)

/-- `parentNode` is the rest of the stack here, whose head is popped by the caller. -/
def collapseBranchWithOneChild (path : Nibbles) (branchIndex : Nibble) (childNode : MPTNode) :
    List MPTNode → Except MPTError (Nibbles × List MPTNode)
  | .extension parentKey v :: nodeStack =>
    if childNode.isBranch then
      .ok (path ++ [branchIndex],
        childNode :: .extension (parentKey ++ [branchIndex]) v :: nodeStack)
    else
      let childNodeKey := branchIndex :: childNode.key
      .ok (path ++ childNodeKey, childNode.setKey (parentKey ++ childNodeKey) :: nodeStack)
  | .leaf _ _ :: _ => .error .expectedExtensionNode
  | nodeStack =>
    if childNode.isBranch then
      .ok (path ++ [branchIndex], childNode :: .extension [branchIndex] (.bytes []) :: nodeStack)
    else
      let childNodeKey := branchIndex :: childNode.key
      .ok (path ++ childNodeKey, childNode.setKey childNodeKey :: nodeStack)

def hashToDelete : Item → Bytes
  | .list raw => trie.hash (encode (.list raw))
  | .bytes hash => hash

/-- The end of `_deleteNode`, once the last node has lost a child or its value. -/
def saveShrunk (path : Nibbles) (lastNode : MPTNode) (stack : List MPTNode)
    (opStack : List BatchDBOp) : Except MPTError Effect :=
  match lastNode.getChildren with
  | [(branchNodeKey, branchNode)] => do
    let pruned :=
      if trie.opts.useNodePruning then [.del (trie.hashToDelete branchNode)] else []
    let foundNode ← trie.lookupNode branchNode
    let (path, stack) ← collapseBranchWithOneChild path branchNodeKey foundNode stack
    .ok (trie.saveStack path stack (opStack ++ pruned))
  | _ => .ok (trie.saveStack path (lastNode :: stack) opStack)

def deleteNode (key : Bytes) : List MPTNode → Except MPTError Effect
  | [] => .error .missingLastNode
  | [_] => .ok ⟨trie.emptyTrieRoot, []⟩
  | lastNode :: parentNode :: stack =>
    let path := bytesToNibbles key
    if lastNode.isBranch then
      trie.saveShrunk path (lastNode.setValue none) (parentNode :: stack) []
    else if parentNode.isBranch then
      let path := spliceTail path lastNode.key.length
      let (_, opStack) := trie.formatNode lastNode false true
      let parentNode :=
        match path.getLast? with
        | some branchIndex => parentNode.setBranch branchIndex (.bytes [])
        | none => parentNode
      trie.saveShrunk path.dropLast parentNode stack opStack
    else .error .expectedBranchNode

def createPruneDeleteOps (stack : List MPTNode) : List BatchDBOp :=
  stack.reverse.map fun node => .del (trie.hash node.serialize)

def delEffect (key : Bytes) (skipKeyTransform : Bool) : Except MPTError Effect := do
  let appliedKey := if skipKeyTransform then key else trie.appliedKey key
  let path ← trie.findPath appliedKey false
  match path.node with
  | none => .ok ⟨trie.root, []⟩
  | some _ =>
    let ops := if trie.opts.useNodePruning then trie.createPruneDeleteOps path.stack else []
    let effect ← trie.deleteNode appliedKey path.stack
    .ok ⟨effect.root, effect.batch ++ ops⟩

def putEffect (key : Bytes) (value : Option Bytes) (skipKeyTransform : Bool) :
    Except MPTError Effect :=
  match value with
  | none => trie.delEffect key false
  | some [] => trie.delEffect key false
  | some value => do
    let appliedKey := if skipKeyTransform then key else trie.appliedKey key
    if trie.root = trie.emptyTrieRoot then .ok (trie.createInitialNode appliedKey value)
    else
      let path ← trie.findPath appliedKey false
      let ops ←
        if trie.opts.useNodePruning then do
          let val ← trie.get key false
          pure (if val = some (.bytes value) then [] else trie.createPruneDeleteOps path.stack)
        else pure []
      let effect ← trie.updateNode appliedKey value path.remaining path.stack
      .ok ⟨effect.root, effect.batch ++ ops⟩

def write (effect : Effect) : MerklePatriciaTrie :=
  { trie with root := effect.root, db := trie.db.batch effect.batch }

def put (key : Bytes) (value : Option Bytes) (skipKeyTransform : Bool) :
    Except MPTError MerklePatriciaTrie :=
  (trie.putEffect key value skipKeyTransform).map trie.write

def del (key : Bytes) (skipKeyTransform : Bool) : Except MPTError MerklePatriciaTrie :=
  (trie.delEffect key skipKeyTransform).map trie.write

end MerklePatriciaTrie

/-- A new trie over an empty database. -/
def createMPT (opts : MPTOpts) : MerklePatriciaTrie :=
  ⟨opts, fun _ => none, opts.useKeyHashingFunction.hash RLP_EMPTY_STRING⟩

end EthereumJS
