import EthereumJS.Mpt.Proof
import EthereumJS.Overlay.Store

/-! # The lock of a trie

`put`, `del`, `commit` and `revert` of `mpt.ts` with the lock of `lock.ts`, one call after another
over a database with any contents. What the stored nodes say of a key may lead anywhere then, so
that the search for a key takes a number of steps that nothing bounds.
-/

namespace EthereumJS

open RLP Overlay Patricia

/-- The permits of a `Lock`. -/
structure Lock where
  permits : Nat
  deriving DecidableEq

namespace Lock

def new : Lock := ⟨1⟩

/-- `none` where the call waits for a release. -/
def acquire (lock : Lock) : Option Lock :=
  if 0 < lock.permits then some ⟨lock.permits - 1⟩ else none

def release (lock : Lock) : Lock := ⟨lock.permits + 1⟩

theorem acquire_new : new.acquire = some ⟨0⟩ := rfl

end Lock

/-- The bytes of `__root__`. -/
def ROOT_DB_KEY : Bytes := [0x5f, 0x5f, 0x72, 0x6f, 0x6f, 0x74, 0x5f, 0x5f]

namespace MerklePatriciaTrie

/-- `stack[pathProgress] = node`, where a node that was found at the same progress is replaced. -/
def placeNode (pathProgress : Nat) (node : MPTNode) :
    List (Nat × MPTNode) → List (Nat × MPTNode)
  | [] => [(pathProgress, node)]
  | (other, last) :: stack =>
    if other = pathProgress then (pathProgress, node) :: stack
    else (pathProgress, node) :: (other, last) :: stack

variable (trie : MerklePatriciaTrie)

/-- The search of `findPath` where missing nodes do not throw, as far as `fuel` nodes. -/
def searchFrom : Nat → Item → Nat → Nibbles → List (Nat × MPTNode) → Except MPTError Path
  | 0, _, _, _, _ => .error .outOfFuel
  | fuel + 1, nodeRef, pathProgress, targetKey, stack =>
    match trie.lookupNode nodeRef with
    | .error .missingNode => .ok ⟨none, [], stack.map Prod.snd⟩
    | .error e => .error e
    | .ok node =>
      let stack := placeNode pathProgress node stack
      match node with
      | .branch _ _ =>
        match targetKey with
        | [] => .ok ⟨some node, [], stack.map Prod.snd⟩
        | branchIndex :: rest =>
          match node.getBranch branchIndex with
          | none => .ok ⟨none, targetKey, stack.map Prod.snd⟩
          | some branchNode => searchFrom fuel branchNode (pathProgress + 1) rest stack
      | .leaf nibbles _ =>
        if targetKey = nibbles then .ok ⟨some node, [], stack.map Prod.snd⟩
        else .ok ⟨none, targetKey, stack.map Prod.snd⟩
      | .extension nibbles v =>
        match stripPrefix nibbles targetKey with
        | none => .ok ⟨none, targetKey, stack.map Prod.snd⟩
        | some rest => searchFrom fuel v (pathProgress + nibbles.length) rest stack

def searchPath (fuel : Nat) (key : Bytes) : Except MPTError Path :=
  trie.searchFrom fuel (.bytes trie.root) 0 (bytesToNibbles key) []

def searchValue (fuel : Nat) (key : Bytes) : Except MPTError (Option Item) := do
  let path ← trie.searchPath fuel (trie.appliedKey key)
  match path.node, path.remaining with
  | some node, [] => .ok node.value
  | _, _ => .ok none

/-- What `del` does between the acquire and the release. -/
def delLocked (fuel : Nat) (key : Bytes) (skipKeyTransform : Bool) : Except MPTError Effect := do
  let appliedKey := if skipKeyTransform then key else trie.appliedKey key
  let path ← trie.searchPath fuel appliedKey
  match path.node with
  | none => .ok ⟨trie.root, []⟩
  | some _ =>
    let ops := if trie.opts.useNodePruning then trie.createPruneDeleteOps path.stack else []
    let effect ← trie.deleteNode appliedKey path.stack
    .ok ⟨effect.root, effect.batch ++ ops⟩

/-- The delete operations of `put` for a path that it changes. -/
def pruneOps (fuel : Nat) (key value : Bytes) (stack : List MPTNode) :
    Except MPTError (List BatchDBOp) :=
  if trie.opts.useNodePruning then do
    let val ← trie.searchValue fuel key
    .ok (if val = some (.bytes value) then [] else trie.createPruneDeleteOps stack)
  else .ok []

/-- What `put` does of a value that is not empty. -/
def putLocked (fuel : Nat) (key value : Bytes) (skipKeyTransform : Bool) :
    Except MPTError Effect :=
  let appliedKey := if skipKeyTransform then key else trie.appliedKey key
  if trie.root = trie.emptyTrieRoot then .ok (trie.createInitialNode appliedKey value)
  else do
    let path ← trie.searchPath fuel appliedKey
    let ops ← trie.pruneOps fuel key value path.stack
    let effect ← trie.updateNode appliedKey value path.remaining path.stack
    .ok ⟨effect.root, effect.batch ++ ops⟩

end MerklePatriciaTrie

/-- A trie with the tries to revert to. -/
structure LockedTrie where
  tries : Nested MerklePatriciaTrie
  useRootPersistence : Bool
  lock : Lock

inductive LockedError
  | rootKey
  | commitNotCheckpointed
  | revertNotCheckpointed
  | mpt (error : MPTError)

def LockedError.message : LockedError → String
  | rootKey => "Attempted to set '__root__' key but it is not allowed."
  | commitNotCheckpointed => "trying to commit when not checkpointed"
  | revertNotCheckpointed => "trying to revert when not checkpointed"
  | mpt error => error.message

namespace LockedTrie

variable (self : LockedTrie)

def persistRoot (trie : MerklePatriciaTrie) : MerklePatriciaTrie :=
  if self.useRootPersistence then
    { trie with db := trie.db.execute (.put (trie.appliedKey ROOT_DB_KEY) trie.root) }
  else trie

/-- A call that acquires the lock, does `body` and releases the lock. An error of the body leaves
the call before the release. There is no result while the call waits for the lock or while its
search goes on. -/
def withLock (body : Except MPTError (Nested MerklePatriciaTrie)) :
    Option (Except LockedError Unit × LockedTrie) :=
  match self.lock.acquire with
  | none => none
  | some lock =>
    match body with
    | .error .outOfFuel => none
    | .error e => some (.error (.mpt e), { self with lock := lock })
    | .ok tries => some (.ok (), { self with tries := tries, lock := lock.release })

/-- The tries after an effect on the current one. -/
def save (effect : Effect) : Nested MerklePatriciaTrie :=
  self.tries.modify fun trie => self.persistRoot (trie.write effect)

def del (fuel : Nat) (key : Bytes) (skipKeyTransform : Bool) :
    Option (Except LockedError Unit × LockedTrie) :=
  self.withLock ((self.tries.current.delLocked fuel key skipKeyTransform).map self.save)

def put (fuel : Nat) (key : Bytes) (value : Option Bytes) (skipKeyTransform : Bool) :
    Option (Except LockedError Unit × LockedTrie) :=
  if self.useRootPersistence ∧ key = ROOT_DB_KEY then some (.error .rootKey, self)
  else
    match value with
    | none | some [] => self.del fuel key false
    | some value =>
      self.withLock ((self.tries.current.putLocked fuel key value skipKeyTransform).map self.save)

def checkpoint : LockedTrie := { self with tries := self.tries.checkpoint }

def commit : Option (Except LockedError Unit × LockedTrie) :=
  match self.tries.commit with
  | none => some (.error .commitNotCheckpointed, self)
  | some tries => self.withLock (.ok (tries.modify self.persistRoot))

def revert : Option (Except LockedError Unit × LockedTrie) :=
  match self.tries.revert with
  | none => some (.error .revertNotCheckpointed, self)
  | some tries =>
    self.withLock do
      let trie ← tries.current.setRoot tries.current.root
      .ok (tries.modify fun _ => self.persistRoot trie)

end LockedTrie

inductive LockedOp
  | put (key : Bytes) (value : Option Bytes) (skipKeyTransform : Bool)
  | del (key : Bytes) (skipKeyTransform : Bool)
  | checkpoint
  | commit
  | revert

def LockedTrie.step (self : LockedTrie) (fuel : Nat) :
    LockedOp → Option (Except LockedError Unit × LockedTrie)
  | .put key value skipKeyTransform => self.put fuel key value skipKeyTransform
  | .del key skipKeyTransform => self.del fuel key skipKeyTransform
  | .checkpoint => some (.ok (), self.checkpoint)
  | .commit => self.commit
  | .revert => self.revert

/-- The state after calls that all end, one after another. -/
def LockedTrie.run (self : LockedTrie) (fuel : Nat) : List LockedOp → Option LockedTrie
  | [] => some self
  | op :: ops =>
    match self.step fuel op with
    | none => none
    | some (_, next) => next.run fuel ops

end EthereumJS
