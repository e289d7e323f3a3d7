import EthereumJS.Rlp.Hex
import EthereumJS.Mpt.Trie
import EthereumJS.Overlay.Store

/-! # The database of a trie

`CheckpointDB` of `checkpointDB.ts`: a cache in front of a stack of diff maps in front of
a database with hex strings as keys. A stack of checkpoints is a list whose head is the
one that was opened last. Statistics are left out.
-/

namespace EthereumJS

open RLP Overlay

inductive CheckpointDBError
  | prefixedHex
  | hex (error : HexError)
  | noCheckpoint
  deriving DecidableEq

/-- `bytesToUnprefixedHex`. -/
def bytesToUnprefixedHex (bytes : Bytes) : List Char := bytesToHex bytes

/-- `unprefixedHexToBytes`. -/
def unprefixedHexToBytes (hex : List Char) : Except CheckpointDBError Bytes :=
  if hex.take 2 = ['0', 'x'] then .error .prefixedHex
  else match hexPairs (padToEven hex) with
    | .ok bytes => .ok bytes
    | .error e => .error (.hex e)

inductive ValueEncoding
  | string
  | bytes

/-- A value of the underlying database. -/
inductive DBValue
  | string (hex : List Char)
  | bytes (value : Bytes)

abbrev StringDB := List Char → Option DBValue

/-- A cache of bounded size. It may drop an entry at any write, and `set` of
`undefined` deletes. -/
structure LRUCache where
  State : Type
  new : Nat → State
  peek : State → List Char → Option Bytes
  get : State → List Char → Option Bytes × State
  set : State → List Char → Option Bytes → State
  peek_new : ∀ max key, peek (new max) key = none
  get_fst : ∀ cache key, (get cache key).1 = peek cache key
  peek_get : ∀ cache key, peek (get cache key).2 = peek cache
  peek_set : ∀ cache key value key' value', peek (set cache key value) key' = some value' →
    if key' = key then value = some value' else peek cache key' = some value'

theorem lookup_cons_ite (entries : List (List Char × Bytes)) (key key' : List Char) (value : Bytes) :
    ((key, value) :: entries).lookup key' =
      if key' = key then some value else entries.lookup key' := by
  rw [List.lookup_cons]
  rcases Classical.em (key' = key) with rfl | hne
  · simp
  · rw [if_neg hne, beq_eq_false_iff_ne.mpr hne]

theorem lookup_filter_ne (entries : List (List Char × Bytes)) (key key' : List Char) :
    (entries.filter (·.1 ≠ key)).lookup key' =
      if key' = key then none else entries.lookup key' := by
  induction entries with
  | nil => simp
  | cons e entries ih =>
    obtain ⟨a, value⟩ := e
    rw [lookup_cons_ite]
    rcases Classical.em (a = key) with rfl | hne
    · rw [List.filter_cons_of_neg (by simp), ih]
      split <;> rfl
    · rw [List.filter_cons_of_pos (by simpa using hne), lookup_cons_ite, ih]
      rcases Classical.em (key' = a) with rfl | hother
      · simp [hne]
      · simp [hother]

theorem lookup_of_lookup_take {entries : List (List Char × Bytes)} {max : Nat} {key : List Char}
    {value : Bytes} (h : (entries.take max).lookup key = some value) :
    entries.lookup key = some value := by
  rw [← List.take_append_drop max entries, List.lookup_append, h]
  rfl

/-- A least-recently-used cache as a list, the entry that was used last first. -/
def lruList : LRUCache where
  State := Nat × List (List Char × Bytes)
  new max := (max, [])
  peek cache key := cache.2.lookup key
  get cache key :=
    match cache.2.lookup key with
    | none => (none, cache)
    | some value => (some value, (cache.1, (key, value) :: cache.2.filter (·.1 ≠ key)))
  set cache key value :=
    match value with
    | none => (cache.1, cache.2.filter (·.1 ≠ key))
    | some value => (cache.1, ((key, value) :: cache.2.filter (·.1 ≠ key)).take cache.1)
  peek_new _ _ := rfl
  get_fst cache key := by
    cases cache.2.lookup key <;> rfl
  peek_get cache key := by
    funext key'
    cases hfound : cache.2.lookup key with
    | none => rfl
    | some value =>
      dsimp only
      rw [lookup_cons_ite, lookup_filter_ne]
      split
      · rename_i heq
        rw [heq, hfound]
      · rfl
  peek_set cache key value key' value' h := by
    cases value with
    | none =>
      dsimp only at h
      rw [lookup_filter_ne] at h
      split at h
      · cases h
      · rename_i hne
        rwa [if_neg hne]
    | some value =>
      have hfull := lookup_of_lookup_take h
      rw [lookup_cons_ite, lookup_filter_ne] at hfull
      split
      · rename_i heq
        rwa [if_pos heq] at hfull
      · rename_i hne
        rwa [if_neg hne, if_neg hne] at hfull

structure Checkpoint where
  keyValueMap : DiffMap (List Char) Bytes
  root : Bytes

structure CheckpointDB (lru : LRUCache) where
  checkpoints : List Checkpoint
  db : StringDB
  valueEncoding : ValueEncoding
  cache : Option lru.State

namespace CheckpointDB

variable {lru : LRUCache}

def new (lru : LRUCache) (db : StringDB) (cacheSize : Nat) (valueEncoding : ValueEncoding) :
    CheckpointDB lru where
  checkpoints := []
  db := db
  valueEncoding := valueEncoding
  cache := if 0 < cacheSize then some (lru.new cacheSize) else none

variable (self : CheckpointDB lru)

def hasCheckpoints : Bool := self.checkpoints ≠ []

def checkpoint (root : Bytes) : CheckpointDB lru :=
  { self with checkpoints := ⟨∅, root⟩ :: self.checkpoints }

/-- `checkpoints[checkpoints.length - 1].keyValueMap.set`. -/
def setDiff (keyHex : List Char) (value : Option Bytes) : CheckpointDB lru :=
  match self.checkpoints with
  | [] => self
  | cp :: cps =>
    { self with checkpoints := { cp with keyValueMap := cp.keyValueMap.set keyHex value } :: cps }

def setCache (keyHex : List Char) (value : Option Bytes) : CheckpointDB lru :=
  { self with cache := self.cache.map fun cache => lru.set cache keyHex value }

/-- The loop of `get` over the diff maps. -/
def getDiff (keyHex : List Char) : List Checkpoint → Option (Option Bytes)
  | [] => none
  | cp :: cps => (cp.keyValueMap.lookup keyHex).or (getDiff keyHex cps)

def readValue : Option DBValue → Except CheckpointDBError (Option Bytes)
  | none => .ok none
  | some (.bytes value) => .ok (some value)
  | some (.string hex) => do
    let value ← unprefixedHexToBytes hex
    .ok (some value)

/-- `get` behind the cache. -/
def getUncached (keyHex : List Char) :
    Except CheckpointDBError (Option Bytes × CheckpointDB lru) :=
  match getDiff keyHex self.checkpoints with
  | some value => .ok (value, self)
  | none => do
    let returnValue ← readValue (self.db keyHex)
    .ok (returnValue, (self.setCache keyHex returnValue).setDiff keyHex returnValue)

def get (key : Bytes) : Except CheckpointDBError (Option Bytes × CheckpointDB lru) :=
  let keyHex := bytesToUnprefixedHex key
  match self.cache with
  | none => self.getUncached keyHex
  | some cache =>
    let (value, cache) := lru.get cache keyHex
    let self := { self with cache := some cache }
    match value with
    | some value => .ok (some value, self)
    | none => self.getUncached keyHex

/-- A value as the encoding of the database has it. -/
def valuePut (value : Bytes) : DBValue :=
  match self.valueEncoding with
  | .bytes => .bytes value
  | .string => .string (bytesToUnprefixedHex value)

def put (key value : Bytes) : CheckpointDB lru :=
  let keyHex := bytesToUnprefixedHex key
  if self.hasCheckpoints then self.setDiff keyHex (some value)
  else
    { self with db := Function.update self.db keyHex (some (self.valuePut value)) }.setCache
      keyHex (some value)

def del (key : Bytes) : CheckpointDB lru :=
  let keyHex := bytesToUnprefixedHex key
  if self.hasCheckpoints then self.setDiff keyHex none
  else { self with db := Function.update self.db keyHex none }.setCache keyHex none

def execute (op : BatchDBOp) : CheckpointDB lru :=
  match op with
  | .put key value => self.put key value
  | .del key => self.del key

/-- One operation of the underlying database's own `batch`. -/
def executeDB (db : StringDB) (op : BatchDBOp) : StringDB :=
  match op with
  | .put key value =>
    Function.update db (bytesToUnprefixedHex key) (some (self.valuePut value))
  | .del key => Function.update db (bytesToUnprefixedHex key) none

def batch (opStack : List BatchDBOp) : CheckpointDB lru :=
  if self.hasCheckpoints then opStack.foldl execute self
  else { self with db := opStack.foldl self.executeDB self.db }

/-- The operations that write a diff map to disk. -/
def batchOps : List (List Char × Option Bytes) → Except CheckpointDBError (List BatchDBOp)
  | [] => .ok []
  | (keyHex, value) :: entries => do
    let key ← unprefixedHexToBytes keyHex
    let batchOp ← batchOps entries
    match value with
    | none => .ok (.del key :: batchOp)
    | some value => .ok (.put key value :: batchOp)

def commit : Except CheckpointDBError (CheckpointDB lru) :=
  match self.checkpoints with
  | [] => .error .noCheckpoint
  | [cp] => do
    let batchOp ← batchOps cp.keyValueMap.toWrites
    .ok ({ self with checkpoints := [] }.batch batchOp)
  | cp :: cur :: cps =>
    .ok { self with
      checkpoints := { cur with keyValueMap := cp.keyValueMap.merge cur.keyValueMap } :: cps }

def revert : Except CheckpointDBError (Bytes × CheckpointDB lru) :=
  match self.checkpoints with
  | [] => .error .noCheckpoint
  | cp :: cps => .ok (cp.root, { self with checkpoints := cps })

end CheckpointDB
end EthereumJS
