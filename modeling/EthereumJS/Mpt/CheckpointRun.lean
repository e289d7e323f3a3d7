import EthereumJS.Mpt.CheckpointDB

/-! # Runs of the database

`CheckpointDB` against a key-value store with nested transactions. The diff maps follow
the transactions always. The cache follows them exactly as long as no write goes past it
to a key that it holds, unless it writes the value that is there.
-/

namespace EthereumJS

open RLP Overlay

section Hex

theorem bytesToUnprefixedHex_cons (b : UInt8) (bytes : Bytes) :
    bytesToUnprefixedHex (b :: bytes) =
      (b.toNat / 16).digitChar :: (b.toNat % 16).digitChar :: bytesToUnprefixedHex bytes := by
  have hbyte := numberToHex_byte (b.toNat_lt)
  change cachedHex b ++ _ = _
  rw [show cachedHex b = numberToHex b.toNat from rfl, hbyte]
  rfl

theorem hexPairs_bytesToUnprefixedHex (bytes : Bytes) :
    hexPairs (bytesToUnprefixedHex bytes) = .ok bytes := by
  induction bytes with
  | nil => rfl
  | cons b bytes ih =>
    have hlt := b.toNat_lt
    have hpair := hexPairs_pair (show b.toNat / 16 < 16 by omega) (Nat.mod_lt b.toNat (by omega))
    rw [Nat.div_add_mod', UInt8.ofNat_toNat] at hpair
    rw [bytesToUnprefixedHex_cons]
    exact hexPairs_append hpair ih

theorem unprefixedHexToBytes_bytesToUnprefixedHex (bytes : Bytes) :
    unprefixedHexToBytes (bytesToUnprefixedHex bytes) = .ok bytes := by
  have heven : (bytesToUnprefixedHex bytes).length % 2 = 0 := by
    rw [length_of_hexPairs (hexPairs_bytesToUnprefixedHex bytes)]
    omega
  have hprefix : (bytesToUnprefixedHex bytes).take 2 ≠ ['0', 'x'] := by
    cases bytes with
    | nil => simp [bytesToUnprefixedHex, bytesToHex]
    | cons b bytes =>
      rw [bytesToUnprefixedHex_cons]
      intro h
      simp only [List.take_succ_cons, List.take_zero, List.cons.injEq, and_true] at h
      exact digitChar_ne_x (Nat.mod_lt b.toNat (by omega)) h.2
  rw [unprefixedHexToBytes, if_neg hprefix, padToEven, if_neg (by omega),
    hexPairs_bytesToUnprefixedHex]

theorem bytesToUnprefixedHex_injective : Function.Injective bytesToUnprefixedHex := by
  intro a b h
  have ha := unprefixedHexToBytes_bytesToUnprefixedHex a
  rw [h, unprefixedHexToBytes_bytesToUnprefixedHex] at ha
  exact (Except.ok.inj ha).symm

end Hex

/-- The values that the program reads and writes. -/
abbrev Store := Bytes → Option Bytes

/-- A store with hex strings as keys, as a store. -/
def unhex (s : List Char → Option Bytes) : Store := fun key => s (bytesToUnprefixedHex key)

def BatchDBOp.toWrite : BatchDBOp → Bytes × Option Bytes
  | .put key value => (key, some value)
  | .del key => (key, none)

/-- The operations of the database. -/
inductive CheckpointDBOp
  | put (key value : Bytes)
  | del (key : Bytes)
  | batch (opStack : List BatchDBOp)
  | get (key : Bytes)
  | checkpoint (root : Bytes)
  | commit
  | revert

namespace CheckpointDBOp

/-- The operations of a `batch` that do the same. -/
def opStack : CheckpointDBOp → List BatchDBOp
  | put key value => [.put key value]
  | del key => [.del key]
  | batch opStack => opStack
  | _ => []

def writes (op : CheckpointDBOp) : List (Bytes × Option Bytes) := op.opStack.map BatchDBOp.toWrite

/-- What an operation does to a store with nested transactions. -/
def spec (n : Nested Store) : CheckpointDBOp → Option (Nested Store)
  | checkpoint _ => some n.checkpoint
  | commit => n.commit
  | revert => n.revert
  | op => some (n.modify (Overlay.writes op.writes))

end CheckpointDBOp

def specRun (n : Nested Store) : List CheckpointDBOp → Option (Nested Store)
  | [] => some n
  | op :: ops => (op.spec n).bind fun n => specRun n ops

namespace CheckpointDB

variable {lru : LRUCache}

def step (cdb : CheckpointDB lru) : CheckpointDBOp → Except CheckpointDBError (CheckpointDB lru)
  | .put key value => .ok (cdb.put key value)
  | .del key => .ok (cdb.del key)
  | .batch opStack => .ok (cdb.batch opStack)
  | .get key => (cdb.get key).map Prod.snd
  | .checkpoint root => .ok (cdb.checkpoint root)
  | .commit => cdb.commit
  | .revert => cdb.revert.map Prod.snd

/-- The value that the cache holds. -/
def cached (cdb : CheckpointDB lru) (key : Bytes) : Option Bytes :=
  cdb.cache.bind fun cache => lru.peek cache (bytesToUnprefixedHex key)

/-- The database gives what a store with nested transactions holds, and is equal to it
when no checkpoint is open. -/
structure Faithful (cdb : CheckpointDB lru) (n : Nested Store) : Prop where
  get_eq : ∀ key, ∃ after, cdb.get key = .ok (n.current key, after)
  db_eq : cdb.checkpoints = [] → ∀ key,
    readValue (cdb.db (bytesToUnprefixedHex key)) = .ok (n.current key)

/-- All states of a run are faithful. -/
def FaithfulRun (cdb : CheckpointDB lru) (n : Nested Store) : List CheckpointDBOp → Prop
  | [] => cdb.Faithful n
  | op :: ops => cdb.Faithful n ∧ ∃ cdb' n', cdb.step op = .ok cdb' ∧ op.spec n = some n' ∧
      FaithfulRun cdb' n' ops

/-- Whether an operation writes past the cache. -/
def bypasses (cdb : CheckpointDB lru) : CheckpointDBOp → Bool
  | .put _ _ => cdb.hasCheckpoints
  | .del _ => cdb.hasCheckpoints
  | .batch _ => true
  | _ => false

/-- What is written past the cache to a key that it holds is the value it holds. -/
def StepSafe (cdb : CheckpointDB lru) (op : CheckpointDBOp) : Prop :=
  cdb.bypasses op = true → ∀ key value, cdb.cached key = some value →
    ∀ written, latestWrite op.writes key = some written → written = some value

def SafeRun (cdb : CheckpointDB lru) : List CheckpointDBOp → Prop
  | [] => True
  | op :: ops => cdb.StepSafe op ∧ ∀ cdb', cdb.step op = .ok cdb' → SafeRun cdb' ops

def maps (cdb : CheckpointDB lru) : List (DiffMap (List Char) Bytes) :=
  cdb.checkpoints.map Checkpoint.keyValueMap

/-- The diff maps over the disk follow the nested transactions. -/
structure Stacked (cdb : CheckpointDB lru) (base : List Char → Option Bytes) (n : Nested Store) :
    Prop where
  reads : ∀ key, readValue (cdb.db (bytesToUnprefixedHex key)) =
    .ok (base (bytesToUnprefixedHex key))
  nested_eq : n = (nested base cdb.maps).map unhex
  hexKeys : ∀ m ∈ cdb.maps, ∀ keyHex ∈ m, ∃ key, keyHex = bytesToUnprefixedHex key

/-- What the cache holds is what every layer holds. -/
def Fresh (cdb : CheckpointDB lru) (base : List Char → Option Bytes) : Prop :=
  ∀ key value, cdb.cached key = some value → base (bytesToUnprefixedHex key) = some value ∧
    ∀ m ∈ cdb.maps, ∀ w, m.lookup (bytesToUnprefixedHex key) = some w → w = some value

structure Refines (cdb : CheckpointDB lru) (base : List Char → Option Bytes) (n : Nested Store) :
    Prop extends Stacked cdb base n where
  fresh : cdb.Fresh base

section Get

variable {cdb : CheckpointDB lru} {base : List Char → Option Bytes} {n : Nested Store}

theorem Stacked.current_eq (h : Stacked cdb base n) (key : Bytes) :
    n.current key = view base cdb.maps (bytesToUnprefixedHex key) := by
  rw [h.nested_eq]
  rfl

theorem view_eq_getDiff (base : List Char → Option Bytes) (cps : List Checkpoint)
    (keyHex : List Char) :
    view base (cps.map Checkpoint.keyValueMap) keyHex =
      (getDiff keyHex cps).getD (base keyHex) := by
  induction cps with
  | nil => rfl
  | cons cp cps ih =>
    simp only [List.map_cons, view, DiffMap.overlay, getDiff, ih]
    cases cp.keyValueMap.lookup keyHex <;> rfl

/-- A hit in the cache is right. -/
theorem Refines.cached_eq (h : Refines cdb base n) {key value : Bytes}
    (hcached : cdb.cached key = some value) : n.current key = some value := by
  obtain ⟨hbase, hmaps⟩ := h.fresh key value hcached
  rw [h.current_eq]
  exact view_eq_of_forall base cdb.maps hbase hmaps

/-- Only the layers and what the cache holds matter. -/
theorem Refines.congr (h : Refines cdb base n) {after : CheckpointDB lru}
    (hdb : after.db = cdb.db) (hcheckpoints : after.checkpoints = cdb.checkpoints)
    (hcached : ∀ key value, after.cached key = some value → cdb.cached key = some value) :
    Refines after base n := by
  have hmaps : after.maps = cdb.maps := congrArg (List.map Checkpoint.keyValueMap) hcheckpoints
  constructor
  · constructor
    · rw [hdb]
      exact h.reads
    · rw [hmaps]
      exact h.nested_eq
    · rw [hmaps]
      exact h.hexKeys
  · intro key value hvalue
    rw [hmaps]
    exact h.fresh key value (hcached key value hvalue)

theorem cached_setCache {keyHex : List Char} {value : Option Bytes} {key found : Bytes}
    (h : (cdb.setCache keyHex value).cached key = some found) :
    if bytesToUnprefixedHex key = keyHex then value = some found
    else cdb.cached key = some found := by
  unfold cached setCache at h
  rw [Option.bind_map] at h
  obtain ⟨cache, hcache, hpeek⟩ := Option.bind_eq_some_iff.mp h
  have hset := lru.peek_set _ _ _ _ _ hpeek
  rw [cached, hcache]
  exact hset

/-- Writes to the map of the checkpoint that was opened last. -/
def setAll (cdb : CheckpointDB lru) (ws : List (Bytes × Option Bytes)) : CheckpointDB lru :=
  ws.foldl (fun cdb w => cdb.setDiff (bytesToUnprefixedHex w.1) w.2) cdb

def hexWrites (ws : List (Bytes × Option Bytes)) : List (List Char × Option Bytes) :=
  ws.map fun w => (bytesToUnprefixedHex w.1, w.2)

theorem latestWrite_hexWrites (ws : List (Bytes × Option Bytes)) (key : Bytes) :
    latestWrite (hexWrites ws) (bytesToUnprefixedHex key) = latestWrite ws key :=
  latestWrite_map bytesToUnprefixedHex_injective ws key

theorem unhex_writes (ws : List (Bytes × Option Bytes)) (s : List Char → Option Bytes) :
    unhex (writes (hexWrites ws) s) = writes ws (unhex s) := by
  funext key
  rw [unhex, writes_apply, latestWrite_hexWrites, writes_apply]
  rfl

theorem maps_setDiff (keyHex : List Char) (value : Option Bytes) :
    (cdb.setDiff keyHex value).maps =
      match cdb.maps with
      | [] => []
      | m :: ms => m.set keyHex value :: ms := by
  unfold setDiff maps
  cases hcps : cdb.checkpoints <;> simp [hcps]

theorem setAll_same (ws : List (Bytes × Option Bytes)) :
    (cdb.setAll ws).db = cdb.db ∧ (cdb.setAll ws).cache = cdb.cache := by
  induction ws generalizing cdb with
  | nil => exact ⟨rfl, rfl⟩
  | cons w ws ih =>
    have hdiff : (cdb.setDiff (bytesToUnprefixedHex w.1) w.2).db = cdb.db ∧
        (cdb.setDiff (bytesToUnprefixedHex w.1) w.2).cache = cdb.cache := by
      unfold setDiff
      cases cdb.checkpoints <;> exact ⟨rfl, rfl⟩
    exact ⟨ih.1.trans hdiff.1, ih.2.trans hdiff.2⟩

theorem maps_setAll (ws : List (Bytes × Option Bytes)) {m : DiffMap (List Char) Bytes}
    {ms : List (DiffMap (List Char) Bytes)} (hmaps : cdb.maps = m :: ms) :
    (cdb.setAll ws).maps = (hexWrites ws).foldl (fun cur w => cur.set w.1 w.2) m :: ms := by
  induction ws generalizing cdb m with
  | nil => exact hmaps
  | cons w ws ih =>
    apply ih
    rw [maps_setDiff, hmaps]

theorem Stacked.setAll (h : Stacked cdb base n) (hopen : cdb.maps ≠ [])
    (ws : List (Bytes × Option Bytes)) : Stacked (cdb.setAll ws) base (n.modify (writes ws)) := by
  obtain ⟨m, ms, hlist⟩ := List.exists_cons_of_ne_nil hopen
  have hmaps := maps_setAll ws hlist
  constructor
  · rw [(setAll_same ws).1]
    exact h.reads
  · rw [hmaps, nested_foldl_set, h.nested_eq, hlist]
    exact (Nested.map_modify _ _ (unhex_writes ws)).symm
  · intro m' hm' keyHex hmem
    have hold := h.hexKeys
    rw [hlist] at hold
    rw [hmaps] at hm'
    rcases List.mem_cons.mp hm' with rfl | hbelow
    · rw [← AList.lookup_isSome, DiffMap.lookup_foldl_set, Option.isSome_or, Bool.or_eq_true] at hmem
      rcases hmem with hwritten | hkept
      · obtain ⟨value, hvalue⟩ := Option.isSome_iff_exists.mp hwritten
        obtain ⟨w, -, hw⟩ := List.mem_map.mp (mem_of_latestWrite hvalue)
        exact ⟨w.1, (congrArg Prod.fst hw).symm⟩
      · exact hold m List.mem_cons_self keyHex (AList.lookup_isSome.mp hkept)
    · exact hold m' (List.mem_cons_of_mem _ hbelow) keyHex hmem

theorem Fresh.setAll (h : Fresh cdb base) (hopen : cdb.maps ≠ []) (ws : List (Bytes × Option Bytes))
    (hsafe : ∀ key value, cdb.cached key = some value → ∀ written,
      latestWrite ws key = some written → written = some value) :
    Fresh (cdb.setAll ws) base := by
  obtain ⟨m, ms, hlist⟩ := List.exists_cons_of_ne_nil hopen
  intro key value hvalue
  rw [cached, (setAll_same ws).2] at hvalue
  obtain ⟨hbase, hmaps⟩ := h key value hvalue
  refine ⟨hbase, ?_⟩
  rw [maps_setAll ws hlist]
  rw [hlist] at hmaps
  intro m' hm' w hw
  rcases List.mem_cons.mp hm' with rfl | hbelow
  · rw [DiffMap.lookup_foldl_set, latestWrite_hexWrites] at hw
    rcases hwritten : latestWrite ws key with _ | written
    · rw [hwritten, Option.none_or] at hw
      exact hmaps m List.mem_cons_self w hw
    · rw [hwritten, Option.some_or] at hw
      rw [← Option.some.inj hw]
      exact hsafe key value hvalue written hwritten
  · exact hmaps m' (List.mem_cons_of_mem _ hbelow) w hw

theorem lookup_eq_none_of_getDiff {keyHex : List Char} {cps : List Checkpoint}
    (h : getDiff keyHex cps = none) :
    ∀ m ∈ cps.map Checkpoint.keyValueMap, m.lookup keyHex = none := by
  induction cps with
  | nil => simp
  | cons cp cps ih =>
    simp only [getDiff, Option.or_eq_none_iff] at h
    intro m hm
    rcases List.mem_cons.mp hm with rfl | hmem
    · exact h.1
    · exact ih h.2 m hmem

/-- A value that is read from disk enters the cache and the top map. -/
theorem Refines.enter (h : Refines cdb base n) {key : Bytes}
    (hdiff : getDiff (bytesToUnprefixedHex key) cdb.checkpoints = none) :
    Refines ((cdb.setCache (bytesToUnprefixedHex key) (base (bytesToUnprefixedHex key))).setDiff
      (bytesToUnprefixedHex key) (base (bytesToUnprefixedHex key))) base n := by
  have hcurrent : n.current key = base (bytesToUnprefixedHex key) := by
    rw [h.current_eq, maps, view_eq_getDiff, hdiff]
    rfl
  have hcache : Stacked (cdb.setCache (bytesToUnprefixedHex key)
      (base (bytesToUnprefixedHex key))) base n := ⟨h.reads, h.nested_eq, h.hexKeys⟩
  have hfresh : Fresh (cdb.setCache (bytesToUnprefixedHex key)
      (base (bytesToUnprefixedHex key))) base := by
    intro key' found hfound
    have hset := cached_setCache hfound
    split at hset
    · rename_i heq
      rw [heq]
      refine ⟨hset, ?_⟩
      intro m hm w hw
      rw [lookup_eq_none_of_getDiff hdiff m hm] at hw
      cases hw
    · exact h.fresh key' found hset
  rcases Classical.em (cdb.maps = []) with hnil | hopen
  · have hcps : cdb.checkpoints = [] := List.map_eq_nil_iff.mp hnil
    have hsame : (cdb.setCache (bytesToUnprefixedHex key)
        (base (bytesToUnprefixedHex key))).setDiff (bytesToUnprefixedHex key)
        (base (bytesToUnprefixedHex key)) =
        cdb.setCache (bytesToUnprefixedHex key) (base (bytesToUnprefixedHex key)) := by
      simp only [CheckpointDB.setDiff, setCache, hcps]
    rw [hsame]
    exact ⟨hcache, hfresh⟩
  · constructor
    · have hset := hcache.setAll hopen [(key, base (bytesToUnprefixedHex key))]
      have hwrite : n.modify (writes [(key, base (bytesToUnprefixedHex key))]) = n := by
        change n.modify (fun s => Function.update s key (base (bytesToUnprefixedHex key))) = n
        rw [← hcurrent, Nested.modify, Function.update_eq_self]
      rw [hwrite] at hset
      exact hset
    · apply hfresh.setAll hopen [(key, base (bytesToUnprefixedHex key))]
      intro key' found hfound written hwritten
      simp only [latestWrite, Option.none_or] at hwritten
      split at hwritten
      · rename_i heq
        have hset := cached_setCache hfound
        rw [if_pos (congrArg bytesToUnprefixedHex heq.symm)] at hset
        rw [← Option.some.inj hwritten]
        exact hset
      · cases hwritten

theorem Refines.getUncached (h : Refines cdb base n) (key : Bytes) :
    ∃ after, cdb.getUncached (bytesToUnprefixedHex key) = .ok (n.current key, after) ∧
      Refines after base n := by
  have hcurrent := h.current_eq key
  rw [maps, view_eq_getDiff] at hcurrent
  unfold CheckpointDB.getUncached
  rcases hdiff : getDiff (bytesToUnprefixedHex key) cdb.checkpoints with _ | value
  · rw [hdiff] at hcurrent
    refine ⟨_, ?_, h.enter hdiff⟩
    simp only [h.reads key, hcurrent]
    rfl
  · rw [hdiff] at hcurrent
    refine ⟨cdb, ?_, h⟩
    rw [hcurrent]
    rfl

theorem Refines.get (h : Refines cdb base n) (key : Bytes) :
    ∃ after, cdb.get key = .ok (n.current key, after) ∧ Refines after base n := by
  unfold CheckpointDB.get
  rcases hcache : cdb.cache with _ | cache
  · exact h.getUncached key
  · have hpeek := lru.get_fst cache (bytesToUnprefixedHex key)
    have hafter : Refines { cdb with cache := some (lru.get cache (bytesToUnprefixedHex key)).2 }
        base n := by
      refine h.congr rfl rfl ?_
      intro key' value hvalue
      simp only [cached, Option.bind_some, lru.peek_get] at hvalue
      rw [cached, hcache]
      exact hvalue
    dsimp only
    rcases hfound : (lru.get cache (bytesToUnprefixedHex key)).1 with _ | value
    · exact hafter.getUncached key
    · have hcached : cdb.cached key = some value := by
        rw [cached, hcache]
        exact hpeek.symm.trans hfound
      exact ⟨_, by rw [h.cached_eq hcached], hafter⟩

end Get

section Step

variable {cdb : CheckpointDB lru} {base : List Char → Option Bytes} {n : Nested Store}

theorem hasCheckpoints_eq_false (h : cdb.maps = []) : cdb.hasCheckpoints = false := by
  rw [hasCheckpoints, List.map_eq_nil_iff.mp h]
  rfl

theorem hasCheckpoints_eq_true (h : cdb.maps ≠ []) : cdb.hasCheckpoints = true := by
  rw [hasCheckpoints, decide_eq_true_eq]
  intro hnil
  exact h (List.map_eq_nil_iff.mpr hnil)

/-- With an open checkpoint a list of operations writes to the top map. -/
theorem foldl_execute (hopen : cdb.maps ≠ []) (ops : List BatchDBOp) :
    ops.foldl execute cdb = cdb.setAll (ops.map BatchDBOp.toWrite) := by
  induction ops generalizing cdb with
  | nil => rfl
  | cons op ops ih =>
    have hop : cdb.execute op =
        cdb.setDiff (bytesToUnprefixedHex op.toWrite.1) op.toWrite.2 := by
      cases op <;> simp only [execute, put, del, hasCheckpoints_eq_true hopen, if_true] <;> rfl
    rw [List.foldl_cons, hop, ih]
    · rfl
    · rw [maps_setDiff]
      obtain ⟨m, ms, hlist⟩ := List.exists_cons_of_ne_nil hopen
      rw [hlist]
      simp

theorem readValue_valuePut (value : Bytes) : readValue (some (cdb.valuePut value)) = .ok (some value) := by
  unfold valuePut
  cases cdb.valueEncoding with
  | string => simp only [readValue, unprefixedHexToBytes_bytesToUnprefixedHex]; rfl
  | bytes => rfl

theorem reads_executeDB (ops : List BatchDBOp) {db : StringDB} {base : List Char → Option Bytes}
    (h : ∀ key, readValue (db (bytesToUnprefixedHex key)) = .ok (base (bytesToUnprefixedHex key)))
    (key : Bytes) :
    readValue (ops.foldl cdb.executeDB db (bytesToUnprefixedHex key)) =
      .ok (writes (hexWrites (ops.map BatchDBOp.toWrite)) base (bytesToUnprefixedHex key)) := by
  induction ops generalizing db base with
  | nil => exact h key
  | cons op ops ih =>
    apply ih
    intro key'
    cases op with
    | put k value =>
      simp only [executeDB, BatchDBOp.toWrite]
      rcases Classical.em (bytesToUnprefixedHex key' = bytesToUnprefixedHex k) with heq | hne
      · rw [heq, Function.update_self, Function.update_self, readValue_valuePut]
      · rw [Function.update_of_ne hne, Function.update_of_ne hne, h]
    | del k =>
      simp only [executeDB, BatchDBOp.toWrite]
      rcases Classical.em (bytesToUnprefixedHex key' = bytesToUnprefixedHex k) with heq | hne
      · rw [heq, Function.update_self, Function.update_self, readValue]
      · rw [Function.update_of_ne hne, Function.update_of_ne hne, h]

/-- Without an open checkpoint a list of operations writes to the disk. -/
theorem Stacked.executeDB (h : Stacked cdb base n) (hclosed : cdb.maps = []) (ops : List BatchDBOp)
    {after : CheckpointDB lru} (hdb : after.db = ops.foldl cdb.executeDB cdb.db)
    (hmaps : after.maps = []) :
    Stacked after (writes (hexWrites (ops.map BatchDBOp.toWrite)) base)
      (n.modify (writes (ops.map BatchDBOp.toWrite))) := by
  constructor
  · rw [hdb]
    exact reads_executeDB ops h.reads
  · rw [hmaps, h.nested_eq, hclosed]
    exact (Nested.map_modify (nested base []) _ (unhex_writes _)).symm
  · rw [hmaps]
    simp

theorem writes_hexWrites_apply (ws : List (Bytes × Option Bytes)) (key : Bytes) :
    writes (hexWrites ws) base (bytesToUnprefixedHex key) =
      (latestWrite ws key).getD (base (bytesToUnprefixedHex key)) := by
  rw [writes_apply, latestWrite_hexWrites]

theorem Refines.batch (h : Refines cdb base n) {ops : List BatchDBOp}
    (hsafe : ∀ key value, cdb.cached key = some value → ∀ written,
      latestWrite (ops.map BatchDBOp.toWrite) key = some written → written = some value) :
    ∃ base', Refines (cdb.batch ops) base' (n.modify (writes (ops.map BatchDBOp.toWrite))) := by
  rcases Classical.em (cdb.maps = []) with hclosed | hopen
  · simp only [CheckpointDB.batch, hasCheckpoints_eq_false hclosed, Bool.false_eq_true, if_false]
    refine ⟨_, h.executeDB hclosed ops rfl hclosed, ?_⟩
    intro key value hvalue
    refine ⟨?_, by simp [maps, List.map_eq_nil_iff.mp hclosed]⟩
    rw [writes_hexWrites_apply]
    cases hwritten : latestWrite (ops.map BatchDBOp.toWrite) key with
    | none => exact (h.fresh key value hvalue).1
    | some written => exact hsafe key value hvalue written hwritten
  · simp only [CheckpointDB.batch, hasCheckpoints_eq_true hopen, if_true]
    rw [foldl_execute hopen]
    exact ⟨base, h.setAll hopen _, h.fresh.setAll hopen _ hsafe⟩

/-- A write through the cache. -/
theorem Refines.writeThrough (h : Refines cdb base n) (hclosed : cdb.maps = []) (op : BatchDBOp) :
    Refines ({ cdb with db := cdb.executeDB cdb.db op }.setCache
        (bytesToUnprefixedHex op.toWrite.1) op.toWrite.2)
      (writes (hexWrites [op.toWrite]) base) (n.modify (writes [op.toWrite])) := by
  constructor
  · exact h.executeDB hclosed [op] rfl hclosed
  · intro key value hvalue
    refine ⟨?_, by simp [maps, setCache, List.map_eq_nil_iff.mp hclosed]⟩
    rw [writes_hexWrites_apply]
    have hset := cached_setCache hvalue
    rcases Classical.em (op.toWrite.1 = key) with heq | hne
    · rw [if_pos (congrArg bytesToUnprefixedHex heq.symm)] at hset
      simp [latestWrite, heq, hset]
    · rw [if_neg fun h => hne (bytesToUnprefixedHex_injective h).symm] at hset
      simp only [latestWrite, hne, Option.none_or, if_false, Option.getD_none]
      exact (h.fresh key value hset).1

theorem execute_open (hopen : cdb.maps ≠ []) (op : BatchDBOp) : cdb.execute op = cdb.batch [op] := by
  rw [CheckpointDB.batch, hasCheckpoints_eq_true hopen]
  rfl

/-- One write outside of a batch. -/
theorem Refines.execute (h : Refines cdb base n) (op : BatchDBOp)
    (hsafe : cdb.hasCheckpoints = true → ∀ key value, cdb.cached key = some value → ∀ written,
      latestWrite [op.toWrite] key = some written → written = some value) :
    ∃ base', Refines (cdb.execute op) base' (n.modify (writes [op.toWrite])) := by
  rcases Classical.em (cdb.maps = []) with hclosed | hopen
  · refine ⟨writes (hexWrites [op.toWrite]) base, ?_⟩
    have hthrough := h.writeThrough hclosed op
    cases op <;> simp only [CheckpointDB.execute, put, del, hasCheckpoints_eq_false hclosed,
      Bool.false_eq_true, if_false] <;> exact hthrough
  · rw [execute_open hopen]
    exact @Refines.batch lru cdb base n h [op] (hsafe (hasCheckpoints_eq_true hopen))

/-- The entries of a diff map as operations. -/
theorem batchOps_ok {entries : List (List Char × Option Bytes)}
    (h : ∀ e ∈ entries, ∃ key, e.1 = bytesToUnprefixedHex key) :
    ∃ ops, batchOps entries = .ok ops ∧ hexWrites (ops.map BatchDBOp.toWrite) = entries := by
  induction entries with
  | nil => exact ⟨[], rfl, rfl⟩
  | cons e entries ih =>
    obtain ⟨keyHex, value⟩ := e
    obtain ⟨key, hkey⟩ := h (keyHex, value) List.mem_cons_self
    obtain ⟨ops, hops, hwrites⟩ := ih fun e he => h e (List.mem_cons_of_mem _ he)
    dsimp only at hkey
    subst hkey
    cases value with
    | none =>
      refine ⟨.del key :: ops, ?_, ?_⟩
      · simp only [batchOps, unprefixedHexToBytes_bytesToUnprefixedHex, hops]
        rfl
      · rw [← hwrites]
        rfl
    | some value =>
      refine ⟨.put key value :: ops, ?_, ?_⟩
      · simp only [batchOps, unprefixedHexToBytes_bytesToUnprefixedHex, hops]
        rfl
      · rw [← hwrites]
        rfl

/-- The write of the last diff map to disk. -/
theorem Refines.flush (h : Refines cdb base n) {cp : Checkpoint} (hcps : cdb.checkpoints = [cp]) :
    ∃ after base' n', cdb.commit = .ok after ∧ n.commit = some n' ∧ Refines after base' n' := by
  have hmaps : cdb.maps = [cp.keyValueMap] := congrArg (List.map Checkpoint.keyValueMap) hcps
  have hkeys : ∀ e ∈ cp.keyValueMap.toWrites, ∃ key, e.1 = bytesToUnprefixedHex key := by
    intro e he
    obtain ⟨entry, hentry, rfl⟩ := List.mem_map.mp he
    apply h.hexKeys cp.keyValueMap (by rw [hmaps]; exact List.mem_cons_self)
    exact AList.lookup_isSome.mp (Option.isSome_iff_exists.mpr
      ⟨entry.2, AList.mem_lookup_iff.mpr hentry⟩)
  obtain ⟨ops, hops, hwrites⟩ := batchOps_ok hkeys
  have hbase : Refines { cdb with checkpoints := [] } base ((nested base []).map unhex) := by
    constructor
    · exact ⟨h.reads, rfl, by simp [maps]⟩
    · intro key value hvalue
      exact ⟨(h.fresh key value hvalue).1, by simp [maps]⟩
  have hsafe : ∀ key value, cdb.cached key = some value → ∀ written,
      latestWrite (ops.map BatchDBOp.toWrite) key = some written → written = some value := by
    intro key value hvalue written hwritten
    rw [← latestWrite_hexWrites, hwrites, DiffMap.latestWrite_toWrites] at hwritten
    apply (h.fresh key value hvalue).2 cp.keyValueMap _ written hwritten
    rw [hmaps]
    exact List.mem_cons_self
  obtain ⟨base', hafter⟩ := hbase.batch hsafe
  refine ⟨_, base', _, ?_, ?_, hafter⟩
  · simp only [commit, hcps, hops]
    rfl
  · rw [h.nested_eq, hmaps, ← Nested.map_commit, nested_flush, Option.map_some, ← hwrites]
    congr 1
    exact Nested.map_modify (nested base []) _ (unhex_writes _)

theorem Refines.merge (h : Refines cdb base n) {cp cur : Checkpoint} {cps : List Checkpoint}
    (hcps : cdb.checkpoints = cp :: cur :: cps) :
    ∃ after n', cdb.commit = .ok after ∧ n.commit = some n' ∧ Refines after base n' := by
  have hmaps : cdb.maps = cp.keyValueMap :: cur.keyValueMap :: cps.map Checkpoint.keyValueMap :=
    congrArg (List.map Checkpoint.keyValueMap) hcps
  refine ⟨{ cdb with checkpoints :=
      { cur with keyValueMap := cp.keyValueMap.merge cur.keyValueMap } :: cps },
    (nested base (cp.keyValueMap.merge cur.keyValueMap ::
      cps.map Checkpoint.keyValueMap)).map unhex, ?_, ?_, ?_⟩
  · rw [commit, hcps]
  · rw [h.nested_eq, hmaps, ← Nested.map_commit, nested_commit, Option.map_some]
  · have hkeys := h.hexKeys
    have hfresh := h.fresh
    unfold Fresh at hfresh
    rw [hmaps] at hkeys hfresh
    constructor
    · refine ⟨h.reads, rfl, ?_⟩
      intro m hm keyHex hmem
      rcases List.mem_cons.mp hm with rfl | hbelow
      · rw [← AList.lookup_isSome, DiffMap.lookup_merge, Option.isSome_or, Bool.or_eq_true] at hmem
        rcases hmem with htop | hcur
        · exact hkeys _ List.mem_cons_self keyHex (AList.lookup_isSome.mp htop)
        · exact hkeys cur.keyValueMap (by simp) keyHex (AList.lookup_isSome.mp hcur)
      · exact hkeys m (by simp [hbelow]) keyHex hmem
    · intro key value hvalue
      obtain ⟨hbase, hold⟩ := hfresh key value hvalue
      refine ⟨hbase, ?_⟩
      intro m hm w hw
      rcases List.mem_cons.mp hm with rfl | hbelow
      · rw [DiffMap.lookup_merge, Option.or_eq_some_iff] at hw
        rcases hw with htop | ⟨-, hcur⟩
        · exact hold _ List.mem_cons_self w htop
        · exact hold cur.keyValueMap (by simp) w hcur
      · exact hold m (by simp [hbelow]) w hw

/-- A safe operation does what it does to the store with nested transactions. -/
theorem Refines.step (h : Refines cdb base n) {op : CheckpointDBOp} {n' : Nested Store}
    (hspec : op.spec n = some n') (hsafe : cdb.StepSafe op) :
    ∃ cdb' base', cdb.step op = .ok cdb' ∧ Refines cdb' base' n' := by
  cases op with
  | put key value =>
    obtain rfl := Option.some.inj hspec
    obtain ⟨base', hafter⟩ := h.execute (.put key value) hsafe
    exact ⟨_, base', rfl, hafter⟩
  | del key =>
    obtain rfl := Option.some.inj hspec
    obtain ⟨base', hafter⟩ := h.execute (.del key) hsafe
    exact ⟨_, base', rfl, hafter⟩
  | batch opStack =>
    obtain rfl := Option.some.inj hspec
    obtain ⟨base', hafter⟩ := h.batch (hsafe rfl)
    exact ⟨_, base', rfl, hafter⟩
  | get key =>
    obtain rfl := Option.some.inj hspec
    obtain ⟨after, hget, hafter⟩ := h.get key
    refine ⟨after, base, ?_, hafter⟩
    rw [CheckpointDB.step, hget]
    rfl
  | checkpoint root =>
    obtain rfl := Option.some.inj hspec
    refine ⟨_, base, rfl, ?_⟩
    constructor
    · refine ⟨h.reads, ?_, ?_⟩
      · rw [h.nested_eq]
        change _ = (nested base (∅ :: cdb.maps)).map unhex
        rw [nested_checkpoint]
        rfl
      · intro m hm keyHex hmem
        rcases List.mem_cons.mp hm with rfl | hbelow
        · exact absurd hmem (AList.notMem_empty keyHex)
        · exact h.hexKeys m hbelow keyHex hmem
    · intro key value hvalue
      obtain ⟨hbase, hmaps⟩ := h.fresh key value hvalue
      refine ⟨hbase, ?_⟩
      intro m hm w hw
      rcases List.mem_cons.mp hm with rfl | hbelow
      · rw [AList.lookup_empty] at hw
        cases hw
      · exact hmaps m hbelow w hw
  | commit =>
    rcases hcps : cdb.checkpoints with _ | ⟨cp, _ | ⟨cur, cps⟩⟩
    · have hclosed : cdb.maps = [] := congrArg (List.map Checkpoint.keyValueMap) hcps
      rw [CheckpointDBOp.spec, h.nested_eq, hclosed] at hspec
      cases hspec
    · obtain ⟨after, base', n'', hcommit, hn, hafter⟩ := h.flush hcps
      obtain rfl := Option.some.inj (hn.symm.trans hspec)
      exact ⟨after, base', hcommit, hafter⟩
    · obtain ⟨after, n'', hcommit, hn, hafter⟩ := h.merge hcps
      obtain rfl := Option.some.inj (hn.symm.trans hspec)
      exact ⟨after, base, hcommit, hafter⟩
  | revert =>
    rcases hcps : cdb.checkpoints with _ | ⟨cp, cps⟩
    · have hclosed : cdb.maps = [] := congrArg (List.map Checkpoint.keyValueMap) hcps
      rw [CheckpointDBOp.spec, h.nested_eq, hclosed] at hspec
      cases hspec
    · have hmaps : cdb.maps = cp.keyValueMap :: cps.map Checkpoint.keyValueMap :=
        congrArg (List.map Checkpoint.keyValueMap) hcps
      have hbelow : ∀ m ∈ cps.map Checkpoint.keyValueMap, m ∈ cdb.maps := by
        intro m hm
        rw [hmaps]
        exact List.mem_cons_of_mem _ hm
      have hrevert : cdb.step .revert = .ok { cdb with checkpoints := cps } := by
        rw [CheckpointDB.step, revert, hcps]
        rfl
      refine ⟨_, base, hrevert, ?_⟩
      constructor
      · refine ⟨h.reads, ?_, fun m hm => h.hexKeys m (hbelow m hm)⟩
        rw [CheckpointDBOp.spec, h.nested_eq, hmaps, ← Nested.map_revert, nested_revert,
          Option.map_some] at hspec
        exact (Option.some.inj hspec).symm
      · intro key value hvalue
        obtain ⟨hbase, hold⟩ := h.fresh key value hvalue
        exact ⟨hbase, fun m hm => hold m (hbelow m hm)⟩

theorem Refines.faithful (h : Refines cdb base n) : cdb.Faithful n := by
  constructor
  · intro key
    obtain ⟨after, hget, -⟩ := h.get key
    exact ⟨after, hget⟩
  · intro hcps key
    have hclosed : cdb.maps = [] := congrArg (List.map Checkpoint.keyValueMap) hcps
    rw [h.reads, h.current_eq, hclosed]
    rfl

theorem get_of_cached {key value : Bytes} (h : cdb.cached key = some value) :
    ∃ after, cdb.get key = .ok (some value, after) := by
  obtain ⟨cache, hcache, hpeek⟩ := Option.bind_eq_some_iff.mp h
  have hget := (lru.get_fst cache (bytesToUnprefixedHex key)).trans hpeek
  unfold CheckpointDB.get
  simp only [hcache, hget]
  exact ⟨_, rfl⟩

/-- A write past the cache leaves the cache as it is. -/
theorem cache_of_bypasses {op : CheckpointDBOp} (h : cdb.bypasses op = true) :
    ∃ cdb', cdb.step op = .ok cdb' ∧ cdb'.cache = cdb.cache := by
  have hopen (h : cdb.hasCheckpoints = true) : cdb.maps ≠ [] := by
    intro hclosed
    rw [hasCheckpoints_eq_false hclosed] at h
    cases h
  have hbatch (ops : List BatchDBOp) : (cdb.batch ops).cache = cdb.cache := by
    rcases Classical.em (cdb.maps = []) with hclosed | hmaps
    · simp only [CheckpointDB.batch, hasCheckpoints_eq_false hclosed, Bool.false_eq_true, if_false]
    · simp only [CheckpointDB.batch, hasCheckpoints_eq_true hmaps, if_true]
      rw [foldl_execute hmaps]
      exact (setAll_same _).2
  cases op with
  | put key value =>
    have hop := execute_open (hopen h) (.put key value)
    exact ⟨_, rfl, (congrArg cache hop).trans (hbatch _)⟩
  | del key =>
    have hop := execute_open (hopen h) (.del key)
    exact ⟨_, rfl, (congrArg cache hop).trans (hbatch _)⟩
  | batch opStack => exact ⟨_, rfl, hbatch opStack⟩
  | get key => cases h
  | checkpoint root => cases h
  | commit => cases h
  | revert => cases h

/-- After a write past the cache of another value the key is read wrong. -/
theorem not_faithful_of_not_safe {op : CheckpointDBOp} {n' : Nested Store}
    (hspec : op.spec n = some n') (hunmet : ¬ cdb.StepSafe op) {cdb' : CheckpointDB lru}
    (hstep : cdb.step op = .ok cdb') : ¬ cdb'.Faithful n' := by
  intro hfaithful
  apply hunmet
  intro hbypass key value hvalue written hwritten
  obtain ⟨_, hsame, hcache⟩ := cache_of_bypasses hbypass
  obtain rfl := Except.ok.inj (hsame.symm.trans hstep)
  rw [cached, ← hcache] at hvalue
  obtain ⟨after, hget⟩ := get_of_cached hvalue
  obtain ⟨after', hright⟩ := hfaithful.get_eq key
  have hcurrent : some value = n'.current key :=
    congrArg Prod.fst (Except.ok.inj (hget.symm.trans hright))
  have hmodify : op.spec n = some (n.modify (writes op.writes)) := by
    cases op <;> first | rfl | cases hbypass
  obtain rfl := Option.some.inj (hmodify.symm.trans hspec)
  have hwrites := writes_apply op.writes n.current key
  rw [hwritten] at hwrites
  exact (hcurrent.trans hwrites).symm

/-- All states of a run are right if and only if no operation of it writes past the cache
a value that differs from the one the cache holds. -/
theorem Refines.faithfulRun_iff (h : Refines cdb base n) {ops : List CheckpointDBOp}
    (hspec : (specRun n ops).isSome) : cdb.FaithfulRun n ops ↔ cdb.SafeRun ops := by
  induction ops generalizing cdb base n with
  | nil => exact ⟨fun _ => trivial, fun _ => h.faithful⟩
  | cons op ops ih =>
    obtain ⟨last, hlast⟩ := Option.isSome_iff_exists.mp hspec
    obtain ⟨n', hn', hrest⟩ := Option.bind_eq_some_iff.mp hlast
    have hsome : (specRun n' ops).isSome := Option.isSome_iff_exists.mpr ⟨last, hrest⟩
    constructor
    · rintro ⟨-, cdb', n'', hstep, hn'', hrun⟩
      obtain rfl := Option.some.inj (hn''.symm.trans hn')
      have hfirst : cdb'.Faithful n'' := by
        cases ops with
        | nil => exact hrun
        | cons _ _ => exact hrun.1
      have hsafe : cdb.StepSafe op := by
        rcases Classical.em (cdb.StepSafe op) with hsafe | hunmet
        · exact hsafe
        · exact absurd hfirst (not_faithful_of_not_safe hn' hunmet hstep)
      obtain ⟨next, base', hnext, hrefines⟩ := h.step hn' hsafe
      obtain rfl := Except.ok.inj (hnext.symm.trans hstep)
      refine ⟨hsafe, ?_⟩
      intro cdb'' hstep'
      obtain rfl := Except.ok.inj (hnext.symm.trans hstep')
      exact (ih hrefines hsome).mp hrun
    · rintro ⟨hsafe, hrun⟩
      obtain ⟨cdb', base', hstep, hrefines⟩ := h.step hn' hsafe
      exact ⟨h.faithful, cdb', n', hstep, hn', (ih hrefines hsome).mpr (hrun cdb' hstep)⟩

theorem cache_setDiff (keyHex : List Char) (value : Option Bytes) :
    (cdb.setDiff keyHex value).cache = cdb.cache := by
  unfold setDiff
  cases cdb.checkpoints <;> rfl

theorem cache_execute_none (h : cdb.cache = none) (op : BatchDBOp) :
    (cdb.execute op).cache = none := by
  rcases Classical.em (cdb.maps = []) with hclosed | hopen
  · cases op <;> simp [execute, put, del, hasCheckpoints_eq_false hclosed, setCache, h]
  · cases op <;> simp [execute, put, del, hasCheckpoints_eq_true hopen, cache_setDiff, h]

theorem cache_batch_none (h : cdb.cache = none) (ops : List BatchDBOp) :
    (cdb.batch ops).cache = none := by
  have hfold : (ops.foldl execute cdb).cache = none := by
    induction ops generalizing cdb with
    | nil => exact h
    | cons op ops ih => exact ih (cache_execute_none h op)
  unfold CheckpointDB.batch
  split
  · exact hfold
  · exact h

theorem cache_step_none (h : cdb.cache = none) {op : CheckpointDBOp} {cdb' : CheckpointDB lru}
    (hstep : cdb.step op = .ok cdb') : cdb'.cache = none := by
  cases op with
  | put key value =>
    obtain rfl := Except.ok.inj hstep
    exact cache_execute_none h (.put key value)
  | del key =>
    obtain rfl := Except.ok.inj hstep
    exact cache_execute_none h (.del key)
  | batch opStack =>
    obtain rfl := Except.ok.inj hstep
    exact cache_batch_none h opStack
  | get key =>
    simp only [CheckpointDB.step, CheckpointDB.get, h, CheckpointDB.getUncached] at hstep
    split at hstep
    · obtain rfl := Except.ok.inj hstep
      exact h
    · cases hread : readValue (cdb.db (bytesToUnprefixedHex key)) with
      | error e =>
        rw [hread] at hstep
        cases hstep
      | ok value =>
        rw [hread] at hstep
        obtain rfl := Except.ok.inj hstep
        simp [cache_setDiff, setCache, h]
  | checkpoint root =>
    obtain rfl := Except.ok.inj hstep
    exact h
  | commit =>
    change cdb.commit = .ok cdb' at hstep
    unfold commit at hstep
    split at hstep
    · cases hstep
    · obtain ⟨ops, -, hstep⟩ := bind_eq_ok.mp hstep
      obtain rfl := Except.ok.inj hstep
      exact cache_batch_none (show ({ cdb with checkpoints := [] } : CheckpointDB lru).cache = none
        from h) ops
    · obtain rfl := Except.ok.inj hstep
      exact h
  | revert =>
    change cdb.revert.map Prod.snd = .ok cdb' at hstep
    unfold revert at hstep
    split at hstep
    · cases hstep
    · obtain rfl := Except.ok.inj hstep
      exact h

end Step

/-- A new database over any store that can be read. -/
theorem refines_new {db : StringDB} {base : List Char → Option Bytes}
    (hdb : ∀ key, readValue (db (bytesToUnprefixedHex key)) = .ok (base (bytesToUnprefixedHex key)))
    (cacheSize : Nat) (valueEncoding : ValueEncoding) :
    Refines (new lru db cacheSize valueEncoding) base ⟨unhex base, []⟩ := by
  constructor
  · exact ⟨hdb, rfl, by simp [maps, new]⟩
  · intro key value hvalue
    have hnone : (new lru db cacheSize valueEncoding).cached key = none := by
      unfold cached new
      dsimp only
      split
      · exact lru.peek_new _ _
      · rfl
    rw [hnone] at hvalue
    cases hvalue

/-- A run over a database of its own: all reads give, and the disk holds behind the outermost
commit, what a store with nested transactions holds, if and only if no operation writes past
the cache a value that differs from the one the cache holds. -/
theorem faithfulRun_new_iff (lru : LRUCache) {db : StringDB} {store : Store}
    (hdb : ∀ key, readValue (db (bytesToUnprefixedHex key)) = .ok (store key))
    (cacheSize : Nat) (valueEncoding : ValueEncoding) {ops : List CheckpointDBOp}
    (hspec : (specRun ⟨store, []⟩ ops).isSome) :
    FaithfulRun (new lru db cacheSize valueEncoding) ⟨store, []⟩ ops ↔
      SafeRun (new lru db cacheSize valueEncoding) ops := by
  let base : List Char → Option Bytes := fun keyHex => (readValue (db keyHex)).toOption.join
  have hbase (key : Bytes) : base (bytesToUnprefixedHex key) = store key := by
    dsimp only [base]
    rw [hdb]
    rfl
  have hstore : unhex base = store := funext hbase
  have hnew := @refines_new lru db base (fun key => by rw [hdb, hbase]) cacheSize valueEncoding
  rw [hstore] at hnew
  exact hnew.faithfulRun_iff hspec

/-- Without a cache every run is right. -/
theorem safeRun_of_cache_eq_none {cdb : CheckpointDB lru} (h : cdb.cache = none)
    (ops : List CheckpointDBOp) : cdb.SafeRun ops := by
  induction ops generalizing cdb with
  | nil => trivial
  | cons op ops ih =>
    constructor
    · intro _ key value hvalue
      rw [cached, h] at hvalue
      cases hvalue
    · intro cdb' hstep
      apply ih
      exact cache_step_none h hstep

/-- One key, put before and inside of a checkpoint. -/
def overwritten (value : Bytes) : List CheckpointDBOp :=
  [.put [1] [0xaa], .checkpoint [], .put [1] value]

/-- The second value is not read back: the cache still holds the first. -/
theorem not_faithfulRun_overwritten :
    (specRun ⟨fun _ => none, []⟩ (overwritten [0xbb])).isSome ∧
      ¬ FaithfulRun (new lruList (fun _ => none) 1 .string) ⟨fun _ => none, []⟩
        (overwritten [0xbb]) := by
  refine ⟨rfl, ?_⟩
  rintro ⟨-, cdb₁, n₁, h₁, hn₁, -, cdb₂, n₂, h₂, hn₂, -, cdb₃, n₃, h₃, hn₃, hright⟩
  obtain rfl := Except.ok.inj h₁
  obtain rfl := Except.ok.inj h₂
  obtain rfl := Except.ok.inj h₃
  obtain rfl := Option.some.inj hn₁
  obtain rfl := Option.some.inj hn₂
  obtain rfl := Option.some.inj hn₃
  obtain ⟨after, hget⟩ := hright.get_eq [1]
  have hvalue : (((((new lruList (fun _ => none) 1 .string).put [1] [0xaa]).checkpoint []).put
      [1] [0xbb]).get [1]).toOption.map Prod.fst = some (some [0xbb]) := by
    rw [hget]
    rfl
  exact absurd hvalue (by decide)

theorem faithfulRun_new_iff_same :
    FaithfulRun (new lruList (fun _ => none) 1 .string) ⟨fun _ => none, []⟩
        (overwritten [0xaa]) ↔
      SafeRun (new lruList (fun _ => none) 1 .string) (overwritten [0xaa]) :=
  faithfulRun_new_iff lruList (fun _ => rfl) 1 .string rfl

end CheckpointDB
end EthereumJS
