import EthereumJS.Statemanager.Caches

/-! # The storage cache

`cache/storage.ts` with an ordered map. The maps of slots and their diff maps are kept under the
address. To one address the cache is as the others, unless its storage is cleared, of which no
diff map takes note.
-/

namespace EthereumJS

open Overlay Ordered

abbrev StorageCacheMap := Bytes → Option Bytes

abbrev DiffStorageCacheMap := InsertionMap Bytes (Option Bytes)

/-- The diff map of the latest checkpoint comes first. -/
structure StorageCache where
  orderedMapCache : Bytes → Option StorageCacheMap
  diffCache : List (InsertionMap Bytes DiffStorageCacheMap)

inductive StorageCall
  | get (address key : Bytes)
  | put (address key value : Bytes)
  | del (address key : Bytes)
  | clearStorage (address : Bytes)
  | flush
  | checkpoint
  | commit
  | revert
  deriving DecidableEq

inductive CachedReply
  | done
  | value (value : Option Bytes)
  | items (items : List (Bytes × Bytes × Option Bytes))

namespace StorageCache

def new : StorageCache := ⟨fun _ => none, [.empty]⟩

variable (cache : StorageCache)

def get (address key : Bytes) : Option Bytes :=
  (cache.orderedMapCache address).bind fun storageMap => storageMap key

def saveCachePreState (address key : Bytes) : StorageCache :=
  match cache.diffCache with
  | [] => cache
  | diffMap :: diffCache =>
    let diffStorageMap := (diffMap.get address).getD .empty
    if (diffStorageMap.get key).isSome then cache
    else
      let diffStorageMap := diffStorageMap.set key (cache.get address key)
      { cache with diffCache := diffMap.set address diffStorageMap :: diffCache }

/-- `setElement` of the ordered map. -/
def setMap (address : Bytes) (storageMap : StorageCacheMap) : StorageCache :=
  { cache with
    orderedMapCache := Function.update cache.orderedMapCache address (some storageMap) }

def put (address key value : Bytes) : StorageCache :=
  let cache := cache.saveCachePreState address key
  let storageMap := (cache.orderedMapCache address).getD fun _ => none
  cache.setMap address (Function.update storageMap key (some value))

/-- `hexToBytes('0x80')` stands for an empty slot. -/
def del (address key : Bytes) : StorageCache := cache.put address key [0x80]

def clearStorage (address : Bytes) : StorageCache := cache.setMap address fun _ => none

/-- An address of the diff map without slots is an internal error. -/
def flush : Option (List (Bytes × Bytes × Option Bytes) × StorageCache) :=
  match cache.diffCache with
  | [] => none
  | diffMap :: diffCache => do
    let items ← diffMap.entries.mapM fun entry => do
      let storageMap ← cache.orderedMapCache entry.1
      return entry.2.entries.map fun slot => (entry.1, slot.1, storageMap slot.1)
    return (items.flatten, { cache with diffCache := .empty :: diffCache })

def checkpoint : StorageCache := { cache with diffCache := .empty :: cache.diffCache }

/-- The older pre-states are kept, address by address. -/
def commitMaps (entries : List (Bytes × DiffStorageCacheMap))
    (lower : InsertionMap Bytes DiffStorageCacheMap) : InsertionMap Bytes DiffStorageCacheMap :=
  entries.foldl (fun lower entry =>
    lower.set entry.1 (setMissing entry.2.entries ((lower.get entry.1).getD .empty))) lower

def commit : Option StorageCache :=
  match cache.diffCache with
  | diffMap :: lower :: diffCache =>
    some { cache with diffCache := commitMaps diffMap.entries lower :: diffCache }
  | _ => none

/-- A slot is set back. -/
def revertSlot (address : Bytes) (storage : Bytes → Option StorageCacheMap)
    (slot : Bytes × Option Bytes) : Bytes → Option StorageCacheMap :=
  let storageMap := (storage address).getD fun _ => none
  Function.update storage address (some (Function.update storageMap slot.1 slot.2))

def revertMaps (entries : List (Bytes × DiffStorageCacheMap))
    (storage : Bytes → Option StorageCacheMap) : Bytes → Option StorageCacheMap :=
  entries.foldl (fun storage entry => entry.2.entries.foldl (revertSlot entry.1) storage) storage

def revert : Option StorageCache :=
  match cache.diffCache with
  | diffMap :: lower :: diffCache =>
    some ⟨revertMaps diffMap.entries cache.orderedMapCache, lower :: diffCache⟩
  | _ => none

def step : StorageCall → Option (CachedReply × StorageCache)
  | .get address key => some (.value (cache.get address key), cache)
  | .put address key value => some (.done, cache.put address key value)
  | .del address key => some (.done, cache.del address key)
  | .clearStorage address => some (.done, cache.clearStorage address)
  | .flush => cache.flush.map fun result => (.items result.1, result.2)
  | .checkpoint => some (.done, cache.checkpoint)
  | .commit => cache.commit.map fun cache => (.done, cache)
  | .revert => cache.revert.map fun cache => (.done, cache)

def run : StorageCache → List StorageCall → Option (List CachedReply)
  | _, [] => some []
  | cache, call :: calls => do
    let (reply, cache) ← cache.step call
    let replies ← run cache calls
    return reply :: replies

end StorageCache

section OneAddress

/-- What a call is to one address. -/
def StorageCall.at (address : Bytes) : StorageCall → Option (CacheCall Bytes)
  | .get a key => if a = address then some (.get key) else none
  | .put a key value => if a = address then some (.set key value) else none
  | .del a key => if a = address then some (.set key [0x80]) else none
  | .clearStorage _ => none
  | .flush => some .flush
  | .checkpoint => some .checkpoint
  | .commit => some .commit
  | .revert => some .revert

/-- The slots of one address that are flushed. -/
def CachedReply.at (address : Bytes) : CachedReply → CacheReply Bytes
  | .done => .done
  | .value elem => .elem elem
  | .items slots => .items (slots.filterMap fun item =>
      if item.1 = address then item.2.2.map fun value => (item.2.1, value) else none)

variable {cache cache' : StorageCache} {address : Bytes} {levels next : CacheLevels Bytes}

def StorageCache.slots (cache : StorageCache) (address : Bytes) : Bytes → Option Bytes :=
  fun key => cache.get address key

/-- The pre-states of one address. -/
def noted (address : Bytes) (diffMap : InsertionMap Bytes DiffStorageCacheMap) :
    PreState Bytes Bytes :=
  ((diffMap.get address).getD .empty).get

/-- The storage cache to one address. -/
structure StorageCache.HoldsAt (cache : StorageCache) (address : Bytes)
    (levels : CacheLevels Bytes) : Prop where
  current : cache.slots address = levels.current
  restores : LeadsBack levels.saved levels.current (cache.diffCache.map (noted address))
  open_ : levels.saved ≠ []

/-- An address with pre-states has slots. -/
def StorageCache.Kept (cache : StorageCache) : Prop :=
  ∀ diffMap ∈ cache.diffCache, ∀ address, diffMap.get address ≠ none →
    cache.orderedMapCache address ≠ none

theorem StorageCache.holdsAt_new (address : Bytes) : new.HoldsAt address CacheLevels.new :=
  ⟨rfl, ⟨rfl, rfl⟩, List.cons_ne_nil _ _⟩

theorem StorageCache.kept_new : new.Kept := by
  intro diffMap hmem address hget
  obtain rfl := List.mem_singleton.mp hmem
  exact absurd rfl hget

theorem StorageCache.HoldsAt.exists_cons (h : cache.HoldsAt address levels) :
    ∃ saved older diffMap diffCache,
      levels.saved = saved :: older ∧ cache.diffCache = diffMap :: diffCache := by
  obtain ⟨saved, older, hsaved⟩ := List.exists_cons_of_ne_nil h.open_
  have hrestores := h.restores
  rw [hsaved] at hrestores
  obtain ⟨d, rest, hdiff⟩ := hrestores.exists_cons
  obtain ⟨diffMap, diffCache, heq, -, -⟩ := List.map_eq_cons_iff.mp hdiff
  exact ⟨saved, older, diffMap, diffCache, hsaved, heq⟩

theorem StorageCache.slots_setMap (cache : StorageCache) (a : Bytes) (m : StorageCacheMap)
    (address : Bytes) :
    (cache.setMap a m).slots address = if address = a then m else cache.slots address := by
  funext key
  unfold slots StorageCache.get setMap
  dsimp only
  rw [Function.update_apply]
  split <;> rfl

theorem StorageCache.slots_eq_getD (cache : StorageCache) (address : Bytes) :
    cache.slots address = (cache.orderedMapCache address).getD fun _ => none := by
  funext key
  unfold slots StorageCache.get
  cases cache.orderedMapCache address <;> rfl

theorem noted_set (a address : Bytes) (diff : DiffStorageCacheMap)
    (diffMap : InsertionMap Bytes DiffStorageCacheMap) :
    noted address (diffMap.set a diff) = if address = a then diff.get else noted address diffMap := by
  unfold noted
  rw [InsertionMap.get_set]
  split <;> rfl

/-- The latest diff map after the pre-state of a slot was saved. -/
theorem StorageCache.saveCachePreState_cons {diffMap : InsertionMap Bytes DiffStorageCacheMap}
    {diffCache : List (InsertionMap Bytes DiffStorageCacheMap)}
    (hdiff : cache.diffCache = diffMap :: diffCache) (a key : Bytes) :
    ∃ diffMap', cache.saveCachePreState a key = ⟨cache.orderedMapCache, diffMap' :: diffCache⟩ ∧
      (∀ address, noted address diffMap' =
        if address = a then notePreState (noted a diffMap) (cache.slots a) key
        else noted address diffMap) ∧
      ∀ address, diffMap'.get address ≠ none → address = a ∨ diffMap.get address ≠ none := by
  unfold saveCachePreState
  rw [hdiff]
  dsimp only
  have hsaved : (if (((diffMap.get a).getD .empty).get key).isSome
      then (diffMap.get a).getD .empty
      else ((diffMap.get a).getD .empty).set key (cache.get a key)).get =
      notePreState (noted a diffMap) (cache.slots a) key := get_saved _ _ _
  split
  · rename_i hsome
    rw [if_pos hsome] at hsaved
    refine ⟨diffMap, by rw [← hdiff], fun address => ?_, fun address h => .inr h⟩
    split
    · rename_i heq
      rw [heq, ← hsaved]
      rfl
    · rfl
  · rename_i hsome
    rw [if_neg hsome] at hsaved
    refine ⟨_, rfl, fun address => ?_, fun address h => ?_⟩
    · rw [noted_set, hsaved]
    · rw [InsertionMap.get_set] at h
      split at h
      · rename_i heq
        exact .inl heq
      · exact .inr h

theorem StorageCache.HoldsAt.put_same (h : cache.HoldsAt address levels) (key value : Bytes) :
    (cache.put address key value).HoldsAt address
      (levels.modify fun s => Function.update s key (some value)) := by
  obtain ⟨saved, older, diffMap, diffCache, hsaved, hdiff⟩ := h.exists_cons
  obtain ⟨diffMap', hsave, hnoted, -⟩ := saveCachePreState_cons hdiff address key
  have hrestores := h.restores
  rw [hsaved, hdiff] at hrestores
  unfold StorageCache.put
  rw [hsave]
  refine ⟨?_, ?_, h.open_⟩
  · rw [slots_setMap, if_pos rfl]
    dsimp only
    rw [← slots_eq_getD, h.current]
    rfl
  · change LeadsBack levels.saved _ (noted address diffMap' :: diffCache.map (noted address))
    rw [hsaved, hnoted, if_pos rfl, h.current]
    exact hrestores.change key (some value)

theorem StorageCache.HoldsAt.put_other (h : cache.HoldsAt address levels) {a : Bytes}
    (hne : a ≠ address) (key value : Bytes) : (cache.put a key value).HoldsAt address levels := by
  obtain ⟨saved, older, diffMap, diffCache, hsaved, hdiff⟩ := h.exists_cons
  obtain ⟨diffMap', hsave, hnoted, -⟩ := saveCachePreState_cons hdiff a key
  have hrestores := h.restores
  rw [hdiff] at hrestores
  unfold StorageCache.put
  rw [hsave]
  refine ⟨?_, ?_, h.open_⟩
  · rw [slots_setMap, if_neg (Ne.symm hne)]
    exact h.current
  · change LeadsBack levels.saved _ (noted address diffMap' :: diffCache.map (noted address))
    rw [hnoted, if_neg (Ne.symm hne)]
    exact hrestores

theorem StorageCache.HoldsAt.clearStorage (h : cache.HoldsAt address levels) {a : Bytes}
    (hne : a ≠ address) : (cache.clearStorage a).HoldsAt address levels := by
  refine ⟨?_, h.restores, h.open_⟩
  unfold StorageCache.clearStorage
  rw [slots_setMap, if_neg (Ne.symm hne)]
  exact h.current

theorem StorageCache.Kept.setMap (h : cache.Kept) (a : Bytes) (m : StorageCacheMap) :
    (cache.setMap a m).Kept := by
  intro diffMap hmem address hget
  unfold StorageCache.setMap
  dsimp only
  rw [Function.update_apply]
  split
  · exact Option.some_ne_none m
  · exact h diffMap hmem address hget

theorem StorageCache.Kept.put (h : cache.Kept) (a key value : Bytes) :
    (cache.put a key value).Kept := by
  unfold StorageCache.put
  cases hdiff : cache.diffCache with
  | nil =>
    have hsame : cache.saveCachePreState a key = cache := by
      unfold saveCachePreState
      rw [hdiff]
    rw [hsame]
    exact h.setMap a _
  | cons diffMap diffCache =>
    obtain ⟨diffMap', hsave, -, hget⟩ := saveCachePreState_cons hdiff a key
    rw [hsave]
    intro d hd address hne
    unfold StorageCache.setMap
    dsimp only
    rw [Function.update_apply]
    split
    · exact Option.some_ne_none _
    · rename_i hother
      obtain rfl | hd := List.mem_cons.mp hd
      · exact h diffMap (hdiff ▸ List.mem_cons_self) address ((hget address hne).resolve_left hother)
      · exact h d (hdiff ▸ List.mem_cons_of_mem _ hd) address hne

end OneAddress

section Transactions

variable {cache cache' : StorageCache} {address : Bytes} {levels next : CacheLevels Bytes}

theorem lookupEntry_cons_ne {ν : Type} {a address : Bytes} {v : ν} {entries : List (Bytes × ν)}
    (hne : a ≠ address) : lookupEntry address ((a, v) :: entries) = lookupEntry address entries := by
  rw [lookupEntry, if_neg hne]

/-- What a commit leaves of the pre-states of one address. -/
theorem noted_commitMaps {entries : List (Bytes × DiffStorageCacheMap)}
    (hnodup : (entries.map Prod.fst).Nodup) (lower : InsertionMap Bytes DiffStorageCacheMap)
    (address : Bytes) :
    noted address (StorageCache.commitMaps entries lower) = fun key =>
      (noted address lower key).or
        (((lookupEntry address entries).getD .empty).get key) := by
  induction entries generalizing lower with
  | nil =>
    funext key
    exact (Option.or_none).symm
  | cons entry entries ih =>
    obtain ⟨a, diff⟩ := entry
    rw [List.map_cons, List.nodup_cons] at hnodup
    change noted address (StorageCache.commitMaps entries _) = _
    rw [ih hnodup.2, noted_set]
    funext key
    split
    · rename_i heq
      subst heq
      rw [lookupEntry_eq_none hnodup.1, lookupEntry, if_pos rfl, get_setMissing]
      exact Option.or_none
    · rename_i hne
      rw [lookupEntry_cons_ne (Ne.symm hne)]

theorem revertSlots_apply (a address : Bytes) (slots : List (Bytes × Option Bytes))
    (storage : Bytes → Option StorageCacheMap) :
    ((slots.foldl (StorageCache.revertSlot a) storage) address).getD (fun _ => none) =
      (if address = a then writes slots else id) ((storage address).getD fun _ => none) ∧
    (storage address ≠ none → (slots.foldl (StorageCache.revertSlot a) storage) address ≠ none) := by
  induction slots generalizing storage with
  | nil =>
    refine ⟨?_, id⟩
    split <;> rfl
  | cons slot slots ih =>
    obtain ⟨hslots, hkept⟩ := ih (StorageCache.revertSlot a storage slot)
    rw [List.foldl_cons, hslots]
    unfold StorageCache.revertSlot at hkept ⊢
    dsimp only at hkept ⊢
    rw [Function.update_apply] at hkept ⊢
    split
    · rename_i heq
      subst heq
      rw [if_pos rfl] at hkept
      exact ⟨rfl, fun _ => hkept (Option.some_ne_none _)⟩
    · rename_i hne
      rw [if_neg hne] at hkept
      exact ⟨rfl, hkept⟩

/-- What a revert leaves of the slots of one address. -/
theorem revertMaps_apply {entries : List (Bytes × DiffStorageCacheMap)}
    (hnodup : (entries.map Prod.fst).Nodup) (storage : Bytes → Option StorageCacheMap)
    (address : Bytes) :
    (StorageCache.revertMaps entries storage address).getD (fun _ => none) =
      restore ((lookupEntry address entries).getD .empty).get
        ((storage address).getD fun _ => none) ∧
      (storage address ≠ none → StorageCache.revertMaps entries storage address ≠ none) := by
  induction entries generalizing storage with
  | nil => exact ⟨rfl, id⟩
  | cons entry entries ih =>
    obtain ⟨a, diff⟩ := entry
    rw [List.map_cons, List.nodup_cons] at hnodup
    obtain ⟨hfirst, hfirstKept⟩ := revertSlots_apply a address diff.entries storage
    obtain ⟨hslots, hkept⟩ := ih hnodup.2 (diff.entries.foldl (StorageCache.revertSlot a) storage)
    change (StorageCache.revertMaps entries _ address).getD _ = _ ∧
      (_ → StorageCache.revertMaps entries _ address ≠ none)
    rw [hslots, hfirst]
    refine ⟨?_, fun hne => hkept (hfirstKept hne)⟩
    split
    · rename_i heq
      subst heq
      rw [lookupEntry_eq_none hnodup.1, lookupEntry, if_pos rfl, Option.getD_some, writes_entries]
      rfl
    · rename_i hne
      rw [lookupEntry_cons_ne (Ne.symm hne)]
      rfl

theorem StorageCache.Kept.mapM_eq {entries : List (Bytes × DiffStorageCacheMap)}
    (h : ∀ entry ∈ entries, cache.orderedMapCache entry.1 ≠ none) :
    (entries.mapM fun entry => do
      let storageMap ← cache.orderedMapCache entry.1
      return entry.2.entries.map fun slot => (entry.1, slot.1, storageMap slot.1)) =
    some (entries.map fun entry =>
      entry.2.entries.map fun slot => (entry.1, slot.1, cache.get entry.1 slot.1)) := by
  induction entries with
  | nil => rfl
  | cons entry entries ih =>
    obtain ⟨storageMap, hmap⟩ := Option.ne_none_iff_exists'.mp (h entry List.mem_cons_self)
    have hget : ∀ key, cache.get entry.1 key = storageMap key := by
      intro key
      rw [StorageCache.get, hmap, Option.bind_some]
    rw [List.mapM_cons, ih fun e he => h e (List.mem_cons_of_mem _ he), hmap, List.map_cons]
    simp only [hget]
    rfl

/-- The slots of one address among those that are flushed. -/
theorem filterMap_flatten_slots {entries : List (Bytes × DiffStorageCacheMap)}
    (hnodup : (entries.map Prod.fst).Nodup) (value : Bytes → Bytes → Option Bytes)
    (address : Bytes) :
    ((entries.map fun entry =>
      entry.2.entries.map fun slot => (entry.1, slot.1, value entry.1 slot.1)).flatten.filterMap
      fun item => if item.1 = address then item.2.2.map fun v => (item.2.1, v) else none) =
    ((lookupEntry address entries).getD .empty).entries.filterMap fun slot =>
      (value address slot.1).map fun v => (slot.1, v) := by
  induction entries with
  | nil => rfl
  | cons entry entries ih =>
    obtain ⟨a, diff⟩ := entry
    rw [List.map_cons, List.nodup_cons] at hnodup
    rw [List.map_cons, List.flatten_cons, List.filterMap_append, ih hnodup.2, List.filterMap_map,
      lookupEntry]
    split
    · rename_i heq
      subst heq
      rw [lookupEntry_eq_none hnodup.1, Option.getD_none, Option.getD_some]
      change _ ++ [] = _
      rw [List.append_nil]
      exact List.filterMap_congr fun slot _ => if_pos rfl
    · rename_i hne
      exact congrArg (· ++ _) (List.filterMap_eq_nil_iff.mpr fun slot _ => if_neg hne)

theorem StorageCache.HoldsAt.flush (h : cache.HoldsAt address levels) (hkept : cache.Kept)
    (hlen : levels.saved.length < 2) :
    ∃ slots cache', cache.flush = some (slots, cache') ∧
      levels.Returns .flush ((CachedReply.items slots).at address) ∧
      cache'.HoldsAt address levels.flush ∧ cache'.Kept := by
  obtain ⟨saved, older, diffMap, diffCache, hsaved, hdiff⟩ := h.exists_cons
  have hrestores := h.restores
  rw [hsaved, hdiff] at hrestores
  have hflush : cache.flush = some ((diffMap.entries.map fun entry =>
      entry.2.entries.map fun slot => (entry.1, slot.1, cache.get entry.1 slot.1)).flatten,
      { cache with diffCache := .empty :: diffCache }) := by
    unfold StorageCache.flush
    rw [hdiff]
    dsimp only
    rw [Kept.mapM_eq]
    · rfl
    · intro entry hentry
      refine hkept diffMap (hdiff ▸ List.mem_cons_self) entry.1 ?_
      rw [InsertionMap.get, lookupEntry_of_mem diffMap.nodup hentry]
      exact Option.some_ne_none _
  refine ⟨_, _, hflush, ⟨_, rfl, ?_⟩, ?_, ?_⟩
  · rw [filterMap_flatten_slots diffMap.nodup fun a key => cache.get a key]
    have hslots : ∀ key, cache.get address key = levels.current key := congrFun h.current
    simp only [hslots]
    exact CacheLevels.flushes_entries _ hsaved hrestores.1
  · rw [hsaved, List.length_cons] at hlen
    obtain rfl := List.length_eq_zero_iff.mp (Nat.lt_one_iff.mp (Nat.lt_of_succ_lt_succ hlen))
    exact ⟨h.current, ⟨rfl, hrestores.2⟩, List.cons_ne_nil _ _⟩
  · intro d hd a hne
    obtain rfl | hd := List.mem_cons.mp hd
    · exact absurd rfl hne
    · exact hkept d (hdiff ▸ List.mem_cons_of_mem _ hd) a hne

theorem StorageCache.HoldsAt.checkpoint (h : cache.HoldsAt address levels) :
    cache.checkpoint.HoldsAt address (Nested.checkpoint levels) :=
  ⟨h.current, h.restores.checkpoint, List.cons_ne_nil _ _⟩

theorem StorageCache.Kept.checkpoint (h : cache.Kept) : cache.checkpoint.Kept := by
  intro d hd a hne
  obtain rfl | hd := List.mem_cons.mp hd
  · exact absurd rfl hne
  · exact h d hd a hne

/-- With two levels there are two diff maps. -/
theorem StorageCache.HoldsAt.exists_two (h : cache.HoldsAt address levels)
    (hlen : ¬ levels.saved.length < 2) : ∃ saved lower older diffMap lowerMap diffCache,
      levels.saved = saved :: lower :: older ∧
        cache.diffCache = diffMap :: lowerMap :: diffCache := by
  obtain ⟨saved, rest, diffMap, diffRest, hsaved, hdiff⟩ := h.exists_cons
  have hrestore := h.restores
  rw [hsaved, hdiff] at hrestore
  rw [hsaved] at hlen
  cases rest with
  | nil => exact absurd Nat.one_lt_two hlen
  | cons lower older =>
    obtain ⟨d, ds, hds⟩ := hrestore.2.exists_cons
    obtain ⟨lowerMap, diffCache, rfl, -, -⟩ := List.map_eq_cons_iff.mp hds
    exact ⟨saved, lower, older, diffMap, lowerMap, diffCache, hsaved, hdiff⟩

theorem get_commitMaps_ne_none {entries : List (Bytes × DiffStorageCacheMap)}
    {lower : InsertionMap Bytes DiffStorageCacheMap} {a : Bytes}
    (h : (StorageCache.commitMaps entries lower).get a ≠ none) :
    a ∈ entries.map Prod.fst ∨ lower.get a ≠ none := by
  induction entries generalizing lower with
  | nil => exact .inr h
  | cons entry entries ih =>
    obtain hmem | hget := ih h
    · exact .inl (List.mem_cons_of_mem _ hmem)
    · rw [InsertionMap.get_set] at hget
      split at hget
      · rename_i heq
        exact .inl (List.mem_cons.mpr (.inl heq))
      · exact .inr hget

theorem StorageCache.HoldsAt.commit (h : cache.HoldsAt address levels) (hkept : cache.Kept)
    (hlen : ¬ levels.saved.length < 2) (hnext : Nested.commit levels = some next) :
    ∃ cache', cache.commit = some cache' ∧ cache'.HoldsAt address next ∧ cache'.Kept := by
  obtain ⟨saved, lower, older, diffMap, lowerMap, diffCache, hsaved, hdiff⟩ := h.exists_two hlen
  have hrestore := h.restores
  rw [hsaved, hdiff] at hrestore
  unfold Nested.commit at hnext
  rw [hsaved] at hnext
  obtain rfl := Option.some.inj hnext
  unfold StorageCache.commit
  rw [hdiff]
  refine ⟨_, rfl, ⟨h.current, ?_, List.cons_ne_nil _ _⟩, ?_⟩
  · rw [List.map_cons, noted_commitMaps diffMap.nodup]
    exact hrestore.commit
  · intro d hd a hne
    obtain rfl | hd := List.mem_cons.mp hd
    · obtain hmem | hget := get_commitMaps_ne_none hne
      · refine hkept diffMap (hdiff ▸ List.mem_cons_self) a ?_
        exact Option.isSome_iff_ne_none.mp (lookupEntry_isSome.mpr hmem)
      · exact hkept lowerMap (hdiff ▸ List.mem_cons_of_mem _ List.mem_cons_self) a hget
    · exact hkept d (hdiff ▸ List.mem_cons_of_mem _ (List.mem_cons_of_mem _ hd)) a hne

theorem StorageCache.HoldsAt.revert (h : cache.HoldsAt address levels) (hkept : cache.Kept)
    (hlen : ¬ levels.saved.length < 2) (hnext : Nested.revert levels = some next) :
    ∃ cache', cache.revert = some cache' ∧ cache'.HoldsAt address next ∧ cache'.Kept := by
  obtain ⟨saved, lower, older, diffMap, lowerMap, diffCache, hsaved, hdiff⟩ := h.exists_two hlen
  have hrestore := h.restores
  rw [hsaved, hdiff] at hrestore
  unfold Nested.revert at hnext
  rw [hsaved] at hnext
  obtain rfl := Option.some.inj hnext
  unfold StorageCache.revert
  rw [hdiff]
  refine ⟨_, rfl, ⟨?_, hrestore.2, List.cons_ne_nil _ _⟩, fun d hd a hne => ?_⟩
  · rw [slots_eq_getD]
    dsimp only
    rw [(revertMaps_apply diffMap.nodup cache.orderedMapCache address).1, ← slots_eq_getD,
      h.current]
    exact hrestore.1
  · exact (revertMaps_apply diffMap.nodup cache.orderedMapCache a).2
      (hkept d (hdiff ▸ List.mem_cons_of_mem _ hd) a hne)

theorem StorageCache.HoldsAt.step (h : cache.HoldsAt address levels) (hkept : cache.Kept)
    {call : StorageCall} {c : CacheCall Bytes} (hcall : call.at address = some c)
    (hnext : levels.after c = some next) :
    ∃ reply cache', cache.step call = some (reply, cache') ∧
      levels.Returns c (reply.at address) ∧ cache'.HoldsAt address next ∧ cache'.Kept := by
  cases call with
  | get a key =>
    obtain ⟨rfl, hc⟩ := Option.ite_none_right_eq_some.mp hcall
    obtain rfl := Option.some.inj hc
    obtain rfl := Option.some.inj hnext
    exact ⟨_, _, rfl, congrArg CacheReply.elem (congrFun h.current key), h, hkept⟩
  | put a key value =>
    obtain ⟨rfl, hc⟩ := Option.ite_none_right_eq_some.mp hcall
    obtain rfl := Option.some.inj hc
    obtain rfl := Option.some.inj hnext
    exact ⟨_, _, rfl, rfl, h.put_same key value, hkept.put a key value⟩
  | del a key =>
    obtain ⟨rfl, hc⟩ := Option.ite_none_right_eq_some.mp hcall
    obtain rfl := Option.some.inj hc
    obtain rfl := Option.some.inj hnext
    exact ⟨_, _, rfl, rfl, h.put_same key [0x80], hkept.put a key [0x80]⟩
  | clearStorage a => cases hcall
  | flush =>
    obtain rfl := Option.some.inj hcall
    obtain ⟨hlen, hlevels⟩ := Option.ite_none_right_eq_some.mp hnext
    obtain rfl := Option.some.inj hlevels
    obtain ⟨slots, cache', hflush, hreturns, hholds, hkept⟩ := h.flush hkept hlen
    exact ⟨.items slots, cache', by rw [StorageCache.step, hflush]; rfl, hreturns, hholds, hkept⟩
  | checkpoint =>
    obtain rfl := Option.some.inj hcall
    obtain rfl := Option.some.inj hnext
    exact ⟨_, _, rfl, rfl, h.checkpoint, hkept.checkpoint⟩
  | commit =>
    obtain rfl := Option.some.inj hcall
    obtain ⟨hlen, hlevels⟩ := Option.ite_none_left_eq_some.mp hnext
    obtain ⟨cache', hcommit, hholds, hkept⟩ := h.commit hkept hlen hlevels
    exact ⟨.done, cache', by rw [StorageCache.step, hcommit]; rfl, rfl, hholds, hkept⟩
  | revert =>
    obtain rfl := Option.some.inj hcall
    obtain ⟨hlen, hlevels⟩ := Option.ite_none_left_eq_some.mp hnext
    obtain ⟨cache', hrevert, hholds, hkept⟩ := h.revert hkept hlen hlevels
    exact ⟨.done, cache', by rw [StorageCache.step, hrevert]; rfl, rfl, hholds, hkept⟩

/-- A call to another address. -/
theorem StorageCache.HoldsAt.step_other (h : cache.HoldsAt address levels) (hkept : cache.Kept)
    {call : StorageCall} (hcall : call.at address = none)
    (hclear : call ≠ .clearStorage address) :
    ∃ reply cache', cache.step call = some (reply, cache') ∧ cache'.HoldsAt address levels ∧
      cache'.Kept := by
  cases call with
  | get a key => exact ⟨_, _, rfl, h, hkept⟩
  | put a key value =>
    have hne : a ≠ address := fun heq => Option.some_ne_none _ ((if_pos heq).symm.trans hcall)
    exact ⟨_, _, rfl, h.put_other hne key value, hkept.put a key value⟩
  | del a key =>
    have hne : a ≠ address := fun heq => Option.some_ne_none _ ((if_pos heq).symm.trans hcall)
    exact ⟨_, _, rfl, h.put_other hne key [0x80], hkept.put a key [0x80]⟩
  | clearStorage a =>
    have hne : a ≠ address := fun heq => hclear (congrArg StorageCall.clearStorage heq)
    exact ⟨_, _, rfl, h.clearStorage hne, hkept.setMap a _⟩
  | flush | checkpoint | commit | revert => cases hcall

/-- The replies to the calls that concern one address. -/
def repliesAt (address : Bytes) (calls : List StorageCall) (replies : List CachedReply) :
    List (CacheReply Bytes) :=
  (calls.zip replies).filterMap fun p => (p.1.at address).map fun _ => p.2.at address

theorem StorageCache.HoldsAt.run (h : cache.HoldsAt address levels) (hkept : cache.Kept)
    {calls : List StorageCall} (hclear : .clearStorage address ∉ calls)
    (hcalls : levels.Allows (calls.filterMap (StorageCall.at address))) :
    ∃ replies, cache.run calls = some replies ∧
      levels.Answers (calls.filterMap (StorageCall.at address))
        (repliesAt address calls replies) := by
  induction calls generalizing cache levels with
  | nil => exact ⟨[], rfl, rfl⟩
  | cons call calls ih =>
    obtain ⟨hfirst, hrest⟩ := not_or.mp (mt List.mem_cons.mpr hclear)
    cases hcall : call.at address with
    | none =>
      rw [List.filterMap_cons_none hcall] at hcalls ⊢
      obtain ⟨reply, cache', hstep, hholds, hkept⟩ :=
        h.step_other hkept hcall fun heq => hfirst heq.symm
      obtain ⟨replies, hrun, hanswers⟩ := ih hholds hkept hrest hcalls
      refine ⟨reply :: replies, ?_, ?_⟩
      · rw [StorageCache.run, hstep]
        change (cache'.run calls).bind _ = _
        rw [hrun]
        rfl
      · rw [repliesAt, List.zip_cons_cons, List.filterMap_cons_none]
        · exact hanswers
        · rw [hcall]
          rfl
    | some c =>
      rw [List.filterMap_cons_some hcall] at hcalls ⊢
      obtain ⟨next, hnext, hallows⟩ := hcalls
      obtain ⟨reply, cache', hstep, hreturns, hholds, hkept⟩ := h.step hkept hcall hnext
      obtain ⟨replies, hrun, hanswers⟩ := ih hholds hkept hrest hallows
      refine ⟨reply :: replies, ?_, ?_⟩
      · rw [StorageCache.run, hstep]
        change (cache'.run calls).bind _ = _
        rw [hrun]
        rfl
      · rw [repliesAt, List.zip_cons_cons, List.filterMap_cons_some]
        · exact ⟨hreturns, next, hnext, hanswers⟩
        · rw [hcall]
          rfl

end Transactions

def storageCalls : List StorageCall :=
  [.put [1] [0] [0x05], .checkpoint, .put [1] [0] [0x06], .clearStorage [2], .put [2] [0] [0x07],
    .del [1] [3], .checkpoint, .put [1] [0] [0x08], .revert, .get [1] [0], .commit, .get [1] [3],
    .flush]

end EthereumJS
