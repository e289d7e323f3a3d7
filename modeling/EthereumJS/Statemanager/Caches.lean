import EthereumJS.Overlay.UndoLog
import EthereumJS.Util.Account

/-! # The account and the code cache

`cache/account.ts` and `cache/code.ts` with an ordered map. Both keep elements under the address and
are one cache with another element here.
-/

namespace EthereumJS

open Overlay Ordered

/-- A cache with elements `ν` under its keys. The diff map of the latest checkpoint comes first. -/
structure Cache (ν : Type) where
  orderedMapCache : Bytes → Option ν
  diffCache : List (InsertionMap Bytes (Option ν))

inductive CacheCall (ν : Type)
  | get (key : Bytes)
  | set (key : Bytes) (elem : ν)
  | flush
  | checkpoint
  | commit
  | revert

inductive CacheReply (ν : Type)
  | done
  | elem (elem : Option ν)
  | items (items : List (Bytes × ν))

namespace Cache

variable {ν : Type}

def new : Cache ν := ⟨fun _ => none, [.empty]⟩

variable (cache : Cache ν)

def saveCachePreState (key : Bytes) : Cache ν :=
  match cache.diffCache with
  | [] => cache
  | diffMap :: diffCache =>
    if (diffMap.get key).isSome then cache
    else { cache with diffCache := diffMap.set key (cache.orderedMapCache key) :: diffCache }

def get (key : Bytes) : Option ν := cache.orderedMapCache key

/-- `put` and `del`, which set another element. -/
def set (key : Bytes) (elem : ν) : Cache ν :=
  let cache := cache.saveCachePreState key
  { cache with orderedMapCache := Function.update cache.orderedMapCache key (some elem) }

def flush : List (Bytes × ν) × Cache ν :=
  match cache.diffCache with
  | [] => ([], cache)
  | diffMap :: diffCache =>
    (diffMap.entries.filterMap fun entry =>
        (cache.orderedMapCache entry.1).map fun elem => (entry.1, elem),
      { cache with diffCache := .empty :: diffCache })

def checkpoint : Cache ν := { cache with diffCache := .empty :: cache.diffCache }

/-- Without a checkpoint the source is left without a diff map, which is no step here. -/
def commit : Option (Cache ν) :=
  match cache.diffCache with
  | diffMap :: lower :: diffCache =>
    some { cache with diffCache := setMissing diffMap.entries lower :: diffCache }
  | _ => none

def revert : Option (Cache ν) :=
  match cache.diffCache with
  | diffMap :: lower :: diffCache =>
    some ⟨writes diffMap.entries cache.orderedMapCache, lower :: diffCache⟩
  | _ => none

def step : CacheCall ν → Option (CacheReply ν × Cache ν)
  | .get key => some (.elem (cache.get key), cache)
  | .set key elem => some (.done, cache.set key elem)
  | .flush => some (.items cache.flush.1, cache.flush.2)
  | .checkpoint => some (.done, cache.checkpoint)
  | .commit => cache.commit.map fun cache => (.done, cache)
  | .revert => cache.revert.map fun cache => (.done, cache)

def run : Cache ν → List (CacheCall ν) → Option (List (CacheReply ν))
  | _, [] => some []
  | cache, call :: calls => do
    let (reply, cache) ← cache.step call
    let replies ← run cache calls
    return reply :: replies

end Cache

/-- The serialized account, or none for an account that is known not to exist. -/
abbrev AccountCache := Cache (Option Bytes)

def AccountCache.put (cache : AccountCache) (address : Bytes) (account : Option Account) :
    AccountCache :=
  cache.set address (account.map Account.serialize)

def AccountCache.del (cache : AccountCache) (address : Bytes) : AccountCache :=
  cache.set address none

abbrev CodeCache := Cache (Option Bytes)

def CodeCache.put (cache : CodeCache) (address : Bytes) (code : Option Bytes) : CodeCache :=
  cache.set address code

def CodeCache.del (cache : CodeCache) (address : Bytes) : CodeCache := cache.set address none

section Levels

/-- What a cache is for: elements with nested checkpoints. The last level is that of the last flush
without a checkpoint, or the new cache. -/
abbrev CacheLevels (ν : Type) := Nested (Bytes → Option ν)

variable {ν : Type}

namespace CacheLevels

def new : CacheLevels ν := ⟨fun _ => none, [fun _ => none]⟩

variable (levels : CacheLevels ν)

/-- The items are elements of the cache, each of another key, and among them are all that have
changed on this level. -/
structure Flushes (items : List (Bytes × ν)) : Prop where
  current : ∀ item ∈ items, levels.current item.1 = some item.2
  nodup : (items.map Prod.fst).Nodup
  changed : ∀ key elem, levels.current key = some elem →
    levels.saved.head?.bind (fun saved => saved key) ≠ some elem → (key, elem) ∈ items

/-- A level that is flushed starts again. -/
def flush : CacheLevels ν := ⟨levels.current, [levels.current]⟩

/-- The last level is not a checkpoint that could end, and is the one that is flushed. -/
def after : CacheCall ν → Option (CacheLevels ν)
  | .get _ => some levels
  | .set key elem => some (levels.modify fun s => Function.update s key (some elem))
  | .flush => if levels.saved.length < 2 then some levels.flush else none
  | .checkpoint => some (Nested.checkpoint levels)
  | .commit => if levels.saved.length < 2 then none else Nested.commit levels
  | .revert => if levels.saved.length < 2 then none else Nested.revert levels

def Returns : CacheCall ν → CacheReply ν → Prop
  | .get key, reply => reply = .elem (levels.current key)
  | .flush, reply => ∃ items, reply = .items items ∧ levels.Flushes items
  | _, reply => reply = .done

/-- What the calls return, of which each can be made. -/
def Answers : CacheLevels ν → List (CacheCall ν) → List (CacheReply ν) → Prop
  | _, [], replies => replies = []
  | _, _ :: _, [] => False
  | levels, call :: calls, reply :: replies =>
    levels.Returns call reply ∧ ∃ next, levels.after call = some next ∧ Answers next calls replies

/-- Every commit and revert has a checkpoint, and a flush has none. -/
def Allows : CacheLevels ν → List (CacheCall ν) → Prop
  | _, [] => True
  | levels, call :: calls => ∃ next, levels.after call = some next ∧ Allows next calls

end CacheLevels

/-- A cache and what it is for. -/
structure Cache.Holds (cache : Cache ν) (levels : CacheLevels ν) : Prop where
  current : cache.orderedMapCache = levels.current
  restores : LeadsBack levels.saved levels.current (cache.diffCache.map fun m => m.get)
  open_ : levels.saved ≠ []

variable {cache : Cache ν} {levels next : CacheLevels ν}

theorem Cache.holds_new : (new : Cache ν).Holds CacheLevels.new :=
  ⟨rfl, ⟨rfl, rfl⟩, List.cons_ne_nil _ _⟩

theorem Cache.Holds.exists_cons (h : cache.Holds levels) : ∃ saved older diffMap diffCache,
    levels.saved = saved :: older ∧ cache.diffCache = diffMap :: diffCache := by
  obtain ⟨saved, older, hsaved⟩ := List.exists_cons_of_ne_nil h.open_
  have hrestores := h.restores
  rw [hsaved] at hrestores
  obtain ⟨d, rest, hdiff⟩ := hrestores.exists_cons
  obtain ⟨diffMap, diffCache, heq, -, -⟩ := List.map_eq_cons_iff.mp hdiff
  exact ⟨saved, older, diffMap, diffCache, hsaved, heq⟩

theorem get_saved (m : InsertionMap Bytes (Option ν)) (s : Bytes → Option ν) (key : Bytes) :
    (if (m.get key).isSome then m else m.set key (s key)).get = notePreState m.get s key := by
  unfold notePreState
  split
  · rfl
  · funext k
    rw [InsertionMap.get_set, Function.update_apply]

theorem Cache.Holds.set (h : cache.Holds levels) (key : Bytes) (elem : ν) :
    (cache.set key elem).Holds (levels.modify fun s => Function.update s key (some elem)) := by
  obtain ⟨saved, older, diffMap, diffCache, hsaved, hdiff⟩ := h.exists_cons
  obtain ⟨map, diffs⟩ := cache
  obtain ⟨current, levelsSaved⟩ := levels
  obtain ⟨hcurrent, hrestores, hopen⟩ := h
  dsimp only at hcurrent hrestores hsaved hdiff
  subst hcurrent hsaved hdiff
  have hchange := hrestores.change key (some elem)
  rw [← get_saved] at hchange
  unfold Cache.set saveCachePreState
  dsimp only
  split
  · rename_i hsome
    rw [if_pos hsome] at hchange
    exact ⟨rfl, hchange, List.cons_ne_nil _ _⟩
  · rename_i hsome
    rw [if_neg hsome] at hchange
    exact ⟨rfl, hchange, List.cons_ne_nil _ _⟩

theorem keys_items_sublist (s : Bytes → Option ν) (entries : List (Bytes × Option ν)) :
    ((entries.filterMap fun entry => (s entry.1).map fun elem => (entry.1, elem)).map
      Prod.fst).Sublist (entries.map Prod.fst) := by
  induction entries with
  | nil => exact List.Sublist.refl _
  | cons entry entries ih =>
    rw [List.filterMap_cons]
    cases s entry.1 with
    | none => exact ih.cons _
    | some elem => exact ih.cons_cons _

/-- The keys of the map of the level are flushed with their elements. -/
theorem CacheLevels.flushes_entries (m : InsertionMap Bytes (Option ν)) {saved : Bytes → Option ν}
    {older : List (Bytes → Option ν)} (hsaved : levels.saved = saved :: older)
    (hrestore : restore m.get levels.current = saved) :
    levels.Flushes (m.entries.filterMap fun entry =>
      (levels.current entry.1).map fun elem => (entry.1, elem)) := by
  refine ⟨fun item hitem => ?_, ?_, fun key elem hcurrent hchanged => ?_⟩
  · obtain ⟨entry, -, hmap⟩ := List.mem_filterMap.mp hitem
    obtain ⟨elem, helem, rfl⟩ := Option.map_eq_some_iff.mp hmap
    exact helem
  · exact (keys_items_sublist levels.current m.entries).nodup m.nodup
  · rw [hsaved] at hchanged
    have hnoted : (m.get key).isSome := by
      by_contra hnone
      apply hchanged
      rw [List.head?_cons, Option.bind_some, ← hrestore]
      unfold restore
      rw [Option.not_isSome_iff_eq_none.mp hnone, Option.getD_none, hcurrent]
    obtain ⟨entry, hentry, rfl⟩ := List.mem_map.mp (lookupEntry_isSome.mp hnoted)
    apply List.mem_filterMap.mpr
    refine ⟨entry, hentry, ?_⟩
    rw [hcurrent]
    rfl

theorem Cache.Holds.flushes (h : cache.Holds levels) : levels.Flushes cache.flush.1 := by
  obtain ⟨saved, older, diffMap, diffCache, hsaved, hdiff⟩ := h.exists_cons
  have hrestore := h.restores
  rw [hsaved, hdiff] at hrestore
  unfold Cache.flush
  rw [hdiff, h.current]
  exact CacheLevels.flushes_entries diffMap hsaved hrestore.1

theorem Cache.Holds.flush (h : cache.Holds levels) (hlen : levels.saved.length < 2) :
    cache.flush.2.Holds levels.flush := by
  obtain ⟨saved, older, diffMap, diffCache, hsaved, hdiff⟩ := h.exists_cons
  have hrestore := h.restores
  rw [hsaved, hdiff] at hrestore
  rw [hsaved, List.length_cons] at hlen
  obtain rfl := List.length_eq_zero_iff.mp (Nat.lt_one_iff.mp (Nat.lt_of_succ_lt_succ hlen))
  unfold Cache.flush
  rw [hdiff]
  exact ⟨h.current, ⟨rfl, hrestore.2⟩, List.cons_ne_nil _ _⟩

theorem Cache.Holds.checkpoint (h : cache.Holds levels) :
    cache.checkpoint.Holds (Nested.checkpoint levels) :=
  ⟨h.current, h.restores.checkpoint, List.cons_ne_nil _ _⟩

/-- With two levels there are two diff maps. -/
theorem Cache.Holds.exists_two (h : cache.Holds levels) (hlen : ¬ levels.saved.length < 2) :
    ∃ saved lower older diffMap lowerMap diffCache, levels.saved = saved :: lower :: older ∧
      cache.diffCache = diffMap :: lowerMap :: diffCache := by
  obtain ⟨saved, rest, diffMap, diffRest, hsaved, hdiff⟩ := h.exists_cons
  have hrestore := h.restores
  rw [hsaved, hdiff] at hrestore
  rw [hsaved] at hlen
  cases rest with
  | nil => exact absurd Nat.one_lt_two hlen
  | cons lower older =>
    obtain ⟨d, ds, hds⟩ := hrestore.2.exists_cons
    obtain ⟨lowerMap, diffCache, rfl, -, -⟩ := List.map_eq_cons_iff.mp hds
    exact ⟨saved, lower, older, diffMap, lowerMap, diffCache, hsaved, hdiff⟩

theorem Cache.Holds.commit (h : cache.Holds levels) (hlen : ¬ levels.saved.length < 2)
    (hnext : Nested.commit levels = some next) :
    ∃ cache', cache.commit = some cache' ∧ cache'.Holds next := by
  obtain ⟨saved, lower, older, diffMap, lowerMap, diffCache, hsaved, hdiff⟩ := h.exists_two hlen
  have hrestore := h.restores
  rw [hsaved, hdiff] at hrestore
  unfold Nested.commit at hnext
  rw [hsaved] at hnext
  obtain rfl := Option.some.inj hnext
  unfold Cache.commit
  rw [hdiff]
  refine ⟨_, rfl, h.current, ?_, List.cons_ne_nil _ _⟩
  have hget : (setMissing diffMap.entries lowerMap).get =
      fun k => (lowerMap.get k).or (diffMap.get k) := funext fun k => get_setMissing _ _ k
  rw [List.map_cons, hget]
  exact hrestore.commit

theorem Cache.Holds.revert (h : cache.Holds levels) (hlen : ¬ levels.saved.length < 2)
    (hnext : Nested.revert levels = some next) :
    ∃ cache', cache.revert = some cache' ∧ cache'.Holds next := by
  obtain ⟨saved, lower, older, diffMap, lowerMap, diffCache, hsaved, hdiff⟩ := h.exists_two hlen
  have hrestore := h.restores
  rw [hsaved, hdiff] at hrestore
  unfold Nested.revert at hnext
  rw [hsaved] at hnext
  obtain rfl := Option.some.inj hnext
  unfold Cache.revert
  rw [hdiff]
  refine ⟨_, rfl, ?_, hrestore.2, List.cons_ne_nil _ _⟩
  rw [writes_entries, h.current]
  exact hrestore.1

theorem Cache.Holds.step (h : cache.Holds levels) {call : CacheCall ν}
    (hnext : levels.after call = some next) :
    ∃ reply cache', cache.step call = some (reply, cache') ∧ levels.Returns call reply ∧
      cache'.Holds next := by
  cases call with
  | get key =>
    obtain rfl := Option.some.inj hnext
    exact ⟨_, _, rfl, congrArg CacheReply.elem (congrFun h.current key), h⟩
  | set key elem =>
    obtain rfl := Option.some.inj hnext
    exact ⟨_, _, rfl, rfl, h.set key elem⟩
  | flush =>
    unfold CacheLevels.after at hnext
    dsimp only at hnext
    split at hnext
    · rename_i hlen
      obtain rfl := Option.some.inj hnext
      exact ⟨_, _, rfl, ⟨_, rfl, h.flushes⟩, h.flush hlen⟩
    · cases hnext
  | checkpoint =>
    obtain rfl := Option.some.inj hnext
    exact ⟨_, _, rfl, rfl, h.checkpoint⟩
  | commit =>
    unfold CacheLevels.after at hnext
    dsimp only at hnext
    split at hnext
    · cases hnext
    · rename_i hlen
      obtain ⟨cache', hcommit, hholds⟩ := h.commit hlen hnext
      exact ⟨.done, cache', by rw [Cache.step, hcommit]; rfl, rfl, hholds⟩
  | revert =>
    unfold CacheLevels.after at hnext
    dsimp only at hnext
    split at hnext
    · cases hnext
    · rename_i hlen
      obtain ⟨cache', hrevert, hholds⟩ := h.revert hlen hnext
      exact ⟨.done, cache', by rw [Cache.step, hrevert]; rfl, rfl, hholds⟩

theorem Cache.Holds.run (h : cache.Holds levels) {calls : List (CacheCall ν)}
    (hcalls : levels.Allows calls) :
    ∃ replies, cache.run calls = some replies ∧ levels.Answers calls replies := by
  induction calls generalizing cache levels with
  | nil => exact ⟨[], rfl, rfl⟩
  | cons call calls ih =>
    obtain ⟨next, hnext, hrest⟩ := hcalls
    obtain ⟨reply, cache', hstep, hreturns, hholds⟩ := h.step hnext
    obtain ⟨replies, hrun, hanswers⟩ := ih hholds hrest
    refine ⟨reply :: replies, ?_, hreturns, next, hnext, hanswers⟩
    rw [Cache.run, hstep]
    change (cache'.run calls).bind _ = _
    rw [hrun]
    rfl

end Levels

def accountCalls : List (CacheCall (Option Bytes)) :=
  [.set [1] (some [0xc0]), .checkpoint, .set [1] none, .set [2] (some [0xc1, 0x80]), .checkpoint,
    .set [1] (some []), .revert, .get [1], .commit, .get [2], .flush]

end EthereumJS
