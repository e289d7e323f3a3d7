import EthereumJS.Overlay.Store
import EthereumJS.Blockchain.Steps

/-! # What a batch does to each table

Each operation of a batch writes to one table, so that a table after a batch holds the last
write of each key. The caches do the same, but for a deleted key they fall back to the
database.
-/

namespace Overlay

variable {κ ν : Type*} [DecidableEq κ]

theorem latestWrite_eq_none_iff {ws : List (κ × ν)} {k : κ} :
    latestWrite ws k = none ↔ ∀ w ∈ ws, w.1 ≠ k := by
  induction ws with
  | nil => simp [latestWrite]
  | cons w ws ih =>
    obtain ⟨a, v⟩ := w
    rw [latestWrite, Option.or_eq_none_iff, ih]
    simp [and_comm]

/-- A key that all its writes agree on. -/
theorem latestWrite_eq_some {ws : List (κ × ν)} {k : κ} {v : ν} (hmem : (k, v) ∈ ws)
    (h : ∀ u, (k, u) ∈ ws → u = v) : latestWrite ws k = some v := by
  cases hlast : latestWrite ws k with
  | none => exact absurd rfl (latestWrite_eq_none_iff.mp hlast _ hmem)
  | some u => rw [h u (mem_of_latestWrite hlast)]

end Overlay

namespace EthereumJS

open Overlay

namespace DBOp

def toHeader : DBOp → Option ((Nat × Hash) × Option BlockHeader)
  | .setHeader header => some ((header.number, header.hash), some header)
  | .delHeader number hash => some ((number, hash), none)
  | _ => none

def toBody : DBOp → Option ((Nat × Hash) × Option BlockBody)
  | .setBody number hash body => some ((number, hash), some body)
  | .delBody number hash => some ((number, hash), none)
  | _ => none

def toTD : DBOp → Option ((Nat × Hash) × Option Nat)
  | .setTD number hash td => some ((number, hash), some td)
  | .delTD number hash => some ((number, hash), none)
  | _ => none

def toHashToNumber : DBOp → Option (Hash × Option Nat)
  | .setHashToNumber hash number => some (hash, some number)
  | .delHashToNumber hash => some (hash, none)
  | _ => none

def toNumberToHash : DBOp → Option (Nat × Option Hash)
  | .setNumberToHash number hash => some (number, some hash)
  | .delNumberToHash number => some (number, none)
  | _ => none

end DBOp

namespace ChainDB

section Table

variable {σ κ ν : Type} [DecidableEq κ] {step : σ → DBOp → σ} (read : σ → κ → Option ν)
  (toWrite : DBOp → Option (κ × Option ν)) (fallback : κ → Option ν)

/-- A table whose keys hold the last write, where a deleted key falls back. -/
theorem foldl_latestWrite
    (hstep : ∀ s op k, read (step s op) k =
      match toWrite op with
      | none => read s k
      | some (a, v) => if a = k then v.or (fallback k) else read s k)
    (ops : List DBOp) (s : σ) (k : κ) :
    read (ops.foldl step s) k =
      ((latestWrite (ops.filterMap toWrite) k).map fun v => v.or (fallback k)).getD (read s k) := by
  induction ops generalizing s with
  | nil => rfl
  | cons op ops ih =>
    rw [List.foldl_cons, ih, hstep]
    cases hwrite : toWrite op with
    | none => rw [List.filterMap_cons_none hwrite]
    | some w =>
      obtain ⟨a, v⟩ := w
      rw [List.filterMap_cons_some hwrite, latestWrite]
      cases latestWrite (ops.filterMap toWrite) k with
      | some u => rfl
      | none =>
        rcases Classical.em (a = k) with heq | hne
        · simp [heq]
        · simp [hne]

end Table

theorem set_apply {α : Type} (table : Table α) (number n : Nat) (hash h : Hash)
    (value : Option α) :
    table.set number hash value n h = if (number, hash) = (n, h) then value else table n h := by
  simp [Table.set, eq_comm]

variable (db view : ChainDB) (ops : List DBOp)

theorem batch_header (n : Nat) (h : Hash) : (db.batch ops).header n h =
    (latestWrite (ops.filterMap DBOp.toHeader) (n, h)).getD (db.header n h) := by
  refine (foldl_latestWrite (fun db k => db.header k.1 k.2 : ChainDB → Nat × Hash → Option _)
    DBOp.toHeader (fun _ => none) ?_ ops db (n, h)).trans ?_
  · rintro s op ⟨n, h⟩
    cases op <;> simp [apply, DBOp.toHeader, set_apply]
  · simp

theorem updateCaches_header (n : Nat) (h : Hash) : (db.updateCaches view ops).header n h =
    ((latestWrite (ops.filterMap DBOp.toHeader) (n, h)).map
      fun v => v.or (db.header n h)).getD (view.header n h) := by
  refine foldl_latestWrite (fun db k => db.header k.1 k.2 : ChainDB → Nat × Hash → Option _)
    DBOp.toHeader (fun k => db.header k.1 k.2) ?_ ops view (n, h)
  rintro s op ⟨n, h⟩
  cases op <;> simp [updateCache, apply, DBOp.toHeader, set_apply]
  all_goals
    split <;> simp_all

theorem batch_body (n : Nat) (h : Hash) : (db.batch ops).body n h =
    (latestWrite (ops.filterMap DBOp.toBody) (n, h)).getD (db.body n h) := by
  refine (foldl_latestWrite (fun db k => db.body k.1 k.2 : ChainDB → Nat × Hash → Option _)
    DBOp.toBody (fun _ => none) ?_ ops db (n, h)).trans ?_
  · rintro s op ⟨n, h⟩
    cases op <;> simp [apply, DBOp.toBody, set_apply]
  · simp

theorem updateCaches_body (n : Nat) (h : Hash) : (db.updateCaches view ops).body n h =
    ((latestWrite (ops.filterMap DBOp.toBody) (n, h)).map
      fun v => v.or (db.body n h)).getD (view.body n h) := by
  refine foldl_latestWrite (fun db k => db.body k.1 k.2 : ChainDB → Nat × Hash → Option _)
    DBOp.toBody (fun k => db.body k.1 k.2) ?_ ops view (n, h)
  rintro s op ⟨n, h⟩
  cases op <;> simp [updateCache, apply, DBOp.toBody, set_apply]
  all_goals
    split <;> simp_all

theorem batch_td (n : Nat) (h : Hash) : (db.batch ops).td n h =
    (latestWrite (ops.filterMap DBOp.toTD) (n, h)).getD (db.td n h) := by
  refine (foldl_latestWrite (fun db k => db.td k.1 k.2 : ChainDB → Nat × Hash → Option _)
    DBOp.toTD (fun _ => none) ?_ ops db (n, h)).trans ?_
  · rintro s op ⟨n, h⟩
    cases op <;> simp [apply, DBOp.toTD, set_apply]
  · simp

theorem updateCaches_td (n : Nat) (h : Hash) : (db.updateCaches view ops).td n h =
    ((latestWrite (ops.filterMap DBOp.toTD) (n, h)).map
      fun v => v.or (db.td n h)).getD (view.td n h) := by
  refine foldl_latestWrite (fun db k => db.td k.1 k.2 : ChainDB → Nat × Hash → Option _)
    DBOp.toTD (fun k => db.td k.1 k.2) ?_ ops view (n, h)
  rintro s op ⟨n, h⟩
  cases op <;> simp [updateCache, apply, DBOp.toTD, set_apply]
  all_goals
    split <;> simp_all

theorem batch_hashToNumber (h : Hash) : (db.batch ops).hashToNumber h =
    (latestWrite (ops.filterMap DBOp.toHashToNumber) h).getD (db.hashToNumber h) := by
  refine (foldl_latestWrite hashToNumber DBOp.toHashToNumber (fun _ => none) ?_ ops db h).trans ?_
  · rintro s op h
    cases op <;> simp [apply, DBOp.toHashToNumber, Function.update_apply, eq_comm]
  · simp

theorem updateCaches_hashToNumber (h : Hash) : (db.updateCaches view ops).hashToNumber h =
    ((latestWrite (ops.filterMap DBOp.toHashToNumber) h).map
      fun v => v.or (db.hashToNumber h)).getD (view.hashToNumber h) := by
  refine foldl_latestWrite hashToNumber DBOp.toHashToNumber db.hashToNumber ?_ ops view h
  rintro s op h
  cases op <;> simp [updateCache, apply, DBOp.toHashToNumber, Function.update_apply]
  all_goals
    split <;> simp_all [eq_comm]

theorem batch_numberToHash (n : Nat) : (db.batch ops).numberToHash n =
    (latestWrite (ops.filterMap DBOp.toNumberToHash) n).getD (db.numberToHash n) := by
  refine (foldl_latestWrite numberToHash DBOp.toNumberToHash (fun _ => none) ?_ ops db n).trans ?_
  · rintro s op n
    cases op <;> simp [apply, DBOp.toNumberToHash, Function.update_apply, eq_comm]
  · simp

theorem updateCaches_numberToHash (n : Nat) : (db.updateCaches view ops).numberToHash n =
    ((latestWrite (ops.filterMap DBOp.toNumberToHash) n).map
      fun v => v.or (db.numberToHash n)).getD (view.numberToHash n) := by
  refine foldl_latestWrite numberToHash DBOp.toNumberToHash db.numberToHash ?_ ops view n
  rintro s op n
  cases op <;> simp [updateCache, apply, DBOp.toNumberToHash, Function.update_apply]
  all_goals
    split <;> simp_all [eq_comm]

end ChainDB
end EthereumJS
