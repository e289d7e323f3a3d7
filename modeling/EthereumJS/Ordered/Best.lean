import EthereumJS.Ordered.InsertionMap
import Mathlib.Data.List.Induction
import Mathlib.Data.List.Sort

/-! # The best value for each key

The map that keeps for each key the value of the highest rank among those offered, and the
sorted list of its values, which depends on what the map holds alone.
-/

namespace EthereumJS.Ordered

variable {κ ν : Type}

section Best

variable (key : ν → κ) (rank : ν → Nat)

/-- No other value with the same key has a higher rank. -/
def IsBest (values : List ν) (v : ν) : Prop :=
  v ∈ values ∧ ∀ w ∈ values, key w = key v → rank w ≤ rank v

/-- One value for one key and rank. -/
def OneForEach (values : List ν) : Prop :=
  ∀ v ∈ values, ∀ w ∈ values, key v = key w → rank v = rank w → v = w

namespace InsertionMap

variable [DecidableEq κ]

/-- Sets a value unless the map holds one of a higher rank for its key. -/
def offer (m : InsertionMap κ ν) (v : ν) : InsertionMap κ ν :=
  match m.get (key v) with
  | none => m.set (key v) v
  | some old => if rank old > rank v then m else m.set (key v) v

/-- The map holds a value for the key of each of the values, and only best ones. -/
structure HoldsBest (values : List ν) (m : InsertionMap κ ν) : Prop where
  sound : ∀ k v, m.get k = some v → key v = k ∧ IsBest key rank values v
  complete : ∀ v ∈ values, ∃ w, m.get (key v) = some w

variable {key rank} {m m' : InsertionMap κ ν} {values : List ν}

theorem holdsBest_empty : HoldsBest key rank [] (empty : InsertionMap κ ν) where
  sound k v h := by cases h
  complete v hv := by cases hv

theorem HoldsBest.set {v : ν} (h : HoldsBest key rank values m)
    (hv : ∀ w ∈ values, key w = key v → rank w ≤ rank v) :
    HoldsBest key rank (values ++ [v]) (m.set (key v) v) := by
  constructor
  · intro k w hw
    rw [get_set] at hw
    split at hw
    · next hk =>
      cases hw
      refine ⟨hk.symm, List.mem_append_right _ List.mem_cons_self, fun x hx hkey => ?_⟩
      obtain hx | hx := List.mem_append.mp hx
      · exact hv x hx hkey
      · rw [List.mem_singleton.mp hx]
    · next hk =>
      obtain ⟨hkey, hmem, hbest⟩ := h.sound k w hw
      refine ⟨hkey, List.mem_append_left _ hmem, fun x hx hxkey => ?_⟩
      obtain hx | hx := List.mem_append.mp hx
      · exact hbest x hx hxkey
      · rw [List.mem_singleton.mp hx, hkey] at hxkey
        exact absurd hxkey.symm hk
  · intro w hw
    rw [get_set]
    split
    · exact ⟨v, rfl⟩
    · next hk =>
      obtain hw | hw := List.mem_append.mp hw
      · exact h.complete w hw
      · exact absurd (congrArg key (List.mem_singleton.mp hw)) hk

theorem HoldsBest.offer (h : HoldsBest key rank values m) (v : ν) :
    HoldsBest key rank (values ++ [v]) (m.offer key rank v) := by
  unfold InsertionMap.offer
  cases hold : m.get (key v) with
  | none =>
    refine h.set fun w hw hkey => ?_
    obtain ⟨x, hx⟩ := h.complete w hw
    rw [hkey, hold] at hx
    cases hx
  | some old =>
    obtain ⟨hkeyOld, hmemOld, hbestOld⟩ := h.sound _ _ hold
    simp only
    split
    · next hlt =>
      constructor
      · intro k w hw
        obtain ⟨hkey, hmem, hbest⟩ := h.sound k w hw
        refine ⟨hkey, List.mem_append_left _ hmem, fun x hx hxkey => ?_⟩
        obtain hx | hx := List.mem_append.mp hx
        · exact hbest x hx hxkey
        · rw [List.mem_singleton.mp hx] at hxkey ⊢
          exact hlt.le.trans (hbest old hmemOld (hkeyOld.trans hxkey))
      · intro w hw
        obtain hw | hw := List.mem_append.mp hw
        · exact h.complete w hw
        · rw [List.mem_singleton.mp hw]
          exact ⟨old, hold⟩
    · next hle =>
      refine h.set fun w hw hkey => ?_
      exact (hbestOld w hw (hkey.trans hkeyOld.symm)).trans (not_lt.mp hle)

theorem holdsBest_foldl_offer (values : List ν) :
    HoldsBest key rank values (values.foldl (InsertionMap.offer key rank) empty) := by
  induction values using List.reverseRecOn with
  | nil => exact holdsBest_empty
  | append_singleton values v ih =>
    rw [List.foldl_append]
    exact ih.offer v

theorem HoldsBest.get_eq_some_iff (h : HoldsBest key rank values m)
    (hone : OneForEach key rank values) {k : κ} {v : ν} :
    m.get k = some v ↔ key v = k ∧ IsBest key rank values v := by
  constructor
  · exact h.sound k v
  · rintro ⟨rfl, hmem, hbest⟩
    obtain ⟨w, hw⟩ := h.complete v hmem
    obtain ⟨hkey, hwmem, hwbest⟩ := h.sound _ _ hw
    have hrank := le_antisymm (hwbest v hmem hkey.symm) (hbest w hwmem hkey)
    rw [hone v hmem w hwmem hkey.symm hrank, hkey, hw]

end InsertionMap

end Best

section Values

namespace InsertionMap

variable [DecidableEq κ] {key : ν → κ} {m m' : InsertionMap κ ν}

def values (m : InsertionMap κ ν) : List ν := m.entries.map Prod.snd

/-- Every value stands under its own key. -/
def Keyed (key : ν → κ) (m : InsertionMap κ ν) : Prop := ∀ k v, m.get k = some v → key v = k

theorem get_eq_some_iff {k : κ} {v : ν} : m.get k = some v ↔ (k, v) ∈ m.entries :=
  ⟨mem_of_lookupEntry, lookupEntry_of_mem m.nodup⟩

theorem mem_values_iff (h : m.Keyed key) {v : ν} : v ∈ m.values ↔ m.get (key v) = some v := by
  rw [values, List.mem_map, get_eq_some_iff]
  constructor
  · rintro ⟨⟨k, w⟩, hmem, rfl⟩
    rwa [h k w (get_eq_some_iff.mpr hmem)]
  · intro hmem
    exact ⟨_, hmem, rfl⟩

theorem nodup_keys_values (h : m.Keyed key) : (m.values.map key).Nodup := by
  have hkeys : m.values.map key = m.entries.map Prod.fst := by
    rw [values, List.map_map]
    refine List.map_congr_left fun entry hentry => ?_
    exact h entry.1 entry.2 (get_eq_some_iff.mpr hentry)
  rw [hkeys]
  exact m.nodup

theorem values_perm_iff (hm : m.Keyed key) (hm' : m'.Keyed key) :
    m.values.Perm m'.values ↔ ∀ k, m.get k = m'.get k := by
  rw [List.perm_ext_iff_of_nodup (nodup_keys_values hm).of_map (nodup_keys_values hm').of_map]
  have hle : ∀ {n n' : InsertionMap κ ν}, n.Keyed key → n'.Keyed key →
      (∀ v, v ∈ n.values ↔ v ∈ n'.values) → ∀ k v, n.get k = some v → n'.get k = some v := by
    intro n n' hn hn' hsame k v hv
    have hkey := hn k v hv
    subst hkey
    exact (mem_values_iff hn').mp ((hsame v).mp ((mem_values_iff hn).mpr hv))
  constructor
  · intro hsame k
    exact Option.ext fun v => ⟨hle hm hm' hsame k v, hle hm' hm (fun v => (hsame v).symm) k v⟩
  · intro hget v
    rw [mem_values_iff hm, mem_values_iff hm', hget]

/-- The sorted values are the same iff the maps hold the same. -/
theorem insertionSort_values_eq_iff (r : ν → ν → Prop) [DecidableRel r] [Std.Total r]
    [IsTrans ν r] (hr : ∀ v w, r v w → r w v → key v = key w)
    (hm : m.Keyed key) (hm' : m'.Keyed key) :
    m.values.insertionSort r = m'.values.insertionSort r ↔ ∀ k, m.get k = m'.get k := by
  rw [← values_perm_iff hm hm']
  have hperm := List.perm_insertionSort r m.values
  have hperm' := List.perm_insertionSort r m'.values
  constructor
  · intro h
    exact hperm.symm.trans (h ▸ hperm')
  · intro h
    refine ((hperm.trans h).trans hperm'.symm).eq_of_pairwise ?_
      (List.pairwise_insertionSort r _) (List.pairwise_insertionSort r _)
    intro v w hv hw hvw hwv
    have hv := (mem_values_iff hm).mp (hperm.mem_iff.mp hv)
    have hw := (mem_values_iff hm).mp (h.mem_iff.mpr (hperm'.mem_iff.mp hw))
    rw [hr v w hvw hwv, hw] at hv
    exact (Option.some.inj hv).symm

end InsertionMap

end Values

end EthereumJS.Ordered
