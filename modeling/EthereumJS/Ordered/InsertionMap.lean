import Mathlib.Data.List.Basic
import Mathlib.Algebra.BigOperators.Group.List.Basic
import Mathlib.Algebra.Ring.Int.Defs

/-! # Maps that keep the order of insertion

A new key goes to the end, and a key that is set again keeps its place. Every key stands once,
so that a sum over the entries changes with one operation by the weight of one value.
-/

namespace EthereumJS.Ordered

variable {κ ν : Type}

/-- The entries whose values `f` keeps, with the values that it gives. -/
def mapEntries (f : ν → Option ν) : List (κ × ν) → List (κ × ν)
  | [] => []
  | (k, v) :: entries =>
    match f v with
    | none => mapEntries f entries
    | some v => (k, v) :: mapEntries f entries

theorem keys_mapEntries_sublist (f : ν → Option ν) (entries : List (κ × ν)) :
    ((mapEntries f entries).map Prod.fst).Sublist (entries.map Prod.fst) := by
  induction entries with
  | nil => exact List.Sublist.refl _
  | cons entry entries ih =>
    obtain ⟨k, v⟩ := entry
    rw [mapEntries]
    cases f v with
    | none => exact ih.cons _
    | some v' => exact ih.cons_cons _

section Entries

variable [DecidableEq κ]

def insertEntry (key : κ) (value : ν) : List (κ × ν) → List (κ × ν)
  | [] => [(key, value)]
  | (k, v) :: entries =>
    if k = key then (key, value) :: entries else (k, v) :: insertEntry key value entries

def lookupEntry (key : κ) : List (κ × ν) → Option ν
  | [] => none
  | (k, v) :: entries => if k = key then some v else lookupEntry key entries

theorem mem_keys_insertEntry {key k : κ} {value : ν} {entries : List (κ × ν)} :
    k ∈ (insertEntry key value entries).map Prod.fst ↔ k = key ∨ k ∈ entries.map Prod.fst := by
  induction entries with
  | nil => simp [insertEntry]
  | cons entry entries ih =>
    obtain ⟨k', v⟩ := entry
    rw [insertEntry]
    split
    · next h =>
      subst h
      simp
    · simp only [List.map_cons, List.mem_cons, ih]
      tauto

theorem nodup_insertEntry {key : κ} {value : ν} {entries : List (κ × ν)}
    (h : (entries.map Prod.fst).Nodup) : ((insertEntry key value entries).map Prod.fst).Nodup := by
  induction entries with
  | nil => simp [insertEntry]
  | cons entry entries ih =>
    obtain ⟨k, v⟩ := entry
    rw [List.map_cons, List.nodup_cons] at h
    rw [insertEntry]
    split
    · next heq =>
      subst heq
      exact List.nodup_cons.mpr h
    · next hne =>
      rw [List.map_cons, List.nodup_cons, mem_keys_insertEntry]
      exact ⟨fun hk => hk.elim hne h.1, ih h.2⟩

theorem lookupEntry_insertEntry (key k : κ) (value : ν) (entries : List (κ × ν)) :
    lookupEntry k (insertEntry key value entries) =
      if k = key then some value else lookupEntry k entries := by
  induction entries with
  | nil => simp [insertEntry, lookupEntry, eq_comm]
  | cons entry entries ih =>
    obtain ⟨k', v⟩ := entry
    simp only [insertEntry]
    split <;> simp only [lookupEntry, ih] <;> grind

theorem insertEntry_of_not_mem {key : κ} {value : ν} {entries : List (κ × ν)}
    (h : key ∉ entries.map Prod.fst) : insertEntry key value entries = entries ++ [(key, value)] := by
  induction entries with
  | nil => rfl
  | cons entry entries ih =>
    rw [List.map_cons, List.mem_cons, not_or] at h
    rw [insertEntry, if_neg fun heq => h.1 heq.symm, ih h.2, List.cons_append]

theorem mem_insertEntry {key : κ} {value : ν} {entry : κ × ν} {entries : List (κ × ν)}
    (h : entry ∈ insertEntry key value entries) : entry = (key, value) ∨ entry ∈ entries := by
  induction entries with
  | nil => exact .inl (List.mem_singleton.mp h)
  | cons first entries ih =>
    obtain ⟨k, v⟩ := first
    rw [insertEntry] at h
    split at h
    · exact (List.mem_cons.mp h).imp_right (List.mem_cons_of_mem _)
    · obtain rfl | h := List.mem_cons.mp h
      · exact .inr List.mem_cons_self
      · exact (ih h).imp_right (List.mem_cons_of_mem _)

theorem filter_insertEntry {key : κ} {value : ν} {p : κ × ν → Bool} {entries : List (κ × ν)}
    (h : ∀ v, p (key, v) = false) : (insertEntry key value entries).filter p = entries.filter p := by
  induction entries with
  | nil => simp [insertEntry, h]
  | cons entry entries ih =>
    obtain ⟨k, v⟩ := entry
    rw [insertEntry]
    split
    · next heq =>
      subst heq
      simp [h]
    · rw [List.filter_cons, List.filter_cons, ih]

theorem lookupEntry_eq_none {key : κ} {entries : List (κ × ν)}
    (h : key ∉ entries.map Prod.fst) : lookupEntry key entries = none := by
  induction entries with
  | nil => rfl
  | cons entry entries ih =>
    rw [List.map_cons, List.mem_cons, not_or] at h
    rw [lookupEntry, if_neg fun heq => h.1 heq.symm, ih h.2]

theorem lookupEntry_isSome {key : κ} {entries : List (κ × ν)} :
    (lookupEntry key entries).isSome ↔ key ∈ entries.map Prod.fst := by
  induction entries with
  | nil => simp [lookupEntry]
  | cons entry entries ih =>
    obtain ⟨k, v⟩ := entry
    rw [lookupEntry, List.map_cons, List.mem_cons]
    split
    · next heq => simp [heq]
    · next hne =>
      rw [ih]
      exact ⟨.inr, fun hkey => hkey.resolve_left fun heq => hne heq.symm⟩

theorem mem_of_lookupEntry {key : κ} {value : ν} {entries : List (κ × ν)}
    (h : lookupEntry key entries = some value) : (key, value) ∈ entries := by
  induction entries with
  | nil => simp [lookupEntry] at h
  | cons entry entries ih =>
    obtain ⟨k, v⟩ := entry
    rw [lookupEntry] at h
    split at h
    · next heq =>
      subst heq
      cases h
      exact List.mem_cons_self
    · exact List.mem_cons_of_mem _ (ih h)

theorem lookupEntry_of_mem {key : κ} {value : ν} {entries : List (κ × ν)}
    (hnodup : (entries.map Prod.fst).Nodup) (h : (key, value) ∈ entries) :
    lookupEntry key entries = some value := by
  induction entries with
  | nil => cases h
  | cons entry entries ih =>
    obtain ⟨k, v⟩ := entry
    obtain ⟨hnew, hnodup⟩ := List.nodup_cons.mp hnodup
    rw [lookupEntry]
    obtain heq | hmem := List.mem_cons.mp h
    · cases heq
      rw [if_pos rfl]
    · have hne : k ≠ key := fun heq => hnew (List.mem_map.mpr ⟨_, hmem, heq.symm⟩)
      rw [if_neg hne, ih hnodup hmem]

theorem lookupEntry_mapEntries (f : ν → Option ν) (key : κ) {entries : List (κ × ν)}
    (h : (entries.map Prod.fst).Nodup) :
    lookupEntry key (mapEntries f entries) = (lookupEntry key entries).bind f := by
  induction entries with
  | nil => rfl
  | cons entry entries ih =>
    obtain ⟨k, v⟩ := entry
    rw [List.map_cons, List.nodup_cons] at h
    have ih := ih h.2
    rw [mapEntries, lookupEntry]
    by_cases hk : k = key
    · subst hk
      have hnone := lookupEntry_eq_none h.1
      rw [hnone] at ih
      cases hf : f v <;> simp [ih, hf, lookupEntry]
    · cases hf : f v <;> simp [ih, hk, lookupEntry]

end Entries

/-- A map with its entries in the order of their first insertion. -/
structure InsertionMap (κ ν : Type) where
  entries : List (κ × ν)
  nodup : (entries.map Prod.fst).Nodup

namespace InsertionMap

def empty : InsertionMap κ ν := ⟨[], List.nodup_nil⟩

/-- Deletes the entries whose values `f` drops and sets the others to what it gives. -/
def update (m : InsertionMap κ ν) (f : ν → Option ν) : InsertionMap κ ν :=
  ⟨mapEntries f m.entries, (keys_mapEntries_sublist f m.entries).nodup m.nodup⟩

def drop (m : InsertionMap κ ν) (n : Nat) : InsertionMap κ ν :=
  ⟨m.entries.drop n, List.Sublist.nodup ((List.drop_sublist n m.entries).map _) m.nodup⟩

def size (m : InsertionMap κ ν) : Nat := m.entries.length

/-- The sum of the weights of all values. -/
def total (m : InsertionMap κ ν) (weight : ν → Int) : Int :=
  (m.entries.map fun entry => weight entry.2).sum

variable (m : InsertionMap κ ν)

theorem total_update (weight : ν → Int) (f : ν → Option ν) :
    (m.update f).total weight = m.total fun v => ((f v).map weight).getD 0 := by
  change ((mapEntries f m.entries).map fun entry => weight entry.2).sum = _
  rw [total]
  induction m.entries with
  | nil => rfl
  | cons entry entries ih =>
    obtain ⟨k, v⟩ := entry
    rw [mapEntries]
    cases hf : f v <;> simp [ih, hf]

theorem total_sub (weight weight' : ν → Int) :
    m.total (fun v => weight v - weight' v) = m.total weight - m.total weight' := by
  simp only [total]
  induction m.entries with
  | nil => rfl
  | cons entry entries ih =>
    simp only [List.map_cons, List.sum_cons, ih]
    omega

variable [DecidableEq κ]

def get (key : κ) : Option ν := lookupEntry key m.entries

def set (key : κ) (value : ν) : InsertionMap κ ν :=
  ⟨insertEntry key value m.entries, nodup_insertEntry m.nodup⟩

def delete (key : κ) : InsertionMap κ ν :=
  ⟨m.entries.filter fun entry => entry.1 ≠ key,
    List.Sublist.nodup (List.filter_sublist.map _) m.nodup⟩

def weightAt (weight : ν → Int) (key : κ) : Int :=
  ((m.get key).map weight).getD 0

@[simp] theorem get_empty (key : κ) : (empty : InsertionMap κ ν).get key = none := rfl

@[simp] theorem get_set (key k : κ) (value : ν) :
    (m.set key value).get k = if k = key then some value else m.get k :=
  lookupEntry_insertEntry key k value m.entries

/-- What holds of every value of a map and of the default holds of what is read. -/
theorem getD_of_all {p : ν → Prop} {m : InsertionMap κ ν} {default : ν}
    (h : ∀ k v, m.get k = some v → p v) (hdefault : p default) (key : κ) :
    p ((m.get key).getD default) := by
  cases hkey : m.get key with
  | none => exact hdefault
  | some v => exact h key v hkey

theorem all_set {p : ν → Prop} {m : InsertionMap κ ν} (h : ∀ k v, m.get k = some v → p v)
    (key : κ) {value : ν} (hvalue : p value) : ∀ k v, (m.set key value).get k = some v → p v := by
  intro k v hk
  rw [get_set] at hk
  split at hk
  · cases hk
    exact hvalue
  · exact h k v hk

@[simp] theorem get_delete (key k : κ) :
    (m.delete key).get k = if k = key then none else m.get k := by
  change lookupEntry k (m.entries.filter fun entry => entry.1 ≠ key) =
    if k = key then none else lookupEntry k m.entries
  induction m.entries with
  | nil => simp [lookupEntry]
  | cons entry entries ih =>
    rw [List.filter_cons]
    split <;> simp only [lookupEntry, ih] <;> grind

@[simp] theorem get_update (f : ν → Option ν) (key : κ) :
    (m.update f).get key = (m.get key).bind f :=
  lookupEntry_mapEntries f key m.nodup

/-- New keys go to the end in their order. -/
theorem entries_foldl_set {α : Type} (key : α → κ) (value : α → ν) (items : List α) :
    ∀ m : InsertionMap κ ν, (m.entries.map Prod.fst ++ items.map key).Nodup →
      (items.foldl (fun m item => m.set (key item) (value item)) m).entries =
        m.entries ++ items.map fun item => (key item, value item) := by
  induction items with
  | nil => exact fun m _ => by simp
  | cons item items ih =>
    intro m hnodup
    have hnew : key item ∉ m.entries.map Prod.fst := fun hmem =>
      (List.nodup_append.mp hnodup).2.2 _ hmem _ List.mem_cons_self rfl
    have hset : (m.set (key item) (value item)).entries = m.entries ++ [(key item, value item)] :=
      insertEntry_of_not_mem hnew
    rw [List.foldl_cons, ih, hset, List.append_assoc, List.map_cons, List.singleton_append]
    rw [hset]
    simpa using hnodup

theorem total_set (weight : ν → Int) (key : κ) (value : ν) :
    (m.set key value).total weight = m.total weight - m.weightAt weight key + weight value := by
  have hentries : ∀ entries : List (κ × ν),
      ((insertEntry key value entries).map fun entry => weight entry.2).sum =
        (entries.map fun entry => weight entry.2).sum -
          ((lookupEntry key entries).map weight).getD 0 + weight value := by
    intro entries
    induction entries with
    | nil => simp [insertEntry, lookupEntry]
    | cons entry entries ih =>
      obtain ⟨k, v⟩ := entry
      rw [insertEntry, lookupEntry]
      split
      · simp only [List.map_cons, List.sum_cons, Option.map_some, Option.getD_some]
        omega
      · simp only [List.map_cons, List.sum_cons, ih]
        omega
  exact hentries m.entries

theorem total_delete (weight : ν → Int) (key : κ) :
    (m.delete key).total weight = m.total weight - m.weightAt weight key := by
  have hentries : ∀ entries : List (κ × ν), (entries.map Prod.fst).Nodup →
      ((entries.filter fun entry => entry.1 ≠ key).map fun entry => weight entry.2).sum =
        (entries.map fun entry => weight entry.2).sum -
          ((lookupEntry key entries).map weight).getD 0 := by
    intro entries hnodup
    induction entries with
    | nil => simp [lookupEntry]
    | cons entry entries ih =>
      obtain ⟨k, v⟩ := entry
      rw [List.map_cons, List.nodup_cons] at hnodup
      have ih := ih hnodup.2
      by_cases hk : k = key
      · subst hk
        rw [lookupEntry_eq_none hnodup.1] at ih
        simpa [lookupEntry] using ih
      · simp only [lookupEntry, hk, ne_eq, not_false_eq_true, decide_true, List.filter_cons_of_pos,
          List.map_cons, List.sum_cons, if_false] at ih ⊢
        rw [ih]
        omega
  exact hentries m.entries m.nodup

end InsertionMap

end EthereumJS.Ordered
