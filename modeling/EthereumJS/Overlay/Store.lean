import Mathlib.Data.List.AList

/-! # Stores with nested transactions

A state with checkpoints that may be committed or reverted, and its realization for
key-value stores as a stack of diff maps over a base. A diff map says for some keys what
the store holds there; a key without an entry is looked up one level below. Where a key says what
is stored under it, a write never changes an entry, and a store only grows.
-/

namespace Overlay

/-- A state and what it was at each open checkpoint, the latest first. -/
structure Nested (σ : Type*) where
  current : σ
  saved : List σ

namespace Nested

variable {σ : Type*} (n : Nested σ)

def modify (f : σ → σ) : Nested σ := { n with current := f n.current }

def checkpoint : Nested σ := { n with saved := n.current :: n.saved }

def commit : Option (Nested σ) :=
  match n.saved with
  | [] => none
  | _ :: saved => some { n with saved := saved }

def revert : Option (Nested σ) :=
  match n.saved with
  | [] => none
  | state :: saved => some ⟨state, saved⟩

/-- The same transactions seen through a function on states. -/
def map {τ : Type*} (f : σ → τ) : Nested τ := ⟨f n.current, n.saved.map f⟩

variable {τ : Type*} (f : σ → τ)

theorem map_commit : (n.commit.map fun n => n.map f) = (n.map f).commit := by
  obtain ⟨current, saved⟩ := n
  cases saved <;> rfl

theorem map_revert : (n.revert.map fun n => n.map f) = (n.map f).revert := by
  obtain ⟨current, saved⟩ := n
  cases saved <;> rfl

theorem map_modify {g : σ → σ} {h : τ → τ} (hgh : ∀ s, f (g s) = h (f s)) :
    (n.modify g).map f = (n.map f).modify h := by
  simp [map, modify, hgh]

end Nested

variable {κ ν : Type*} [DecidableEq κ]

/-- What a list of writes leaves at a key, the last write first. -/
def latestWrite : List (κ × ν) → κ → Option ν
  | [], _ => none
  | (a, v) :: ws, k => (latestWrite ws k).or (if a = k then some v else none)

/-- The writes of a list in order; `none` deletes. -/
def writes (ws : List (κ × Option ν)) (s : κ → Option ν) : κ → Option ν :=
  ws.foldl (fun s w => Function.update s w.1 w.2) s

theorem latestWrite_map {κ' : Type*} [DecidableEq κ'] {f : κ → κ'} (hf : Function.Injective f)
    (ws : List (κ × ν)) (k : κ) :
    latestWrite (ws.map fun w => (f w.1, w.2)) (f k) = latestWrite ws k := by
  induction ws with
  | nil => rfl
  | cons w ws ih =>
    obtain ⟨a, v⟩ := w
    simp [latestWrite, ih, hf.eq_iff]

theorem mem_of_latestWrite {ws : List (κ × ν)} {k : κ} {v : ν} (h : latestWrite ws k = some v) :
    (k, v) ∈ ws := by
  induction ws with
  | nil => cases h
  | cons w ws ih =>
    obtain ⟨a, u⟩ := w
    rw [latestWrite] at h
    cases hrest : latestWrite ws k with
    | some u' =>
      rw [hrest] at h ih
      exact List.mem_cons_of_mem _ (ih h)
    | none =>
      rw [hrest, Option.none_or] at h
      split at h
      · rename_i heq
        rw [heq, Option.some.inj h]
        exact List.mem_cons_self
      · cases h

theorem writes_apply (ws : List (κ × Option ν)) (s : κ → Option ν) (k : κ) :
    writes ws s k = (latestWrite ws k).getD (s k) := by
  induction ws generalizing s with
  | nil => rfl
  | cons w ws ih =>
    obtain ⟨a, v⟩ := w
    change writes ws (Function.update s a v) k = _
    rw [ih, latestWrite]
    cases latestWrite ws k with
    | some u => rfl
    | none =>
      simp only [Option.getD_none, Option.none_or]
      rcases Classical.em (a = k) with rfl | hne
      · simp
      · simp [hne, Function.update_of_ne (Ne.symm hne)]

/-- A map of differences: what the store holds at some of its keys. -/
abbrev DiffMap (κ ν : Type*) := AList fun _ : κ => Option ν

namespace DiffMap

def toWrites (m : DiffMap κ ν) : List (κ × Option ν) := m.entries.map fun e => (e.1, e.2)

def set (m : DiffMap κ ν) (k : κ) (v : Option ν) : DiffMap κ ν := m.insert k v

/-- The entries of one map set in another. -/
def merge (m cur : DiffMap κ ν) : DiffMap κ ν :=
  m.toWrites.foldl (fun cur w => cur.set w.1 w.2) cur

def overlay (m : DiffMap κ ν) (base : κ → Option ν) : κ → Option ν :=
  fun k => (m.lookup k).getD (base k)

theorem latestWrite_dlookup (es : List (Sigma fun _ : κ => Option ν)) (h : es.NodupKeys) (k : κ) :
    latestWrite (es.map fun e => (e.1, e.2)) k = es.dlookup k := by
  induction es with
  | nil => rfl
  | cons e es ih =>
    obtain ⟨a, v⟩ := e
    rw [List.nodupKeys_cons] at h
    simp only [List.map_cons, latestWrite, ih h.2]
    rcases Classical.em (a = k) with rfl | hne
    · rw [List.dlookup_eq_none.mpr h.1, List.dlookup_cons_eq]
      simp
    · rw [List.dlookup_cons_ne es (⟨a, v⟩ : Sigma fun _ : κ => Option ν) (Ne.symm hne)]
      simp [hne]

theorem latestWrite_toWrites (m : DiffMap κ ν) (k : κ) : latestWrite m.toWrites k = m.lookup k :=
  latestWrite_dlookup m.entries m.nodupKeys k

theorem lookup_set (m : DiffMap κ ν) (a k : κ) (v : Option ν) :
    (m.set a v).lookup k = if k = a then some v else m.lookup k := by
  unfold set
  split
  · rename_i heq
    rw [heq, AList.lookup_insert]
  · rename_i hne
    rw [AList.lookup_insert_ne hne]

theorem lookup_foldl_set (ws : List (κ × Option ν)) (cur : DiffMap κ ν) (k : κ) :
    (ws.foldl (fun cur w => cur.set w.1 w.2) cur).lookup k =
      (latestWrite ws k).or (cur.lookup k) := by
  induction ws generalizing cur with
  | nil => rfl
  | cons w ws ih =>
    obtain ⟨a, v⟩ := w
    rw [List.foldl_cons, ih, latestWrite, Option.or_assoc]
    congr 1
    rw [lookup_set]
    rcases Classical.em (k = a) with rfl | hne
    · simp
    · simp [hne, Ne.symm hne]

theorem lookup_merge (m cur : DiffMap κ ν) (k : κ) :
    (m.merge cur).lookup k = (m.lookup k).or (cur.lookup k) := by
  rw [merge, lookup_foldl_set, latestWrite_toWrites]

theorem merge_overlay (m cur : DiffMap κ ν) (base : κ → Option ν) :
    (m.merge cur).overlay base = m.overlay (cur.overlay base) := by
  funext k
  simp only [overlay, lookup_merge]
  cases m.lookup k <;> rfl

theorem writes_toWrites (m : DiffMap κ ν) (base : κ → Option ν) :
    writes m.toWrites base = m.overlay base := by
  funext k
  rw [writes_apply, latestWrite_toWrites]
  rfl

theorem set_overlay (m : DiffMap κ ν) (base : κ → Option ν) (a : κ) (v : Option ν) :
    (m.set a v).overlay base = Function.update (m.overlay base) a v := by
  funext k
  unfold overlay
  rw [lookup_set]
  rcases Classical.em (k = a) with rfl | hne
  · simp
  · simp [hne]

theorem empty_overlay (base : κ → Option ν) : overlay (∅ : DiffMap κ ν) base = base := by
  funext k
  simp [overlay]

end DiffMap

/-- The store that a stack of diff maps over a base stands for. -/
def view (base : κ → Option ν) : List (DiffMap κ ν) → κ → Option ν
  | [] => base
  | m :: ms => m.overlay (view base ms)

/-- What the store was at each checkpoint. -/
def views (base : κ → Option ν) : List (DiffMap κ ν) → List (κ → Option ν)
  | [] => []
  | _ :: ms => view base ms :: views base ms

/-- The nested transactions that a stack of diff maps realizes. -/
def nested (base : κ → Option ν) (ms : List (DiffMap κ ν)) : Nested (κ → Option ν) :=
  ⟨view base ms, views base ms⟩

variable (base : κ → Option ν) (ms : List (DiffMap κ ν))

theorem nested_checkpoint : nested base (∅ :: ms) = (nested base ms).checkpoint := by
  simp [nested, Nested.checkpoint, view, views, DiffMap.empty_overlay]

theorem nested_revert (m : DiffMap κ ν) : (nested base (m :: ms)).revert = some (nested base ms) :=
  rfl

theorem nested_commit (m cur : DiffMap κ ν) :
    (nested base (m :: cur :: ms)).commit = some (nested base (m.merge cur :: ms)) := by
  simp [nested, Nested.commit, view, views, DiffMap.merge_overlay]

theorem nested_flush (m : DiffMap κ ν) :
    (nested base [m]).commit = some (nested (writes m.toWrites base) []) := by
  simp [nested, Nested.commit, view, views, DiffMap.writes_toWrites]

theorem nested_set (m : DiffMap κ ν) (k : κ) (v : Option ν) :
    nested base (m.set k v :: ms) =
      (nested base (m :: ms)).modify (fun s => Function.update s k v) := by
  simp [nested, Nested.modify, view, views, DiffMap.set_overlay]

theorem nested_foldl_set (m : DiffMap κ ν) (ws : List (κ × Option ν)) :
    nested base (ws.foldl (fun cur w => cur.set w.1 w.2) m :: ms) =
      (nested base (m :: ms)).modify (writes ws) := by
  induction ws generalizing m with
  | nil => rfl
  | cons w ws ih =>
    rw [List.foldl_cons, ih, nested_set]
    rfl

/-- A key whose value is the same in every layer may be entered anywhere. -/
theorem view_eq_of_forall {k : κ} {v : Option ν} (hbase : base k = v)
    (h : ∀ m ∈ ms, ∀ w, m.lookup k = some w → w = v) : view base ms k = v := by
  induction ms with
  | nil => exact hbase
  | cons m ms ih =>
    unfold view DiffMap.overlay
    cases hlookup : m.lookup k with
    | none =>
      apply ih
      intro m' hm'
      exact h m' (List.mem_cons_of_mem _ hm')
    | some w => exact h m List.mem_cons_self w hlookup

section Content

variable {κ ν : Type*} {s s' t : κ → Option ν}

/-- The entries of one store are in the other one. -/
def Within (s s' : κ → Option ν) : Prop := ∀ k v, s k = some v → s' k = some v

theorem Within.refl (s : κ → Option ν) : Within s s := fun _ _ h => h

theorem Within.trans (h : Within s s') (h' : Within s' t) : Within s t :=
  fun k v hk => h' k v (h k v hk)

/-- All entries are as they may be. -/
def Entries (P : κ → ν → Prop) (s : κ → Option ν) : Prop := ∀ k v, s k = some v → P k v

/-- A key has one value. -/
def Determines (P : κ → ν → Prop) : Prop := ∀ k v v', P k v → P k v' → v = v'

variable [DecidableEq κ] {P : κ → ν → Prop} {k : κ} {v : ν}

theorem Entries.update (hs : Entries P s) (h : P k v) :
    Entries P (Function.update s k (some v)) := by
  intro a w ha
  rw [Function.update_apply] at ha
  split at ha
  · rename_i hak
    rw [hak, ← Option.some.inj ha]
    exact h
  · exact hs a w ha

theorem within_update (hP : Determines P) (hs : Entries P s) (h : P k v) :
    Within s (Function.update s k (some v)) := by
  intro a w ha
  rw [Function.update_apply]
  split
  · rename_i hak
    rw [hP k v w h (hak ▸ hs a w ha)]
  · exact ha

/-- A diff map that writes entries only. -/
def DiffMap.Entries (P : κ → ν → Prop) (m : DiffMap κ ν) : Prop :=
  ∀ k w, m.lookup k = some w → ∃ v, w = some v ∧ P k v

namespace DiffMap

variable {m cur : DiffMap κ ν}

theorem entries_empty : (∅ : DiffMap κ ν).Entries P := by
  intro k w h
  rw [AList.lookup_empty] at h
  cases h

theorem Entries.set (hm : m.Entries P) (h : P k v) : (m.set k (some v)).Entries P := by
  intro a w ha
  rw [lookup_set] at ha
  split at ha
  · rename_i hak
    rw [hak]
    exact ⟨v, (Option.some.inj ha).symm, h⟩
  · exact hm a w ha

theorem Entries.merge (hm : m.Entries P) (hcur : cur.Entries P) : (m.merge cur).Entries P := by
  intro a w ha
  rw [lookup_merge] at ha
  cases hlookup : m.lookup a with
  | none =>
    rw [hlookup, Option.none_or] at ha
    exact hcur a w ha
  | some w' =>
    rw [hlookup, Option.some_or] at ha
    exact hm a w (hlookup.trans ha)

theorem Entries.overlay (hm : m.Entries P) (hs : Overlay.Entries P s) :
    Overlay.Entries P (m.overlay s) := by
  intro a w ha
  unfold DiffMap.overlay at ha
  cases hlookup : m.lookup a with
  | none =>
    rw [hlookup] at ha
    exact hs a w ha
  | some w' =>
    obtain ⟨u, rfl, hu⟩ := hm a w' hlookup
    rw [hlookup] at ha
    rw [← Option.some.inj ha]
    exact hu

theorem Entries.within (hP : Determines P) (hm : m.Entries P) (hs : Overlay.Entries P s) :
    Within s (m.overlay s) := by
  intro a w ha
  unfold DiffMap.overlay
  cases hlookup : m.lookup a with
  | none => exact ha
  | some w' =>
    obtain ⟨u, rfl, hu⟩ := hm a w' hlookup
    rw [hP a w u (hs a w ha) hu]
    rfl

end DiffMap

theorem view_mono (h : Within s s') (ms : List (DiffMap κ ν)) :
    Within (view s ms) (view s' ms) := by
  induction ms with
  | nil => exact h
  | cons m ms ih =>
    intro a w ha
    unfold view DiffMap.overlay at ha ⊢
    cases hlookup : m.lookup a with
    | none =>
      rw [hlookup] at ha
      exact ih a w ha
    | some w' =>
      rw [hlookup] at ha
      exact ha

theorem Entries.view (hs : Entries P s) {ms : List (DiffMap κ ν)} (hms : ∀ m ∈ ms, m.Entries P) :
    Entries P (Overlay.view s ms) := by
  induction ms with
  | nil => exact hs
  | cons m ms ih =>
    rw [List.forall_mem_cons] at hms
    exact hms.1.overlay (ih hms.2)

end Content

end Overlay
