import EthereumJS.Ordered.InsertionMap
import EthereumJS.Overlay.Store

/-! # Undo logs

A log of differences, newest first, that leads from the current state back to the states that
were saved. Each difference has the number of checkpoints that were open when it was begun. Where
the differences are kept level by level, each is the map of the values that the keys had before
their first change.
-/

namespace Overlay

section Log

variable {σ δ : Type*} (undo : δ → σ → σ)

def undoAll (entries : List (ℤ × δ)) (s : σ) : σ := entries.foldl (fun s e => undo e.2 s) s

/-- The log leads back from the state to the saved ones. The difference that comes first is the
one to which the next changes are added. -/
def Rewinds : List σ → σ → List (ℤ × δ) → Prop
  | [], _, entries => ∃ d rest, entries = (0, d) :: rest
  | t :: saved, s, entries => ∃ d top rest,
      entries = ((saved.length + 1 : ℤ), d) :: top ++ rest ∧
      (∀ e ∈ top, (saved.length : ℤ) < e.1) ∧
      undoAll undo top (undo d s) = t ∧ Rewinds saved t rest

variable {undo} {saved : List σ} {s s' t : σ} {d d' : δ} {entries rest : List (ℤ × δ)}

theorem Rewinds.head (h : Rewinds undo saved s entries) :
    ∃ d rest, entries = ((saved.length : ℤ), d) :: rest := by
  cases saved with
  | nil => exact h
  | cons t saved =>
    obtain ⟨d, top, rest, rfl, -⟩ := h
    exact ⟨d, top ++ rest, by simp⟩

/-- A change that is added to the first difference. -/
theorem Rewinds.record {height : ℤ} (h : Rewinds undo saved s ((height, d) :: rest))
    (hundo : undo d' s' = undo d s) : Rewinds undo saved s' ((height, d') :: rest) := by
  cases saved with
  | nil =>
    obtain ⟨d, rest, heq⟩ := h
    obtain ⟨hhead, rfl⟩ := List.cons.inj heq
    exact ⟨d', _, by rw [(Prod.mk.inj hhead).1]⟩
  | cons t saved =>
    obtain ⟨e, top, rest, heq, htop, hback, hrest⟩ := h
    obtain ⟨hhead, rfl⟩ := List.cons.inj heq
    obtain ⟨rfl, rfl⟩ := Prod.mk.inj hhead
    exact ⟨d', top, rest, rfl, htop, hundo ▸ hback, hrest⟩

theorem Rewinds.checkpoint (h : Rewinds undo saved s entries) (hundo : undo d s = s) :
    Rewinds undo (s :: saved) s (((saved.length + 1 : ℤ), d) :: entries) :=
  ⟨d, [], entries, rfl, fun _ he => absurd he List.not_mem_nil, hundo, h⟩

/-- The differences of the checkpoint that ends go to the one below. -/
theorem Rewinds.commit (h : Rewinds undo (t :: saved) s entries) (hundo : undo d s = s) :
    Rewinds undo saved s (((saved.length : ℤ), d) :: entries) := by
  obtain ⟨e, top, rest, rfl, htop, hback, hrest⟩ := h
  cases saved with
  | nil => exact ⟨d, _, rfl⟩
  | cons u saved =>
    obtain ⟨e', top', rest', rfl, htop', hback', hrest'⟩ := hrest
    refine ⟨d, ((saved.length + 1 + 1 : ℤ), e) :: top ++ ((saved.length + 1 : ℤ), e') :: top',
      rest', by simp, ?_, ?_, hrest'⟩
    · intro f hf
      simp only [List.cons_append, List.mem_cons, List.mem_append] at hf
      obtain rfl | hf | rfl | hf := hf
      · dsimp only
        omega
      · have := htop f hf
        rw [List.length_cons] at this
        omega
      · dsimp only
        omega
      · exact htop' f hf
    · rw [undoAll] at hback hback' ⊢
      rw [List.foldl_append, List.foldl_cons, List.foldl_cons, hundo, hback, hback']

/-- The differences since the last checkpoint lead back to the state it saved. -/
theorem Rewinds.revert (h : Rewinds undo (t :: saved) s entries) :
    ∃ top rest, entries = top ++ rest ∧ (∀ e ∈ top, (saved.length : ℤ) < e.1) ∧
      undoAll undo top s = t ∧ Rewinds undo saved t rest := by
  obtain ⟨d, top, rest, rfl, htop, hback, hrest⟩ := h
  refine ⟨_, rest, rfl, ?_, hback, hrest⟩
  intro e he
  obtain rfl | he := List.mem_cons.mp he
  · dsimp only
    omega
  · exact htop e he

end Log

section Restore

variable {κ ν : Type*}

/-- Earlier values of some keys, of which a key may have had none. -/
abbrev PreState (κ ν : Type*) := κ → Option (Option ν)

def restore (d : PreState κ ν) (s : κ → Option ν) : κ → Option ν := fun k => (d k).getD (s k)

/-- The value of a key before its first change. -/
def notePreState [DecidableEq κ] (d : PreState κ ν) (s : κ → Option ν) (k : κ) : PreState κ ν :=
  if (d k).isSome then d else Function.update d k (some (s k))

/-- Each map leads from the state of its level to that of the level below. -/
def LeadsBack : List (κ → Option ν) → (κ → Option ν) → List (PreState κ ν) → Prop
  | [], _, ds => ds = []
  | _ :: _, _, [] => False
  | t :: saved, s, d :: ds => restore d s = t ∧ LeadsBack saved t ds

variable {saved : List (κ → Option ν)} {s t u : κ → Option ν} {d e : PreState κ ν}
  {ds : List (PreState κ ν)}

theorem restore_notePreState [DecidableEq κ] (d : PreState κ ν) (s : κ → Option ν) (k : κ) (v : Option ν) :
    restore (notePreState d s k) (Function.update s k v) = restore d s := by
  funext a
  unfold restore notePreState
  rcases Classical.em (a = k) with rfl | hne
  · cases hd : d a with
    | none => simp
    | some old => simp [hd]
  · split <;> simp [hne]

theorem LeadsBack.change [DecidableEq κ] (h : LeadsBack (t :: saved) s (d :: ds)) (k : κ) (v : Option ν) :
    LeadsBack (t :: saved) (Function.update s k v) (notePreState d s k :: ds) :=
  ⟨(restore_notePreState d s k v).trans h.1, h.2⟩

theorem LeadsBack.checkpoint (h : LeadsBack saved s ds) :
    LeadsBack (s :: saved) s ((fun _ => none) :: ds) :=
  ⟨rfl, h⟩

/-- Of two levels that become one, the older values are kept. -/
theorem LeadsBack.commit (h : LeadsBack (t :: u :: saved) s (d :: e :: ds)) :
    LeadsBack (u :: saved) s ((fun k => (e k).or (d k)) :: ds) := by
  obtain ⟨rfl, rfl, hrest⟩ := h
  refine ⟨funext fun k => ?_, hrest⟩
  unfold restore
  cases hold : e k <;> simp [hold]

theorem LeadsBack.exists_cons (h : LeadsBack (t :: saved) s ds) : ∃ d rest, ds = d :: rest := by
  cases ds with
  | nil => exact h.elim
  | cons d rest => exact ⟨d, rest, rfl⟩

end Restore

section Entries

open EthereumJS.Ordered

variable {κ ν : Type} [DecidableEq κ]

theorem latestWrite_entries {entries : List (κ × ν)} (h : (entries.map Prod.fst).Nodup) (k : κ) :
    latestWrite entries k = lookupEntry k entries := by
  induction entries with
  | nil => rfl
  | cons entry entries ih =>
    obtain ⟨a, v⟩ := entry
    rw [List.map_cons, List.nodup_cons] at h
    rw [latestWrite, lookupEntry, ih h.2]
    split
    · rename_i hak
      rw [← hak, lookupEntry_eq_none h.1, Option.none_or]
    · rw [Option.or_none]

/-- The entries of a map that are written to a state restore it. -/
theorem writes_entries (m : InsertionMap κ (Option ν)) (s : κ → Option ν) :
    writes m.entries s = restore m.get s := by
  funext k
  rw [writes_apply, latestWrite_entries m.nodup]
  rfl

/-- The entries of one map are set in another one where that has no entry. -/
def setMissing (entries : List (κ × ν)) (m : InsertionMap κ ν) : InsertionMap κ ν :=
  entries.foldl (fun m entry => if (m.get entry.1).isSome then m else m.set entry.1 entry.2) m

theorem get_setMissing (entries : List (κ × ν)) (m : InsertionMap κ ν) (k : κ) :
    (setMissing entries m).get k = (m.get k).or (lookupEntry k entries) := by
  induction entries generalizing m with
  | nil => exact (Option.or_none).symm
  | cons entry entries ih =>
    obtain ⟨a, v⟩ := entry
    change (setMissing entries _).get k = _
    rw [ih, lookupEntry]
    dsimp only
    rcases Classical.em (a = k) with rfl | hne
    · cases hget : m.get a with
      | none => simp
      | some old => simp [hget]
    · rw [if_neg hne]
      split
      · rfl
      · rw [InsertionMap.get_set, if_neg (Ne.symm hne)]

end Entries

end Overlay
