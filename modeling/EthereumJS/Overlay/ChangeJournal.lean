import EthereumJS.Overlay.Store

/-! # Change journals

One journal of changes, newest first, that is undone change by change. An open checkpoint is the
length that the journal had when it was opened, so that the changes of a checkpoint that is
committed are those of the one below without being moved.
-/

namespace Overlay

variable {σ δ : Type*} (undo : δ → σ → σ)

def undoChanges (changes : List δ) (s : σ) : σ := changes.foldl (fun s d => undo d s) s

/-- The journal leads back from the state to each of the saved ones, where it was as long as the
index says. -/
def Unwinds : List σ → List ℕ → σ → List δ → Prop
  | [], indices, _, _ => indices = []
  | t :: saved, indices, s, journal => ∃ older top rest, indices = rest.length :: older ∧
      journal = top ++ rest ∧ undoChanges undo top s = t ∧ Unwinds saved older t rest

variable {undo} {saved : List σ} {indices : List ℕ} {s s' t : σ} {d : δ} {journal : List δ}
  {i : ℕ}

theorem Unwinds.record (h : Unwinds undo saved indices s journal) (hundo : undo d s' = s) :
    Unwinds undo saved indices s' (d :: journal) := by
  cases saved with
  | nil => exact h
  | cons t saved =>
    obtain ⟨older, top, rest, rfl, rfl, hback, hrest⟩ := h
    refine ⟨older, d :: top, rest, rfl, rfl, ?_, hrest⟩
    rw [undoChanges, List.foldl_cons, hundo]
    exact hback

theorem Unwinds.checkpoint (h : Unwinds undo saved indices s journal) :
    Unwinds undo (s :: saved) (journal.length :: indices) s journal :=
  ⟨indices, [], journal, rfl, rfl, rfl, h⟩

theorem Unwinds.commit (h : Unwinds undo (t :: saved) (i :: indices) s journal) :
    Unwinds undo saved indices s journal := by
  obtain ⟨older, top, rest, hindices, rfl, hback, hrest⟩ := h
  obtain ⟨-, rfl⟩ := List.cons.inj hindices
  cases saved with
  | nil => exact hrest
  | cons u saved =>
    obtain ⟨older', top', rest', rfl, rfl, hback', hrest'⟩ := hrest
    refine ⟨older', top ++ top', rest', rfl, (List.append_assoc _ _ _).symm, ?_, hrest'⟩
    rw [undoChanges] at hback hback' ⊢
    rw [List.foldl_append, hback, hback']

/-- The changes since the last checkpoint lead back to the state it saved. -/
theorem Unwinds.revert (h : Unwinds undo (t :: saved) (i :: indices) s journal) :
    undoChanges undo (journal.take (journal.length - i)) s = t ∧
      Unwinds undo saved indices t (journal.drop (journal.length - i)) := by
  obtain ⟨older, top, rest, hindices, rfl, hback, hrest⟩ := h
  obtain ⟨rfl, rfl⟩ := List.cons.inj hindices
  rw [List.length_append, Nat.add_sub_cancel, List.take_left, List.drop_left]
  exact ⟨hback, hrest⟩

theorem Unwinds.length_indices (h : Unwinds undo saved indices s journal) :
    indices.length = saved.length := by
  induction saved generalizing indices s journal with
  | nil =>
    subst h
    rfl
  | cons t saved ih =>
    obtain ⟨older, top, rest, rfl, -, -, hrest⟩ := h
    rw [List.length_cons, List.length_cons, ih hrest]

end Overlay
