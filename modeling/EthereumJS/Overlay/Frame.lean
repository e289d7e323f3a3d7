import Mathlib.Logic.Basic

/-! # Computations that keep a part of the state

Steps of a stateful computation that may throw, and the rules by which a computation leaves
a part of the state as it is, whether it returns or throws.
-/

namespace Overlay

variable {ε σ τ α β : Type} {part : σ → τ}

section Bind

variable {x : EStateM ε σ α} {f : α → EStateM ε σ β} {s mid : σ}

theorem bind_of_ok {a : α} (h : x s = .ok a mid) : (x >>= f) s = f a mid := by
  change EStateM.bind x f s = _
  unfold EStateM.bind
  rw [h]

theorem bind_of_error {e : ε} (h : x s = .error e mid) : (x >>= f) s = .error e mid := by
  change EStateM.bind x f s = _
  unfold EStateM.bind
  rw [h]

theorem get_bind (f : σ → EStateM ε σ β) (s : σ) : (get >>= f) s = f s s := rfl

theorem modify_bind (g : σ → σ) (f : PUnit → EStateM ε σ β) (s : σ) :
    (modify g >>= f) s = f () (g s) := rfl

/-- A computation that returns has returned at each step. -/
theorem bind_returns {b : β} (h : (x >>= f) s = .ok b mid) :
    ∃ a before, x s = .ok a before ∧ f a before = .ok b mid := by
  cases hx : x s with
  | error e before =>
    rw [bind_of_error hx] at h
    cases h
  | ok a before =>
    rw [bind_of_ok hx] at h
    exact ⟨a, before, rfl, h⟩

end Bind

/-- The state that a computation leaves. -/
def endState : EStateM.Result ε σ α → σ
  | .ok _ s => s
  | .error _ s => s

@[simp] theorem endState_ok (a : α) (s : σ) : endState (.ok a s : EStateM.Result ε σ α) = s := rfl

@[simp] theorem endState_error (e : ε) (s : σ) :
    endState (.error e s : EStateM.Result ε σ α) = s := rfl

/-- A computation that leaves a part of the state as it is. -/
def Keeps (part : σ → τ) (x : EStateM ε σ α) : Prop := ∀ s, part (endState (x s)) = part s

theorem Keeps.of_ok {x : EStateM ε σ α} (hx : Keeps part x) {s s' : σ} {a : α}
    (h : x s = .ok a s') : part s' = part s := by
  rw [← hx s, h]
  rfl

theorem Keeps.of_error {x : EStateM ε σ α} (hx : Keeps part x) {s s' : σ} {e : ε}
    (h : x s = .error e s') : part s' = part s := by
  rw [← hx s, h]
  rfl

theorem keeps_pure (a : α) : Keeps part (pure a : EStateM ε σ α) := fun _ => rfl

theorem keeps_throw (e : ε) : Keeps part (throw e : EStateM ε σ α) := fun _ => rfl

theorem keeps_get : Keeps part (get : EStateM ε σ σ) := fun _ => rfl

theorem keeps_modify {g : σ → σ} (h : ∀ s, part (g s) = part s) :
    Keeps part (modify g : EStateM ε σ PUnit) := h

theorem Keeps.bind {x : EStateM ε σ α} {f : α → EStateM ε σ β} (hx : Keeps part x)
    (hf : ∀ a, Keeps part (f a)) : Keeps part (x >>= f) := by
  intro s
  cases h : x s with
  | ok a mid => rw [bind_of_ok h, hf a mid, hx.of_ok h]
  | error e mid => rw [bind_of_error h, endState_error, hx.of_error h]

theorem Keeps.ite {c : Prop} [Decidable c] {x y : EStateM ε σ α} (hx : Keeps part x)
    (hy : Keeps part y) : Keeps part (if c then x else y) := by
  split
  · exact hx
  · exact hy

/-- A computation that leaves an invariant of the state true. -/
def Preserves (P : σ → Prop) (x : EStateM ε σ α) : Prop := ∀ s, P s → P (endState (x s))

section Preserves

variable {P : σ → Prop}

theorem Keeps.preserves {x : EStateM ε σ α} (hx : Keeps part x) {Q : τ → Prop} :
    Preserves (fun s => Q (part s)) x := by
  intro s hs
  rw [hx s]
  exact hs

theorem preserves_pure (a : α) : Preserves P (pure a : EStateM ε σ α) := fun _ hs => hs

theorem preserves_throw (e : ε) : Preserves P (throw e : EStateM ε σ α) := fun _ hs => hs

theorem preserves_get : Preserves P (get : EStateM ε σ σ) := fun _ hs => hs

theorem preserves_modify {g : σ → σ} (h : ∀ s, P s → P (g s)) :
    Preserves P (modify g : EStateM ε σ PUnit) := h

theorem Preserves.bind {x : EStateM ε σ α} {f : α → EStateM ε σ β} (hx : Preserves P x)
    (hf : ∀ a, Preserves P (f a)) : Preserves P (x >>= f) := by
  intro s hs
  have hmid := hx s hs
  cases h : x s with
  | ok a mid =>
    rw [h] at hmid
    rw [bind_of_ok h]
    exact hf a mid hmid
  | error e mid =>
    rw [h] at hmid
    rw [bind_of_error h]
    exact hmid

theorem Preserves.ite {c : Prop} [Decidable c] {x y : EStateM ε σ α} (hx : Preserves P x)
    (hy : Preserves P y) : Preserves P (if c then x else y) := by
  split
  · exact hx
  · exact hy

end Preserves

end Overlay
