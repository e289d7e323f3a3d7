import EthereumJS.Overlay.Frame

/-! # Computations that wait for answers

A computation that takes answers from a script and throws or goes on with each. When the script is
at its end the computation is pending. Some answers are bad: a computation accounts for them if it
throws exactly after taking one.
-/

namespace Overlay

inductive Stop (ε : Type)
  | pending
  | thrown (e : ε)

structure Script (σ A : Type) where
  state : σ
  answers : List A

abbrev Scripted (ε σ A α : Type) := EStateM (Stop ε) (Script σ A) α

variable {ε σ τ A α β : Type} {bad : A → Prop}

/-- What is thrown is caught. -/
def attempt (x : Scripted ε σ A α) : Scripted ε σ A (Except ε α) := fun s =>
  match x s with
  | .ok a s => .ok (.ok a) s
  | .error (.thrown e) s => .ok (.error e) s
  | .error .pending s => .error .pending s

def modifyState (f : σ → σ) : Scripted ε σ A Unit :=
  fun s => .ok () { s with state := f s.state }

def getState : Scripted ε σ A σ := fun s => .ok s.state s

/-- The number of answers that are left. -/
def countAnswers : Scripted ε σ A Nat := fun s => .ok s.answers.length s

def pending : Scripted ε σ A α := fun s => .error .pending s

/-- The computation has come to an end and has used all answers. -/
def Ends : EStateM.Result (Stop ε) (Script σ A) α → Prop
  | .ok _ s => s.answers = []
  | .error (.thrown _) s => s.answers = []
  | .error .pending _ => False

/-- After these answers the computation has thrown if and only if one of them is bad. -/
def Blames (bad : A → Prop) (used : List A) : EStateM.Result (Stop ε) (Script σ A) α → Prop
  | .ok _ _ => ∀ a ∈ used, ¬ bad a
  | .error (.thrown _) _ => ∃ a ∈ used, bad a
  | .error .pending _ => True

/-- A computation that throws if and only if one of the answers it takes is bad, and leaves a part
of the state as it is. -/
def Accounts (bad : A → Prop) (part : σ → τ) (x : Scripted ε σ A α) : Prop :=
  ∀ s, ∃ used, s.answers = used ++ (endState (x s)).answers ∧ Blames bad used (x s) ∧
    part (endState (x s)).state = part s.state

/-- A computation that takes no bad answers and leaves a part of the state as it is. -/
def TakesNoBad (bad : A → Prop) (part : σ → τ) (x : Scripted ε σ A α) : Prop :=
  ∀ s, ∃ used, s.answers = used ++ (endState (x s)).answers ∧ (∀ a ∈ used, ¬ bad a) ∧
    part (endState (x s)).state = part s.state

section Accounts

variable {part : σ → τ}

theorem accounts_pure (a : α) : Accounts bad part (pure a : Scripted ε σ A α) :=
  fun _ => ⟨[], rfl, fun _ h => absurd h List.not_mem_nil, rfl⟩

theorem accounts_modifyState {f : σ → σ} (hf : ∀ s, part (f s) = part s) :
    Accounts bad part (modifyState f : Scripted ε σ A Unit) :=
  fun s => ⟨[], rfl, fun _ h => absurd h List.not_mem_nil, hf s.state⟩

theorem accounts_getState : Accounts bad part (getState : Scripted ε σ A σ) :=
  fun _ => ⟨[], rfl, fun _ h => absurd h List.not_mem_nil, rfl⟩

theorem accounts_countAnswers : Accounts bad part (countAnswers : Scripted ε σ A Nat) :=
  fun _ => ⟨[], rfl, fun _ h => absurd h List.not_mem_nil, rfl⟩

theorem accounts_pending : Accounts bad part (pending : Scripted ε σ A α) :=
  fun _ => ⟨[], rfl, trivial, rfl⟩

theorem Accounts.bind {x : Scripted ε σ A α} {f : α → Scripted ε σ A β}
    (hx : Accounts bad part x) (hf : ∀ a, Accounts bad part (f a)) :
    Accounts bad part (x >>= f) := by
  intro s
  obtain ⟨used, hused, hclean, hkept⟩ := hx s
  cases hres : x s with
  | error stop mid =>
    rw [hres] at hused hclean hkept
    rw [bind_of_error hres]
    refine ⟨used, hused, ?_, hkept⟩
    cases stop with
    | pending => trivial
    | thrown e => exact hclean
  | ok a mid =>
    rw [hres] at hused hclean hkept
    obtain ⟨more, hmore, hrest, hkeptRest⟩ := hf a mid
    rw [bind_of_ok hres]
    refine ⟨used ++ more, ?_, ?_, hkeptRest.trans hkept⟩
    · rw [List.append_assoc, ← hmore]
      exact hused
    · cases hend : f a mid with
      | ok b s' =>
        rw [hend] at hrest
        intro answer hanswer
        obtain h | h := List.mem_append.mp hanswer
        · exact hclean answer h
        · exact hrest answer h
      | error stop s' =>
        rw [hend] at hrest
        cases stop with
        | pending => trivial
        | thrown e =>
          obtain ⟨answer, hanswer, hbad⟩ := hrest
          exact ⟨answer, List.mem_append_right _ hanswer, hbad⟩

theorem Accounts.ite {c : Prop} [Decidable c] {x y : Scripted ε σ A α}
    (hx : Accounts bad part x) (hy : Accounts bad part y) :
    Accounts bad part (if c then x else y) := by
  split
  · exact hx
  · exact hy

theorem TakesNoBad.attempt {x : Scripted ε σ A α} (hx : TakesNoBad bad part x) :
    Accounts bad part (attempt x) := by
  intro s
  obtain ⟨used, hused, hgood, hkept⟩ := hx s
  unfold Overlay.attempt
  cases hres : x s with
  | ok a s' =>
    rw [hres] at hused hkept
    exact ⟨used, hused, hgood, hkept⟩
  | error stop s' =>
    rw [hres] at hused hkept
    cases stop with
    | pending => exact ⟨used, hused, trivial, hkept⟩
    | thrown e => exact ⟨used, hused, hgood, hkept⟩

/-- Of a computation that has come to an end, whether it threw is known from the script. -/
theorem Accounts.ends {x : Scripted ε σ A α} (hx : Accounts bad part x) {s : Script σ A}
    (hends : Ends (x s)) :
    (∃ a s', x s = .ok a s' ∧ part s'.state = part s.state ∧
      ∀ answer ∈ s.answers, ¬ bad answer) ∨
    ∃ e s', x s = .error (.thrown e) s' ∧ part s'.state = part s.state ∧
      ∃ answer ∈ s.answers, bad answer := by
  obtain ⟨used, hused, hclean, hkept⟩ := hx s
  cases hres : x s with
  | ok a s' =>
    rw [hres] at hused hclean hends hkept
    rw [endState_ok, hends, List.append_nil] at hused
    exact .inl ⟨a, s', rfl, hkept, hused ▸ hclean⟩
  | error stop s' =>
    rw [hres] at hused hclean hends hkept
    cases stop with
    | pending => exact hends.elim
    | thrown e =>
      rw [endState_error, hends, List.append_nil] at hused
      exact .inr ⟨e, s', rfl, hkept, hused ▸ hclean⟩

end Accounts

end Overlay
