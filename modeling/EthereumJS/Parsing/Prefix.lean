import Mathlib.Data.List.Forall2

/-! # Parsers of prefixes

A parser reads on from a position of its input. A grammar says for each value from which items it
is read, and a parser of the grammar succeeds just where such items stand.
-/

namespace Parsing

structure Input (τ : Type) where
  data : List τ
  ptr : ℕ

variable {τ ε α β : Type}

abbrev Parser (τ ε : Type) := StateT (Input τ) (Except ε)

/-- The parser reads what the grammar allows, and nothing more. -/
def Parses (p : Parser τ ε α) (G : α → List τ → Prop) : Prop :=
  ∀ s x s', s.ptr ≤ s.data.length → (p s = .ok (x, s') ↔
    ∃ items, G x items ∧ items <+: s.data.drop s.ptr ∧ s' = ⟨s.data, s.ptr + items.length⟩)

section Combinators

variable {p : Parser τ ε α} {G G' : α → List τ → Prop}

theorem Parses.congr (h : Parses p G) (hG : ∀ x items, G x items ↔ G' x items) : Parses p G' := by
  intro s x s' hs
  simp only [h s x s' hs, hG]

theorem parses_pure (x : α) :
    Parses (pure x : Parser τ ε α) fun y items => y = x ∧ items = [] := by
  intro s y s' hs
  constructor
  · intro h
    obtain ⟨rfl, rfl⟩ := Prod.mk.inj (Except.ok.inj h)
    exact ⟨[], ⟨rfl, rfl⟩, List.nil_prefix, rfl⟩
  · rintro ⟨items, ⟨rfl, rfl⟩, -, rfl⟩
    rfl

theorem parses_throw (e : ε) : Parses (throw e : Parser τ ε α) fun _ _ => False := by
  intro s x s' hs
  constructor
  · intro h
    cases h
  · rintro ⟨items, h, -⟩
    exact h.elim

theorem prefix_append_iff {xs ys l : List τ} :
    xs ++ ys <+: l ↔ xs <+: l ∧ ys <+: l.drop xs.length := by
  constructor
  · rintro ⟨rest, rfl⟩
    rw [List.append_assoc, List.drop_left]
    exact ⟨List.prefix_append _ _, List.prefix_append _ _⟩
  · rintro ⟨⟨rest, rfl⟩, hys⟩
    rw [List.drop_left] at hys
    exact (List.prefix_append_right_inj xs).mpr hys

/-- Where one parser reads on behind another one. -/
theorem Parses.bind {q : α → Parser τ ε β} {F : α → β → List τ → Prop} (hp : Parses p G)
    (hq : ∀ x, Parses (q x) (F x)) :
    Parses (p >>= q) fun y items =>
      ∃ x first rest, G x first ∧ F x y rest ∧ items = first ++ rest := by
  intro s y s' hs
  have hbind : (p >>= q) s = .ok (y, s') ↔ ∃ x t, p s = .ok (x, t) ∧ q x t = .ok (y, s') := by
    change ((p s).bind fun r => q r.1 r.2) = _ ↔ _
    cases hps : p s with
    | error e => simp [Except.bind]
    | ok r => simp [Except.bind, Prod.ext_iff]
  rw [hbind]
  constructor
  · rintro ⟨x, t, hfirst, hrest⟩
    obtain ⟨first, hG, hstart, rfl⟩ := (hp s x t hs).mp hfirst
    have hle : s.ptr + first.length ≤ s.data.length := by
      have hlen := hstart.length_le
      rw [List.length_drop] at hlen
      omega
    obtain ⟨rest, hF, hstart', rfl⟩ := (hq x _ y s' hle).mp hrest
    refine ⟨first ++ rest, ⟨x, first, rest, hG, hF, rfl⟩, ?_, ?_⟩
    · rw [prefix_append_iff, List.drop_drop]
      exact ⟨hstart, hstart'⟩
    · rw [List.length_append, ← Nat.add_assoc]
  · rintro ⟨items, ⟨x, first, rest, hG, hF, rfl⟩, hstart, rfl⟩
    rw [prefix_append_iff, List.drop_drop] at hstart
    have hle : s.ptr + first.length ≤ s.data.length := by
      have hlen := hstart.1.length_le
      rw [List.length_drop] at hlen
      omega
    refine ⟨x, _, (hp s x _ hs).mpr ⟨first, hG, hstart.1, rfl⟩, ?_⟩
    refine (hq x _ y _ hle).mpr ⟨rest, hF, hstart.2, ?_⟩
    rw [List.length_append, ← Nat.add_assoc]

theorem Parses.ite {c : Prop} [Decidable c] {q : Parser τ ε α} {F : α → List τ → Prop}
    (hp : c → Parses p G) (hq : ¬ c → Parses q F) :
    Parses (if c then p else q) fun x items => (c ∧ G x items) ∨ (¬ c ∧ F x items) := by
  intro s x s' hs
  split
  · rename_i hc
    simp only [hp hc s x s' hs, hc, true_and, not_true, false_and, or_false]
  · rename_i hc
    simp only [hq hc s x s' hs, hc, false_and, not_false_iff, true_and, false_or]

/-- A check that reads nothing. -/
theorem parses_check {c : Prop} [Decidable c] (e : ε) :
    Parses (if c then throw e else pure PUnit.unit : Parser τ ε PUnit) fun _ items =>
      ¬ c ∧ items = [] :=
  (Parses.ite (fun _ => parses_throw e) fun _ => parses_pure PUnit.unit).congr fun _ _ => by simp

/-- The parser fails with another error. -/
def orThrow (p : Parser τ ε α) (e : ε) : Parser τ ε α := fun s =>
  match p s with
  | .ok result => .ok result
  | .error _ => .error e

theorem Parses.orThrow (h : Parses p G) (e : ε) : Parses (orThrow p e) G := by
  intro s x s' hs
  rw [← h s x s' hs, Parsing.orThrow]
  cases p s <;> simp

/-- Values that are read one after the other. -/
inductive Sequence (F : β → α → List τ → Prop) : List β → List α → List τ → Prop
  | nil : Sequence F [] [] []
  | cons {x xs y ys items rest} : F x y items → Sequence F xs ys rest →
      Sequence F (x :: xs) (y :: ys) (items ++ rest)

theorem Parses.mapM {q : β → Parser τ ε α} {F : β → α → List τ → Prop}
    (h : ∀ x, Parses (q x) (F x)) (xs : List β) : Parses (xs.mapM q) (Sequence F xs) := by
  induction xs with
  | nil =>
    refine (parses_pure []).congr fun ys items => ⟨?_, ?_⟩
    · rintro ⟨rfl, rfl⟩
      exact .nil
    · rintro ⟨⟩
      exact ⟨rfl, rfl⟩
  | cons x xs ih =>
    rw [List.mapM_cons]
    refine ((h x).bind fun y => ih.bind fun ys => parses_pure (y :: ys)).congr fun zs items => ?_
    constructor
    · rintro ⟨y, first, rest, hF, ⟨ys, second, third, hxs, ⟨rfl, rfl⟩, rfl⟩, rfl⟩
      rw [List.append_nil]
      exact .cons hF hxs
    · rintro ⟨⟩
      rename_i y ys first rest hF hxs
      exact ⟨y, first, rest, hF, ⟨ys, rest, [], hxs, ⟨rfl, rfl⟩, (List.append_nil _).symm⟩, rfl⟩

/-- Values that are read from their encodings. -/
theorem sequence_iff {P : β → α → Prop} {enc : α → List τ} {xs : List β} {ys : List α}
    {items : List τ} :
    Sequence (fun x y items => P x y ∧ items = enc y) xs ys items ↔
      List.Forall₂ P xs ys ∧ items = ys.flatMap enc := by
  constructor
  · intro h
    induction h with
    | nil => exact ⟨.nil, rfl⟩
    | cons hF _ ih => exact ⟨.cons hF.1 ih.1, by rw [hF.2, ih.2, List.flatMap_cons]⟩
  · rintro ⟨h, rfl⟩
    induction h with
    | nil => exact .nil
    | cons hP _ ih => exact .cons ⟨hP, rfl⟩ ih

end Combinators

end Parsing
