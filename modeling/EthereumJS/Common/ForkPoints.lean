import Mathlib.Order.Bounds.Basic

/-! # Fork points

The rules by which a side of a connection judges the fork hash and the next fork point of the
other side, over any set of fork points and any hash for each of them.
-/

namespace ForkPoints

variable {Hash : Type} {points : Set Nat} {hash : Nat → Hash} {current head next p q : Nat}
  {remote : Hash}

/-- Whether the fork hash `remote` and the fork point `next` of the other side are compatible with
the local fork points, the point that is active and the head. -/
def Accepts (points : Set Nat) (hash : Nat → Hash) (current head : Nat) (remote : Hash)
    (next : Nat) : Prop :=
  (remote = hash current ∧ (next = 0 ∨ head < next)) ∨
    (∃ p ∈ points, p < current ∧ remote = hash p ∧ IsLeast { q | q ∈ points ∧ p < q } next) ∨
    ∃ p ∈ points, current < p ∧ remote = hash p

/-- The hashes of the points of a set and of the active one tell them apart. -/
def Distinct (known : Set Nat) (hash : Nat → Hash) : Prop :=
  ∀ p ∈ known, ∀ q ∈ known, hash p = hash q → p = q

variable {known : Set Nat} (hdistinct : Distinct known hash) (hsub : points ⊆ known)

include hdistinct hsub

theorem accepts_current (hcurrent : current ∈ known) :
    Accepts points hash current head (hash current) next ↔ next = 0 ∨ head < next := by
  constructor
  · rintro (⟨-, hnext⟩ | ⟨p, hp, hlt, hhash, -⟩ | ⟨p, hp, hlt, hhash⟩)
    · exact hnext
    · exact absurd (hdistinct current hcurrent p (hsub hp) hhash) hlt.ne'
    · exact absurd (hdistinct current hcurrent p (hsub hp) hhash) hlt.ne
  · intro hnext
    exact .inl ⟨rfl, hnext⟩

/-- A hash of an earlier point comes with the point behind it. -/
theorem accepts_earlier (hcurrent : current ∈ known) (hp : p ∈ known) (hlt : p < current) :
    Accepts points hash current head (hash p) next ↔
      p ∈ points ∧ IsLeast { q | q ∈ points ∧ p < q } next := by
  constructor
  · rintro (⟨hhash, -⟩ | ⟨q, hq, -, hhash, hleast⟩ | ⟨q, hq, hgt, hhash⟩)
    · exact absurd (hdistinct p hp current hcurrent hhash) hlt.ne
    · obtain rfl := hdistinct p hp q (hsub hq) hhash
      exact ⟨hq, hleast⟩
    · obtain rfl := hdistinct p hp q (hsub hq) hhash
      exact absurd hlt hgt.asymm
  · rintro ⟨hmem, hleast⟩
    exact .inr (.inl ⟨p, hmem, hlt, rfl, hleast⟩)

omit hdistinct hsub in
theorem accepts_later (hp : p ∈ points) (hlt : current < p) :
    Accepts points hash current head (hash p) next :=
  .inr (.inr ⟨p, hp, hlt, rfl⟩)

omit hdistinct in
theorem not_accepts_unknown (hcurrent : current ∈ known) (hremote : ∀ p ∈ known, remote ≠ hash p) :
    ¬ Accepts points hash current head remote next := by
  rintro (⟨hhash, -⟩ | ⟨p, hp, -, hhash, -⟩ | ⟨p, hp, -, hhash⟩)
  · exact hremote current hcurrent hhash
  · exact hremote p (hsub hp) hhash
  · exact hremote p (hsub hp) hhash

end ForkPoints
