import EthereumJS.Patricia.Shape

/-! # Keys in order

The keys of a tree over an ordered alphabet, compared along the walk of a key. In a
canonical tree the subtrees right of the walk hold all keys that are greater, except
for the leaf where the walk may end.
-/

namespace Patricia

open Patricia.Tree

variable {α β : Type*} [LinearOrder α]

theorem append_lt_append_iff (p x y : List α) : p ++ x < p ++ y ↔ x < y := by
  induction p with
  | nil => rfl
  | cons a p ih => simp [ih]

theorem append_le_append_iff (p x y : List α) : p ++ x ≤ p ++ y ↔ x ≤ y := by
  rw [← not_lt, ← not_lt, append_lt_append_iff]

/-- A smaller list that is no prefix is smaller whatever follows it. -/
theorem append_lt_of_lt {p k : List α} (h : p < k) (hno : stripPrefix p k = none) (r : List α) :
    p ++ r < k := by
  induction p generalizing k with
  | nil => simp at hno
  | cons a p ih =>
    cases k with
    | nil => exact absurd h (List.not_lt_nil _)
    | cons b k =>
      rw [List.cons_append, List.cons_lt_cons_iff]
      rcases List.cons_lt_cons_iff.mp h with hab | ⟨rfl, hpk⟩
      · exact Or.inl hab
      · right
        refine ⟨rfl, ih hpk ?_⟩
        simpa [stripPrefix] using hno

namespace Tree

/-- The walk along a key has something on its right: a slot of a branch, or an extension
that turns off to the right. -/
def HasRight : Tree α β → List α → Prop
  | nil, _ => False
  | leaf _ _, _ => False
  | ext p c, k =>
    match stripPrefix p k with
    | some r => c.HasRight r
    | none => k < p
  | branch _ _, [] => False
  | branch c _, a :: k => (∃ b, a < b ∧ c b ≠ nil) ∨ (c a).HasRight k

/-- The key of the leaf at which the walk along a key ends, if it ends at one. -/
def leafKey : Tree α β → List α → Option (List α)
  | nil, _ => none
  | leaf p _, _ => some p
  | ext p c, k =>
    match stripPrefix p k with
    | some r => (c.leafKey r).map (p ++ ·)
    | none => none
  | branch _ _, [] => none
  | branch c _, a :: k => ((c a).leafKey k).map (a :: ·)

@[simp] theorem hasRight_nil (k : List α) : ¬ (nil : Tree α β).HasRight k := by
  cases k <;> exact id

@[simp] theorem hasRight_leaf (p : List α) (v : β) (k : List α) : ¬ (leaf p v).HasRight k := by
  cases k <;> exact id

@[simp] theorem leafKey_nil (k : List α) : (nil : Tree α β).leafKey k = none := by
  cases k <;> rfl

@[simp] theorem leafKey_leaf (p : List α) (v : β) (k : List α) :
    (leaf p v).leafKey k = some p := by
  cases k <;> rfl

theorem hasRight_ext_of_some {p k r : List α} (c : Tree α β) (h : stripPrefix p k = some r) :
    (ext p c).HasRight k ↔ c.HasRight r := by
  rw [HasRight, h]

theorem hasRight_ext_of_none {p k : List α} (c : Tree α β) (h : stripPrefix p k = none) :
    (ext p c).HasRight k ↔ k < p := by
  rw [HasRight, h]

theorem leafKey_ext (p : List α) (c : Tree α β) (k : List α) :
    (ext p c).leafKey k = (stripPrefix p k).bind fun r => (c.leafKey r).map (p ++ ·) := by
  rw [leafKey]
  cases stripPrefix p k <;> rfl

/-- Without anything on the right of the walk, every key is smaller than the key of the
walk, or no greater than the leaf where the walk ends. -/
theorem Canon.lt_or_le_leafKey {n : Nat} {t : Tree α β} (ht : t.Canon n) {k m : List α} {v : β}
    (hk : k.length = n) (hright : ¬ t.HasRight k) (hm : t.lookup m = some v) :
    m < k ∨ ∃ l, t.leafKey k = some l ∧ m ≤ l := by
  induction t generalizing n k m with
  | nil => exact absurd ht id
  | leaf p w =>
    right
    rw [lookup_leaf] at hm
    split at hm
    · rename_i hmp
      exact ⟨p, leafKey_leaf p w k, le_of_eq hmp⟩
    · cases hm
  | ext p c ih =>
    obtain ⟨_, _, j, hj, hc⟩ := ht
    obtain ⟨m', rfl, hm'⟩ := ext_lookup_prefix hm
    cases hstrip : stripPrefix p k with
    | none =>
      left
      rw [hasRight_ext_of_none c hstrip, not_lt] at hright
      refine append_lt_of_lt (lt_of_le_of_ne hright ?_) hstrip m'
      rintro rfl
      simpa using stripPrefix_eq_none.mp hstrip []
    | some r =>
      obtain rfl := stripPrefix_eq_some.mp hstrip
      rw [hasRight_ext_of_some c hstrip] at hright
      have hr : r.length = j := by
        rw [List.length_append] at hk
        omega
      rcases ih hc hr hright hm' with hlt | ⟨l, hl, hle⟩
      · exact Or.inl ((append_lt_append_iff p m' r).mpr hlt)
      · refine Or.inr ⟨p ++ l, ?_, (append_le_append_iff p m' l).mpr hle⟩
        rw [leafKey_ext, hstrip, Option.bind_some, hl]
        rfl
  | branch c w ih =>
    obtain ⟨hw, ⟨j, hj, hc⟩, _⟩ := ht
    cases k with
    | nil =>
      rw [List.length_nil] at hk
      omega
    | cons a k =>
      cases m with
      | nil =>
        rw [lookup_branch_nil, hw] at hm
        cases hm
      | cons b m =>
        rw [lookup_branch_cons] at hm
        rw [HasRight, not_or] at hright
        have hcb : c b ≠ nil := by
          intro hnil
          rw [hnil, lookup_nil] at hm
          cases hm
        have hba : b ≤ a := not_lt.mp fun hab => hright.1 ⟨b, hab, hcb⟩
        rcases lt_or_eq_of_le hba with hlt | rfl
        · exact Or.inl (List.cons_lt_cons_iff.mpr (Or.inl hlt))
        · have hlen : k.length = j := by
            rw [List.length_cons] at hk
            omega
          rcases ih b ((hc b).resolve_left hcb) hlen hright.2 hm with hlt | ⟨l, hl, hle⟩
          · exact Or.inl (List.cons_lt_cons_iff.mpr (Or.inr ⟨rfl, hlt⟩))
          · refine Or.inr ⟨b :: l, ?_, ?_⟩
            · rw [leafKey, hl]
              rfl
            · exact (append_le_append_iff [b] m l).mpr hle

theorem lookup_leafKey {t : Tree α β} {k l : List α} (h : t.leafKey k = some l) :
    ∃ v, t.lookup l = some v := by
  induction t generalizing k l with
  | nil => simp at h
  | leaf p w =>
    obtain rfl : p = l := by simpa using h
    exact ⟨w, by simp⟩
  | ext p c ih =>
    rw [leafKey_ext] at h
    obtain ⟨r, _, hr⟩ := Option.bind_eq_some_iff.mp h
    obtain ⟨l', hl', rfl⟩ := Option.map_eq_some_iff.mp hr
    simpa using ih hl'
  | branch c w ih =>
    cases k with
    | nil => cases h
    | cons a k =>
      obtain ⟨l', hl', rfl⟩ := Option.map_eq_some_iff.mp h
      exact ih a hl'

/-- A walk that ends at a leaf finds no other key than that of the leaf. -/
theorem eq_leafKey_of_lookup {t : Tree α β} {k l : List α} {v : β} (h : t.leafKey k = some l)
    (hk : t.lookup k = some v) : k = l := by
  induction t generalizing k l with
  | nil => simp at h
  | leaf p w =>
    obtain rfl : p = l := by simpa using h
    rw [lookup_leaf] at hk
    split at hk
    · assumption
    · cases hk
  | ext p c ih =>
    rw [leafKey_ext] at h
    obtain ⟨r, hstrip, hr⟩ := Option.bind_eq_some_iff.mp h
    obtain ⟨l', hl', rfl⟩ := Option.map_eq_some_iff.mp hr
    obtain rfl := stripPrefix_eq_some.mp hstrip
    rw [lookup_ext_append] at hk
    rw [ih hl' hk]
  | branch c w ih =>
    cases k with
    | nil => cases h
    | cons a k =>
      obtain ⟨l', hl', rfl⟩ := Option.map_eq_some_iff.mp h
      rw [ih a hl' hk]

/-- What lies right of a walk that ends at a leaf is greater than the leaf. -/
theorem Canon.exists_gt_leafKey {n : Nat} {t : Tree α β} (ht : t.Canon n) {k l : List α}
    (h : t.leafKey k = some l) (hright : t.HasRight k) : ∃ m v, t.lookup m = some v ∧ l < m := by
  induction t generalizing n k l with
  | nil => simp at h
  | leaf p w => simp at hright
  | ext p c ih =>
    obtain ⟨_, _, j, _, hc⟩ := ht
    rw [leafKey_ext] at h
    obtain ⟨r, hstrip, hr⟩ := Option.bind_eq_some_iff.mp h
    obtain ⟨l', hl', rfl⟩ := Option.map_eq_some_iff.mp hr
    rw [hasRight_ext_of_some c hstrip] at hright
    obtain ⟨m, v, hm, hlt⟩ := ih hc hl' hright
    exact ⟨p ++ m, v, by rw [lookup_ext_append, hm], (append_lt_append_iff p l' m).mpr hlt⟩
  | branch c w ih =>
    obtain ⟨_, ⟨j, _, hc⟩, _⟩ := ht
    cases k with
    | nil => cases h
    | cons a k =>
      obtain ⟨l', hl', rfl⟩ := Option.map_eq_some_iff.mp h
      rcases hright with ⟨b, hab, hcb⟩ | hright
      · obtain ⟨m, v, hm⟩ := ((hc b).resolve_left hcb).exists_lookup
        exact ⟨b :: m, v, hm, List.cons_lt_cons_iff.mpr (Or.inl hab)⟩
      · have hca : c a ≠ nil := by
          intro hnil
          simp [hnil] at hl'
        obtain ⟨m, v, hm, hlt⟩ := ih a ((hc a).resolve_left hca) hl' hright
        exact ⟨a :: m, v, hm, List.cons_lt_cons_iff.mpr (Or.inr ⟨rfl, hlt⟩)⟩

end Tree

end Patricia
