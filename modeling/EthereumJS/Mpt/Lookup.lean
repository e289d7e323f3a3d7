import EthereumJS.Mpt.Run

/-! # What a removal leaves of the map

Where a removal drops no value of another key and keeps none of the removed key, it
is the update of the lookups at that key. For keys of one length this is always so,
and the tree stays canonical.
-/

namespace EthereumJS

open RLP Patricia Patricia.Tree

/-- The removal at a site keeps the values of the other keys and no value of its own.
The value of a branch is only given up in a merge, and the root takes all below it. -/
def SafeSite (site : Site Nibble Value) : Prop :=
  match site.focus, remnant site with
  | leaf _ _, some r => r.value = none ∨ ∀ a, ¬ Only r.children a
  | branch _ _, some r => r.value = none ∨ ∃ a, Only r.children a
  | branch c _, none => ∀ a, c a = nil
  | _, _ => True

theorem lookup_of_not_found {t : MPTree} {k : Nibbles} (h : ¬ found (descend t k []) = true) :
    t.lookup k = none := by
  have hstuck := descend_stuck t k []
  rw [lookup_descend]
  generalize descend t k [] = site at h hstuck ⊢
  obtain ⟨ctx, focus, rest⟩ := site
  cases focus with
  | nil => simp
  | leaf p w => simpa [found] using h
  | ext p c => exact lookup_ext_of_none c hstuck
  | branch c w => simp [found] at h

/-- Changing the lookups of a focus at one key changes those of the tree at one key. -/
theorem lookup_plug_remove {ctx : List (Frame Nibble Value)} {s s' : MPTree} {r : Nibbles}
    (h : ∀ k, s'.lookup k = if k = r then none else s.lookup k) (k : Nibbles) :
    (plug ctx s').lookup k = if k = ctxPath ctx ++ r then none else (plug ctx s).lookup k := by
  rw [lookup_plug ctx s s']
  cases hk : stripPrefix (ctxPath ctx) k with
  | none =>
    have hne : k ≠ ctxPath ctx ++ r := stripPrefix_eq_none.mp hk r
    rw [if_neg hne]
  | some x =>
    rw [stripPrefix_eq_some.mp hk, lookup_plug_append]
    simp only [List.append_cancel_left_eq]
    exact h x

theorem lookup_shrink {ctx : List (Frame Nibble Value)} {c : Nibble → MPTree} {w : Option Value}
    (h : w = none ∨ ∀ a, ¬ Only c a) (k : Nibbles) :
    (shrink ctx c w).lookup k = (plug ctx (branch c w)).lookup k := by
  by_cases honly : ∃ a, Only c a
  · obtain ⟨a, ha⟩ := honly
    have hw : w = none := h.resolve_right fun hno => hno a ha
    rw [shrink_of_only ha, lookup_graft ha, hw]
  · rw [shrink_of_not_only (by simpa using honly)]

theorem lookup_shrink_value {ctx : List (Frame Nibble Value)} {c : Nibble → MPTree}
    {w : Option Value} (h : w = none ∨ ∃ a, Only c a) (k : Nibbles) :
    (shrink ctx c w).lookup k = (plug ctx (branch c none)).lookup k := by
  by_cases honly : ∃ a, Only c a
  · obtain ⟨a, ha⟩ := honly
    rw [shrink_of_only ha, lookup_graft ha]
  · rw [shrink_of_not_only (by simpa using honly), h.resolve_right honly]

/-- A removal at a safe site is an update of the lookup function at one key. -/
theorem lookup_delete {t : MPTree} (hwf : t.WF) {k : Nibbles}
    (hsafe : found (descend t k []) = true → SafeSite (descend t k [])) (k' : Nibbles) :
    (delete t k).lookup k' = if k' = k then none else t.lookup k' := by
  by_cases hfound : found (descend t k []) = true
  swap
  · rw [delete, deleteAt, if_neg hfound]
    by_cases hk : k' = k
    · rw [if_pos hk, hk, lookup_of_not_found hfound]
    · rw [if_neg hk]
  have hsite := hsafe hfound
  have hplug := plug_descend t k []
  have hpath := ctxPath_descend t k []
  have hstuck := descend_stuck t k []
  rw [delete, deleteAt, if_pos hfound]
  clear hsafe
  generalize descend t k [] = site at hplug hpath hstuck hfound hsite ⊢
  obtain ⟨ctx, focus, rest⟩ := site
  rw [plug_nil] at hplug
  rw [ctxPath_nil, List.nil_append] at hpath
  simp only at hplug hpath
  subst hplug hpath
  cases focus with
  | nil => cases hfound
  | ext p c => cases hfound
  | branch c w =>
    obtain rfl : rest = [] := hstuck
    have hclear : ∀ x, (branch c none).lookup x =
        if x = [] then none else (branch c w).lookup x := by
      intro x
      cases x <;> simp
    cases ctx with
    | nil =>
      have hnil : ∀ a, c a = nil := hsite
      simp only [remnant, lookup_nil]
      cases k' with
      | nil => rfl
      | cons a k' => simp [hnil]
    | cons f ctx =>
      rw [← lookup_plug_remove hclear]
      exact lookup_shrink_value hsite k'
  | leaf p w =>
    obtain rfl : rest = p := by simpa [found] using hfound
    cases ctx with
    | nil =>
      simp only [remnant, lookup_nil, plug_nil, ctxPath_nil, List.nil_append, lookup_leaf]
      split <;> rfl
    | cons f ctx =>
      cases f with
      | ext p => exact absurd (((wf_plug _ _).mp hwf).2.2 trivial) id
      | branch c a v =>
        have hclear : ∀ x, (branch (Function.update c a nil) v).lookup x =
            if x = a :: rest then none
            else (branch (Function.update c a (leaf rest w)) v).lookup x := by
          intro x
          cases x with
          | nil => simp
          | cons b x =>
            by_cases hb : b = a
            · subst hb
              simp
            · simp [hb]
        rw [plug_cons, Frame.fill, ctxPath_cons, Frame.path, List.append_assoc,
          List.singleton_append, ← lookup_plug_remove hclear]
        exact lookup_shrink hsite k'

/-- In a canonical tree a walk along a key of full length ends at a leaf if it finds
the key. -/
theorem safeSite_of_canon {n : Nat} {t : MPTree} (ht : t.Canon n) {k : Nibbles}
    (hk : k.length = n) (hfound : found (descend t k []) = true) :
    (∃ p v, (descend t k []).focus = leaf p v) ∧ SafeSite (descend t k []) := by
  have hplug := plug_descend t k []
  have hpath := ctxPath_descend t k []
  have hstuck := descend_stuck t k []
  generalize descend t k [] = site at hplug hpath hstuck hfound ⊢
  obtain ⟨ctx, focus, rest⟩ := site
  rw [plug_nil] at hplug
  rw [ctxPath_nil, List.nil_append] at hpath
  have hn : n = rest.length + (ctxPath ctx).length := by
    rw [← hk, ← hpath, List.length_append, Nat.add_comm]
  simp only at hplug
  rw [← hplug, hn] at ht
  cases focus with
  | nil => cases hfound
  | ext p c => cases hfound
  | branch c w =>
    obtain rfl : rest = [] := hstuck
    obtain ⟨_, ⟨_, ⟨m, hm, _⟩, _⟩, _⟩ := (canon_plug ctx (by simp)).mp ht
    simp at hm
  | leaf p w =>
    refine ⟨⟨p, w, rfl⟩, ?_⟩
    cases ctx with
    | nil => trivial
    | cons f ctx =>
      cases f with
      | ext q => trivial
      | branch c a v =>
        obtain ⟨⟨⟨hv, _⟩, _⟩, _⟩ := (canon_plug _ (by simp)).mp ht
        exact Or.inl hv

/-- A removal from a canonical tree leaves a canonical tree, or nothing. -/
theorem canon_delete {n : Nat} {t : MPTree} (ht : t = nil ∨ t.Canon n) {k : Nibbles}
    (hk : k.length = n) : delete t k = nil ∨ (delete t k).Canon n := by
  rcases ht with rfl | ht
  · left
    simp [delete, deleteAt, found]
  by_cases hfound : found (descend t k []) = true
  swap
  · rw [delete, deleteAt, if_neg hfound]
    exact Or.inr ht
  obtain ⟨⟨p, w, hfocus⟩, _⟩ := safeSite_of_canon ht hk hfound
  have hplug := plug_descend t k []
  have hpath := ctxPath_descend t k []
  rw [delete, deleteAt, if_pos hfound]
  generalize descend t k [] = site at hplug hpath hfound hfocus ⊢
  obtain ⟨ctx, focus, rest⟩ := site
  rw [plug_nil] at hplug
  rw [ctxPath_nil, List.nil_append] at hpath
  simp only at hplug hpath hfocus
  subst hfocus
  obtain rfl : rest = p := by simpa [found] using hfound
  have hn : n = rest.length + (ctxPath ctx).length := by
    rw [← hk, ← hpath, List.length_append, Nat.add_comm]
  rw [← hplug, hn] at ht
  obtain ⟨hctx, _, hneed⟩ := (canon_plug ctx (by simp)).mp ht
  cases ctx with
  | nil => exact Or.inl rfl
  | cons f ctx =>
    cases f with
    | ext q => exact absurd (hneed trivial) id
    | branch c a v =>
      obtain ⟨⟨rfl, hc, b, hb, hcb⟩, hctx, hneed⟩ := hctx
      right
      have hlen : n = rest.length + 1 + (ctxPath ctx).length := by
        rw [hn, ctxPath_cons, List.length_append, Frame.path, List.length_singleton]
        omega
      have hchildren : ∀ e, Function.update c a nil e = nil ∨
          (Function.update c a nil e).Canon rest.length := by
        intro e
        by_cases he : e = a
        · subst he
          exact Or.inl (by simp)
        · rw [Function.update_of_ne he]
          exact hc e he
      have hone : Function.update c a nil b ≠ nil := by rwa [Function.update_of_ne hb]
      simp only [remnant]
      rw [hlen]
      by_cases honly : ∃ e, Only (Function.update c a nil) e
      · obtain ⟨e, he⟩ := honly
        rw [shrink_of_only he]
        exact canon_graft hctx e ((hchildren e).resolve_left he.1)
      · rw [shrink_of_not_only (by simpa using honly)]
        have htwo : ∃ e, e ≠ b ∧ Function.update c a nil e ≠ nil := by
          by_contra hno
          push Not at hno
          exact honly ⟨b, hone, hno⟩
        obtain ⟨e, heb, he⟩ := htwo
        refine (canon_plug ctx (by simp)).mpr ⟨hctx, ⟨rfl, ⟨_, rfl, hchildren⟩, e, b, heb, he,
          hone⟩, fun _ => trivial⟩

end EthereumJS
