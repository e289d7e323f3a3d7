import EthereumJS.Patricia.Update

/-! # Canonical trees

A well-formed tree has no extension with an empty path or above anything but a
branch. A canonical tree holds keys of one length, has no values in its branches
and no branch with fewer than two children. Two canonical trees with the same
lookups are equal.
-/

namespace Patricia

open Patricia.Tree

variable {α β : Type*} [DecidableEq α]

def Tree.WF : Tree α β → Prop
  | nil => True
  | leaf _ _ => True
  | ext p c => p ≠ [] ∧ c.IsBranch ∧ c.WF
  | branch c _ => ∀ a, (c a).WF

namespace Frame

def IsBranch : Frame α β → Prop
  | ext _ => False
  | branch _ _ _ => True

def WF : Frame α β → Prop
  | ext p => p ≠ []
  | branch c a _ => ∀ b, b ≠ a → (c b).WF

theorem isBranch_fill (f : Frame α β) (s : Tree α β) : (f.fill s).IsBranch ↔ f.IsBranch := by
  cases f <;> exact Iff.rfl

theorem wf_fill (f : Frame α β) (s : Tree α β) :
    (f.fill s).WF ↔ f.WF ∧ s.WF ∧ (¬ f.IsBranch → s.IsBranch) := by
  cases f with
  | ext p =>
    simp only [fill, Tree.WF, WF, IsBranch, not_false_eq_true, forall_const]
    exact and_congr_right fun _ => and_comm
  | branch c a v =>
    simp only [fill, Tree.WF, WF, IsBranch, not_true_eq_false, false_implies, and_true]
    constructor
    · intro h
      refine ⟨fun b hb => ?_, ?_⟩
      · have := h b
        rwa [Function.update_of_ne hb] at this
      · have := h a
        rwa [Function.update_self] at this
    · rintro ⟨hc, hs⟩ b
      by_cases hb : b = a
      · subst hb
        rwa [Function.update_self]
      · rw [Function.update_of_ne hb]
        exact hc b hb

end Frame

/-- The innermost frame is an extension, whose child has to be a branch. -/
def NeedsBranch : List (Frame α β) → Prop
  | .ext _ :: _ => True
  | _ => False

omit [DecidableEq α] in
theorem needsBranch_cons (f : Frame α β) (ctx : List (Frame α β)) :
    NeedsBranch (f :: ctx) ↔ ¬ f.IsBranch := by
  cases f <;> simp [NeedsBranch, Frame.IsBranch]

def CtxWF : List (Frame α β) → Prop
  | [] => True
  | f :: ctx => f.WF ∧ CtxWF ctx ∧ (NeedsBranch ctx → f.IsBranch)

theorem wf_plug (ctx : List (Frame α β)) (s : Tree α β) :
    (plug ctx s).WF ↔ CtxWF ctx ∧ s.WF ∧ (NeedsBranch ctx → s.IsBranch) := by
  induction ctx generalizing s with
  | nil => simp [CtxWF, NeedsBranch]
  | cons f ctx ih =>
    rw [plug_cons, ih, f.wf_fill, f.isBranch_fill, needsBranch_cons, CtxWF]
    tauto

def Tree.Canon : Nat → Tree α β → Prop
  | _, nil => False
  | n, leaf p _ => p.length = n
  | n, ext p c => p ≠ [] ∧ c.IsBranch ∧ ∃ m, n = m + p.length ∧ c.Canon m
  | n, branch c v => v = none ∧ (∃ m, n = m + 1 ∧ ∀ a, c a = nil ∨ (c a).Canon m) ∧
    ∃ a b, a ≠ b ∧ c a ≠ nil ∧ c b ≠ nil

namespace Tree

omit [DecidableEq α] in
theorem Canon.ne_nil {n : Nat} {t : Tree α β} (h : t.Canon n) : t ≠ nil := by
  rintro rfl
  exact h

omit [DecidableEq α] in
theorem Canon.wf {n : Nat} {t : Tree α β} (h : t.Canon n) : t.WF := by
  induction t generalizing n with
  | nil => trivial
  | leaf p v => trivial
  | ext p c ih =>
    obtain ⟨hp, hc, m, _, hm⟩ := h
    exact ⟨hp, hc, ih hm⟩
  | branch c v ih =>
    obtain ⟨_, ⟨m, _, hm⟩, _⟩ := h
    intro a
    rcases hm a with ha | ha
    · rw [ha]
      trivial
    · exact ih a ha

/-- A canonical tree holds keys of its own length only. -/
theorem Canon.length_of_lookup {n : Nat} {t : Tree α β} (h : t.Canon n) {k : List α} {v : β}
    (hk : t.lookup k = some v) : k.length = n := by
  induction t generalizing n k with
  | nil => exact absurd h id
  | leaf p w =>
    rw [lookup_leaf] at hk
    split at hk
    · rename_i he
      exact he ▸ h
    · cases hk
  | ext p c ih =>
    obtain ⟨_, _, m, rfl, hm⟩ := h
    rw [lookup_ext] at hk
    obtain ⟨r, hr, hc⟩ := Option.bind_eq_some_iff.mp hk
    rw [stripPrefix_eq_some.mp hr, List.length_append, ih hm hc, Nat.add_comm]
  | branch c w ih =>
    obtain ⟨hw, ⟨m, rfl, hm⟩, _⟩ := h
    cases k with
    | nil =>
      rw [lookup_branch_nil, hw] at hk
      cases hk
    | cons a k =>
      rw [lookup_branch_cons] at hk
      rcases hm a with ha | ha
      · rw [ha, lookup_nil] at hk
        cases hk
      · rw [List.length_cons, ih a ha hk]

/-- A canonical tree is not empty as a map either. -/
theorem Canon.exists_lookup {n : Nat} {t : Tree α β} (h : t.Canon n) :
    ∃ k v, t.lookup k = some v := by
  induction t generalizing n with
  | nil => exact absurd h id
  | leaf p w => exact ⟨p, w, by simp⟩
  | ext p c ih =>
    obtain ⟨_, _, m, _, hm⟩ := h
    obtain ⟨k, v, hk⟩ := ih hm
    exact ⟨p ++ k, v, by rw [lookup_ext_append, hk]⟩
  | branch c w ih =>
    obtain ⟨_, ⟨m, _, hm⟩, a, _, _, ha, _⟩ := h
    obtain ⟨k, v, hk⟩ := ih a ((hm a).resolve_left ha)
    exact ⟨a :: k, v, hk⟩

/-- A canonical branch holds two keys that differ in their first letter. -/
theorem Canon.exists_two {n : Nat} {t : Tree α β} (h : t.Canon n) (hb : t.IsBranch) :
    ∃ a b k l v w, a ≠ b ∧ t.lookup (a :: k) = some v ∧ t.lookup (b :: l) = some w := by
  cases t with
  | nil => exact absurd hb id
  | leaf p w => exact absurd hb id
  | ext p c => exact absurd hb id
  | branch c w =>
    obtain ⟨_, ⟨m, _, hm⟩, a, b, hab, ha, hbn⟩ := h
    obtain ⟨k, v, hk⟩ := ((hm a).resolve_left ha).exists_lookup
    obtain ⟨l, w, hl⟩ := ((hm b).resolve_left hbn).exists_lookup
    exact ⟨a, b, k, l, v, w, hab, hk, hl⟩

theorem ext_lookup_prefix {p : List α} {c : Tree α β} {k : List α} {v : β}
    (h : (ext p c).lookup k = some v) : ∃ r, k = p ++ r ∧ c.lookup r = some v := by
  rw [lookup_ext] at h
  obtain ⟨r, hr, hc⟩ := Option.bind_eq_some_iff.mp h
  exact ⟨r, stripPrefix_eq_some.mp hr, hc⟩

/-- The path of an extension above a canonical branch is no longer than any prefix
that all of its keys share. -/
theorem Canon.path_prefix {n : Nat} {p q : List α} {c : Tree α β} {d : Tree α β}
    (hc : c.Canon n) (hcb : c.IsBranch)
    (h : ∀ k, (ext p c).lookup k = (ext q d).lookup k) : q <+: p := by
  obtain ⟨a, b, k, l, v, w, hab, hk, hl⟩ := hc.exists_two hcb
  have hka : (ext q d).lookup (p ++ a :: k) = some v := by rw [← h, lookup_ext_append, hk]
  have hlb : (ext q d).lookup (p ++ b :: l) = some w := by rw [← h, lookup_ext_append, hl]
  obtain ⟨r, hr, _⟩ := ext_lookup_prefix hka
  obtain ⟨s, hs, _⟩ := ext_lookup_prefix hlb
  have hqk : q <+: p ++ a :: k := ⟨r, hr.symm⟩
  have hql : q <+: p ++ b :: l := ⟨s, hs.symm⟩
  rcases List.prefix_or_prefix_of_prefix hqk (List.prefix_append p _) with hqp | hpq
  · exact hqp
  · obtain ⟨x, rfl⟩ := hpq
    cases x with
    | nil => simp
    | cons e x =>
      simp only [List.append_assoc, List.append_cancel_left_eq, List.cons_append,
        List.cons.injEq] at hr hs
      exact absurd (hr.1.trans hs.1.symm) hab

/-- No other canonical tree has the lookups of a leaf. -/
theorem Canon.not_leaf_of_two {n : Nat} {p : List α} {w : β} {t : Tree α β} (ht : t.Canon n)
    (hp : ∀ k, t.lookup k = (leaf p w : Tree α β).lookup k) : t = leaf p w := by
  have hkey : ∀ k v, t.lookup k = some v → k = p := by
    intro k v hk
    rw [hp, lookup_leaf] at hk
    split at hk
    · assumption
    · cases hk
  cases t with
  | nil => exact absurd ht id
  | leaf q v =>
    obtain rfl : q = p := hkey q v (by simp)
    have hv := hp q
    simp only [lookup_leaf, if_pos] at hv
    rw [Option.some.inj hv]
  | ext q c =>
    obtain ⟨_, hcb, m, _, hm⟩ := ht
    obtain ⟨a, b, k, l, v, w', hab, hk, hl⟩ := hm.exists_two hcb
    have h₁ := hkey (q ++ a :: k) v (by rw [lookup_ext_append, hk])
    have h₂ := hkey (q ++ b :: l) w' (by rw [lookup_ext_append, hl])
    have h := h₁.trans h₂.symm
    simp only [List.append_cancel_left_eq, List.cons.injEq] at h
    exact absurd h.1 hab
  | branch c v =>
    obtain ⟨a, b, k, l, v, w', hab, hk, hl⟩ := ht.exists_two trivial
    have h := (hkey _ _ hk).trans (hkey _ _ hl).symm
    exact absurd (List.cons.inj h).1 hab

/-- An extension and a branch never have the same lookups. -/
theorem Canon.ext_ne_branch {m : Nat} {p : List α} {c t : Tree α β} (hp : p ≠ [])
    (ht : t.Canon m) (hb : t.IsBranch)
    (h : ∀ k, (ext p c).lookup k = t.lookup k) : False := by
  obtain ⟨a, b, k, l, v, w, hab, hk, hl⟩ := ht.exists_two hb
  rw [← h] at hk hl
  obtain ⟨r, hr, _⟩ := ext_lookup_prefix hk
  obtain ⟨s, hs, _⟩ := ext_lookup_prefix hl
  cases p with
  | nil => exact hp rfl
  | cons e p =>
    rw [List.cons_append] at hr hs
    exact hab ((List.cons.inj hr).1.trans (List.cons.inj hs).1.symm)

/-- A canonical tree is determined by its lookups. -/
theorem Canon.ext_lookup {n : Nat} {t t' : Tree α β} (ht : t.Canon n) (ht' : t'.Canon n)
    (h : ∀ k, t.lookup k = t'.lookup k) : t = t' := by
  induction t generalizing n t' with
  | nil => exact absurd ht id
  | leaf p w => exact (ht'.not_leaf_of_two fun k => (h k).symm).symm
  | ext p c ih =>
    have hcanon := ht
    obtain ⟨hp, hcb, m, hn, hm⟩ := ht
    cases t' with
    | nil => exact absurd ht' id
    | leaf q v => exact hcanon.not_leaf_of_two h
    | branch d v => exact (Canon.ext_ne_branch hp ht' trivial h).elim
    | ext q d =>
      obtain ⟨hq, hdb, m', hn', hm'⟩ := ht'
      have hqp := hm.path_prefix hcb h
      have hpq := hm'.path_prefix hdb fun k => (h k).symm
      obtain rfl : p = q := hpq.eq_of_length (le_antisymm hpq.length_le hqp.length_le)
      obtain rfl : m = m' := by omega
      rw [ih hm hm' fun k => by simpa using h (p ++ k)]
  | branch c w ih =>
    have hcanon := ht
    obtain ⟨hw, ⟨m, hn, hm⟩, _⟩ := ht
    cases t' with
    | nil => exact absurd ht' id
    | leaf q v => exact hcanon.not_leaf_of_two h
    | ext q d =>
      exact (Canon.ext_ne_branch ht'.1 hcanon trivial fun k => (h k).symm).elim
    | branch d v =>
      obtain ⟨hv, ⟨m', hn', hm'⟩, _⟩ := ht'
      obtain rfl : m = m' := by omega
      have hcd : c = d := by
        funext a
        have hlook : ∀ k, (c a).lookup k = (d a).lookup k := fun k => h (a :: k)
        rcases hm a with hca | hca <;> rcases hm' a with hda | hda
        · rw [hca, hda]
        · obtain ⟨k, x, hk⟩ := hda.exists_lookup
          rw [← hlook, hca, lookup_nil] at hk
          cases hk
        · obtain ⟨k, x, hk⟩ := hca.exists_lookup
          rw [hlook, hda, lookup_nil] at hk
          cases hk
        · exact ih a hca hda hlook
      rw [hcd, hw, hv]

end Tree

namespace Frame

def Canon (n : Nat) : Frame α β → Prop
  | ext p => p ≠ []
  | branch c a v => v = none ∧ (∀ b, b ≠ a → c b = nil ∨ (c b).Canon n) ∧ ∃ b, b ≠ a ∧ c b ≠ nil

theorem canon_fill {n : Nat} (f : Frame α β) {s : Tree α β} (hs : s ≠ nil) :
    (f.fill s).Canon (n + f.path.length) ↔
      f.Canon n ∧ s.Canon n ∧ (¬ f.IsBranch → s.IsBranch) := by
  cases f with
  | ext p =>
    simp only [fill, path, Tree.Canon, Canon, IsBranch, not_false_eq_true, forall_const]
    constructor
    · rintro ⟨hp, hb, m, hm, hc⟩
      obtain rfl : n = m := by omega
      exact ⟨hp, hc, hb⟩
    · rintro ⟨hp, hc, hb⟩
      exact ⟨hp, hb, n, rfl, hc⟩
  | branch c a v =>
    simp only [fill, path, Tree.Canon, Canon, IsBranch, not_true_eq_false, false_implies,
      and_true, List.length_singleton]
    constructor
    · rintro ⟨hv, ⟨m, hm, hc⟩, x, y, hxy, hx, hy⟩
      obtain rfl : n = m := by omega
      refine ⟨⟨hv, fun b hb => ?_, ?_⟩, ?_⟩
      · have := hc b
        rwa [Function.update_of_ne hb] at this
      · by_cases hxa : x = a
        · subst hxa
          exact ⟨y, hxy.symm, by rwa [Function.update_of_ne hxy.symm] at hy⟩
        · exact ⟨x, hxa, by rwa [Function.update_of_ne hxa] at hx⟩
      · have := hc a
        rw [Function.update_self] at this
        exact this.resolve_left hs
    · rintro ⟨⟨hv, hc, b, hb, hbn⟩, hsn⟩
      refine ⟨hv, ⟨n, rfl, fun x => ?_⟩, a, b, hb.symm, ?_, ?_⟩
      · by_cases hx : x = a
        · subst hx
          rw [Function.update_self]
          exact Or.inr hsn
        · rw [Function.update_of_ne hx]
          exact hc x hx
      · rwa [Function.update_self]
      · rwa [Function.update_of_ne hb]

/-- A branch that is canonical without the child at the hole is so with it as well. -/
theorem canon_of_fill_nil {n : Nat} {f : Frame α β} (hf : f.IsBranch)
    (h : (f.fill nil).Canon (n + f.path.length)) : f.Canon n := by
  cases f with
  | ext p => exact absurd hf id
  | branch c a v =>
    obtain ⟨hv, ⟨m, hm, hc⟩, x, y, _, hx, _⟩ := h
    have hlen : m = n := by
      simp only [path, List.length_singleton] at hm
      omega
    subst hlen
    have hxa : x ≠ a := by
      rintro rfl
      simp at hx
    refine ⟨hv, fun b hb => ?_, x, hxa, by rwa [Function.update_of_ne hxa] at hx⟩
    have := hc b
    rwa [Function.update_of_ne hb] at this

end Frame

def CtxCanon : Nat → List (Frame α β) → Prop
  | _, [] => True
  | n, f :: ctx => f.Canon n ∧ CtxCanon (n + f.path.length) ctx ∧ (NeedsBranch ctx → f.IsBranch)

theorem canon_plug {n : Nat} (ctx : List (Frame α β)) {s : Tree α β} (hs : s ≠ nil) :
    (plug ctx s).Canon (n + (ctxPath ctx).length) ↔
      CtxCanon n ctx ∧ s.Canon n ∧ (NeedsBranch ctx → s.IsBranch) := by
  induction ctx generalizing n s with
  | nil => simp [CtxCanon, NeedsBranch]
  | cons f ctx ih =>
    have hlen : n + (ctxPath (f :: ctx)).length = n + f.path.length + (ctxPath ctx).length := by
      rw [ctxPath_cons, List.length_append]
      omega
    rw [plug_cons, hlen, ih (f.fill_ne_nil s), f.canon_fill hs, f.isBranch_fill,
      needsBranch_cons, CtxCanon]
    tauto

theorem ctxCanon_of_plug_nil {n : Nat} {f : Frame α β} {ctx : List (Frame α β)} (hf : f.IsBranch)
    (h : (plug (f :: ctx) nil).Canon (n + (ctxPath (f :: ctx)).length)) : CtxCanon n (f :: ctx) := by
  have hlen : n + (ctxPath (f :: ctx)).length = n + f.path.length + (ctxPath ctx).length := by
    rw [ctxPath_cons, List.length_append]
    omega
  rw [plug_cons, hlen, canon_plug ctx (f.fill_ne_nil nil)] at h
  exact ⟨Frame.canon_of_fill_nil hf h.2.1, h.1, fun _ => hf⟩

end Patricia
