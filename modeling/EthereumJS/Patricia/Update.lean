import EthereumJS.Patricia.Tree

/-! # Insertion and removal at the end of a walk

Insertion replaces the focus of a walk by at most two new frames and a new
subtree, so the frame rule reduces its meaning to the focus. Removal leaves a
branch with one child less, which is then merged with its surroundings.
-/

namespace Patricia

variable {α β : Type*} [DecidableEq α]

namespace Tree

def path : Tree α β → List α
  | leaf p _ => p
  | ext p _ => p
  | _ => []

/-- A branch with one child. -/
def single (a : α) (s : Tree α β) : α → Tree α β := Function.update (fun _ => nil) a s

@[simp] theorem single_self (a : α) (s : Tree α β) : single a s a = s := by simp [single]

theorem single_of_ne {a b : α} (h : b ≠ a) (s : Tree α β) : single a s b = nil := by
  simp [single, h]

/-- An extension, unless its path is empty. -/
def extend (p : List α) (s : Tree α β) : Tree α β :=
  match p with
  | [] => s
  | a :: p => ext (a :: p) s

omit [DecidableEq α] in
theorem extend_of_ne_nil {p : List α} (h : p ≠ []) (s : Tree α β) : extend p s = ext p s := by
  cases p with
  | nil => exact absurd rfl h
  | cons a p => rfl

@[simp] theorem lookup_extend (p : List α) (s : Tree α β) (k : List α) :
    (extend p s).lookup k = (stripPrefix p k).bind s.lookup := by
  cases p with
  | nil => rfl
  | cons a p => exact lookup_ext _ _ _

/-- The branch that takes the place of a leaf or an extension at offset `n` of its path:
what is left of the node hangs below its next letter, or is the branch's own value. -/
def remainder : Tree α β → Nat → (α → Tree α β) × Option β
  | leaf p w, n =>
    match p.drop n with
    | [] => (fun _ => nil, some w)
    | a :: q => (single a (leaf q w), none)
  | ext p c, n =>
    match p.drop n with
    | [] => (fun _ => nil, none)
    | a :: q => (single a (extend q c), none)
  | _, _ => (fun _ => nil, none)

theorem lookup_remainder_leaf (m q : List α) (w : β) (k : List α) :
    (branch (remainder (leaf (m ++ q) w) m.length).1 (remainder (leaf (m ++ q) w) m.length).2).lookup k =
      (leaf (m ++ q) w).lookup (m ++ k) := by
  simp only [remainder, List.drop_left, lookup_leaf, List.append_cancel_left_eq]
  cases q with
  | nil => cases k <;> simp
  | cons a q =>
    cases k with
    | nil => simp
    | cons b k =>
      by_cases h : b = a
      · subst h
        simp
      · simp [single_of_ne h, h]

theorem lookup_remainder_ext (m q : List α) (c : Tree α β) (hq : q ≠ []) (k : List α) :
    (branch (remainder (ext (m ++ q) c) m.length).1 (remainder (ext (m ++ q) c) m.length).2).lookup k =
      (ext (m ++ q) c).lookup (m ++ k) := by
  rw [lookup_ext, stripPrefix_append_left, stripPrefix_append, Option.bind_some]
  simp only [remainder, List.drop_left]
  cases q with
  | nil => exact absurd rfl hq
  | cons a q =>
    cases k with
    | nil => simp [stripPrefix]
    | cons b k =>
      by_cases h : b = a
      · subst h
        simp [stripPrefix]
      · simp [stripPrefix, single_of_ne h, Ne.symm h]

/-- Merging a path into the node below it. -/
def prepend (p : List α) : Tree α β → Tree α β
  | nil => nil
  | leaf q v => leaf (p ++ q) v
  | ext q c => ext (p ++ q) c
  | branch c v => ext p (branch c v)

theorem lookup_prepend (p : List α) (s : Tree α β) (k : List α) :
    (prepend p s).lookup k = (stripPrefix p k).bind s.lookup := by
  cases s with
  | nil => cases h : stripPrefix p k <;> simp [prepend]
  | leaf q v =>
    cases h : stripPrefix p k with
    | none =>
      have hne : k ≠ p ++ q := stripPrefix_eq_none.mp h q
      simp [prepend, hne]
    | some r =>
      rw [stripPrefix_eq_some.mp h]
      simp [prepend]
  | ext q c =>
    rw [prepend, lookup_ext, stripPrefix_append_left]
    cases h : stripPrefix p k with
    | none => rfl
    | some r => exact (lookup_ext q c r).symm
  | branch c v => exact lookup_ext p _ k

end Tree

open Patricia.Tree

/-- The new frames and the new subtree that put a value at the rest of a key. The
nearest frame comes first. -/
def diverge (s : Tree α β) (r : List α) (v : β) : List (Frame α β) × Tree α β :=
  let m := commonPrefix s.path r
  let old := s.remainder m.length
  let above := if m = [] then [] else [Frame.ext m]
  match r.drop m.length with
  | [] => (above, branch old.1 (some v))
  | a :: q => (.branch old.1 a old.2 :: above, leaf q v)

def insertSite : Tree α β → List α → β → List (Frame α β) × Tree α β
  | .nil, r, v => ([], leaf r v)
  | .branch c _, _, v => ([], branch c (some v))
  | .leaf p w, r, v => if r = p then ([], leaf p v) else diverge (leaf p w) r v
  | .ext p c, r, v => diverge (ext p c) r v

/-- What `diverge` builds, as one tree. -/
theorem plug_diverge (s : Tree α β) (m r' : List α) (v : β) :
    let old := s.remainder m.length
    commonPrefix s.path (m ++ r') = m →
    plug (diverge s (m ++ r') v).1 (diverge s (m ++ r') v).2 =
      extend m (match r' with
        | [] => branch old.1 (some v)
        | a :: q => branch (Function.update old.1 a (leaf q v)) old.2) := by
  intro old hm
  unfold diverge
  simp only [hm, List.drop_left]
  by_cases hnil : m = []
  · subst hnil
    cases r' <;> rfl
  · rw [if_neg hnil, extend_of_ne_nil hnil]
    cases r' <;> rfl

/-- The remainder leaves the slot free at which the new key goes on. -/
theorem remainder_slot (s : Tree α β) (m q : List α) (hs : s.path = m ++ q) (a : α)
    (hne : ∀ b x, q = b :: x → b ≠ a) : (s.remainder m.length).1 a = nil := by
  cases s with
  | nil => rfl
  | branch c w => rfl
  | leaf p w =>
    obtain rfl : p = m ++ q := hs
    simp only [remainder, List.drop_left]
    cases q with
    | nil => rfl
    | cons b x => exact single_of_ne (hne b x rfl).symm _
  | ext p c =>
    obtain rfl : p = m ++ q := hs
    simp only [remainder, List.drop_left]
    cases q with
    | nil => rfl
    | cons b x => exact single_of_ne (hne b x rfl).symm _

/-- A new leaf in a free slot adds exactly its own key. -/
theorem lookup_branch_update {c : α → Tree α β} {a : α} (hfree : c a = nil) (w : Option β)
    (q : List α) (v : β) (k : List α) :
    (branch (Function.update c a (leaf q v)) w).lookup k =
      if k = a :: q then some v else (branch c w).lookup k := by
  cases k with
  | nil => simp
  | cons b k =>
    by_cases h : b = a
    · subst h
      simp [hfree]
    · simp [h]

theorem lookup_branch_value (c : α → Tree α β) (w : Option β) (v : β) (k : List α) :
    (branch c (some v)).lookup k = if k = [] then some v else (branch c w).lookup k := by
  cases k <;> simp

theorem lookup_diverge {s : Tree α β} {r : List α} (v : β)
    (hold : ∀ m q k, s.path = m ++ q → commonPrefix s.path r = m →
      (branch (s.remainder m.length).1 (s.remainder m.length).2).lookup k = s.lookup (m ++ k))
    (hout : ∀ m q k, s.path = m ++ q → stripPrefix m k = none → s.lookup k = none) (k : List α) :
    (plug (diverge s r v).1 (diverge s r v).2).lookup k =
      if k = r then some v else s.lookup k := by
  obtain ⟨q, r', hs, hr, hne⟩ := commonPrefix_spec s.path r
  generalize hm : commonPrefix s.path r = m at hs hr
  have hplug := plug_diverge s m r' v (hr ▸ hm)
  rw [← hr] at hplug
  rw [hplug, lookup_extend]
  cases hk : stripPrefix m k with
  | none =>
    have hkr : k ≠ r := fun h => stripPrefix_eq_none.mp hk r' (h.trans hr)
    rw [if_neg hkr, hout m q k hs hk]
    rfl
  | some x =>
    obtain rfl := stripPrefix_eq_some.mp hk
    rw [Option.bind_some]
    conv_rhs => rw [hr, ← hold m q x hs hm]
    simp only [List.append_cancel_left_eq]
    cases r' with
    | nil => exact lookup_branch_value _ _ v x
    | cons a y =>
      refine lookup_branch_update (remainder_slot s m q hs a ?_) _ y v x
      intro b z hq
      exact hne b a z y hq rfl

theorem lookup_diverge_leaf (p : List α) (w : β) (r : List α) (v : β) (k : List α) :
    (plug (diverge (leaf p w) r v).1 (diverge (leaf p w) r v).2).lookup k =
      if k = r then some v else (leaf p w).lookup k := by
  refine lookup_diverge v ?_ ?_ k
  · intro m q k hs _
    obtain rfl : p = m ++ q := hs
    exact lookup_remainder_leaf m q w k
  · intro m q k hs hk
    obtain rfl : p = m ++ q := hs
    rw [lookup_leaf, if_neg (stripPrefix_eq_none.mp hk q)]

theorem lookup_diverge_ext (p : List α) (c : Tree α β) (r : List α) (v : β)
    (hr : stripPrefix p r = none) (k : List α) :
    (plug (diverge (ext p c) r v).1 (diverge (ext p c) r v).2).lookup k =
      if k = r then some v else (ext p c).lookup k := by
  refine lookup_diverge v ?_ ?_ k
  · intro m q k hs hm
    obtain rfl : p = m ++ q := hs
    refine lookup_remainder_ext m q c ?_ k
    rintro rfl
    obtain ⟨_, r', _, hr', _⟩ := commonPrefix_spec (m ++ []) r
    have hm' : commonPrefix (m ++ []) r = m := hm
    rw [hm'] at hr'
    rw [List.append_nil] at hr
    exact stripPrefix_eq_none.mp hr r' hr'
  · intro m q k hs hk
    obtain rfl : p = m ++ q := hs
    rw [lookup_ext, stripPrefix_append_left, hk]
    rfl

theorem lookup_insertSite {s : Site α β} (hs : s.Stuck) (v : β) (k : List α) :
    (plug (insertSite s.focus s.rest v).1 (insertSite s.focus s.rest v).2).lookup k =
      if k = s.rest then some v else s.focus.lookup k := by
  obtain ⟨ctx, focus, rest⟩ := s
  cases focus with
  | nil => simp [insertSite]
  | leaf p w =>
    by_cases h : rest = p
    · subst h
      simp only [insertSite, if_pos, plug_nil, lookup_leaf]
      split <;> rfl
    · simp only [insertSite, if_neg h]
      exact lookup_diverge_leaf p w rest v k
  | ext p c => exact lookup_diverge_ext p c rest v hs k
  | branch c w =>
    obtain rfl : rest = [] := hs
    exact lookup_branch_value c w v k

def insert (t : Tree α β) (k : List α) (v : β) : Tree α β :=
  let site := descend t k []
  let new := insertSite site.focus site.rest v
  plug (new.1 ++ site.ctx) new.2

theorem insert_ne_nil (t : Tree α β) (k : List α) (v : β) : insert t k v ≠ nil := by
  unfold insert
  simp only
  refine plug_ne_nil ?_
  cases (descend t k []).focus with
  | nil => simp [insertSite]
  | branch c w => simp [insertSite]
  | leaf p w =>
    simp only [insertSite, diverge]
    split
    · simp
    · split <;> simp
  | ext p c =>
    simp only [insertSite, diverge]
    split <;> simp

/-- Insertion is an update of the lookup function at one key. -/
theorem lookup_insert (t : Tree α β) (k : List α) (v : β) (k' : List α) :
    (insert t k v).lookup k' = if k' = k then some v else t.lookup k' := by
  have hstuck := descend_stuck t k []
  have hplug := plug_descend t k []
  have hpath := ctxPath_descend t k []
  unfold insert
  generalize descend t k [] = site at hstuck hplug hpath ⊢
  rw [plug_nil] at hplug
  rw [ctxPath_nil, List.nil_append] at hpath
  simp only
  rw [plug_append, lookup_plug site.ctx site.focus, hplug]
  cases h : stripPrefix (ctxPath site.ctx) k' with
  | none =>
    have hne : k' ≠ k := fun he => stripPrefix_eq_none.mp h site.rest (he.trans hpath.symm)
    rw [if_neg hne]
  | some x =>
    obtain rfl := stripPrefix_eq_some.mp h
    rw [← hplug, ← hpath, lookup_plug_append]
    simp only [List.append_cancel_left_eq]
    exact lookup_insertSite hstuck v x

/-- The given letter leads to the only child of a branch. -/
def Only (c : α → Tree α β) (a : α) : Prop := c a ≠ nil ∧ ∀ b, b ≠ a → c b = nil

/-- Putting a child that has lost its siblings in the place of their branch. -/
def graft : List (Frame α β) → α → Tree α β → Tree α β
  | .ext p :: ctx, a, s => plug ctx (prepend (p ++ [a]) s)
  | ctx, a, s => plug ctx (prepend [a] s)

/-- A child moved up in the place of its branch, which loses its value by that. -/
theorem lookup_graft {c : α → Tree α β} {a : α} (h : Only c a) (ctx : List (Frame α β))
    (k : List α) : (graft ctx a (c a)).lookup k = (plug ctx (branch c none)).lookup k := by
  have hsame : ∀ k, (prepend [a] (c a)).lookup k = (branch c none).lookup k := by
    intro k
    rw [lookup_prepend]
    cases k with
    | nil => rfl
    | cons b k =>
      by_cases hb : a = b
      · subst hb
        simp [stripPrefix]
      · simp [stripPrefix, hb, h.2 b (Ne.symm hb)]
  have hplug : ∀ (fs : List (Frame α β)) (s : Tree α β),
      (∀ k, s.lookup k = (branch c none).lookup k) →
      ∀ k, (plug fs s).lookup k = (plug fs (branch c none)).lookup k := by
    intro fs s hs k
    rw [lookup_plug fs (branch c none) s]
    cases hk : stripPrefix (ctxPath fs) k with
    | none => rfl
    | some r =>
      rw [stripPrefix_eq_some.mp hk, lookup_plug_append]
      exact hs r
  cases ctx with
  | nil => exact hsame k
  | cons f ctx =>
    cases f with
    | branch d b w => exact hplug _ _ hsame k
    | ext p =>
      rw [graft, plug_cons, lookup_plug ctx (Frame.fill (.ext p) (branch c none)) (prepend _ _)]
      cases hk : stripPrefix (ctxPath ctx) k with
      | none => rfl
      | some r =>
        rw [stripPrefix_eq_some.mp hk, lookup_plug_append]
        change (prepend (p ++ [a]) (c a)).lookup r = (ext p (branch c none)).lookup r
        rw [lookup_prepend, lookup_ext, stripPrefix_append_left]
        cases stripPrefix p r with
        | none => rfl
        | some x =>
          rw [Option.bind_some, Option.bind_some, ← hsame x, lookup_prepend]

end Patricia
