import EthereumJS.Patricia.Tree

/-! # The nodes along a path

A predicate on all nodes of a tree splits, for a subtree in its context, into the
subtree, the siblings that the context holds, and the nodes above. The latter form
the spine of the context; the nodes that a walk visits form its trail.
-/

namespace Patricia

variable {α β : Type*} [DecidableEq α]

namespace Tree

/-- The predicate holds of every node of the tree. -/
def All (P : Tree α β → Prop) : Tree α β → Prop
  | nil => True
  | leaf p v => P (leaf p v)
  | ext p c => P (ext p c) ∧ c.All P
  | branch c v => P (branch c v) ∧ ∀ a, (c a).All P

omit [DecidableEq α] in
theorem All.self {P : Tree α β → Prop} {t : Tree α β} (h : t.All P) (ht : t ≠ nil) : P t := by
  cases t with
  | nil => exact absurd rfl ht
  | leaf p v => exact h
  | ext p c => exact h.1
  | branch c v => exact h.1

omit [DecidableEq α] in
theorem All.mono {P Q : Tree α β → Prop} {t : Tree α β} (h : t.All P) (hPQ : ∀ s, P s → Q s) :
    t.All Q := by
  induction t with
  | nil => trivial
  | leaf p v => exact hPQ _ h
  | ext p c ih => exact ⟨hPQ _ h.1, ih h.2⟩
  | branch c v ih => exact ⟨hPQ _ h.1, fun a => ih a (h.2 a)⟩

omit [DecidableEq α] in
theorem All.and {P Q : Tree α β → Prop} {t : Tree α β} (hP : t.All P) (hQ : t.All Q) :
    t.All fun s => P s ∧ Q s := by
  induction t with
  | nil => trivial
  | leaf p v => exact ⟨hP, hQ⟩
  | ext p c ih => exact ⟨⟨hP.1, hQ.1⟩, ih hP.2 hQ.2⟩
  | branch c v ih => exact ⟨⟨hP.1, hQ.1⟩, fun a => ih a (hP.2 a) (hQ.2 a)⟩

/-- The nodes that the walk along a key visits, from the top. -/
def trail : Tree α β → List α → List (Tree α β)
  | nil, _ => []
  | leaf p v, _ => [leaf p v]
  | ext p c, k =>
    ext p c ::
      match stripPrefix p k with
      | some r => c.trail r
      | none => []
  | branch c v, [] => [branch c v]
  | branch c v, a :: k => branch c v :: (c a).trail k

@[simp] theorem trail_nil (k : List α) : (nil : Tree α β).trail k = [] := by cases k <;> rfl

@[simp] theorem trail_leaf (p : List α) (v : β) (k : List α) :
    (leaf p v).trail k = [leaf p v] := by
  cases k <;> rfl

theorem trail_ext_of_some {p k r : List α} (c : Tree α β) (h : stripPrefix p k = some r) :
    (ext p c).trail k = ext p c :: c.trail r := by
  rw [trail, h]

theorem trail_ext_of_none {p k : List α} (c : Tree α β) (h : stripPrefix p k = none) :
    (ext p c).trail k = [ext p c] := by
  rw [trail, h]

@[simp] theorem trail_branch_nil (c : α → Tree α β) (v : Option β) :
    (branch c v).trail [] = [branch c v] := rfl

@[simp] theorem trail_branch_cons (c : α → Tree α β) (v : Option β) (a : α) (k : List α) :
    (branch c v).trail (a :: k) = branch c v :: (c a).trail k := rfl

/-- The walk through a tree starts at its root. -/
theorem trail_eq_cons {t : Tree α β} (ht : t ≠ nil) (k : List α) :
    t.trail k = t :: (t.trail k).tail := by
  cases t with
  | nil => exact absurd rfl ht
  | leaf p v => simp
  | ext p c => rfl
  | branch c v => cases k <;> rfl

theorem All.of_mem_trail {P : Tree α β → Prop} {t s : Tree α β} (h : t.All P) {k : List α}
    (hs : s ∈ t.trail k) : s.All P := by
  induction t generalizing k with
  | nil => simp at hs
  | leaf p v =>
    obtain rfl : s = leaf p v := by simpa using hs
    exact h
  | ext p c ih =>
    cases hk : stripPrefix p k with
    | none =>
      rw [trail_ext_of_none c hk] at hs
      obtain rfl : s = ext p c := by simpa using hs
      exact h
    | some r =>
      rw [trail_ext_of_some c hk] at hs
      rcases List.mem_cons.mp hs with rfl | hs
      · exact h
      · exact ih h.2 hs
  | branch c v ih =>
    cases k with
    | nil =>
      obtain rfl : s = branch c v := by simpa using hs
      exact h
    | cons a k =>
      rcases List.mem_cons.mp hs with rfl | hs
      · exact h
      · exact ih a (h.2 a) hs

theorem ne_nil_of_mem_trail {t s : Tree α β} {k : List α} (hs : s ∈ t.trail k) : s ≠ nil := by
  induction t generalizing k with
  | nil => simp at hs
  | leaf p v =>
    obtain rfl : s = leaf p v := by simpa using hs
    simp
  | ext p c ih =>
    cases hk : stripPrefix p k with
    | none =>
      rw [trail_ext_of_none c hk] at hs
      obtain rfl : s = ext p c := by simpa using hs
      simp
    | some r =>
      rw [trail_ext_of_some c hk] at hs
      rcases List.mem_cons.mp hs with rfl | hs
      · simp
      · exact ih hs
  | branch c v ih =>
    cases k with
    | nil =>
      obtain rfl : s = branch c v := by simpa using hs
      simp
    | cons a k =>
      rcases List.mem_cons.mp hs with rfl | hs
      · simp
      · exact ih a hs

end Tree

namespace Frame

def All (P : Tree α β → Prop) : Frame α β → Prop
  | ext _ => True
  | branch c a _ => ∀ b, b ≠ a → (c b).All P

theorem all_fill (P : Tree α β → Prop) (f : Frame α β) (s : Tree α β) :
    (f.fill s).All P ↔ P (f.fill s) ∧ f.All P ∧ s.All P := by
  cases f with
  | ext p => simp [fill, Tree.All, All]
  | branch c a v =>
    simp only [fill, Tree.All, All]
    refine and_congr_right fun _ => ⟨fun h => ⟨fun b hb => ?_, ?_⟩, ?_⟩
    · have := h b
      rwa [Function.update_of_ne hb] at this
    · have := h a
      rwa [Function.update_self] at this
    · rintro ⟨hc, hs⟩ b
      by_cases hb : b = a
      · subst hb
        rwa [Function.update_self]
      · rw [Function.update_of_ne hb]
        exact hc b hb

omit [DecidableEq α] in
theorem All.mono {P Q : Tree α β → Prop} {f : Frame α β} (h : f.All P) (hPQ : ∀ s, P s → Q s) :
    f.All Q := by
  cases f with
  | ext p => trivial
  | branch c a v => exact fun b hb => (h b hb).mono hPQ

end Frame

/-- The nodes above a subtree in its context, the nearest first. -/
def spine : List (Frame α β) → Tree α β → List (Tree α β)
  | [], _ => []
  | f :: ctx, s => f.fill s :: spine ctx (f.fill s)

@[simp] theorem spine_nil (s : Tree α β) : spine [] s = [] := rfl

@[simp] theorem spine_cons (f : Frame α β) (ctx : List (Frame α β)) (s : Tree α β) :
    spine (f :: ctx) s = f.fill s :: spine ctx (f.fill s) := rfl

theorem spine_append (fs ctx : List (Frame α β)) (s : Tree α β) :
    spine (fs ++ ctx) s = spine fs s ++ spine ctx (plug fs s) := by
  induction fs generalizing s with
  | nil => rfl
  | cons f fs ih => simp [ih]

theorem all_plug (P : Tree α β → Prop) (ctx : List (Frame α β)) (s : Tree α β) :
    (plug ctx s).All P ↔ s.All P ∧ (∀ f ∈ ctx, f.All P) ∧ ∀ u ∈ spine ctx s, P u := by
  induction ctx generalizing s with
  | nil => simp
  | cons f ctx ih =>
    rw [plug_cons, ih, f.all_fill]
    simp only [List.forall_mem_cons, spine_cons]
    tauto

theorem ne_nil_of_mem_spine {ctx : List (Frame α β)} {s u : Tree α β} (h : u ∈ spine ctx s) :
    u ≠ .nil := by
  induction ctx generalizing s with
  | nil => simp at h
  | cons f ctx ih =>
    rcases List.mem_cons.mp h with rfl | h
    · exact f.fill_ne_nil s
    · exact ih h

/-- A tree as the list of at most one node. -/
def Tree.node? : Tree α β → List (Tree α β)
  | .nil => []
  | t => [t]

/-- A walk visits the spine of the place where it stops, and the focus. -/
theorem trail_descend (t : Tree α β) (k : List α) (ctx : List (Frame α β)) :
    (t.trail k).reverse ++ spine ctx t =
      (descend t k ctx).focus.node? ++ spine (descend t k ctx).ctx (descend t k ctx).focus := by
  induction t generalizing k ctx with
  | nil => simp [descend, Tree.node?]
  | leaf p v => simp [descend, Tree.node?]
  | ext p c ih =>
    rw [descend]
    cases hk : stripPrefix p k with
    | none => simp [Tree.trail_ext_of_none c hk, Tree.node?]
    | some r =>
      simp only
      rw [← ih r (.ext p :: ctx), Tree.trail_ext_of_some c hk]
      simp [Frame.fill]
  | branch c v ih =>
    cases k with
    | nil => simp [descend, Tree.node?]
    | cons a k =>
      rw [descend, ← ih a k (.branch c a v :: ctx)]
      simp [Frame.fill]

/-- A node on a trail sits in a context along the key, below the nodes before it. -/
theorem trail_split {t s : Tree α β} {k : List α} {above below : List (Tree α β)}
    (h : t.trail k = above ++ s :: below) (ctx : List (Frame α β)) :
    ∃ fs r, plug fs s = t ∧ k = ctxPath fs ++ r ∧ spine fs s = above.reverse ∧
      descend t k ctx = descend s r (fs ++ ctx) := by
  induction t generalizing k above ctx with
  | nil => simp at h
  | leaf p v =>
    obtain ⟨rfl, rfl, rfl⟩ : above = [] ∧ s = .leaf p v ∧ below = [] := by
      cases above with
      | nil => simpa [eq_comm] using h
      | cons x above => simp at h
    exact ⟨[], k, rfl, by simp, by simp, rfl⟩
  | ext p c ih =>
    cases above with
    | nil =>
      obtain rfl : Tree.ext p c = s := by
        rw [Tree.trail_eq_cons (by simp)] at h
        exact (List.cons.inj h).1
      exact ⟨[], k, rfl, by simp, by simp, rfl⟩
    | cons x above =>
      cases hk : stripPrefix p k with
      | none =>
        rw [Tree.trail_ext_of_none c hk] at h
        simp at h
      | some r =>
        rw [Tree.trail_ext_of_some c hk, List.cons_append] at h
        obtain ⟨hx, hrest⟩ := List.cons.inj h
        obtain ⟨fs, r', hplug, hr, hspine, hdesc⟩ := ih hrest (.ext p :: ctx)
        refine ⟨fs ++ [.ext p], r', ?_, ?_, ?_, ?_⟩
        · rw [plug_append, hplug]
          rfl
        · rw [ctxPath_append, stripPrefix_eq_some.mp hk, hr]
          simp [Frame.path]
        · rw [spine_append, hspine, hplug]
          simp [Frame.fill, hx]
        · rw [descend, hk]
          simp only
          rw [hdesc, List.append_assoc, List.singleton_append]
  | branch c v ih =>
    cases above with
    | nil =>
      obtain rfl : Tree.branch c v = s := by
        rw [Tree.trail_eq_cons (by simp)] at h
        exact (List.cons.inj h).1
      exact ⟨[], k, rfl, by simp, by simp, rfl⟩
    | cons x above =>
      cases k with
      | nil => simp at h
      | cons a k =>
        rw [Tree.trail_branch_cons, List.cons_append] at h
        obtain ⟨hx, hrest⟩ := List.cons.inj h
        obtain ⟨fs, r', hplug, hr, hspine, hdesc⟩ := ih a hrest (.branch c a v :: ctx)
        refine ⟨fs ++ [.branch c a v], r', ?_, ?_, ?_, ?_⟩
        · rw [plug_append, hplug, plug_cons, Frame.fill, Function.update_eq_self, plug_nil]
        · rw [ctxPath_append, hr]
          simp [Frame.path]
        · rw [spine_append, hspine, hplug]
          simp [Frame.fill, hx]
        · rw [descend, hdesc, List.append_assoc, List.singleton_append]

end Patricia
