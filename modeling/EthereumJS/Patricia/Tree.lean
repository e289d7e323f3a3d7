import Mathlib.Data.List.Basic
import Mathlib.Logic.Function.Basic
import Mathlib.Tactic

/-! # Prefix trees with path compression

Finite trees over an arbitrary alphabet. A branch consumes one letter of the key
and may hold a value for the key that ends at it, an extension consumes a whole
path, and a leaf holds the value of the one key that is left. The trees are not
assumed to be in any normal form, so that lookups can be compared across an
intermediate state of an algorithm.
-/

namespace Patricia

variable {α β : Type*} [DecidableEq α]

/-- What is left of a list behind the given prefix. -/
def stripPrefix : List α → List α → Option (List α)
  | [], k => some k
  | _ :: _, [] => none
  | a :: p, b :: k => if a = b then stripPrefix p k else none

theorem stripPrefix_eq_some {p k r : List α} : stripPrefix p k = some r ↔ k = p ++ r := by
  induction p generalizing k with
  | nil => simp [stripPrefix]
  | cons a p ih =>
    cases k with
    | nil => simp [stripPrefix]
    | cons b k =>
      by_cases h : a = b
      · subst h
        simp [stripPrefix, ih]
      · simp [stripPrefix, h, Ne.symm h]

@[simp] theorem stripPrefix_append (p r : List α) : stripPrefix p (p ++ r) = some r :=
  stripPrefix_eq_some.mpr rfl

@[simp] theorem stripPrefix_nil (k : List α) : stripPrefix [] k = some k := rfl

theorem stripPrefix_eq_none {p k : List α} : stripPrefix p k = none ↔ ∀ r, k ≠ p ++ r := by
  cases h : stripPrefix p k with
  | none =>
    refine ⟨fun _ r hr => ?_, fun _ => rfl⟩
    rw [hr, stripPrefix_append] at h
    cases h
  | some r => simp [stripPrefix_eq_some.mp h]

theorem stripPrefix_append_left (p q k : List α) :
    stripPrefix (p ++ q) k = (stripPrefix p k).bind (stripPrefix q) := by
  induction p generalizing k with
  | nil => rfl
  | cons a p ih =>
    cases k with
    | nil => rfl
    | cons b k =>
      simp only [List.cons_append, stripPrefix]
      split
      · exact ih k
      · rfl

/-- The longest common prefix. -/
def commonPrefix : List α → List α → List α
  | a :: p, b :: k => if a = b then a :: commonPrefix p k else []
  | _, _ => []

/-- Both lists start with the common prefix, and they part right behind it. -/
theorem commonPrefix_spec (p k : List α) : ∃ p' k', p = commonPrefix p k ++ p' ∧
    k = commonPrefix p k ++ k' ∧ ∀ a b x y, p' = a :: x → k' = b :: y → a ≠ b := by
  induction p generalizing k with
  | nil => exact ⟨[], k, by simp [commonPrefix], by simp [commonPrefix], by simp⟩
  | cons a p ih =>
    cases k with
    | nil => exact ⟨a :: p, [], by simp [commonPrefix], by simp [commonPrefix], by simp⟩
    | cons b k =>
      by_cases h : a = b
      · subst h
        obtain ⟨p', k', hp, hk, hne⟩ := ih k
        refine ⟨p', k', ?_, ?_, hne⟩
        · simpa [commonPrefix] using hp
        · simpa [commonPrefix] using hk
      · refine ⟨a :: p, b :: k, by simp [commonPrefix, h], by simp [commonPrefix, h], ?_⟩
        rintro _ _ _ _ ⟨⟩ ⟨⟩
        exact h

inductive Tree (α β : Type*)
  | nil
  | leaf (path : List α) (value : β)
  | ext (path : List α) (child : Tree α β)
  | branch (children : α → Tree α β) (value : Option β)

namespace Tree

def lookup : Tree α β → List α → Option β
  | nil, _ => none
  | leaf p v, k => if k = p then some v else none
  | ext p c, k =>
    match stripPrefix p k with
    | some r => c.lookup r
    | none => none
  | branch _ v, [] => v
  | branch c _, a :: k => (c a).lookup k

def IsBranch : Tree α β → Prop
  | branch _ _ => True
  | _ => False

def isNil : Tree α β → Bool
  | nil => true
  | _ => false

omit [DecidableEq α] in
@[simp] theorem isNil_iff {t : Tree α β} : t.isNil = true ↔ t = nil := by cases t <;> simp [isNil]

omit [DecidableEq α] in
@[simp] theorem isNil_eq_false {t : Tree α β} : t.isNil = false ↔ t ≠ nil := by
  cases t <;> simp [isNil]

omit [DecidableEq α] in
theorem IsBranch.ne_nil {t : Tree α β} (h : t.IsBranch) : t ≠ nil := by
  rintro rfl
  exact h

@[simp] theorem lookup_nil (k : List α) : (nil : Tree α β).lookup k = none := by
  cases k <;> rfl

@[simp] theorem lookup_leaf (p : List α) (v : β) (k : List α) :
    (leaf p v : Tree α β).lookup k = if k = p then some v else none := by
  cases k <;> rfl

theorem lookup_ext (p : List α) (c : Tree α β) (k : List α) :
    (ext p c).lookup k = (stripPrefix p k).bind c.lookup := by
  rw [lookup]
  cases stripPrefix p k <;> rfl

@[simp] theorem lookup_ext_append (p : List α) (c : Tree α β) (k : List α) :
    (ext p c).lookup (p ++ k) = c.lookup k := by
  rw [lookup_ext, stripPrefix_append]
  rfl

theorem lookup_ext_of_none {p k : List α} (c : Tree α β) (h : stripPrefix p k = none) :
    (ext p c).lookup k = none := by
  rw [lookup_ext, h]
  rfl

@[simp] theorem lookup_branch_nil (c : α → Tree α β) (v : Option β) :
    (branch c v).lookup [] = v := rfl

@[simp] theorem lookup_branch_cons (c : α → Tree α β) (v : Option β) (a : α) (k : List α) :
    (branch c v).lookup (a :: k) = (c a).lookup k := rfl

end Tree

/-- One node on the way down to a subtree, without that subtree. -/
inductive Frame (α β : Type*)
  | ext (path : List α)
  | branch (children : α → Tree α β) (hole : α) (value : Option β)

namespace Frame

def fill : Frame α β → Tree α β → Tree α β
  | ext p, s => .ext p s
  | branch c a v, s => .branch (Function.update c a s) v

def path : Frame α β → List α
  | ext p => p
  | branch _ a _ => [a]

theorem fill_ne_nil (f : Frame α β) (s : Tree α β) : f.fill s ≠ .nil := by
  cases f <;> simp [fill]

theorem lookup_fill_append (f : Frame α β) (s : Tree α β) (r : List α) :
    (f.fill s).lookup (f.path ++ r) = s.lookup r := by
  cases f <;> simp [fill, path]

theorem lookup_fill_of_none {f : Frame α β} {k : List α} (s s' : Tree α β)
    (h : stripPrefix f.path k = none) : (f.fill s).lookup k = (f.fill s').lookup k := by
  cases f with
  | ext p =>
    have hp : stripPrefix p k = none := h
    rw [fill, fill, Tree.lookup_ext_of_none s hp, Tree.lookup_ext_of_none s' hp]
  | branch c a v =>
    cases k with
    | nil => rfl
    | cons b k =>
      have hne : b ≠ a := by
        rintro rfl
        simp [path, stripPrefix] at h
      simp [fill, Function.update_of_ne hne]

end Frame

/-- The whole tree around a subtree; the nearest frame comes first. -/
def plug : List (Frame α β) → Tree α β → Tree α β
  | [], s => s
  | f :: ctx, s => plug ctx (f.fill s)

def ctxPath : List (Frame α β) → List α
  | [] => []
  | f :: ctx => ctxPath ctx ++ f.path

@[simp] theorem plug_nil (s : Tree α β) : plug [] s = s := rfl

@[simp] theorem plug_cons (f : Frame α β) (ctx : List (Frame α β)) (s : Tree α β) :
    plug (f :: ctx) s = plug ctx (f.fill s) := rfl

omit [DecidableEq α] in
@[simp] theorem ctxPath_nil : ctxPath ([] : List (Frame α β)) = [] := rfl

omit [DecidableEq α] in
@[simp] theorem ctxPath_cons (f : Frame α β) (ctx : List (Frame α β)) :
    ctxPath (f :: ctx) = ctxPath ctx ++ f.path := rfl

theorem plug_append (fs ctx : List (Frame α β)) (s : Tree α β) :
    plug (fs ++ ctx) s = plug ctx (plug fs s) := by
  induction fs generalizing s with
  | nil => rfl
  | cons f fs ih => exact ih (f.fill s)

omit [DecidableEq α] in
theorem ctxPath_append (fs ctx : List (Frame α β)) :
    ctxPath (fs ++ ctx) = ctxPath ctx ++ ctxPath fs := by
  induction fs with
  | nil => simp
  | cons f fs ih => simp [ih, List.append_assoc]

theorem plug_ne_nil {ctx : List (Frame α β)} {s : Tree α β} (h : s ≠ .nil) :
    plug ctx s ≠ .nil := by
  induction ctx generalizing s with
  | nil => exact h
  | cons f ctx ih => exact ih (f.fill_ne_nil s)

theorem lookup_plug_append (ctx : List (Frame α β)) (s : Tree α β) (r : List α) :
    (plug ctx s).lookup (ctxPath ctx ++ r) = s.lookup r := by
  induction ctx generalizing s r with
  | nil => rfl
  | cons f ctx ih =>
    rw [plug_cons, ctxPath_cons, List.append_assoc, ih]
    exact f.lookup_fill_append s r

theorem lookup_plug_of_none {ctx : List (Frame α β)} {k : List α} (s s' : Tree α β)
    (h : stripPrefix (ctxPath ctx) k = none) : (plug ctx s).lookup k = (plug ctx s').lookup k := by
  induction ctx generalizing s s' with
  | nil => cases h
  | cons f ctx ih =>
    rw [plug_cons, plug_cons]
    cases hctx : stripPrefix (ctxPath ctx) k with
    | none => exact ih (f.fill s) (f.fill s') hctx
    | some r =>
      have hk := stripPrefix_eq_some.mp hctx
      rw [ctxPath_cons, stripPrefix_append_left, hctx, Option.bind_some] at h
      rw [hk, lookup_plug_append, lookup_plug_append]
      exact Frame.lookup_fill_of_none s s' h

/-- Frame rule: replacing the subtree at the end of a context changes the lookups
of the keys that pass through it as it changes the subtree's own, and no others. -/
theorem lookup_plug (ctx : List (Frame α β)) (s s' : Tree α β) (k : List α) :
    (plug ctx s').lookup k =
      match stripPrefix (ctxPath ctx) k with
      | some r => s'.lookup r
      | none => (plug ctx s).lookup k := by
  cases h : stripPrefix (ctxPath ctx) k with
  | none => exact lookup_plug_of_none s' s h
  | some r =>
    rw [stripPrefix_eq_some.mp h, lookup_plug_append]

/-- Where the walk along a key stops, and what is left of the key there. -/
structure Site (α β : Type*) where
  ctx : List (Frame α β)
  focus : Tree α β
  rest : List α

def descend : Tree α β → List α → List (Frame α β) → Site α β
  | .nil, k, ctx => ⟨ctx, .nil, k⟩
  | .leaf p v, k, ctx => ⟨ctx, .leaf p v, k⟩
  | .ext p c, k, ctx =>
    match stripPrefix p k with
    | some r => descend c r (.ext p :: ctx)
    | none => ⟨ctx, .ext p c, k⟩
  | .branch c v, [], ctx => ⟨ctx, .branch c v, []⟩
  | .branch c v, a :: k, ctx => descend (c a) k (.branch c a v :: ctx)

@[simp] theorem descend_nil (k : List α) (ctx : List (Frame α β)) :
    descend .nil k ctx = ⟨ctx, .nil, k⟩ := by
  cases k <;> rfl

@[simp] theorem descend_leaf (p : List α) (v : β) (k : List α) (ctx : List (Frame α β)) :
    descend (.leaf p v) k ctx = ⟨ctx, .leaf p v, k⟩ := by
  cases k <;> rfl

/-- The walk can go no further from the focus. -/
def Site.Stuck (s : Site α β) : Prop :=
  match s.focus with
  | .nil => True
  | .leaf _ _ => True
  | .ext p _ => stripPrefix p s.rest = none
  | .branch _ _ => s.rest = []

theorem descend_stuck (t : Tree α β) (k : List α) (ctx : List (Frame α β)) :
    (descend t k ctx).Stuck := by
  induction t generalizing k ctx with
  | nil => simp [descend, Site.Stuck]
  | leaf p v => simp [descend, Site.Stuck]
  | ext p c ih =>
    rw [descend]
    split
    · exact ih _ _
    · rename_i h
      exact h
  | branch c v ih =>
    cases k with
    | nil => rfl
    | cons a k => exact ih a k _

theorem plug_descend (t : Tree α β) (k : List α) (ctx : List (Frame α β)) :
    plug (descend t k ctx).ctx (descend t k ctx).focus = plug ctx t := by
  induction t generalizing k ctx with
  | nil => simp [descend]
  | leaf p v => simp [descend]
  | ext p c ih =>
    rw [descend]
    split
    · exact ih _ _
    · rfl
  | branch c v ih =>
    cases k with
    | nil => rfl
    | cons a k =>
      rw [descend, ih, plug_cons, Frame.fill, Function.update_eq_self]

theorem ctxPath_descend (t : Tree α β) (k : List α) (ctx : List (Frame α β)) :
    ctxPath (descend t k ctx).ctx ++ (descend t k ctx).rest = ctxPath ctx ++ k := by
  induction t generalizing k ctx with
  | nil => simp [descend]
  | leaf p v => simp [descend]
  | ext p c ih =>
    rw [descend]
    split
    · rename_i r h
      rw [ih, ctxPath_cons, Frame.path, List.append_assoc, ← stripPrefix_eq_some.mp h]
    · rfl
  | branch c v ih =>
    cases k with
    | nil => rfl
    | cons a k =>
      rw [descend, ih, ctxPath_cons, Frame.path, List.append_assoc, List.singleton_append]

/-- The lookup of a key is the lookup of its rest at the site where its walk stops. -/
theorem lookup_descend (t : Tree α β) (k : List α) :
    t.lookup k = (descend t k []).focus.lookup (descend t k []).rest := by
  have hplug := plug_descend t k []
  have hpath := ctxPath_descend t k []
  generalize descend t k [] = site at hplug hpath ⊢
  rw [plug_nil] at hplug
  rw [ctxPath_nil, List.nil_append] at hpath
  rw [← hplug, ← hpath]
  exact lookup_plug_append site.ctx site.focus site.rest

end Patricia
