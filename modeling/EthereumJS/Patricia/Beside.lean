import EthereumJS.Patricia.Leaves
import EthereumJS.Patricia.Shape

/-! # Nodes beside a walk

The nodes of a tree are those on the walk along a key and those beside it, and an
update at the end of the walk keeps the latter. A node on the way of a key says how
the tree maps the key, and in a canonical tree also how far it is from the leaves.
-/

namespace Patricia

open Patricia.Tree

variable {α β : Type*} [DecidableEq α]

namespace Tree

/-- The predicate holds of every node below the top of a tree. -/
def Below (P : Tree α β → Prop) : Tree α β → Prop
  | ext _ c => c.All P
  | branch c _ => ∀ a, (c a).All P
  | _ => True

omit [DecidableEq α] in
theorem All.below {P : Tree α β → Prop} {t : Tree α β} (h : t.All P) : t.Below P := by
  cases t with
  | nil => trivial
  | leaf p v => trivial
  | ext p c => exact h.2
  | branch c v => exact h.2

omit [DecidableEq α] in
theorem Below.all {P : Tree α β → Prop} {t : Tree α β} (h : t.Below P) (hself : t ≠ nil → P t) :
    t.All P := by
  cases t with
  | nil => trivial
  | leaf p v => exact hself (by simp)
  | ext p c => exact ⟨hself (by simp), h⟩
  | branch c v => exact ⟨hself (by simp), h⟩

omit [DecidableEq α] in
theorem mem_node? {t u : Tree α β} : u ∈ t.node? ↔ u = t ∧ t ≠ nil := by
  cases t <;> simp [node?]

omit [DecidableEq α] in
theorem all_of_extend {P : Tree α β → Prop} {p : List α} {t : Tree α β} (h : (extend p t).All P) :
    t.All P := by
  cases p with
  | nil => exact h
  | cons a p => exact h.2

omit [DecidableEq α] in
theorem WF.all {t : Tree α β} (h : t.WF) : t.All WF := by
  induction t with
  | nil => trivial
  | leaf p v => trivial
  | ext p c ih => exact ⟨h, ih h.2.2⟩
  | branch c v ih => exact ⟨h, fun a => ih a (h a)⟩

/-- A node on the trail of a key is the focus of the walk, or above it. -/
theorem mem_trail_iff {t u : Tree α β} {k : List α} : u ∈ t.trail k ↔
    u ∈ (descend t k []).focus.node? ∨ u ∈ spine (descend t k []).ctx (descend t k []).focus := by
  rw [← List.mem_append, ← trail_descend, spine_nil, List.append_nil, List.mem_reverse]

end Tree

/-- The predicate holds of every node beside the walk that ends at a site. -/
def Site.Beside (P : Tree α β → Prop) (site : Site α β) : Prop :=
  (∀ f ∈ site.ctx, f.All P) ∧ site.focus.Below P

/-- The nodes of a tree are those on a walk and those beside it. -/
theorem all_iff_beside (P : Tree α β → Prop) (t : Tree α β) (k : List α) :
    t.All P ↔ (descend t k []).Beside P ∧ ∀ u ∈ t.trail k, P u := by
  have hplug := plug_descend t k []
  rw [plug_nil] at hplug
  have hsplit : t.All P ↔ _ := hplug ▸ all_plug P (descend t k []).ctx (descend t k []).focus
  rw [hsplit]
  constructor
  · rintro ⟨hfocus, hctx, hspine⟩
    refine ⟨⟨hctx, hfocus.below⟩, fun u hu => ?_⟩
    rcases mem_trail_iff.mp hu with hu | hu
    · obtain ⟨rfl, hne⟩ := mem_node?.mp hu
      exact hfocus.self hne
    · exact hspine u hu
  · rintro ⟨⟨hctx, hbelow⟩, htrail⟩
    refine ⟨hbelow.all fun hne => ?_, hctx, fun u hu => htrail u (mem_trail_iff.mpr (.inr hu))⟩
    exact htrail _ (mem_trail_iff.mpr (.inl (mem_node?.mpr ⟨rfl, hne⟩)))

theorem drop_commonPrefix_ne_nil {p r : List α} (h : stripPrefix p r = none) :
    p.drop (commonPrefix p r).length ≠ [] := by
  intro hnil
  obtain ⟨p', r', hp, hr, _⟩ := commonPrefix_spec p r
  have hp' : p' = [] := by
    rw [← hnil]
    conv_rhs => rw [hp]
    rw [List.drop_left' (by rw [← hp])]
  rw [hp', List.append_nil] at hp
  exact stripPrefix_eq_none.mp h r' (hp ▸ hr)

/-- What is left of a diverging node is part of the new tree. -/
theorem all_remainder {P : Tree α β → Prop} {s : Tree α β} {r : List α} {v : β}
    (h : (plug (diverge s r v).1 (diverge s r v).2).All P) (a : α) :
    ((s.remainder (commonPrefix s.path r).length).1 a).All P := by
  obtain ⟨q, r', hs, hr, hne⟩ := commonPrefix_spec s.path r
  generalize hm : commonPrefix s.path r = m at hs hr ⊢
  have hplug := plug_diverge s m r' v (hr ▸ hm)
  rw [← hr] at hplug
  rw [hplug] at h
  have hbranch := all_of_extend h
  cases r' with
  | nil => exact hbranch.2 a
  | cons b y =>
    by_cases hab : a = b
    · rw [hab, remainder_slot s m q hs b fun c x hq => hne c b x y hq rfl]
      trivial
    · have hslot := hbranch.2 a
      rwa [Function.update_of_ne hab] at hslot

theorem all_remainder_of_insert {P : Tree α β → Prop} {t : Tree α β} {k : List α} {v : β}
    (h : (insert t k v).All P)
    (hsite : insertSite (descend t k []).focus (descend t k []).rest v =
      diverge (descend t k []).focus (descend t k []).rest v) (a : α) :
    (((descend t k []).focus.remainder
      (commonPrefix (descend t k []).focus.path (descend t k []).rest).length).1 a).All P := by
  unfold insert at h
  simp only [plug_append, hsite] at h
  exact all_remainder ((all_plug P _ _).mp h).1 a

/-- What is left of a diverging node holds shorter keys. -/
theorem canon_remainder {m : Nat} {s : Tree α β} (hs : s.Canon m) {n : Nat} {a : α}
    (ha : (s.remainder n).1 a ≠ nil) : ∃ l < m, ((s.remainder n).1 a).Canon l := by
  cases s with
  | nil => exact absurd hs id
  | branch c v => exact absurd rfl ha
  | leaf p w =>
    have hlen := congrArg List.length (List.take_append_drop n p)
    simp only [remainder] at ha ⊢
    cases hp : p.drop n with
    | nil => simp [hp] at ha
    | cons b q =>
      simp only [hp] at ha hlen ⊢
      by_cases hab : a = b
      · subst hab
        refine ⟨q.length, ?_, by rw [single_self]; rfl⟩
        rw [← show p.length = m from hs, ← hlen, List.length_append, List.length_cons]
        omega
      · exact absurd (single_of_ne hab _) ha
  | ext p c =>
    obtain ⟨hp0, hcb, l, hl, hc⟩ := hs
    have hlen := congrArg List.length (List.take_append_drop n p)
    simp only [remainder] at ha ⊢
    cases hp : p.drop n with
    | nil => simp [hp] at ha
    | cons b q =>
      simp only [hp] at ha hlen ⊢
      rw [List.length_append, List.length_cons] at hlen
      by_cases hab : a = b
      · subst hab
        rw [single_self]
        cases q with
        | nil => exact ⟨l, by omega, hc⟩
        | cons d q => exact ⟨l + (d :: q).length, by omega, by simp, hcb, l, rfl, hc⟩
      · exact absurd (single_of_ne hab _) ha

/-- An insertion keeps the nodes beside the walk. -/
theorem beside_of_insert {P : Tree α β → Prop} {t : Tree α β} {k : List α} {v : β}
    (h : (insert t k v).All P) : (descend t k []).Beside P := by
  have hstuck := descend_stuck t k []
  unfold insert at h
  generalize descend t k [] = site at hstuck h ⊢
  obtain ⟨ctx, focus, rest⟩ := site
  simp only [plug_append] at h
  obtain ⟨hnew, hctx, _⟩ := (all_plug P ctx _).mp h
  refine ⟨hctx, ?_⟩
  cases focus with
  | nil => trivial
  | leaf p w => trivial
  | branch c w => exact hnew.2
  | ext p c =>
    have hold := all_remainder hnew
    have hdrop := drop_commonPrefix_ne_nil (show stripPrefix p rest = none from hstuck)
    simp only [Tree.path, remainder] at hold
    cases hp : p.drop (commonPrefix p rest).length with
    | nil => exact absurd hp hdrop
    | cons a q =>
      have hslot := hold a
      simp only [hp, single_self] at hslot
      exact all_of_extend hslot

/-- A subtree on the way of a key, with what is left of the key there. -/
def OnWay (t : Tree α β) (k r : List α) (u : Tree α β) : Prop :=
  ∃ ctx, plug ctx u = t ∧ ctxPath ctx ++ r = k

namespace OnWay

variable {t t' u u' : Tree α β} {k r r' : List α}

theorem lookup (h : OnWay t k r u) : u.lookup r = t.lookup k := by
  obtain ⟨ctx, rfl, rfl⟩ := h
  exact (lookup_plug_append ctx u r).symm

theorem canon (h : OnWay t k r u) (ht : t.Canon k.length) (hu : u ≠ nil) : u.Canon r.length := by
  obtain ⟨ctx, rfl, rfl⟩ := h
  rw [List.length_append, Nat.add_comm] at ht
  exact ((canon_plug ctx hu).mp ht).2.1

/-- Trees that map a key differently share no node on its way. -/
theorem ne (h : OnWay t k r u) (h' : OnWay t' k r' u') (ht : t.Canon k.length)
    (ht' : t'.Canon k.length) (hu : u ≠ nil) (hne : t.lookup k ≠ t'.lookup k) : u ≠ u' := by
  rintro rfl
  have hlen := (h.canon ht hu).depth_unique (h'.canon ht' hu)
  have hlookup := h.lookup
  have hlookup' := h'.lookup
  obtain ⟨ctx, _, hk⟩ := h
  obtain ⟨ctx', _, hk'⟩ := h'
  obtain ⟨_, rfl⟩ := List.append_inj' (hk.trans hk'.symm) hlen
  exact hne (hlookup.symm.trans hlookup')

end OnWay

theorem rest_suffix (t : Tree α β) (k : List α) (ctx : List (Frame α β)) :
    (descend t k ctx).rest <:+ k := by
  induction t generalizing k ctx with
  | nil => simp
  | leaf p v => simp
  | ext p c ih =>
    rw [descend]
    split
    · rename_i r hr
      rw [stripPrefix_eq_some.mp hr]
      exact (ih r _).trans (List.suffix_append p r)
    · exact List.suffix_rfl
  | branch c v ih =>
    cases k with
    | nil => exact List.suffix_rfl
    | cons a k => exact (ih a k _).trans (List.suffix_cons a k)

/-- The nodes of a trail are on the way, the last one with the rest of the key. -/
theorem onWay_of_mem_trail {t u : Tree α β} {k : List α} (hu : u ∈ t.trail k) :
    ∃ r, OnWay t k r u ∧ (descend t k []).rest <:+ r := by
  obtain ⟨above, below, hsplit⟩ := List.append_of_mem hu
  obtain ⟨fs, r, hplug, hk, _, hdescend⟩ := trail_split hsplit []
  rw [hdescend]
  exact ⟨r, ⟨fs, hplug, hk.symm⟩, rest_suffix u r _⟩

/-- The spine of a context is on the way to its hole. -/
theorem onWay_of_mem_spine {ctx : List (Frame α β)} {s u : Tree α β} (r : List α)
    (hu : u ∈ s :: spine ctx s) : ∃ q, OnWay (plug ctx s) (ctxPath ctx ++ r) (q ++ r) u := by
  induction ctx generalizing s r with
  | nil =>
    obtain rfl : u = s := by simpa using hu
    exact ⟨[], [], rfl, by simp⟩
  | cons f ctx ih =>
    rcases List.mem_cons.mp hu with rfl | hu
    · exact ⟨[], f :: ctx, rfl, by simp⟩
    · obtain ⟨q, ctx', hplug, hpath⟩ := ih (f.path ++ r) hu
      exact ⟨q ++ f.path, ctx', hplug, by simpa [List.append_assoc] using hpath⟩

section Lists

variable (letters : List α)

/-- All nodes of a tree. -/
def Tree.allNodes (t : Tree α β) : List (Tree α β) := t.nodes letters fun _ => true

/-- The nodes below the top of a tree. -/
def Tree.nodesBelow : Tree α β → List (Tree α β)
  | ext _ c => c.allNodes letters
  | branch c _ => letters.flatMap fun a => (c a).allNodes letters
  | _ => []

def Frame.siblings : Frame α β → List (Tree α β)
  | ext _ => []
  | branch c a _ => letters.flatMap fun b => if b = a then [] else (c b).allNodes letters

/-- The nodes beside the walk that ends at a site. -/
def Site.beside (site : Site α β) : List (Tree α β) :=
  site.ctx.flatMap (Frame.siblings letters) ++ site.focus.nodesBelow letters

variable {letters}

omit [DecidableEq α] in
theorem all_iff_allNodes (hletters : ∀ a, a ∈ letters) {P : Tree α β → Prop} {t : Tree α β} :
    t.All P ↔ ∀ s ∈ t.allNodes letters, P s :=
  ⟨fun h _ hs => (h.of_mem_nodes hs).self (ne_nil_of_mem_nodes hs), all_of_nodes hletters⟩

omit [DecidableEq α] in
theorem below_iff_nodesBelow (hletters : ∀ a, a ∈ letters) {P : Tree α β → Prop} {t : Tree α β} :
    t.Below P ↔ ∀ s ∈ t.nodesBelow letters, P s := by
  cases t with
  | nil => simp [Below, nodesBelow]
  | leaf p v => simp [Below, nodesBelow]
  | ext p c => exact all_iff_allNodes hletters
  | branch c v =>
    simp only [Below, nodesBelow, List.mem_flatMap, all_iff_allNodes hletters]
    exact ⟨fun h s ⟨a, _, hs⟩ => h a s hs, fun h a s hs => h s ⟨a, hletters a, hs⟩⟩

theorem frame_all_iff_siblings (hletters : ∀ a, a ∈ letters) {P : Tree α β → Prop}
    {f : Frame α β} : f.All P ↔ ∀ s ∈ f.siblings letters, P s := by
  cases f with
  | ext p => simp [Frame.All, Frame.siblings]
  | branch c a v =>
    simp only [Frame.All, Frame.siblings, List.mem_flatMap, all_iff_allNodes hletters]
    constructor
    · rintro h s ⟨b, _, hs⟩
      split at hs
      · cases hs
      · rename_i hb
        exact h b hb s hs
    · intro h b hb s hs
      exact h s ⟨b, hletters b, by rwa [if_neg hb]⟩

theorem beside_iff (hletters : ∀ a, a ∈ letters) {P : Tree α β → Prop} {site : Site α β} :
    site.Beside P ↔ ∀ s ∈ site.beside letters, P s := by
  simp only [Site.Beside, Site.beside, List.mem_append, List.mem_flatMap,
    frame_all_iff_siblings hletters, below_iff_nodesBelow hletters]
  constructor
  · rintro ⟨hctx, hfocus⟩ s (⟨f, hf, hs⟩ | hs)
    · exact hctx f hf s hs
    · exact hfocus s hs
  · intro h
    exact ⟨fun f hf s hs => h s (.inl ⟨f, hf, hs⟩), fun s hs => h s (.inr hs)⟩

end Lists

end Patricia
