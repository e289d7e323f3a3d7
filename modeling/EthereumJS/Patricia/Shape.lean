import EthereumJS.Patricia.Canonical

/-! # Updates keep the shape of a tree

Insertion keeps well-formedness, and canonical form for keys of the tree's own
length. Removing a leaf below a branch restores canonical form by a merge.
-/

namespace Patricia

open Patricia.Tree

variable {α β : Type*} [DecidableEq α]

theorem wf_single (a : α) {s : Tree α β} (hs : s.WF) (b : α) : (single a s b).WF := by
  by_cases h : b = a
  · subst h
    rwa [single_self]
  · rw [single_of_ne h]
    trivial

omit [DecidableEq α] in
theorem wf_extend {p : List α} {s : Tree α β} (hs : s.WF) (hb : p ≠ [] → s.IsBranch) :
    (extend p s).WF := by
  cases p with
  | nil => exact hs
  | cons a p => exact ⟨by simp, hb (by simp), hs⟩

theorem wf_remainder {s : Tree α β} (hs : s.WF) (n : Nat) (a : α) : ((s.remainder n).1 a).WF := by
  cases s with
  | nil => trivial
  | branch c v => trivial
  | leaf p v =>
    simp only [remainder]
    split
    · trivial
    · rename_i b q _
      exact wf_single b (s := leaf q v) trivial a
  | ext p c =>
    simp only [remainder]
    split
    · trivial
    · exact wf_single _ (wf_extend hs.2.2 fun _ => hs.2.1) a

theorem wf_update {c : α → Tree α β} (hc : ∀ a, (c a).WF) (b : α) {s : Tree α β} (hs : s.WF)
    (a : α) : (Function.update c b s a).WF := by
  by_cases h : a = b
  · subst h
    rwa [Function.update_self]
  · rw [Function.update_of_ne h]
    exact hc a

theorem wf_diverge {s : Tree α β} (hs : s.WF) (r : List α) (v : β) :
    (plug (diverge s r v).1 (diverge s r v).2).WF := by
  obtain ⟨q, r', _, hr, _⟩ := commonPrefix_spec s.path r
  generalize hm : commonPrefix s.path r = m at hr
  have hplug := plug_diverge s m r' v (hr ▸ hm)
  rw [← hr] at hplug
  rw [hplug]
  have hold := wf_remainder hs m.length
  cases r' with
  | nil => exact wf_extend hold fun _ => trivial
  | cons a y => exact wf_extend (wf_update hold a trivial) fun _ => trivial

theorem wf_insertSite {s : Site α β} (hs : s.focus.WF) (v : β) :
    (plug (insertSite s.focus s.rest v).1 (insertSite s.focus s.rest v).2).WF := by
  obtain ⟨ctx, focus, rest⟩ := s
  cases focus with
  | nil => trivial
  | branch c w => exact hs
  | leaf p w =>
    simp only [insertSite]
    split
    · trivial
    · exact wf_diverge hs rest v
  | ext p c => exact wf_diverge hs rest v

theorem wf_insert {t : Tree α β} (ht : t.WF) (k : List α) (v : β) : (insert t k v).WF := by
  have hplug := plug_descend t k []
  unfold insert
  generalize descend t k [] = site at hplug ⊢
  rw [plug_nil] at hplug
  rw [← hplug, wf_plug] at ht
  simp only
  rw [plug_append, wf_plug]
  refine ⟨ht.1, wf_insertSite ht.2.1 v, fun hneed => ?_⟩
  have hfocus := ht.2.2 hneed
  obtain ⟨ctx, focus, rest⟩ := site
  cases focus with
  | branch c w => trivial
  | nil => exact absurd hfocus id
  | leaf p w => exact absurd hfocus id
  | ext p c => exact absurd hfocus id

omit [DecidableEq α] in
theorem wf_prepend {p : List α} (hp : p ≠ []) {s : Tree α β} (hs : s.WF) : (prepend p s).WF := by
  cases s with
  | nil => trivial
  | leaf q v => trivial
  | ext q c => exact ⟨by simp [hp], hs.2⟩
  | branch c v => exact ⟨hp, trivial, hs⟩

theorem wf_graft {ctx : List (Frame α β)} (hctx : CtxWF ctx) (a : α) {s : Tree α β} (hs : s.WF) :
    (graft ctx a s).WF := by
  have hone : (prepend [a] s).WF := wf_prepend (by simp) hs
  cases ctx with
  | nil => exact hone
  | cons f ctx =>
    cases f with
    | branch d b w =>
      exact (wf_plug _ _).mpr ⟨hctx, hone, fun hneed => absurd hneed id⟩
    | ext p =>
      exact (wf_plug _ _).mpr ⟨hctx.2.1, wf_prepend (by simp) hs,
        fun hneed => absurd (hctx.2.2 hneed) id⟩

/-- Two keys of one length part into two leaves below a branch. -/
theorem canon_diverge_leaf {p r : List α} (w v : β) (hlen : p.length = r.length) (hne : r ≠ p) :
    (plug (diverge (leaf p w) r v).1 (diverge (leaf p w) r v).2).Canon r.length := by
  obtain ⟨q, r', hp, hr, hsplit⟩ := commonPrefix_spec p r
  generalize hm : commonPrefix p r = m at hp hr
  subst hp hr
  rw [plug_diverge (leaf (m ++ q) w) m r' v hm]
  cases q with
  | nil =>
    have : r' = [] := by simpa using hlen
    simp [this] at hne
  | cons a x =>
    cases r' with
    | nil => simp at hlen
    | cons b y =>
      have hxy : x.length = y.length := by simpa using hlen
      have hba : b ≠ a := (hsplit a b x y rfl rfl).symm
      have hcanon : (branch (Function.update (single a (leaf x w)) b (leaf y v)) none).Canon
          (y.length + 1) := by
        refine ⟨rfl, ⟨y.length, rfl, fun e => ?_⟩, a, b, hba.symm, ?_, ?_⟩
        · by_cases heb : e = b
          · subst heb
            rw [Function.update_self]
            exact Or.inr rfl
          · rw [Function.update_of_ne heb]
            by_cases hea : e = a
            · subst hea
              rw [single_self]
              exact Or.inr hxy
            · exact Or.inl (single_of_ne hea _)
        · rw [Function.update_of_ne hba.symm, single_self]
          simp
        · rw [Function.update_self]
          simp
      simp only [remainder, List.drop_left]
      cases m with
      | nil => exact hcanon
      | cons e m =>
        refine ⟨by simp, trivial, y.length + 1, ?_, hcanon⟩
        simp only [List.length_append, List.length_cons]
        omega

/-- A key that leaves the path of an extension above a canonical branch. -/
theorem canon_diverge_ext {n : Nat} {p r : List α} {c : Tree α β} (v : β)
    (hc : (ext p c).Canon n) (hlen : r.length = n) (hnone : stripPrefix p r = none) :
    (plug (diverge (ext p c) r v).1 (diverge (ext p c) r v).2).Canon n := by
  obtain ⟨hp, hcb, l, hl, hcl⟩ := hc
  obtain ⟨q, r', hpq, hr, hsplit⟩ := commonPrefix_spec p r
  generalize hm : commonPrefix p r = m at hpq hr
  subst hpq hr
  rw [plug_diverge (ext (m ++ q) c) m r' v hm]
  cases q with
  | nil =>
    rw [List.append_nil, stripPrefix_append] at hnone
    cases hnone
  | cons a x =>
    cases r' with
    | nil =>
      simp only [List.length_append, List.length_cons, List.length_nil] at hlen hl
      omega
    | cons b y =>
      simp only [List.length_append, List.length_cons] at hlen hl
      have hy : y.length = l + x.length := by omega
      have hba : b ≠ a := (hsplit a b x y rfl rfl).symm
      have hchild : (extend x c).Canon y.length := by
        cases x with
        | nil =>
          rw [hy]
          exact hcl
        | cons e x => exact ⟨by simp, hcb, l, hy, hcl⟩
      have hcanon : (branch (Function.update (single a (extend x c)) b (leaf y v)) none).Canon
          (y.length + 1) := by
        refine ⟨rfl, ⟨y.length, rfl, fun e => ?_⟩, a, b, hba.symm, ?_, ?_⟩
        · by_cases heb : e = b
          · subst heb
            rw [Function.update_self]
            exact Or.inr rfl
          · rw [Function.update_of_ne heb]
            by_cases hea : e = a
            · subst hea
              rw [single_self]
              exact Or.inr hchild
            · exact Or.inl (single_of_ne hea _)
        · rw [Function.update_of_ne hba.symm, single_self]
          exact hchild.ne_nil
        · rw [Function.update_self]
          simp
      simp only [remainder, List.drop_left]
      cases m with
      | nil =>
        have : n = y.length + 1 := by
          simp only [List.length_nil] at hlen
          omega
        rw [this]
        exact hcanon
      | cons e m =>
        refine ⟨by simp, trivial, y.length + 1, ?_, hcanon⟩
        simp only [List.length_cons] at hlen ⊢
        omega

theorem canon_insert {n : Nat} {t : Tree α β} (ht : t = nil ∨ t.Canon n) {k : List α} (v : β)
    (hk : k.length = n) : (insert t k v).Canon n := by
  rcases ht with rfl | ht
  · exact hk
  have hplug := plug_descend t k []
  have hpath := ctxPath_descend t k []
  have hstuck := descend_stuck t k []
  unfold insert
  generalize descend t k [] = site at hplug hpath hstuck ⊢
  obtain ⟨ctx, focus, rest⟩ := site
  rw [plug_nil] at hplug
  rw [ctxPath_nil, List.nil_append] at hpath
  have hn : n = rest.length + (ctxPath ctx).length := by
    rw [← hk, ← hpath, List.length_append, Nat.add_comm]
  simp only at hplug ⊢
  rw [plug_append, hn]
  rw [← hplug, hn] at ht
  cases focus with
  | nil =>
    have hneed : ¬ NeedsBranch ctx := fun h => absurd (((wf_plug _ _).mp ht.wf).2.2 h) id
    cases ctx with
    | nil => exact absurd ht id
    | cons f ctx =>
      have hf : f.IsBranch := by
        by_contra hf
        exact hneed ((needsBranch_cons f ctx).mpr hf)
      refine (canon_plug _ (by simp [insertSite])).mpr ⟨ctxCanon_of_plug_nil hf ht, rfl, ?_⟩
      exact fun h => absurd h hneed
  | leaf p w =>
    obtain ⟨hctx, hleaf, hneed⟩ := (canon_plug ctx (by simp)).mp ht
    by_cases hp : rest = p
    · subst hp
      rw [insertSite, if_pos rfl]
      exact (canon_plug _ (by simp)).mpr ⟨hctx, rfl, hneed⟩
    · rw [insertSite, if_neg hp]
      have hcanon := canon_diverge_leaf w v hleaf hp
      exact (canon_plug _ hcanon.ne_nil).mpr ⟨hctx, hcanon, fun h => absurd (hneed h) id⟩
  | ext p c =>
    obtain ⟨hctx, hext, hneed⟩ := (canon_plug ctx (by simp)).mp ht
    have hcanon := canon_diverge_ext v hext rfl hstuck
    exact (canon_plug _ hcanon.ne_nil).mpr ⟨hctx, hcanon, fun h => absurd (hneed h) id⟩
  | branch c w =>
    obtain rfl : rest = [] := hstuck
    obtain ⟨_, ⟨_, ⟨m, hm, _⟩, _⟩, _⟩ := (canon_plug ctx (by simp)).mp ht
    simp at hm

omit [DecidableEq α] in
theorem canon_prepend {n : Nat} {p : List α} (hp : p ≠ []) {s : Tree α β} (hs : s.Canon n) :
    (prepend p s).Canon (n + p.length) := by
  cases s with
  | nil => exact absurd hs id
  | leaf q v =>
    have hq : q.length = n := hs
    simp [prepend, Tree.Canon, hq, Nat.add_comm]
  | ext q c =>
    obtain ⟨_, hb, m, hm, hc⟩ := hs
    exact ⟨by simp [hp], hb, m, by rw [List.length_append]; omega, hc⟩
  | branch c v => exact ⟨hp, trivial, n, rfl, hs⟩

/-- Merging the last child of a canonical branch into its surroundings. -/
theorem canon_graft {n : Nat} {ctx : List (Frame α β)} (hctx : CtxCanon (n + 1) ctx) (a : α)
    {s : Tree α β} (hs : s.Canon n) : (graft ctx a s).Canon (n + 1 + (ctxPath ctx).length) := by
  have hone : (prepend [a] s).Canon (n + 1) := canon_prepend (p := [a]) (by simp) hs
  cases ctx with
  | nil => exact hone
  | cons f ctx =>
    cases f with
    | branch d b w =>
      exact (canon_plug _ hone.ne_nil).mpr ⟨hctx, hone, fun hneed => absurd hneed id⟩
    | ext p =>
      have hcanon : (prepend (p ++ [a]) s).Canon (n + 1 + p.length) := by
        have := canon_prepend (p := p ++ [a]) (by simp) hs
        rwa [List.length_append, List.length_singleton, Nat.add_comm p.length, ← Nat.add_assoc] at this
      have hlen : n + 1 + (ctxPath (.ext p :: ctx)).length =
          n + 1 + p.length + (ctxPath ctx).length := by
        rw [ctxPath_cons, List.length_append, Frame.path]
        omega
      rw [hlen]
      exact (canon_plug _ hcanon.ne_nil).mpr ⟨hctx.2.1, hcanon,
        fun hneed => absurd (hctx.2.2 hneed) id⟩

end Patricia
