import EthereumJS.Mpt.Lookup

/-! # Full branches

Every branch of a trie has a value or two children, whatever was written and removed.
Hence every subtree holds a key, and a removal at a site that is not safe changes the
map beyond its own key.
-/

namespace EthereumJS

open RLP Patricia Patricia.Tree

def Crowded (c : Nibble → MPTree) : Prop := ∃ a b, a ≠ b ∧ c a ≠ nil ∧ c b ≠ nil

def FullNode : MPTree → Prop
  | branch c w => w ≠ none ∨ Crowded c
  | _ => True

abbrev Full (t : MPTree) : Prop := t.All FullNode

theorem crowded_of_not_only {c : Nibble → MPTree} (h : ∃ a, c a ≠ nil) (hno : ∀ a, ¬ Only c a) :
    Crowded c := by
  obtain ⟨a, ha⟩ := h
  have hother : ∃ b, b ≠ a ∧ c b ≠ nil := by
    by_contra hnone
    push Not at hnone
    exact hno a ⟨ha, hnone⟩
  obtain ⟨b, hb, hcb⟩ := hother
  exact ⟨a, b, hb.symm, ha, hcb⟩

/-- A full subtree is not empty as a map. -/
theorem exists_lookup_of_full {t : MPTree} (hwf : t.WF) (ht : Full t) (hne : t ≠ nil) :
    ∃ k v, t.lookup k = some v := by
  induction t with
  | nil => exact absurd rfl hne
  | leaf p w => exact ⟨p, w, by simp⟩
  | ext p c ih =>
    obtain ⟨k, v, hk⟩ := ih hwf.2.2 ht.2 hwf.2.1.ne_nil
    exact ⟨p ++ k, v, by rw [lookup_ext_append, hk]⟩
  | branch c w ih =>
    cases w with
    | some v => exact ⟨[], v, rfl⟩
    | none =>
      obtain ⟨a, _, _, ha, _⟩ := ht.1.resolve_left (by simp)
      obtain ⟨k, v, hk⟩ := ih a (hwf a) (ht.2 a) ha
      exact ⟨a :: k, v, hk⟩

theorem fullNode_fill {f : Frame Nibble Value} {s s' : MPTree} (h : FullNode (f.fill s))
    (hs' : s' ≠ nil) : FullNode (f.fill s') := by
  cases f with
  | ext p => trivial
  | branch c a w =>
    refine Or.imp_right ?_ h
    have hkeep : ∀ b, Function.update c a s b ≠ nil → Function.update c a s' b ≠ nil := by
      intro b hb
      by_cases hba : b = a
      · subst hba
        rwa [Function.update_self]
      · rwa [Function.update_of_ne hba] at hb ⊢
    rintro ⟨x, y, hxy, hx, hy⟩
    exact ⟨x, y, hxy, hkeep x hx, hkeep y hy⟩

theorem fullNode_spine {ctx : List (Frame Nibble Value)} {s s' : MPTree}
    (h : ∀ u ∈ spine ctx s, FullNode u) (hs' : s' ≠ nil) : ∀ u ∈ spine ctx s', FullNode u := by
  induction ctx generalizing s s' with
  | nil => simp
  | cons f ctx ih =>
    rw [spine_cons, List.forall_mem_cons] at h ⊢
    exact ⟨fullNode_fill h.1 hs', ih h.2 (f.fill_ne_nil s')⟩

/-- Another full subtree in the place of one keeps the tree full. -/
theorem full_plug {ctx : List (Frame Nibble Value)} {s s' : MPTree} (h : Full (plug ctx s))
    (hs' : Full s') (hne : s' ≠ nil) : Full (plug ctx s') := by
  obtain ⟨_, hctx, hspine⟩ := (all_plug _ ctx s).mp h
  exact (all_plug _ ctx s').mpr ⟨hs', hctx, fullNode_spine hspine hne⟩

theorem full_prepend (p : Nibbles) {s : MPTree} (hs : Full s) : Full (prepend p s) := by
  cases s with
  | nil => trivial
  | leaf q v => trivial
  | ext q c => exact ⟨trivial, hs.2⟩
  | branch c w => exact ⟨trivial, hs⟩

theorem full_graft {ctx : List (Frame Nibble Value)} {a : Nibble} {s s' : MPTree}
    (h : Full (plug ctx s')) (hs : Full s) (hne : s ≠ nil) : Full (graft ctx a s) := by
  have hprepend : ∀ p, prepend p s ≠ nil := by
    intro p
    cases s with
    | nil => exact absurd rfl hne
    | leaf q v => simp [prepend]
    | ext q c => simp [prepend]
    | branch c w => simp [prepend]
  cases ctx with
  | nil => exact full_prepend [a] hs
  | cons f ctx =>
    cases f with
    | branch c b w => exact full_plug h (full_prepend [a] hs) (hprepend _)
    | ext p =>
      rw [plug_cons] at h
      exact full_plug h (full_prepend (p ++ [a]) hs) (hprepend _)

theorem full_shrink {ctx : List (Frame Nibble Value)} {s' : MPTree} (h : Full (plug ctx s'))
    {c : Nibble → MPTree} (hc : ∀ a, Full (c a)) {w : Option Value}
    (hw : w ≠ none ∨ ∃ a, c a ≠ nil) : Full (shrink ctx c w) := by
  by_cases honly : ∃ a, Only c a
  · obtain ⟨a, ha⟩ := honly
    rw [shrink_of_only ha]
    exact full_graft h (hc a) ha.1
  · have hno : ∀ a, ¬ Only c a := by simpa using honly
    rw [shrink_of_not_only hno]
    exact full_plug h ⟨hw.imp_right fun hex => crowded_of_not_only hex hno, hc⟩ (by simp)

/-- A removal keeps a tree full, also one that is not safe. -/
theorem full_delete {t : MPTree} (ht : Full t) (k : Nibbles) : Full (delete t k) := by
  have hplug := plug_descend t k []
  rw [plug_nil] at hplug
  rw [← hplug] at ht
  unfold delete deleteAt
  split
  swap
  · exact hplug ▸ ht
  generalize descend t k [] = site at ht ⊢
  obtain ⟨ctx, focus, rest⟩ := site
  obtain ⟨hfocus, hctx, hspine⟩ := (all_plug _ ctx focus).mp ht
  cases focus with
  | nil => trivial
  | ext p c => trivial
  | branch c w =>
    cases ctx with
    | nil => trivial
    | cons f ctx =>
      refine full_shrink ht hfocus.2 ?_
      exact hfocus.1.imp_right fun ⟨a, _, _, ha, _⟩ => ⟨a, ha⟩
  | leaf p v =>
    cases ctx with
    | nil => trivial
    | cons f ctx =>
      cases f with
      | ext q => trivial
      | branch c a w =>
        rw [List.forall_mem_cons] at hctx
        rw [spine_cons, List.forall_mem_cons] at hspine
        simp only [plug_cons] at ht
        refine full_shrink ht (fun b => ?_) ?_
        · by_cases hb : b = a
          · subst hb
            simp only [Function.update_self]
            trivial
          · simp only [Function.update_of_ne hb]
            exact hctx.1 b hb
        · refine Or.imp_right ?_ hspine.1
          rintro ⟨x, y, hxy, hx, hy⟩
          by_cases hxa : x = a
          · have hya : y ≠ a := fun h => hxy (hxa.trans h.symm)
            rw [Function.update_of_ne hya] at hy
            exact ⟨y, by simpa [hya] using hy⟩
          · rw [Function.update_of_ne hxa] at hx
            exact ⟨x, by simpa [hxa] using hx⟩

theorem full_extend {p : Nibbles} {s : MPTree} (hs : Full s) : Full (extend p s) := by
  cases p with
  | nil => exact hs
  | cons a p => exact ⟨trivial, hs⟩

theorem full_remainder {s : MPTree} (hs : Full s) (n : Nat) (a : Nibble) :
    Full ((s.remainder n).1 a) := by
  cases s with
  | nil => trivial
  | branch c w => trivial
  | leaf p w =>
    simp only [remainder]
    split
    · trivial
    · rename_i b q _
      have hleaf : Full (leaf q w) := trivial
      exact all_single hleaf b a
  | ext p c =>
    simp only [remainder]
    split
    · trivial
    · exact all_single (full_extend hs.2) _ a

/-- A new branch holds what is left of the old node and the new value. -/
theorem full_diverge {s : MPTree} (hs : Full s) (hwf : s.WF) (hkind : ∀ c w, s ≠ branch c w) (hne : s ≠ nil)
    {r : Nibbles} (hstuck : ∀ p c, s = ext p c → stripPrefix p r = none) (v : Value) :
    Full (plug (diverge s r v).1 (diverge s r v).2) := by
  obtain ⟨q, r', hsq, hr, hsplit⟩ := commonPrefix_spec s.path r
  generalize hm : commonPrefix s.path r = m at hsq hr
  have hplug := plug_diverge s m r' v (hr ▸ hm)
  rw [← hr] at hplug
  rw [hplug]
  have hold := full_remainder hs m.length
  refine full_extend ?_
  cases r' with
  | nil => exact ⟨Or.inl (by simp), hold⟩
  | cons a y =>
    have hleaf : Full (leaf y v) := trivial
    refine ⟨?_, all_update hold hleaf⟩
    have hcrowded : ∀ (b : Nibble) (x : Nibbles) (u : MPTree), q = b :: x → u ≠ nil →
        Crowded (Function.update (single b u) a (leaf y v)) := by
      intro b x u hq hu
      have hba : b ≠ a := hsplit b a x y hq rfl
      refine ⟨b, a, hba, ?_, by simp⟩
      rwa [Function.update_of_ne hba, single_self]
    cases s with
    | nil => exact absurd rfl hne
    | branch c w => exact absurd rfl (hkind c w)
    | leaf p w =>
      obtain rfl : p = m ++ q := hsq
      simp only [FullNode, remainder, List.drop_left]
      cases q with
      | nil => exact Or.inl (by simp)
      | cons b x => exact Or.inr (hcrowded b x (leaf x w) rfl (by simp))
    | ext p c =>
      obtain rfl : p = m ++ q := hsq
      simp only [FullNode, remainder, List.drop_left]
      cases q with
      | nil =>
        have := hstuck _ _ rfl
        rw [List.append_nil] at this
        exact absurd hr (stripPrefix_eq_none.mp this (a :: y))
      | cons b x =>
        refine Or.inr (hcrowded b x (extend x c) rfl ?_)
        cases x with
        | nil => exact hwf.2.1.ne_nil
        | cons d x => simp [extend]

theorem full_insert {t : MPTree} (hwf : t.WF) (ht : Full t) (k : Nibbles) (v : Value) :
    Full (Patricia.insert t k v) := by
  have hplug := plug_descend t k []
  have hstuck := descend_stuck t k []
  rw [plug_nil] at hplug
  rw [← hplug] at ht hwf
  unfold Patricia.insert
  generalize descend t k [] = site at ht hwf hstuck ⊢
  obtain ⟨ctx, focus, rest⟩ := site
  have hfocus := ((all_plug _ ctx focus).mp ht).1
  have hwf := ((wf_plug ctx focus).mp hwf).2.1
  have hnew : Full (plug (insertSite focus rest v).1 (insertSite focus rest v).2) := by
    cases focus with
    | nil => trivial
    | branch c w => exact ⟨Or.inl (by simp), hfocus.2⟩
    | leaf p w =>
      simp only [insertSite]
      split
      · trivial
      · exact full_diverge hfocus hwf (by simp) (by simp) (by simp) v
    | ext p c =>
      refine full_diverge hfocus hwf (by simp) (by simp) ?_ v
      rintro _ _ ⟨⟩
      exact hstuck
  simp only
  rw [plug_append]
  exact full_plug ht hnew (plug_ne_nil (insertSite_ne_nil focus rest v))

/-- A removal that takes its own key from the map, and no other, is at a safe site. -/
theorem safeSite_of_lookup {t : MPTree} (hwf : t.WF) (ht : Full t) {k : Nibbles}
    (hfound : found (descend t k []) = true) (hown : (delete t k).lookup k = none)
    (hother : ∀ x, x ≠ k → (delete t k).lookup x = none → t.lookup x = none) :
    SafeSite (descend t k []) := by
  have hplug := plug_descend t k []
  have hpath := ctxPath_descend t k []
  have hstuck := descend_stuck t k []
  rw [delete, deleteAt, if_pos hfound] at hown hother
  generalize descend t k [] = site at hplug hpath hstuck hfound hown hother ⊢
  obtain ⟨ctx, focus, rest⟩ := site
  rw [plug_nil] at hplug
  rw [ctxPath_nil, List.nil_append] at hpath
  simp only at hplug hpath
  rw [← hplug] at ht hwf hother
  have hfull := ((all_plug _ ctx focus).mp ht).1
  have hwfocus := ((wf_plug ctx focus).mp hwf).2.1
  cases focus with
  | nil => trivial
  | ext p c => trivial
  | branch c w =>
    obtain rfl : rest = [] := hstuck
    cases ctx with
    | nil =>
      intro a
      by_contra ha
      obtain ⟨x, v, hx⟩ := exists_lookup_of_full (hwfocus a) (hfull.2 a) ha
      have hnone := hother (a :: x) (by rw [← hpath]; simp) (lookup_nil _)
      rw [plug_nil, lookup_branch_cons, hx] at hnone
      cases hnone
    | cons f ctx =>
      by_contra hunmet
      have hsplit : w ≠ none ∧ ∀ a, ¬ Only c a := by
        simpa [SafeSite, remnant] using hunmet
      simp only [remnant] at hown
      rw [shrink_of_not_only hsplit.2, ← hpath, lookup_plug_append] at hown
      exact hsplit.1 hown
  | leaf p v =>
    cases ctx with
    | nil => trivial
    | cons f ctx =>
      cases f with
      | ext q => trivial
      | branch c a w =>
        by_contra hunmet
        obtain ⟨hw, b, hb⟩ : w ≠ none ∧ ∃ b, Only (Function.update c a nil) b := by
          simpa [SafeSite, remnant] using hunmet
        have hne : ctxPath ctx ++ [] ≠ k := by
          rw [← hpath, ctxPath_cons, List.append_assoc]
          simp [Frame.path]
        refine hw ?_
        have hnone := hother (ctxPath ctx ++ []) hne (by
          simp only [remnant]
          rw [shrink_of_only hb, lookup_graft hb, lookup_plug_append]
          rfl)
        rwa [plug_cons, lookup_plug_append] at hnone

end EthereumJS
