import EthereumJS.Mpt.Delete

/-! # What an update writes

Every node of the updated tree that is referred to by its hash either was a node of
the tree before, below the path of the key, or is among the writes of the update.
-/

namespace EthereumJS

open RLP Patricia Patricia.Tree

/-- The write of a node under its hash. -/
def putNode (H : HashKeysFunction) (t : MPTree) : BatchDBOp :=
  .put (rootHash H t) (encodeTree H t)

/-- A node is kept from before, or it is written unless it is inlined. -/
def Covered (H : HashKeysFunction) (ops : List BatchDBOp) (Q : MPTree → Prop) (t : MPTree) : Prop :=
  Q t ∨ (32 ≤ (encodeTree H t).length → putNode H t ∈ ops)

theorem Covered.mono {H : HashKeysFunction} {ops ops' : List BatchDBOp} {Q : MPTree → Prop}
    (hops : ∀ op ∈ ops, op ∈ ops') {t : MPTree} (h : Covered H ops Q t) : Covered H ops' Q t :=
  h.imp_right fun hput hlen => hops _ (hput hlen)

theorem covered_storeOps (H : HashKeysFunction) (Q : MPTree → Prop) (t : MPTree) :
    Covered H (storeOps H t) Q t := by
  refine Or.inr fun hlen => ?_
  rw [storeOps_of_long H hlen]
  exact List.mem_singleton.mpr rfl

theorem all_covered {H : HashKeysFunction} (ops : List BatchDBOp) {Q : MPTree → Prop} {t : MPTree}
    (h : t.All Q) : t.All (Covered H ops Q) :=
  h.mono fun _ hs => Or.inl hs

/-- A saved stack covers the whole tree if it covers what lies beside and below it. -/
theorem covered_savedOps {H : HashKeysFunction} {ops : List BatchDBOp} {Q : MPTree → Prop}
    {ctx : List (Frame Nibble Value)} {s : MPTree}
    (hctx : ∀ f ∈ ctx, f.All (Covered H (ops ++ savedOps H ctx s) Q))
    (hs : Covered H (ops ++ savedOps H ctx s) Q s → s.All (Covered H (ops ++ savedOps H ctx s) Q)) :
    (plug ctx s).All (Covered H (ops ++ savedOps H ctx s) Q) := by
  refine (all_plug _ ctx s).mpr ⟨hs (Or.inr fun hlen => ?_), hctx, fun u hu => Or.inr fun hlen => ?_⟩
  · exact List.mem_append_right _ (savedOps_of_long H (by simp) hlen)
  · exact List.mem_append_right _ (savedOps_of_long H (List.mem_cons_of_mem _ hu) hlen)

theorem all_single {P : MPTree → Prop} {s : MPTree} (hs : s.All P) (a b : Nibble) :
    (single a s b).All P := by
  by_cases h : b = a
  · subst h
    rwa [single_self]
  · rw [single_of_ne h]
    trivial

theorem all_update {P : MPTree → Prop} {c : Nibble → MPTree} {a : Nibble} {s : MPTree}
    (hc : ∀ b, (c b).All P) (hs : s.All P) (b : Nibble) : (Function.update c a s b).All P := by
  by_cases h : b = a
  · subst h
    rwa [Function.update_self]
  · rw [Function.update_of_ne h]
    exact hc b

/-- The predicate holds of every node beside the branch that a removal leaves, and below
a last child of it. -/
def Remnant.Beside (P : MPTree → Prop) (r : Remnant) : Prop :=
  (∀ f ∈ r.ctx, f.All P) ∧
    ∀ a, (r.children a).Below P ∧ (¬ Only r.children a → (r.children a).All P)

/-- The parts of the branch that a removal leaves were parts of the tree. -/
theorem all_remnant {P : MPTree → Prop} {site : Site Nibble Value}
    (h : (plug site.ctx site.focus).All P) {r : Remnant} (hr : remnant site = some r) :
    (∀ a, (r.children a).All P) ∧ ∀ f ∈ r.ctx, f.All P := by
  obtain ⟨ctx, focus, rest⟩ := site
  obtain ⟨hfocus, hctx, _⟩ := (all_plug P ctx focus).mp h
  cases focus with
  | nil => simp [remnant] at hr
  | ext p c => simp [remnant] at hr
  | branch c w =>
    cases ctx with
    | nil => simp [remnant] at hr
    | cons f ctx =>
      obtain rfl := Option.some.inj hr
      exact ⟨hfocus.2, hctx⟩
  | leaf p w =>
    cases ctx with
    | nil => simp [remnant] at hr
    | cons f ctx =>
      cases f with
      | ext p => simp [remnant] at hr
      | branch c a v =>
        obtain rfl := Option.some.inj hr
        rw [List.forall_mem_cons] at hctx
        refine ⟨fun b => ?_, hctx.2⟩
        by_cases hb : b = a
        · subst hb
          simp only [Function.update_self]
          trivial
        · simp only [Function.update_of_ne hb]
          exact hctx.1 b hb

theorem beside_of_all {P : MPTree → Prop} {site : Site Nibble Value}
    (h : (plug site.ctx site.focus).All P) {r : Remnant} (hr : remnant site = some r) :
    r.Beside P := by
  obtain ⟨hc, hctx⟩ := all_remnant h hr
  exact ⟨hctx, fun a => ⟨(hc a).below, fun _ => hc a⟩⟩

namespace MerklePatriciaTrie

variable (trie : MerklePatriciaTrie)

/-- What is left of a leaf or an extension below the new branch is covered. -/
theorem covered_remainder {Q : MPTree → Prop} {s : MPTree} (hs : s.Below Q) (n : Nat) (a : Nibble) :
    ((s.remainder n).1 a).All (Covered trie.hashing (trie.divergeOps s n) Q) := by
  cases s with
  | nil => trivial
  | branch c w => trivial
  | leaf p w =>
    simp only [remainder, divergeOps]
    cases p.drop n with
    | nil => trivial
    | cons b q =>
      have hleaf : (leaf q w : MPTree).All
          (Covered trie.hashing (storeOps trie.hashing (leaf q w)) Q) :=
        covered_storeOps _ Q _
      exact all_single hleaf b a
  | ext p c =>
    simp only [remainder, divergeOps]
    cases p.drop n with
    | nil => trivial
    | cons b q =>
      refine all_single ?_ b a
      cases q with
      | nil => exact all_covered _ hs
      | cons d q => exact ⟨covered_storeOps _ Q _, all_covered _ hs⟩

theorem covered_diverge {Q : MPTree → Prop} {s : MPTree} (hs : s.Below Q) (r : Nibbles) (v : Value)
    {ctx : List (Frame Nibble Value)} (hctx : ∀ f ∈ ctx, f.All Q) :
    let ops := trie.divergeOps s (commonPrefix s.path r).length ++
      savedOps trie.hashing ((diverge s r v).1 ++ ctx) (diverge s r v).2
    (plug ((diverge s r v).1 ++ ctx) (diverge s r v).2).All (Covered trie.hashing ops Q) := by
  intro ops
  have hold : ∀ a, ((s.remainder (commonPrefix s.path r).length).1 a).All
      (Covered trie.hashing ops Q) := fun a =>
    (trie.covered_remainder hs _ a).mono fun _ h => h.mono fun _ hop =>
      List.mem_append_left _ hop
  have hnew : (∀ f ∈ (diverge s r v).1, f.All (Covered trie.hashing ops Q)) ∧
      (Covered trie.hashing ops Q (diverge s r v).2 →
        (diverge s r v).2.All (Covered trie.hashing ops Q)) := by
    generalize ops = ops at hold
    unfold diverge
    simp only
    have habove : ∀ f ∈ (if commonPrefix s.path r = [] then []
        else [Frame.ext (commonPrefix s.path r)] : List (Frame Nibble Value)),
        f.All (Covered trie.hashing ops Q) := by
      intro f hf
      split at hf
      · cases hf
      · rw [List.mem_singleton.mp hf]
        trivial
    cases r.drop (commonPrefix s.path r).length with
    | nil => exact ⟨habove, fun h => ⟨h, hold⟩⟩
    | cons a q =>
      refine ⟨?_, id⟩
      simp only [List.forall_mem_cons]
      exact ⟨fun b _ => hold b, habove⟩
  refine covered_savedOps ?_ hnew.2
  intro f hf
  rcases List.mem_append.mp hf with hf | hf
  · exact hnew.1 f hf
  · exact (hctx f hf).mono fun _ h => Or.inl h

/-- The nodes of a tree after an insertion. -/
theorem covered_insert {Q : MPTree → Prop} {t : MPTree} {k : Nibbles}
    (h : (descend t k []).Beside Q) (v : Value) :
    (Patricia.insert t k v).All (Covered trie.hashing (trie.insertOps (descend t k []) v) Q) := by
  unfold Patricia.insert insertOps
  generalize descend t k [] = site at h ⊢
  obtain ⟨ctx, focus, rest⟩ := site
  obtain ⟨hctx, hfocus⟩ := h
  have hctx' : ∀ (ops : List BatchDBOp), ∀ f ∈ ctx, f.All (Covered trie.hashing ops Q) :=
    fun ops f hf => (hctx f hf).mono fun _ h => Or.inl h
  cases focus with
  | nil => exact covered_savedOps (hctx' _) id
  | branch c w => exact covered_savedOps (hctx' _) fun h => ⟨h, fun a => all_covered _ (hfocus a)⟩
  | leaf p w =>
    by_cases hp : rest = p
    · simp only [insertSite, focusOps, if_pos hp]
      exact covered_savedOps (hctx' _) id
    · simp only [insertSite, focusOps, if_neg hp]
      exact trie.covered_diverge hfocus rest v hctx
  | ext p c => exact trie.covered_diverge hfocus rest v hctx

theorem covered_graftSite {Q : MPTree → Prop} {s : MPTree} (hs : s.Below Q) (a : Nibble)
    {ctx : List (Frame Nibble Value)} (hctx : ∀ f ∈ ctx, f.All Q) (ops : List BatchDBOp) :
    (∀ f ∈ (graftSite ctx a s).1, f.All (Covered trie.hashing ops Q)) ∧
      (Covered trie.hashing ops Q (graftSite ctx a s).2 →
        (graftSite ctx a s).2.All (Covered trie.hashing ops Q)) := by
  have hctx' : ∀ f ∈ ctx, f.All (Covered trie.hashing ops Q) :=
    fun f hf => (hctx f hf).mono fun _ h => Or.inl h
  cases ctx with
  | nil =>
    cases s with
    | nil => exact ⟨by simp [graftSite], fun _ => trivial⟩
    | leaf q v => exact ⟨by simp [graftSite], id⟩
    | ext q c => exact ⟨by simp [graftSite], fun h => ⟨h, all_covered ops hs⟩⟩
    | branch c v =>
      exact ⟨by simp [graftSite, Frame.All], fun h => ⟨h, fun b => all_covered ops (hs b)⟩⟩
  | cons f ctx =>
    rw [List.forall_mem_cons] at hctx'
    cases f with
    | ext p =>
      cases s with
      | nil => exact ⟨hctx'.2, fun _ => trivial⟩
      | leaf q v => exact ⟨hctx'.2, id⟩
      | ext q c => exact ⟨hctx'.2, fun h => ⟨h, all_covered ops hs⟩⟩
      | branch c v =>
        simp only [graftSite, List.forall_mem_cons]
        exact ⟨⟨trivial, hctx'.2⟩, fun h => ⟨h, fun b => all_covered ops (hs b)⟩⟩
    | branch d b w =>
      cases s with
      | nil =>
        simp only [graftSite, List.forall_mem_cons]
        exact ⟨hctx', fun _ => trivial⟩
      | leaf q v =>
        simp only [graftSite, List.forall_mem_cons]
        exact ⟨hctx', id⟩
      | ext q c =>
        simp only [graftSite, List.forall_mem_cons]
        exact ⟨hctx', fun h => ⟨h, all_covered ops hs⟩⟩
      | branch c v =>
        simp only [graftSite, List.forall_mem_cons]
        exact ⟨⟨trivial, hctx'⟩, fun h => ⟨h, fun b => all_covered ops (hs b)⟩⟩

theorem covered_shrink {Q : MPTree → Prop} {r : Remnant} (h : r.Beside Q) (ops : List BatchDBOp) :
    (shrink r.ctx r.children r.value).All (Covered trie.hashing
      (ops ++ savedOps trie.hashing (shrinkSite r.ctx r.children r.value).1
        (shrinkSite r.ctx r.children r.value).2) Q) := by
  obtain ⟨ctx, c, w⟩ := r
  obtain ⟨hctx, hc⟩ := h
  unfold shrink
  by_cases honly : ∃ a, Only c a
  · obtain ⟨a, ha⟩ := honly
    simp only [shrinkSite, childSlots_of_only ha]
    have hgraft := trie.covered_graftSite (hc a).1 a hctx
      (ops ++ savedOps trie.hashing (graftSite ctx a (c a)).1 (graftSite ctx a (c a)).2)
    exact covered_savedOps hgraft.1 hgraft.2
  · have hall : ∀ a, ¬ Only c a := by simpa using honly
    rw [shrinkSite_of_not_only hall]
    refine covered_savedOps (fun f hf => (hctx f hf).mono fun _ h => Or.inl h) ?_
    exact fun h => ⟨h, fun a => all_covered _ ((hc a).2 (hall a))⟩

/-- The nodes of a tree after a removal. -/
theorem covered_deleteAt {Q : MPTree → Prop} {t : MPTree} {k : Nibbles}
    (hfound : found (descend t k []) = true)
    (h : ∀ r, remnant (descend t k []) = some r → r.Beside Q) :
    (delete t k).All (Covered trie.hashing (trie.deleteOps (descend t k [])) Q) := by
  unfold delete deleteAt deleteOps
  rw [if_pos hfound]
  cases hr : remnant (descend t k []) with
  | none => trivial
  | some r => exact trie.covered_shrink (h r hr) _

end MerklePatriciaTrie

end EthereumJS
