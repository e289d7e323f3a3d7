import EthereumJS.Mpt.Pruning

/-! # The steps of a trie that prunes

For keys of one length, the nodes that an update writes are none of the nodes on the
walk before it. So a pruning trie loses a node only where a node beside the walk has
the encoding of a deleted one.
-/

namespace EthereumJS

open RLP Patricia Patricia.Tree

/-- No hashed node of the second list has the encoding of a node of the first. -/
def Apart (H : HashKeysFunction) (removed others : List MPTree) : Prop :=
  ∀ d ∈ removed, ∀ s ∈ others, 32 ≤ (encodeTree H s).length → encodeTree H s ≠ encodeTree H d

instance (H : HashKeysFunction) (removed others : List MPTree) :
    Decidable (Apart H removed others) :=
  inferInstanceAs (Decidable (∀ d ∈ removed, ∀ s ∈ others, _))

theorem Site.Beside.and {P Q : MPTree → Prop} {site : Site Nibble Value} (hP : site.Beside P)
    (hQ : site.Beside Q) : site.Beside fun s => P s ∧ Q s := by
  rw [beside_iff List.mem_finRange] at hP hQ ⊢
  exact fun s hs => ⟨hP s hs, hQ s hs⟩

theorem ctxPath_insertSite {s : MPTree} {r : Nibbles} (h : (⟨[], s, r⟩ : Site Nibble Value).Stuck)
    (v : Value) : ctxPath (insertSite s r v).1 ++ (insertSite s r v).2.path = r := by
  cases s with
  | nil => rfl
  | branch c w =>
    obtain rfl : r = [] := h
    rfl
  | ext p c => exact MerklePatriciaTrie.ctxPath_diverge (ext p c) r v
  | leaf p w =>
    by_cases hp : r = p
    · rw [insertSite, if_pos hp, hp]
      rfl
    · rw [insertSite, if_neg hp]
      exact MerklePatriciaTrie.ctxPath_diverge (leaf p w) r v

/-- Inserting the value that is there changes nothing. -/
theorem insert_same {n : Nat} {t : MPTree} (ht : CanonAt n t) {k : Nibbles} {v : Value}
    (h : t.lookup k = some v) : Patricia.insert t k v = t := by
  have hk := ht.length_of_lookup h
  refine CanonAt.eq_of_lookup (.inr (canon_insert ht v hk)) ht fun k' => ?_
  rw [lookup_insert]
  split
  · rename_i hk'
    rw [hk', h]
  · rfl

/-- The spine of a context belongs to the whole tree. -/
theorem mem_nodesOf_plug {ctx : List (Frame Nibble Value)} {s u : MPTree} (hs : s ≠ nil)
    (hu : u ∈ s :: spine ctx s) : u ∈ nodesOf (plug ctx s) := by
  have hall := all_iff_nodesOf.mpr fun x (hx : x ∈ nodesOf (plug ctx s)) => hx
  obtain ⟨hfocus, _, hspine⟩ := (all_plug _ ctx s).mp hall
  rcases List.mem_cons.mp hu with rfl | hu
  · exact hfocus.self hs
  · exact hspine u hu

namespace MerklePatriciaTrie

variable (trie : MerklePatriciaTrie)

/-- Below a new branch, the remainder of the old node is put, or its entry deleted. -/
theorem mem_divergeOps {s : MPTree} {n : Nat} {op : BatchDBOp} (h : op ∈ trie.divergeOps s n) :
    (∃ a, (s.remainder n).1 a ≠ nil ∧
      32 ≤ (encodeTree trie.hashing ((s.remainder n).1 a)).length ∧
      op = putNode trie.hashing ((s.remainder n).1 a)) ∨
    s ≠ nil ∧ op = delNode trie.hashing s := by
  cases s with
  | nil => cases h
  | branch c w => cases h
  | leaf p w =>
    simp only [divergeOps] at h
    cases hp : p.drop n with
    | nil => simp [hp] at h
    | cons a q =>
      simp only [hp] at h
      obtain ⟨hop, hlen⟩ := mem_storeOps _ h
      have hslot : ((leaf p w).remainder n).1 a = leaf q w := by simp [remainder, hp]
      refine .inl ⟨a, ?_⟩
      rw [hslot]
      exact ⟨by simp, hlen, hop⟩
  | ext p c =>
    simp only [divergeOps] at h
    cases hp : p.drop n with
    | nil => simp [hp] at h
    | cons a q =>
      cases q with
      | nil =>
        simp only [hp, dropOps] at h
        split at h
        · exact .inr ⟨by simp, List.mem_singleton.mp h⟩
        · cases h
      | cons b q =>
        simp only [hp] at h
        obtain ⟨hop, hlen⟩ := mem_storeOps _ h
        have hslot : ((ext p c).remainder n).1 a = ext (b :: q) c := by
          simp [remainder, hp, extend]
        refine .inl ⟨a, ?_⟩
        rw [hslot]
        exact ⟨by simp, hlen, hop⟩

/-- Operations below a new branch only occur where the walk leaves a node. -/
theorem mem_focusOps {s : MPTree} {r : Nibbles} (hstuck : (⟨[], s, r⟩ : Site Nibble Value).Stuck)
    {op : BatchDBOp} (h : op ∈ trie.focusOps s r) (v : Value) :
    op ∈ trie.divergeOps s (commonPrefix s.path r).length ∧ insertSite s r v = diverge s r v ∧
      s.lookup r = none := by
  cases s with
  | nil => cases h
  | branch c w => cases h
  | ext p c => exact ⟨h, rfl, lookup_ext_of_none c hstuck⟩
  | leaf p w =>
    rw [focusOps] at h
    by_cases hp : r = p
    · rw [if_pos hp] at h
      cases h
    · rw [if_neg hp] at h
      exact ⟨h, by rw [insertSite, if_neg hp], by rw [lookup_leaf, if_neg hp]⟩

/-- An insertion puts hashed nodes of the new tree, which were not on the walk if it
changes a value, and it deletes a node of the walk at most. -/
theorem mem_insertOps {t : MPTree} {k : Nibbles} (ht : CanonAt k.length t) {v : Value}
    {op : BatchDBOp} (h : op ∈ trie.insertOps (descend t k []) v) :
    (∃ u ∈ nodesOf (Patricia.insert t k v), IsHashed trie.hashing (Patricia.insert t k v) u ∧
      op = putNode trie.hashing u ∧ (t.lookup k ≠ some v → u ∉ t.trail k)) ∨
    t.lookup k = none ∧ ∃ d ∈ t.trail k, op = delNode trie.hashing d := by
  have hplug := plug_descend t k []
  have hpath := ctxPath_descend t k []
  have hstuck := descend_stuck t k []
  rw [plug_nil] at hplug
  rw [ctxPath_nil, List.nil_append] at hpath
  have hnew : (Patricia.insert t k v).Canon k.length := canon_insert ht v rfl
  rcases List.mem_append.mp h with h | h
  · obtain ⟨hop, hsite, hnone⟩ := trie.mem_focusOps hstuck h v
    rcases trie.mem_divergeOps hop with ⟨a, ha, hlen, rfl⟩ | ⟨hne, rfl⟩
    · refine .inl ⟨_, ?_, .inr hlen, rfl, fun _ hmem => ?_⟩
      · exact (all_remainder_of_insert (all_iff_nodesOf.mpr fun _ hs => hs) hsite a).self ha
      · have hfocus : (descend t k []).focus ≠ nil := by
          intro hnil
          simp [hnil, remainder] at ha
        have htn : t ≠ nil := by
          rw [← hplug]
          exact plug_ne_nil hfocus
        have hcanon := ht.resolve_left htn
        have hdepth : (descend t k []).focus.Canon (descend t k []).rest.length :=
          OnWay.canon ⟨_, hplug, hpath⟩ hcanon hfocus
        obtain ⟨l, hl, hu⟩ := canon_remainder hdepth ha
        obtain ⟨r, hway, hsuffix⟩ := onWay_of_mem_trail hmem
        have hlength := (hway.canon hcanon ha).depth_unique hu
        have := hsuffix.length_le
        omega
    · refine .inr ⟨by rw [lookup_descend, hnone], _, ?_, rfl⟩
      exact mem_trail_iff.mpr (.inl (mem_node?.mpr ⟨rfl, hne⟩))
  · obtain ⟨u, hu, rfl, hwhy⟩ := mem_savedOps _ h
    refine .inl ⟨u, ?_, hwhy.symm, rfl, fun hchange hmem => ?_⟩
    · exact mem_nodesOf_plug (insertSite_ne_nil _ _ v) hu
    · obtain ⟨r, hway, _⟩ := onWay_of_mem_trail hmem
      have hcanon := ht.resolve_left (by
        rintro rfl
        simp at hmem)
      obtain ⟨q, hnewWay⟩ := onWay_of_mem_spine
        (insertSite (descend t k []).focus (descend t k []).rest v).2.path hu
      rw [ctxPath_append, List.append_assoc, ctxPath_insertSite hstuck, hpath] at hnewWay
      refine hnewWay.ne hway hnew hcanon (ne_nil_of_mem_trail hmem) ?_ rfl
      have hlookup := lookup_insert t k v k
      rw [if_pos rfl] at hlookup
      exact fun heq => hchange (heq.symm.trans hlookup)

end MerklePatriciaTrie

/-- A node of the new tree is in the database after a batch that puts nodes of that tree
only and does not delete this one. -/
theorem batch_node {H : HashKeysFunction} {E : Set Bytes} (hE : CollisionFree H E) {t : MPTree}
    (hknown : AllEncodedIn H E t) {ops : List BatchDBOp}
    (hputs : ∀ key e, .put key e ∈ ops → ∃ s ∈ nodesOf t, .put key e = putNode H s) {db : MapDB}
    {s : MPTree} (hs : s ∈ nodesOf t)
    (h : db (rootHash H s) = some (encodeTree H s) ∨ putNode H s ∈ ops)
    (hdel : delNode H s ∉ ops) : db.batch ops (rootHash H s) = some (encodeTree H s) := by
  refine batch_of_kept h hdel fun e' he' => ?_
  obtain ⟨s', hs', heq⟩ := hputs _ e' he'
  rw [eq_of_rootHash hE hknown hknown hs hs' (BatchDBOp.put.inj heq).1]
  exact (BatchDBOp.put.inj heq).2

theorem mem_nodesOf_of_mem_trail {t d : MPTree} {k : Nibbles} (hd : d ∈ t.trail k) :
    d ∈ nodesOf t :=
  ((all_iff_beside _ t k).mp (all_iff_nodesOf.mpr fun _ hs => hs)).2 d hd

namespace Pruned

variable {E : Set Bytes} {trie : MerklePatriciaTrie} {t : MPTree}

/-- An insertion into a pruned trie. -/
theorem insert (h : Pruned E trie t) (hE : CollisionFree trie.hashing E)
    (hempty : RLP_EMPTY_STRING ∈ E) {k : Nibbles} (ht : CanonAt k.length t) {v : Value}
    (hknown : AllEncodedIn trie.hashing E t)
    (hknown' : AllEncodedIn trie.hashing E (Patricia.insert t k v))
    (hapart : t.lookup k = some v ∨
      Apart trie.hashing (t.trail k) ((descend t k []).beside (List.finRange 16))) :
    Pruned E (trie.write ⟨rootHash trie.hashing (Patricia.insert t k v),
      trie.insertOps (descend t k []) v ++ trie.putPruning t k v⟩) (Patricia.insert t k v) := by
  have hputs : ∀ key e, .put key e ∈ trie.insertOps (descend t k []) v ++ trie.putPruning t k v →
      ∃ s ∈ nodesOf (Patricia.insert t k v), IsHashed trie.hashing (Patricia.insert t k v) s ∧
        .put key e = putNode trie.hashing s := by
    intro key e hop
    rcases List.mem_append.mp hop with hop | hop
    · rcases trie.mem_insertOps ht hop with ⟨u, hu, hhashed, heq, _⟩ | ⟨_, d, _, heq⟩
      · exact ⟨u, hu, hhashed, heq⟩
      · cases heq
    · unfold MerklePatriciaTrie.putPruning at hop
      split at hop
      · cases hop
      · simp [delNode] at hop
  have hdels : ∀ key, .del key ∈ trie.insertOps (descend t k []) v ++ trie.putPruning t k v →
      t.lookup k ≠ some v ∧ ∃ d ∈ t.trail k, key = rootHash trie.hashing d := by
    intro key hop
    rcases List.mem_append.mp hop with hop | hop
    · rcases trie.mem_insertOps ht hop with ⟨u, _, _, heq, _⟩ | ⟨hnone, d, hd, heq⟩
      · cases heq
      · exact ⟨by simp [hnone], d, hd, BatchDBOp.del.inj heq⟩
    · unfold MerklePatriciaTrie.putPruning at hop
      split at hop
      · cases hop
      · rename_i hchange
        obtain ⟨d, hd, heq⟩ := List.mem_map.mp hop
        exact ⟨hchange, d, hd, (BatchDBOp.del.inj heq).symm⟩
  have hwf : (Patricia.insert t k v).WF := wf_insert h.represents.wf k v
  refine h.write hE hempty hwf hknown' ?_ ?_ ?_
  · intro key e hop
    obtain ⟨s, hs, hhashed, heq⟩ := hputs key e hop
    exact ⟨s, hs, hhashed, (BatchDBOp.put.inj heq).1⟩
  · -- what is kept and what is written is none of the deleted nodes
    intro s hs hhashed
    have hbeside : (descend t k []).Beside fun s => (32 ≤ (encodeTree trie.hashing s).length →
        trie.db (rootHash trie.hashing s) = some (encodeTree trie.hashing s) ∧
          (t.lookup k ≠ some v → s ∉ t.trail k)) := by
      refine (beside_iff List.mem_finRange).mpr fun s hs hlen => ⟨?_, fun hchange hmem => ?_⟩
      · have hres := ((all_iff_beside _ t k).mp h.represents.stored).1
        exact (beside_iff List.mem_finRange).mp hres s hs hlen
      · exact hapart.resolve_left hchange s hmem s hs hlen rfl
    have hcov := all_iff_nodesOf.mp (trie.covered_insert hbeside v) s hs
    have hkept : trie.db (rootHash trie.hashing s) = some (encodeTree trie.hashing s) ∧
          (t.lookup k ≠ some v → s ∉ t.trail k) ∨
        putNode trie.hashing s ∈ trie.insertOps (descend t k []) v := by
      rcases hhashed with rfl | hlen
      · exact .inr (List.mem_append_right _ (savedOps_top _ _ _))
      · exact hcov.imp (· hlen) (· hlen)
    have hnot : t.lookup k ≠ some v → s ∉ t.trail k := by
      rcases hkept with ⟨_, hnot⟩ | hput
      · exact hnot
      · rcases trie.mem_insertOps ht hput with ⟨u, hu, _, heq, hnot⟩ | ⟨_, d, _, heq⟩
        · rw [eq_of_rootHash hE hknown' hknown' hs hu (BatchDBOp.put.inj heq).1]
          exact hnot
        · cases heq
    refine batch_node hE hknown' (fun key e hop => ?_) hs
      (hkept.imp And.left (List.mem_append_left _)) fun hdel => ?_
    · obtain ⟨s', hs', _, heq⟩ := hputs key e hop
      exact ⟨s', hs', heq⟩
    · obtain ⟨hchange, d, hd, heq⟩ := hdels _ hdel
      refine hnot hchange ?_
      rwa [eq_of_rootHash hE hknown' hknown hs (mem_nodesOf_of_mem_trail hd) heq]
  · by_cases hsame : t.lookup k = some v
    · rw [insert_same ht hsame]
      exact fun s hs hhashed => .inr ⟨hs, hhashed⟩
    · have hgone : ∀ d ∈ t.trail k, delNode trie.hashing d ∈
          trie.insertOps (descend t k []) v ++ trie.putPruning t k v := by
        intro d hd
        rw [MerklePatriciaTrie.putPruning, if_neg hsame]
        exact List.mem_append_right _ (List.mem_map_of_mem hd)
      have hall : t.All fun s => delNode trie.hashing s ∈
          trie.insertOps (descend t k []) v ++ trie.putPruning t k v ∨
          s ∈ nodesOf (Patricia.insert t k v) := by
        refine (all_iff_beside _ t k).mpr ⟨?_, fun d hd => .inl (hgone d hd)⟩
        have hkeep := beside_of_insert (all_iff_nodesOf.mpr
          fun s (hs : s ∈ nodesOf (Patricia.insert t k v)) => hs)
        exact (beside_iff List.mem_finRange).mpr fun s hs =>
          .inr ((beside_iff List.mem_finRange).mp hkeep s hs)
      intro s hs hhashed
      rcases hhashed with rfl | hlen
      · exact .inl (hgone _ (trail_eq_cons (ne_nil_of_mem_nodes hs) k ▸ List.mem_cons_self))
      · exact (all_iff_nodesOf.mp hall s hs).imp_right fun hs' => ⟨hs', .inr hlen⟩

end Pruned

/-- The nodes beside the branch that a removal leaves, and below a last child of it. -/
def Remnant.beside (r : Remnant) : List MPTree :=
  r.ctx.flatMap (Frame.siblings (List.finRange 16)) ++
    match childSlots r.children with
    | [a] => (r.children a).nodesBelow (List.finRange 16)
    | _ => (List.finRange 16).flatMap fun a => nodesOf (r.children a)

/-- A last child is merged with what is above it, unless it is a branch. -/
def Remnant.merged (r : Remnant) : List MPTree :=
  match childSlots r.children with
  | [a] =>
    match r.children a with
    | branch _ _ => []
    | s => [s]
  | _ => []

theorem remnant_beside_iff {P : MPTree → Prop} {r : Remnant} :
    r.Beside P ↔ ∀ s ∈ r.beside, P s := by
  obtain ⟨ctx, c, w⟩ := r
  simp only [Remnant.Beside, Remnant.beside, List.forall_mem_append, List.mem_flatMap]
  refine and_congr ?_ ?_
  · simp only [frame_all_iff_siblings List.mem_finRange]
    exact ⟨fun h s ⟨f, hf, hs⟩ => h f hf s hs, fun h f hf s hs => h s ⟨f, hf, hs⟩⟩
  · by_cases honly : ∃ a, Only c a
    · obtain ⟨a, ha⟩ := honly
      simp only [childSlots_of_only ha, ← below_iff_nodesBelow List.mem_finRange]
      refine ⟨fun h => (h a).1, fun h b => ?_⟩
      by_cases hb : b = a
      · subst hb
        exact ⟨h, fun hno => absurd ha hno⟩
      · rw [ha.2 b hb]
        exact ⟨trivial, fun _ => trivial⟩
    · have hall : ∀ a, ¬ Only c a := by simpa using honly
      split
      · rename_i a ha
        exact absurd (only_of_childSlots ha) (hall a)
      · simp only [List.mem_flatMap]
        constructor
        · rintro h s ⟨a, _, hs⟩
          exact all_iff_nodesOf.mp ((h a).2 (hall a)) s hs
        · intro h a
          have hnodes : (c a).All P :=
            all_iff_nodesOf.mpr fun s hs => h s ⟨a, List.mem_finRange a, hs⟩
          exact ⟨hnodes.below, fun _ => hnodes⟩

theorem mem_merged {r : Remnant} {d : MPTree} :
    d ∈ r.merged ↔ ∃ a, Only r.children a ∧ d = r.children a ∧ ¬ d.IsBranch := by
  unfold Remnant.merged
  by_cases honly : ∃ a, Only r.children a
  · obtain ⟨a, ha⟩ := honly
    have honly' : ∀ b, Only r.children b ↔ b = a := by
      refine fun b => ⟨fun hb => ?_, fun hb => hb ▸ ha⟩
      by_contra hne
      exact hb.1 (ha.2 b hne)
    simp only [childSlots_of_only ha, honly', exists_eq_left]
    cases hchild : r.children a with
    | nil => exact absurd hchild ha.1
    | leaf p v =>
      rw [List.mem_singleton, and_iff_left_of_imp]
      rintro rfl
      exact id
    | ext p c =>
      rw [List.mem_singleton, and_iff_left_of_imp]
      rintro rfl
      exact id
    | branch c v =>
      refine iff_of_false (by simp) ?_
      rintro ⟨rfl, hd⟩
      exact hd trivial
  · refine iff_of_false ?_ fun ⟨a, ha, _⟩ => honly ⟨a, ha⟩
    split
    · rename_i a ha
      exact absurd ⟨a, only_of_childSlots ha⟩ honly
    · simp

/-- A graft keeps the nodes around it, those below the subtree, and a branch itself. -/
theorem beside_of_graftSite {P : MPTree → Prop} {ctx : List (Frame Nibble Value)} {a : Nibble}
    {s : MPTree} (hctx : ∀ f ∈ (graftSite ctx a s).1, f.All P) (hs : (graftSite ctx a s).2.All P) :
    (∀ f ∈ ctx, f.All P) ∧ s.Below P ∧ (s.IsBranch → P s) := by
  cases ctx with
  | nil =>
    refine ⟨by simp, ?_⟩
    cases s with
    | nil => exact ⟨trivial, fun h => absurd h id⟩
    | leaf q v => exact ⟨trivial, fun h => absurd h id⟩
    | ext q c => exact ⟨hs.2, fun h => absurd h id⟩
    | branch c v => exact ⟨hs.2, fun _ => hs.1⟩
  | cons f ctx =>
    cases f with
    | ext p =>
      rw [List.forall_mem_cons]
      cases s with
      | nil => exact ⟨⟨trivial, hctx⟩, trivial, fun h => absurd h id⟩
      | leaf q v => exact ⟨⟨trivial, hctx⟩, trivial, fun h => absurd h id⟩
      | ext q c => exact ⟨⟨trivial, hctx⟩, hs.2, fun h => absurd h id⟩
      | branch c v =>
        simp only [graftSite, List.forall_mem_cons] at hctx
        exact ⟨⟨trivial, hctx.2⟩, hs.2, fun _ => hs.1⟩
    | branch d b w =>
      cases s with
      | nil => exact ⟨hctx, trivial, fun h => absurd h id⟩
      | leaf q v => exact ⟨hctx, trivial, fun h => absurd h id⟩
      | ext q c => exact ⟨hctx, hs.2, fun h => absurd h id⟩
      | branch c v =>
        simp only [graftSite, List.forall_mem_cons] at hctx
        exact ⟨List.forall_mem_cons.mpr hctx.2, hs.2, fun _ => hs.1⟩

theorem beside_of_shrink {P : MPTree → Prop} {r : Remnant}
    (h : (shrink r.ctx r.children r.value).All P) :
    r.Beside P ∧ ∀ a, Only r.children a → (r.children a).IsBranch → P (r.children a) := by
  obtain ⟨ctx, c, w⟩ := r
  simp only at h ⊢
  by_cases honly : ∃ a, Only c a
  · obtain ⟨a, ha⟩ := honly
    rw [shrink_of_only ha, ← plug_graftSite, all_plug] at h
    obtain ⟨hctx, hbelow, hbranch⟩ := beside_of_graftSite h.2.1 h.1
    refine ⟨⟨hctx, fun b => ?_⟩, fun b hb => ?_⟩
    · by_cases hba : b = a
      · subst hba
        exact ⟨hbelow, fun hno => absurd ha hno⟩
      · have hnil : c b = nil := ha.2 b hba
        simp only [hnil]
        exact ⟨trivial, fun _ => trivial⟩
    · by_cases hba : b = a
      · subst hba
        exact hbranch
      · exact absurd (ha.2 b hba) hb.1
  · have hall : ∀ a, ¬ Only c a := by simpa using honly
    rw [shrink_of_not_only hall, all_plug] at h
    exact ⟨⟨h.2.1, fun a => ⟨(h.1.2 a).below, fun _ => h.1.2 a⟩⟩, fun a ha => absurd ha (hall a)⟩

theorem exists_onWay (ctx : List (Frame Nibble Value)) {s u : MPTree} (r : Nibbles)
    (hu : u ∈ s :: spine ctx s) : ∃ q, OnWay (plug ctx s) (ctxPath ctx ++ r) q u := by
  obtain ⟨q, hway⟩ := onWay_of_mem_spine r hu
  exact ⟨q ++ r, hway⟩

/-- The saved nodes of a graft are on the way to its place, except for a branch that is
grafted as it is. -/
theorem onWay_of_graftSite {ctx : List (Frame Nibble Value)} {a : Nibble} {s u : MPTree}
    (r : Nibbles) (hu : u ∈ (graftSite ctx a s).2 :: spine (graftSite ctx a s).1 (graftSite ctx a s).2) :
    (u = s ∧ s.IsBranch) ∨ ∃ q, OnWay (graft ctx a s) (ctxPath ctx ++ r) q u := by
  rw [← plug_graftSite]
  cases ctx with
  | nil =>
    cases s with
    | nil => exact .inr (exists_onWay _ r hu)
    | leaf q v => exact .inr (exists_onWay _ r hu)
    | ext q c => exact .inr (exists_onWay _ r hu)
    | branch c v =>
      rcases List.mem_cons.mp hu with rfl | hu
      · exact .inl ⟨rfl, trivial⟩
      · exact .inr (exists_onWay [] r hu)
  | cons f ctx =>
    cases f with
    | ext p =>
      rw [ctxPath_cons, Frame.path, List.append_assoc]
      cases s with
      | nil => exact .inr (exists_onWay _ (p ++ r) hu)
      | leaf q v => exact .inr (exists_onWay _ (p ++ r) hu)
      | ext q c => exact .inr (exists_onWay _ (p ++ r) hu)
      | branch c v =>
        rcases List.mem_cons.mp hu with rfl | hu
        · exact .inl ⟨rfl, trivial⟩
        · exact .inr (exists_onWay ctx (p ++ r) hu)
    | branch d b w =>
      cases s with
      | nil => exact .inr (exists_onWay _ r hu)
      | leaf q v => exact .inr (exists_onWay _ r hu)
      | ext q c => exact .inr (exists_onWay _ r hu)
      | branch c v =>
        rcases List.mem_cons.mp hu with rfl | hu
        · exact .inl ⟨rfl, trivial⟩
        · exact .inr (exists_onWay (.branch d b w :: ctx) r hu)

theorem onWay_of_shrinkSite {r : Remnant} {u : MPTree} (rest : Nibbles)
    (hu : u ∈ (shrinkSite r.ctx r.children r.value).2 ::
      spine (shrinkSite r.ctx r.children r.value).1 (shrinkSite r.ctx r.children r.value).2) :
    (∃ a, Only r.children a ∧ u = r.children a ∧ u.IsBranch) ∨
      ∃ q, OnWay (shrink r.ctx r.children r.value) (ctxPath r.ctx ++ rest) q u := by
  obtain ⟨ctx, c, w⟩ := r
  simp only at hu ⊢
  by_cases honly : ∃ a, Only c a
  · obtain ⟨a, ha⟩ := honly
    rw [shrinkSite, childSlots_of_only ha] at hu
    rw [shrink_of_only ha]
    refine (onWay_of_graftSite rest hu).imp_left ?_
    rintro ⟨rfl, hbranch⟩
    exact ⟨a, ha, rfl, hbranch⟩
  · have hall : ∀ a, ¬ Only c a := by simpa using honly
    rw [shrinkSite_of_not_only hall] at hu
    rw [shrink_of_not_only hall]
    exact .inr (exists_onWay _ rest hu)

/-- The place where a removal from a canonical tree finds its key: the only leaf, or a
leaf below a branch. -/
theorem site_of_found {t : MPTree} {k : Nibbles} (ht : t.Canon k.length)
    (hfound : found (descend t k []) = true) :
    (∃ w, t = leaf k w) ∨
      ∃ c a v ctx p w, descend t k [] = ⟨.branch c a v :: ctx, leaf p w, p⟩ := by
  obtain ⟨⟨p, w, hfocus⟩, _⟩ := safeSite_of_canon ht rfl hfound
  have hneed := (Represents.site_of_wf ht.wf ht.ne_nil k).2
  have hplug := plug_descend t k []
  have hpath := ctxPath_descend t k []
  generalize descend t k [] = site at hfound hfocus hneed hplug hpath ⊢
  obtain ⟨ctx, focus, rest⟩ := site
  simp only at hfocus
  subst hfocus
  obtain rfl : rest = p := by simpa [found] using hfound
  cases ctx with
  | nil =>
    obtain rfl : rest = k := by simpa using hpath
    exact .inl ⟨w, by simpa using hplug.symm⟩
  | cons f ctx =>
    cases f with
    | ext q => exact absurd (hneed trivial) id
    | branch c a v => exact .inr ⟨c, a, v, ctx, rest, w, rfl⟩

section Removal

variable {t : MPTree} {k : Nibbles} {c : Nibble → MPTree} {a : Nibble} {v : Option Value}
  {ctx : List (Frame Nibble Value)} {p : Nibbles} {w : Value}

/-- The branch above a removed leaf, without that leaf. -/
def remnantOf (c : Nibble → MPTree) (a : Nibble) (v : Option Value)
    (ctx : List (Frame Nibble Value)) : Remnant :=
  ⟨ctx, Function.update c a nil, v⟩

theorem beside_of_remnant {P : MPTree → Prop} (h : (remnantOf c a v ctx).Beside P)
    (honly : ∀ e, Only (Function.update c a nil) e → P (Function.update c a nil e)) :
    (⟨.branch c a v :: ctx, leaf p w, p⟩ : Site Nibble Value).Beside P := by
  refine ⟨List.forall_mem_cons.mpr ⟨fun b hb => ?_, h.1⟩, trivial⟩
  have hchild := h.2 b
  simp only [remnantOf, Function.update_of_ne hb] at hchild
  by_cases hlast : Only (Function.update c a nil) b
  · have hself := honly b hlast
    rw [Function.update_of_ne hb] at hself
    exact hchild.1.all fun _ => hself
  · exact hchild.2 hlast

/-- A sibling of the removed leaf that is a branch is no node of the walk. -/
theorem branch_not_mem_trail (ht : t.Canon k.length)
    (hsite : descend t k [] = ⟨.branch c a v :: ctx, leaf p w, p⟩) {e : Nibble} (he : e ≠ a)
    (hbranch : (c e).IsBranch) : c e ∉ t.trail k := by
  have hplug := plug_descend t k []
  have hpath := ctxPath_descend t k []
  rw [hsite] at hplug hpath
  rw [plug_nil] at hplug
  rw [ctxPath_nil, List.nil_append, ctxPath_cons, List.append_assoc] at hpath
  intro hmem
  rw [mem_trail_iff, hsite] at hmem
  rcases hmem with hmem | hmem
  · obtain ⟨hleaf, _⟩ := mem_node?.mp hmem
    rw [hleaf] at hbranch
    exact hbranch
  · obtain ⟨q, hway⟩ := onWay_of_mem_spine (Frame.path (.branch c a v) ++ p) hmem
    rw [← plug_cons, hplug, hpath] at hway
    have habove := hway.canon ht hbranch.ne_nil
    rw [← hplug, ← hpath, ← List.append_assoc, ← ctxPath_cons, List.length_append,
      Nat.add_comm] at ht
    obtain ⟨⟨⟨_, hcanon, _⟩, _⟩, _⟩ := (canon_plug _ (by simp)).mp ht
    have hlen := habove.depth_unique ((hcanon e he).resolve_left hbranch.ne_nil)
    simp only [Frame.path, List.length_append, List.length_singleton] at hlen
    omega

theorem delete_of_site (hsite : descend t k [] = ⟨.branch c a v :: ctx, leaf p w, p⟩) :
    delete t k = shrink ctx (Function.update c a nil) v := by
  rw [delete, deleteAt, hsite, if_pos (by simp [found])]
  rfl

/-- No node that a removal saves was on the walk. -/
theorem shrunk_not_mem_trail (ht : t.Canon k.length)
    (hsite : descend t k [] = ⟨.branch c a v :: ctx, leaf p w, p⟩) {u : MPTree}
    (hu : u ∈ (shrinkSite ctx (Function.update c a nil) v).2 ::
      spine (shrinkSite ctx (Function.update c a nil) v).1
        (shrinkSite ctx (Function.update c a nil) v).2) : u ∉ t.trail k := by
  rcases onWay_of_shrinkSite (r := remnantOf c a v ctx) (Frame.path (.branch c a v) ++ p) hu with
    ⟨e, he, rfl, hbranch⟩ | ⟨q, hway⟩
  · have hne : e ≠ a := by
      rintro rfl
      exact he.1 (by simp [remnantOf])
    simp only [remnantOf, Function.update_of_ne hne] at hbranch ⊢
    exact branch_not_mem_trail ht hsite hne hbranch
  · intro hmem
    have hpath := ctxPath_descend t k []
    rw [hsite, ctxPath_nil, List.nil_append, ctxPath_cons, List.append_assoc] at hpath
    have hdelete := delete_of_site hsite
    have hfound : found (descend t k []) = true := by
      rw [hsite]
      simp [found]
    have hlookup := lookup_delete ht.wf (fun hf => (safeSite_of_canon ht rfl hf).2) k
    rw [if_pos rfl] at hlookup
    have hsome : t.lookup k = some w := by rw [lookup_descend, hsite, lookup_leaf, if_pos rfl]
    have hcanon : (delete t k).Canon k.length := by
      refine (canon_delete (.inr ht) rfl).resolve_left fun hnil => ?_
      rw [hdelete] at hnil
      exact plug_ne_nil (shrinkSite_ne_nil _ _ _) hnil
    obtain ⟨r, htrail, _⟩ := onWay_of_mem_trail hmem
    simp only [remnantOf, hpath, ← hdelete] at hway
    exact hway.ne htrail hcanon ht (ne_nil_of_mem_trail hmem) (by simp [hlookup, hsome]) rfl

theorem graftSite_of_branch (ctx : List (Frame Nibble Value)) (e : Nibble) {s : MPTree}
    (hs : s.IsBranch) : (graftSite ctx e s).2 = s := by
  cases s with
  | nil => exact absurd hs id
  | leaf q v => exact absurd hs id
  | ext q c => exact absurd hs id
  | branch c v =>
    cases ctx with
    | nil => rfl
    | cons f ctx => cases f <;> rfl

/-- What a removal saves are hashed nodes of the new tree that were not on the walk. -/
theorem mem_saved_of_delete {H : HashKeysFunction} (ht : t.Canon k.length)
    (hsite : descend t k [] = ⟨.branch c a v :: ctx, leaf p w, p⟩) {op : BatchDBOp}
    (h : op ∈ savedOps H (shrinkSite ctx (Function.update c a nil) v).1
      (shrinkSite ctx (Function.update c a nil) v).2) :
    ∃ u ∈ nodesOf (delete t k), IsHashed H (delete t k) u ∧ op = putNode H u ∧
      u ∉ t.trail k := by
  obtain ⟨u, hu, rfl, hwhy⟩ := mem_savedOps _ h
  have hdelete : delete t k = plug _ _ := delete_of_site hsite
  refine ⟨u, ?_, ?_, rfl, shrunk_not_mem_trail ht hsite hu⟩
  · rw [hdelete]
    exact mem_nodesOf_plug (shrinkSite_ne_nil _ _ _) hu
  · rw [hdelete]
    exact hwhy.symm

end Removal

namespace MerklePatriciaTrie

variable (trie : MerklePatriciaTrie)

theorem mem_leafOps {s : MPTree} {op : BatchDBOp} (h : op ∈ trie.leafOps s) :
    op = delNode trie.hashing s := by
  cases s with
  | nil => cases h
  | ext p c => cases h
  | branch c w => cases h
  | leaf p w =>
    simp only [leafOps, dropOps] at h
    split at h
    · exact List.mem_singleton.mp h
    · cases h

theorem mem_mergeOps {c : Nibble → MPTree} {op : BatchDBOp} : op ∈ trie.mergeOps c ↔
    trie.opts.useNodePruning = true ∧ ∃ a, Only c a ∧ op = delNode trie.hashing (c a) := by
  unfold mergeOps
  split
  · rename_i a ha
    have honly := only_of_childSlots ha
    have hunique : (∃ b, Only c b ∧ op = delNode trie.hashing (c b)) ↔
        op = delNode trie.hashing (c a) := by
      refine ⟨?_, fun hop => ⟨a, honly, hop⟩⟩
      rintro ⟨b, hb, rfl⟩
      by_cases hba : b = a
      · rw [hba]
      · exact absurd (honly.2 b hba) hb.1
    rw [hunique]
    split
    · rename_i huse
      rw [List.mem_singleton, and_iff_right huse]
      rfl
    · rename_i huse
      exact iff_of_false (by simp) fun hop => huse hop.1
  · rename_i hslots
    refine iff_of_false (by simp) ?_
    rintro ⟨_, a, ha, _⟩
    exact hslots a (childSlots_of_only ha)

/-- What a removal puts are nodes of the new tree. -/
theorem put_mem_deleteOps {t : MPTree} {k : Nibbles} (ht : t.Canon k.length)
    (hfound : found (descend t k []) = true) {key e : Bytes}
    (h : .put key e ∈ trie.deleteOps (descend t k [])) :
    ∃ s ∈ nodesOf (delete t k), e = encodeTree trie.hashing s := by
  rcases site_of_found ht hfound with ⟨w, rfl⟩ | ⟨c, a, v, ctx, p, w, hsite⟩
  · simp [deleteOps, remnant] at h
  · simp only [deleteOps, hsite, remnant, List.mem_append, trie.mem_mergeOps] at h
    rcases h with (h | ⟨_, _, _, h⟩) | h
    · cases trie.mem_leafOps h
    · cases h
    · obtain ⟨s, hs, _, heq, _⟩ := mem_saved_of_delete ht hsite h
      exact ⟨s, hs, (BatchDBOp.put.inj heq).2⟩

end MerklePatriciaTrie

namespace Pruned

variable {E : Set Bytes} {trie : MerklePatriciaTrie} {t : MPTree}

/-- The removal of the only leaf empties the database. -/
theorem delete_leaf {k : Nibbles} {w : Value} (h : Pruned E trie (leaf k w))
    (hE : CollisionFree trie.hashing E) (hempty : RLP_EMPTY_STRING ∈ E) :
    Pruned E (trie.write ⟨rootHash trie.hashing nil, [delNode trie.hashing (leaf k w)]⟩) nil := by
  refine h.write hE hempty trivial trivial (by simp [delNode]) (fun s hs => by cases hs) ?_
  intro s hs _
  obtain rfl := List.mem_singleton.mp hs
  exact .inl List.mem_cons_self

/-- The removal of a leaf below a branch. -/
theorem delete_below (h : Pruned E trie t) (hE : CollisionFree trie.hashing E)
    (hempty : RLP_EMPTY_STRING ∈ E) (huse : trie.opts.useNodePruning = true) {k : Nibbles}
    (ht : t.Canon k.length) (hknown : AllEncodedIn trie.hashing E t)
    (hknown' : AllEncodedIn trie.hashing E (delete t k)) {c : Nibble → MPTree} {a : Nibble}
    {v : Option Value} {ctx : List (Frame Nibble Value)} {p : Nibbles} {w : Value}
    (hsite : descend t k [] = ⟨.branch c a v :: ctx, leaf p w, p⟩)
    (hapart : Apart trie.hashing (t.trail k ++ (remnantOf c a v ctx).merged)
      (remnantOf c a v ctx).beside) :
    Pruned E (trie.write ⟨rootHash trie.hashing (delete t k), trie.deleteOps (descend t k []) ++
      (t.trail k).map (delNode trie.hashing)⟩) (delete t k) := by
  have hdelete := delete_of_site hsite
  have hfound : found (descend t k []) = true := by
    rw [hsite]
    simp [found]
  have hremnant : remnant (descend t k []) = some (remnantOf c a v ctx) := by
    rw [hsite]
    rfl
  have hplug := plug_descend t k []
  rw [plug_nil] at hplug
  have hpart : ∀ e, Function.update c a nil e ≠ nil → Function.update c a nil e ∈ nodesOf t := by
    intro e he
    have hall := all_iff_nodesOf.mpr fun s (hs : s ∈ nodesOf t) => hs
    refine ((all_remnant (P := (· ∈ nodesOf t)) ?_ hremnant).1 e).self he
    rwa [hplug]
  have hops : trie.deleteOps (descend t k []) = trie.leafOps (leaf p w) ++
      trie.mergeOps (Function.update c a nil) ++
        savedOps trie.hashing (shrinkSite ctx (Function.update c a nil) v).1
          (shrinkSite ctx (Function.update c a nil) v).2 := by
    rw [MerklePatriciaTrie.deleteOps, hremnant, hsite]
    rfl
  have hsaved : ∀ op ∈ savedOps trie.hashing (shrinkSite ctx (Function.update c a nil) v).1
      (shrinkSite ctx (Function.update c a nil) v).2,
      ∃ u ∈ nodesOf (delete t k), IsHashed trie.hashing (delete t k) u ∧
        op = putNode trie.hashing u ∧ u ∉ t.trail k :=
    fun _ => mem_saved_of_delete ht hsite
  have htop := savedOps_top trie.hashing (shrinkSite ctx (Function.update c a nil) v).1
    (shrinkSite ctx (Function.update c a nil) v).2
  have hbranch : ∀ e, Only (Function.update c a nil) e → (Function.update c a nil e).IsBranch →
      32 ≤ (encodeTree trie.hashing (Function.update c a nil e)).length →
      putNode trie.hashing (Function.update c a nil e) ∈
        savedOps trie.hashing (shrinkSite ctx (Function.update c a nil) v).1
          (shrinkSite ctx (Function.update c a nil) v).2 := by
    intro e he hb hlen
    refine savedOps_of_long trie.hashing ?_ hlen
    rw [shrinkSite, childSlots_of_only he, graftSite_of_branch ctx e hb]
    exact List.mem_cons_self
  rw [← show delete t k = plug _ _ from hdelete] at htop
  rw [hops]
  generalize savedOps trie.hashing (shrinkSite ctx (Function.update c a nil) v).1
    (shrinkSite ctx (Function.update c a nil) v).2 = saved at hops hsaved htop hbranch ⊢
  have hputs : ∀ key e, .put key e ∈ trie.leafOps (leaf p w) ++
      trie.mergeOps (Function.update c a nil) ++ saved ++ (t.trail k).map (delNode trie.hashing) →
      .put key e ∈ saved := by
    intro key e hop
    simp only [List.mem_append, List.mem_map, trie.mem_mergeOps] at hop
    rcases hop with ((hop | ⟨_, _, _, hop⟩) | hop) | ⟨_, _, hop⟩
    · cases trie.mem_leafOps hop
    · cases hop
    · exact hop
    · cases hop
  have hnode : ∀ {ops : List BatchDBOp}, (∀ key e, .put key e ∈ ops → .put key e ∈ saved) →
      ∀ key e, .put key e ∈ ops → ∃ s ∈ nodesOf (delete t k), .put key e = putNode trie.hashing s := by
    intro ops hsub key e hop
    obtain ⟨s, hs, _, heq, _⟩ := hsaved _ (hsub key e hop)
    exact ⟨s, hs, heq⟩
  have htrail : ∀ s ∈ nodesOf (delete t k), delNode trie.hashing s ∈
      (t.trail k).map (delNode trie.hashing) → s ∈ t.trail k := by
    intro s hs hop
    obtain ⟨d, hd, heq⟩ := List.mem_map.mp hop
    rwa [eq_of_rootHash hE hknown' hknown hs (mem_nodesOf_of_mem_trail hd)
      (BatchDBOp.del.inj heq).symm]
  have hleaf : leaf p w ∈ t.trail k := by
    rw [mem_trail_iff, hsite]
    exact .inl (mem_node?.mpr ⟨rfl, by simp⟩)
  refine h.write hE hempty (wf_delete ht.wf k) hknown' ?_ ?_ ?_
  · intro key e hop
    obtain ⟨s, hs, hhashed, heq, _⟩ := hsaved _ (hputs key e hop)
    exact ⟨s, hs, hhashed, (BatchDBOp.put.inj heq).1⟩
  · intro s hs hhashed
    by_cases hsave : putNode trie.hashing s ∈ saved
    · -- a saved node is put after the first deletions, and it was not on the walk
      obtain ⟨u, hu, _, heq, hnot⟩ := hsaved _ hsave
      obtain rfl := eq_of_rootHash hE hknown' hknown' hs hu (BatchDBOp.put.inj heq).1
      rw [List.append_assoc, MapDB.batch_append]
      refine batch_node hE hknown' (hnode fun key e hop => ?_) hs
        (.inr (List.mem_append_left _ hsave)) fun hdel => ?_
      · exact hputs key e (List.append_assoc _ saved _ ▸ List.mem_append_right _ hop)
      · rcases List.mem_append.mp hdel with hdel | hdel
        · obtain ⟨_, _, _, hno, _⟩ := hsaved _ hdel
          cases hno
        · exact hnot (htrail s hs hdel)
    · have hlen := hhashed.resolve_left fun hroot => hsave (hroot ▸ htop)
      have hbeside : (remnantOf c a v ctx).Beside fun s =>
          32 ≤ (encodeTree trie.hashing s).length →
            trie.db (rootHash trie.hashing s) = some (encodeTree trie.hashing s) ∧
              s ∉ t.trail k ++ (remnantOf c a v ctx).merged := by
        have hres : (remnantOf c a v ctx).Beside (Resident trie.hashing trie.db) :=
          beside_of_all (hplug.symm ▸ h.represents.stored) hremnant
        refine remnant_beside_iff.mpr fun s hs hlen => ⟨?_, fun hmem => ?_⟩
        · exact remnant_beside_iff.mp hres s hs hlen
        · exact hapart s hmem s hs hlen rfl
      have hcov := all_iff_nodesOf.mp (trie.covered_deleteAt hfound fun r hr => by
        obtain rfl := Option.some.inj (hremnant.symm.trans hr)
        exact hbeside) s hs
      rw [hops] at hcov
      obtain ⟨hdb, hnot⟩ := hcov.resolve_right (fun hput => hsave (hputs _ _
        (List.mem_append_left _ (hput hlen)))) hlen
      rw [List.mem_append, not_or] at hnot
      refine batch_node hE hknown' (hnode hputs) hs (.inl hdb) fun hdel => ?_
      simp only [List.mem_append, trie.mem_mergeOps] at hdel
      rcases hdel with ((hdel | ⟨_, e, he, hdel⟩) | hdel) | hdel
      · have heq := eq_of_rootHash hE hknown' hknown hs (mem_nodesOf_of_mem_trail hleaf)
          (BatchDBOp.del.inj (trie.mem_leafOps hdel))
        exact hnot.1 (heq ▸ hleaf)
      · obtain rfl := eq_of_rootHash hE hknown' hknown hs (hpart e he.1) (BatchDBOp.del.inj hdel)
        by_cases hb : (Function.update c a nil e).IsBranch
        · exact hsave (hbranch e he hb hlen)
        · exact hnot.2 (mem_merged.mpr ⟨e, he, rfl, hb⟩)
      · obtain ⟨_, _, _, hno, _⟩ := hsaved _ hdel
        cases hno
      · exact hnot.1 (htrail s hs hdel)
  · have hgone : ∀ d ∈ t.trail k, delNode trie.hashing d ∈ trie.leafOps (leaf p w) ++
        trie.mergeOps (Function.update c a nil) ++ saved ++
          (t.trail k).map (delNode trie.hashing) :=
      fun d hd => List.mem_append_right _ (List.mem_map_of_mem hd)
    have hall : t.All fun s => delNode trie.hashing s ∈ trie.leafOps (leaf p w) ++
        trie.mergeOps (Function.update c a nil) ++ saved ++
          (t.trail k).map (delNode trie.hashing) ∨ s ∈ nodesOf (delete t k) := by
      refine (all_iff_beside _ t k).mpr ⟨?_, fun d hd => .inl (hgone d hd)⟩
      obtain ⟨hbeside, hkeep⟩ := beside_of_shrink (r := remnantOf c a v ctx)
        (P := (· ∈ nodesOf (delete t k))) (by
          rw [hdelete]
          exact all_iff_nodesOf.mpr fun _ hs => hs)
      rw [hsite]
      refine beside_of_remnant (remnant_beside_iff.mpr fun s hs =>
        .inr (remnant_beside_iff.mp hbeside s hs)) fun e he => ?_
      by_cases hb : (Function.update c a nil e).IsBranch
      · exact .inr (hkeep e he hb)
      · refine .inl (List.mem_append_left _ (List.mem_append_left _ (List.mem_append_right _ ?_)))
        exact trie.mem_mergeOps.mpr ⟨huse, e, he, rfl⟩
    intro s hs hhashed
    rcases hhashed with rfl | hlen
    · exact .inl (hgone _ (trail_eq_cons (ne_nil_of_mem_nodes hs) k ▸ List.mem_cons_self))
    · exact (all_iff_nodesOf.mp hall s hs).imp_right fun hs' => ⟨hs', .inr hlen⟩

end Pruned

end EthereumJS
