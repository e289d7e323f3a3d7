import EthereumJS.Binarytree.Refine

/-! # Hashing without collisions

Which messages a tree of stems hashes, and when the hash tells its nodes apart. Stem nodes and
internal nodes are hashed alike, so that a stem without values can have the hash of an internal
node; stems with values cannot.
-/

namespace EthereumJS.Binarytree

open StemTree

variable (H : HashKeysFunction)

def merkleMessages : Nat → List Bytes → List Bytes
  | 0, _ => []
  | k + 1, hashes =>
    (merkleRoot H k (hashes.take (2 ^ k)) ++ merkleRoot H k (hashes.drop (2 ^ k))) ::
      (merkleMessages k (hashes.take (2 ^ k)) ++ merkleMessages k (hashes.drop (2 ^ k)))

def stemMessage (node : StemBinaryNode) : Bytes :=
  node.stem ++ [0] ++ merkleRoot H 8 (node.values.map (valueHash H))

/-- Everything that is hashed for the root of a tree. -/
def StemTree.messages : StemTree → List Bytes
  | .nil => []
  | .stem node =>
    stemMessage H node :: (node.values.filterMap id ++
      merkleMessages H 8 (node.values.map (valueHash H)))
  | .internal left right => (left.root H ++ right.root H) :: (left.messages ++ right.messages)

def zeroMessage : Bytes := List.replicate 64 0

/-- No two different messages have the same hash; 64 zeros are hashed to 32 zeros. -/
def NoCollision (E : Set Bytes) : Prop := Set.InjOn (digest H) (insert zeroMessage E)

variable {H} {E : Set Bytes}

theorem NoCollision.eq (hE : NoCollision H E) {a b : Bytes} (ha : a ∈ E) (hb : b ∈ E)
    (h : digest H a = digest H b) : a = b :=
  hE (Set.mem_insert_of_mem _ ha) (Set.mem_insert_of_mem _ hb) h

theorem NoCollision.eq_zero (hE : NoCollision H E) {a : Bytes} (ha : a ∈ E)
    (h : digest H a = List.replicate 32 0) : a = zeroMessage :=
  hE (Set.mem_insert_of_mem _ ha) (Set.mem_insert _ _) (h.trans (if_pos (by decide)).symm)

theorem zero_halves {a b : Bytes} (ha : a.length = 32) (h : a ++ b = zeroMessage) :
    a = List.replicate 32 0 ∧ b = List.replicate 32 0 := by
  have hsplit : zeroMessage = List.replicate 32 0 ++ List.replicate 32 0 := by decide
  rw [hsplit] at h
  exact List.append_inj h (by rw [ha, List.length_replicate])

section Merkle

/-- The values that stand under a Merkle root, with their messages. -/
structure Leaves (H : HashKeysFunction) (E : Set Bytes) (k : Nat) (values : List (Option Bytes)) :
    Prop where
  length : values.length = 2 ^ k
  short : ∀ value, some value ∈ values → value.length = 32
  hashed : ∀ value, some value ∈ values → value ∈ E
  merkle : ∀ msg ∈ merkleMessages H k (values.map (valueHash H)), msg ∈ E

variable {k : Nat} {xs ys : List (Option Bytes)}

theorem Leaves.root_length (h : Leaves H E k xs) :
    (merkleRoot H k (xs.map (valueHash H))).length = 32 := by
  refine length_merkleRoot H k (by rw [List.length_map, h.length]) fun v hv => ?_
  obtain ⟨value, -, rfl⟩ := List.mem_map.mp hv
  exact length_valueHash H value

/-- The two halves of the values and the message of the root over them. -/
theorem Leaves.halves (h : Leaves H E (k + 1) xs) :
    Leaves H E k (xs.take (2 ^ k)) ∧ Leaves H E k (xs.drop (2 ^ k)) ∧
      ∃ msg ∈ E, msg = merkleRoot H k ((xs.take (2 ^ k)).map (valueHash H)) ++
          merkleRoot H k ((xs.drop (2 ^ k)).map (valueHash H)) ∧
        merkleRoot H (k + 1) (xs.map (valueHash H)) = digest H msg := by
  have hlen : xs.length = 2 ^ k + 2 ^ k := by rw [h.length, Nat.pow_succ, Nat.mul_two]
  have hmerkle := h.merkle
  simp only [merkleMessages, List.mem_cons, List.mem_append, ← List.map_take,
    ← List.map_drop] at hmerkle
  refine ⟨⟨?_, fun v hv => h.short v (List.mem_of_mem_take hv),
      fun v hv => h.hashed v (List.mem_of_mem_take hv), fun m hm => hmerkle m (.inr (.inl hm))⟩,
    ⟨?_, fun v hv => h.short v (List.mem_of_mem_drop hv),
      fun v hv => h.hashed v (List.mem_of_mem_drop hv), fun m hm => hmerkle m (.inr (.inr hm))⟩,
    _, hmerkle _ (.inl rfl), rfl, ?_⟩
  · rw [List.length_take]
    omega
  · rw [List.length_drop]
    omega
  · rw [merkleRoot, List.map_take, List.map_drop]

theorem Leaves.single (h : Leaves H E 0 xs) : ∃ value, xs = [value] :=
  List.length_eq_one_iff.mp h.length

theorem valueHash_eq_zero (hE : NoCollision H E) {value : Option Bytes}
    (hvalue : ∀ v, value = some v → v.length = 32 ∧ v ∈ E)
    (h : valueHash H value = List.replicate 32 0) : value = none := by
  cases value with
  | none => rfl
  | some v =>
    obtain ⟨hlen, hmem⟩ := hvalue v rfl
    have hzero := congrArg List.length (hE.eq_zero hmem h)
    rw [hlen] at hzero
    cases hzero

theorem merkle_zero (hE : NoCollision H E) (h : Leaves H E k xs)
    (hroot : merkleRoot H k (xs.map (valueHash H)) = List.replicate 32 0) :
    ∀ value ∈ xs, value = none := by
  induction k generalizing xs with
  | zero =>
    obtain ⟨value, rfl⟩ := h.single
    intro v hv
    rw [List.mem_singleton.mp hv]
    refine valueHash_eq_zero hE (fun v heq => ?_) hroot
    exact ⟨h.short v (by simp [heq]), h.hashed v (by simp [heq])⟩
  | succ k ih =>
    obtain ⟨hleft, hright, msg, hmem, hmsg, heq⟩ := h.halves
    obtain ⟨hzero, hzero'⟩ := zero_halves hleft.root_length
      (hmsg.symm.trans (hE.eq_zero hmem (heq.symm.trans hroot)))
    intro value hvalue
    rw [← List.take_append_drop (2 ^ k) xs] at hvalue
    rcases List.mem_append.mp hvalue with hvalue | hvalue
    · exact ih hleft hzero value hvalue
    · exact ih hright hzero' value hvalue

theorem merkle_injective (hE : NoCollision H E) (hx : Leaves H E k xs) (hy : Leaves H E k ys)
    (h : merkleRoot H k (xs.map (valueHash H)) = merkleRoot H k (ys.map (valueHash H))) :
    xs = ys := by
  induction k generalizing xs ys with
  | zero =>
    obtain ⟨x, rfl⟩ := hx.single
    obtain ⟨y, rfl⟩ := hy.single
    have hx' : ∀ v, x = some v → v.length = 32 ∧ v ∈ E := fun v heq =>
      ⟨hx.short v (by simp [heq]), hx.hashed v (by simp [heq])⟩
    have hy' : ∀ v, y = some v → v.length = 32 ∧ v ∈ E := fun v heq =>
      ⟨hy.short v (by simp [heq]), hy.hashed v (by simp [heq])⟩
    change valueHash H x = valueHash H y at h
    cases x with
    | none => rw [valueHash_eq_zero hE hy' h.symm]
    | some v =>
      cases y with
      | none => cases valueHash_eq_zero hE hx' h
      | some w => rw [hE.eq (hx' v rfl).2 (hy' w rfl).2 h]
  | succ k ih =>
    obtain ⟨hleft, hright, msg, hmem, hmsg, heq⟩ := hx.halves
    obtain ⟨hleft', hright', msg', hmem', hmsg', heq'⟩ := hy.halves
    have hsame := hE.eq hmem hmem' (heq.symm.trans (h.trans heq'))
    obtain ⟨htake, hdrop⟩ := List.append_inj (hmsg.symm.trans (hsame.trans hmsg'))
      (by rw [hleft.root_length, hleft'.root_length])
    rw [← List.take_append_drop (2 ^ k) xs, ← List.take_append_drop (2 ^ k) ys,
      ih hleft hleft' htake, ih hright hright' hdrop]

/-- Roots over numbers of values that differ agree only on no values. -/
theorem merkle_depth (hE : NoCollision H E) {j : Nat} (hkj : k < j) (hx : Leaves H E k xs)
    (hy : Leaves H E j ys)
    (h : merkleRoot H k (xs.map (valueHash H)) = merkleRoot H j (ys.map (valueHash H))) :
    ∀ value ∈ ys, value = none := by
  induction k generalizing j xs ys with
  | zero =>
    obtain ⟨j, rfl⟩ : ∃ n, j = n + 1 := ⟨j - 1, by omega⟩
    obtain ⟨x, rfl⟩ := hx.single
    change valueHash H x = _ at h
    cases x with
    | none => exact merkle_zero hE hy h.symm
    | some v =>
      obtain ⟨hleft, hright, msg, hmem, hmsg, heq⟩ := hy.halves
      have hlen := congrArg List.length
        (hE.eq (hx.hashed v (by simp)) hmem (h.trans heq))
      rw [hx.short v (by simp), hmsg, List.length_append, hleft.root_length,
        hright.root_length] at hlen
      cases hlen
  | succ k ih =>
    obtain ⟨j, rfl⟩ : ∃ n, j = n + 1 := ⟨j - 1, by omega⟩
    obtain ⟨hleft, hright, msg, hmem, hmsg, heq⟩ := hx.halves
    obtain ⟨hleft', hright', msg', hmem', hmsg', heq'⟩ := hy.halves
    have hsame := hE.eq hmem hmem' (heq.symm.trans (h.trans heq'))
    obtain ⟨htake, hdrop⟩ := List.append_inj (hmsg.symm.trans (hsame.trans hmsg'))
      (by rw [hleft.root_length, hleft'.root_length])
    intro value hvalue
    rw [← List.take_append_drop (2 ^ j) ys] at hvalue
    rcases List.mem_append.mp hvalue with hvalue | hvalue
    · exact ih (by omega) hleft hleft' htake value hvalue
    · exact ih (by omega) hright hright' hdrop value hvalue

end Merkle

section Trees

variable {t u v : StemTree} {path : Bits} {node other : StemBinaryNode}

theorem leaves_of_stem (hnode : node.Valid) (hmsg : ∀ msg ∈ (StemTree.stem node).messages H, msg ∈ E) :
    Leaves H E 8 node.values ∧ stemMessage H node ∈ E := by
  refine ⟨⟨hnode.2.1, hnode.2.2, fun value hvalue => hmsg value ?_, fun m hm => hmsg m ?_⟩,
    hmsg _ List.mem_cons_self⟩
  · exact List.mem_cons_of_mem _ (List.mem_append_left _ 
      (List.mem_filterMap.mpr ⟨_, hvalue, rfl⟩))
  · exact List.mem_cons_of_mem _ (List.mem_append_right _ hm)

/-- The stem and the Merkle root in the message of a stem node. -/
theorem stemMessage_inj (hnode : node.Valid) {a b : Bytes} (ha : a.length = 32)
    (h : stemMessage H node = a ++ b) :
    node.stem ++ [0] = a ∧ merkleRoot H 8 (node.values.map (valueHash H)) = b :=
  List.append_inj h (by rw [List.length_append, hnode.1, ha]; rfl)

theorem stem_injective (hE : NoCollision H E) (hnode : node.Valid) (hother : other.Valid)
    (hmsg : ∀ msg ∈ (StemTree.stem node).messages H, msg ∈ E)
    (hmsg' : ∀ msg ∈ (StemTree.stem other).messages H, msg ∈ E)
    (h : stemHash H node = stemHash H other) : node = other := by
  obtain ⟨hleaves, hmem⟩ := leaves_of_stem hnode hmsg
  obtain ⟨hleaves', hmem'⟩ := leaves_of_stem hother hmsg'
  obtain ⟨hstem, hroot⟩ := stemMessage_inj hnode
    (by rw [List.length_append, hother.1]; rfl) (hE.eq hmem hmem' h)
  have hvalues := merkle_injective hE hleaves hleaves' hroot
  obtain ⟨stem, values⟩ := node
  obtain ⟨stem', values'⟩ := other
  cases List.append_cancel_right hstem
  cases hvalues
  rfl

/-- The hashes of the stems are not those of internal nodes and not zero. -/
structure Apart (H : HashKeysFunction) (t : StemTree) : Prop where
  internal : ∀ node ∈ t.stems, ∀ x ∈ t.nodes [], x.2.isInternal → stemHash H node ≠ x.2.root H
  nonzero : ∀ node ∈ t.stems, stemHash H node ≠ List.replicate 32 0

theorem root_ne_zero (hE : NoCollision H E) (hAt : u.At path) (hnil : u ≠ .nil)
    (hmsg : ∀ msg ∈ u.messages H, msg ∈ E)
    (hstems : ∀ node ∈ u.stems, stemHash H node ≠ List.replicate 32 0) :
    u.root H ≠ List.replicate 32 0 := by
  induction u generalizing path with
  | nil => exact absurd rfl hnil
  | stem node => exact hstems node (List.mem_singleton_self _)
  | internal left right ihleft ihright =>
    intro hroot
    obtain ⟨hleft, hright⟩ := zero_halves (length_root H left)
      (hE.eq_zero (hmsg _ List.mem_cons_self) hroot)
    have hmsgs : ∀ msg ∈ left.messages H ++ right.messages H, msg ∈ E := fun msg hm =>
      hmsg msg (List.mem_cons_of_mem _ hm)
    have hnone : left = .nil := by
      by_contra hne
      exact ihleft hAt.1 hne (fun m hm => hmsgs m (List.mem_append_left _ hm))
        (fun n hn => hstems n (List.mem_append_left _ hn)) hleft
    have hnone' : right = .nil := by
      by_contra hne
      exact ihright hAt.2.1 hne (fun m hm => hmsgs m (List.mem_append_right _ hm))
        (fun n hn => hstems n (List.mem_append_right _ hn)) hright
    have htwo := hAt.2.2
    rw [hnone, hnone'] at htwo
    exact absurd htwo (by decide)

/-- What a subtree shares with the whole tree. -/
structure Part (H : HashKeysFunction) (E : Set Bytes) (t u : StemTree) : Prop where
  atPath : ∃ path, u.At path
  stems : ∀ node ∈ u.stems, node ∈ t.stems
  node : u.isInternal → ∃ path, (path, u) ∈ t.nodes []
  messages : ∀ msg ∈ u.messages H, msg ∈ E

theorem part_of_mem (hAt : t.At path) (hmsg : ∀ msg ∈ t.messages H, msg ∈ E) {x : Bits × StemTree}
    (hx : x ∈ t.nodes path) : (∀ node ∈ x.2.stems, node ∈ t.stems) ∧
      (∀ y ∈ x.2.nodes x.1, y ∈ t.nodes path) ∧ ∀ msg ∈ x.2.messages H, msg ∈ E := by
  induction t generalizing path with
  | nil => cases hx
  | stem node =>
    rw [List.mem_singleton.mp hx]
    exact ⟨fun _ h => h, fun _ h => h, hmsg⟩
  | internal left right ihleft ihright =>
    rcases List.mem_cons.mp hx with rfl | hx
    · exact ⟨fun _ h => h, fun _ h => h, hmsg⟩
    · rcases List.mem_append.mp hx with hx | hx
      · obtain ⟨hstems, hnodes, hmsgs⟩ := ihleft hAt.1
          (fun m hm => hmsg m (List.mem_cons_of_mem _ (List.mem_append_left _ hm))) hx
        exact ⟨fun n hn => List.mem_append_left _ (hstems n hn),
          fun y hy => List.mem_cons_of_mem _ (List.mem_append_left _ (hnodes y hy)), hmsgs⟩
      · obtain ⟨hstems, hnodes, hmsgs⟩ := ihright hAt.2.1
          (fun m hm => hmsg m (List.mem_cons_of_mem _ (List.mem_append_right _ hm))) hx
        exact ⟨fun n hn => List.mem_append_right _ (hstems n hn),
          fun y hy => List.mem_cons_of_mem _ (List.mem_append_right _ (hnodes y hy)), hmsgs⟩

theorem Part.children {left right : StemTree} (h : Part H E t (.internal left right))
    (hAt : t.At []) (hmsg : ∀ msg ∈ t.messages H, msg ∈ E) :
    Part H E t left ∧ Part H E t right := by
  obtain ⟨path, hmem⟩ := h.node rfl
  obtain ⟨hleft, hright, -⟩ := hAt.of_mem_nodes hmem
  have hnodes := (part_of_mem hAt hmsg hmem).2.1
  refine ⟨⟨⟨_, hleft⟩, fun n hn => h.stems n (List.mem_append_left _ hn), fun hint => ?_,
      fun m hm => h.messages m (List.mem_cons_of_mem _ (List.mem_append_left _ hm))⟩,
    ⟨⟨_, hright⟩, fun n hn => h.stems n (List.mem_append_right _ hn), fun hint => ?_,
      fun m hm => h.messages m (List.mem_cons_of_mem _ (List.mem_append_right _ hm))⟩⟩
  · refine ⟨path ++ [false], hnodes _ (List.mem_cons_of_mem _ (List.mem_append_left _ ?_))⟩
    exact mem_nodes_self _ (by rintro rfl; cases hint)
  · refine ⟨path ++ [true], hnodes _ (List.mem_cons_of_mem _ (List.mem_append_right _ ?_))⟩
    exact mem_nodes_self _ (by rintro rfl; cases hint)

/-- Subtrees with one hash are the same. -/
theorem root_injective (hE : NoCollision H E) (hAt : t.At []) (hmsg : ∀ msg ∈ t.messages H, msg ∈ E)
    (hapart : Apart H t) (hu : Part H E t u) (hv : Part H E t v) (h : u.root H = v.root H) :
    u = v := by
  have hzero : ∀ {w : StemTree}, Part H E t w → w ≠ .nil → w.root H ≠ List.replicate 32 0 := by
    intro w hw hne
    obtain ⟨path, hwAt⟩ := hw.atPath
    exact root_ne_zero hE hwAt hne hw.messages fun n hn => hapart.nonzero n (hw.stems n hn)
  induction u generalizing v with
  | nil =>
    by_contra hne
    exact hzero hv (Ne.symm hne) h.symm
  | stem node =>
    cases v with
    | nil => exact absurd h (hzero hu (by simp))
    | stem other =>
      obtain ⟨_, hnode, -⟩ := hu.atPath
      obtain ⟨_, hother, -⟩ := hv.atPath
      rw [stem_injective hE hnode hother hu.messages hv.messages h]
    | internal left right =>
      obtain ⟨path, hmem⟩ := hv.node rfl
      exact absurd h (hapart.internal node (hu.stems _ (List.mem_singleton_self _)) _ hmem rfl)
  | internal left right ihleft ihright =>
    cases v with
    | nil => exact absurd h (hzero hu (by simp))
    | stem other =>
      obtain ⟨path, hmem⟩ := hu.node rfl
      exact absurd h.symm
        (hapart.internal other (hv.stems _ (List.mem_singleton_self _)) _ hmem rfl)
    | internal left' right' =>
      obtain ⟨hleft, hright⟩ := hu.children hAt hmsg
      obtain ⟨hleft', hright'⟩ := hv.children hAt hmsg
      obtain ⟨hl, hr⟩ := List.append_inj
        (hE.eq (hu.messages _ List.mem_cons_self) (hv.messages _ List.mem_cons_self) h)
        (by rw [length_root, length_root])
      rw [ihleft hleft hleft' hl, ihright hright hright' hr]

theorem distinct_of_apart (hE : NoCollision H E) (hAt : t.At [])
    (hmsg : ∀ msg ∈ t.messages H, msg ∈ E) (hapart : Apart H t) : Distinct H t := by
  have hpart : ∀ x ∈ t.nodes [], Part H E t x.2 := by
    intro x hx
    obtain ⟨hstems, -, hmsgs⟩ := part_of_mem hAt hmsg hx
    exact ⟨⟨_, hAt.of_mem_nodes hx⟩, hstems, fun _ => ⟨_, hx⟩, hmsgs⟩
  exact ⟨fun x hx y hy h => root_injective hE hAt hmsg hapart (hpart x hx) (hpart y hy) h,
    fun hne => root_ne_zero hE hAt hne hmsg hapart.nonzero⟩

/-- A node with a value. -/
def Full (node : StemBinaryNode) : Prop := ¬ node.values.all Option.isNone

theorem Full.exists_some (h : Full node) : ¬ ∀ value ∈ node.values, value = none := by
  intro hnone
  apply h
  rw [List.all_eq_true]
  intro value hvalue
  rw [hnone value hvalue]
  rfl

theorem Full.stemHash_ne_zero (h : Full node) (hE : NoCollision H E) (hnode : node.Valid)
    (hmsg : ∀ msg ∈ (StemTree.stem node).messages H, msg ∈ E) :
    stemHash H node ≠ List.replicate 32 0 := by
  intro hzero
  obtain ⟨hleaves, hmem⟩ := leaves_of_stem hnode hmsg
  have hmessage := hE.eq_zero hmem hzero
  have hroot := (zero_halves (by rw [List.length_append, hnode.1]; rfl) hmessage).2
  exact h.exists_some (merkle_zero hE hleaves hroot)

theorem messages_of_mem (hAt : u.At path) (hmem : node ∈ u.stems)
    (hmsg : ∀ msg ∈ u.messages H, msg ∈ E) : ∀ msg ∈ (StemTree.stem node).messages H, msg ∈ E := by
  induction u generalizing path with
  | nil => cases hmem
  | stem other =>
    rw [List.mem_singleton.mp hmem]
    exact hmsg
  | internal left right ihleft ihright =>
    rcases List.mem_append.mp hmem with hleft | hright
    · exact ihleft hAt.1 hleft fun m hm => hmsg m (List.mem_cons_of_mem _ (List.mem_append_left _ hm))
    · exact ihright hAt.2.1 hright fun m hm =>
        hmsg m (List.mem_cons_of_mem _ (List.mem_append_right _ hm))

/-- A Merkle root over values is not the root of a tree whose stems all have values. -/
theorem merkleRoot_ne_root (hE : NoCollision H E) {k : Nat} (hk : k ≤ 8)
    {xs : List (Option Bytes)} (hx : Leaves H E k xs) (hAt : u.At path) (hnil : u ≠ .nil)
    (hmsg : ∀ msg ∈ u.messages H, msg ∈ E) (hfull : ∀ node ∈ u.stems, Full node) :
    merkleRoot H k (xs.map (valueHash H)) ≠ u.root H := by
  intro h
  induction u generalizing k xs path with
  | nil => exact hnil rfl
  | stem node =>
    obtain ⟨hleaves, hmem⟩ := leaves_of_stem hAt.1 hmsg
    have hnode := hfull node (List.mem_singleton_self _)
    cases k with
    | zero =>
      obtain ⟨x, rfl⟩ := hx.single
      change valueHash H x = digest H (stemMessage H node) at h
      cases x with
      | none => exact hnode.stemHash_ne_zero hE hAt.1 hmsg h.symm
      | some value =>
        have hlen := congrArg List.length (hE.eq (hx.hashed value (by simp)) hmem h)
        rw [hx.short value (by simp), stemMessage, List.length_append, List.length_append,
          hAt.1.1, hleaves.root_length] at hlen
        cases hlen
    | succ k =>
      obtain ⟨hleft, hright, msg, hmem', hmsg', heq⟩ := hx.halves
      have hsame := hE.eq hmem' hmem (heq.symm.trans h)
      have hroot := (stemMessage_inj hAt.1 hleft.root_length (hsame.symm.trans hmsg')).2
      exact hnode.exists_some (merkle_depth hE (by omega) hright hleaves hroot.symm)
  | internal left right ihleft ihright =>
    have hmem := hmsg _ List.mem_cons_self
    have hmsgl : ∀ msg ∈ left.messages H, msg ∈ E := fun m hm =>
      hmsg m (List.mem_cons_of_mem _ (List.mem_append_left _ hm))
    have hmsgr : ∀ msg ∈ right.messages H, msg ∈ E := fun m hm =>
      hmsg m (List.mem_cons_of_mem _ (List.mem_append_right _ hm))
    cases k with
    | zero =>
      obtain ⟨x, rfl⟩ := hx.single
      change valueHash H x = digest H (left.root H ++ right.root H) at h
      cases x with
      | none => exact root_ne_zero hE hAt hnil hmsg (fun n hn =>
        (hfull n hn).stemHash_ne_zero hE (hAt.prefix_of_mem hn).1 (messages_of_mem hAt hn hmsg)) h.symm
      | some value =>
        have hlen := congrArg List.length (hE.eq (hx.hashed value (by simp)) hmem h)
        rw [hx.short value (by simp), List.length_append, length_root, length_root] at hlen
        cases hlen
    | succ k =>
      obtain ⟨hleft, hright, msg, hmem', hmsg', heq⟩ := hx.halves
      have hsame := hE.eq hmem' hmem (heq.symm.trans h)
      obtain ⟨hl, hr⟩ := List.append_inj (hmsg'.symm.trans hsame)
        (by rw [hleft.root_length, length_root])
      by_cases hnone : left = .nil
      · have hright' : right ≠ .nil := by
          rintro rfl
          have htwo := hAt.2.2
          rw [hnone] at htwo
          exact absurd htwo (by decide)
        exact ihright (by omega) hright hAt.2.1 hright' hmsgr
          (fun n hn => hfull n (List.mem_append_right _ hn)) hr
      · exact ihleft (by omega) hleft hAt.1 hnone hmsgl
          (fun n hn => hfull n (List.mem_append_left _ hn)) hl

/-- Stems with values have hashes of their own. -/
theorem apart_of_full (hE : NoCollision H E) (hAt : t.At []) (hmsg : ∀ msg ∈ t.messages H, msg ∈ E)
    (hfull : ∀ node ∈ t.stems, Full node) : Apart H t := by
  have hnonzero : ∀ node ∈ t.stems, stemHash H node ≠ List.replicate 32 0 := fun node hnode =>
    (hfull node hnode).stemHash_ne_zero hE (hAt.prefix_of_mem hnode).1
      (messages_of_mem hAt hnode hmsg)
  refine ⟨fun node hnode x hx hint heq => ?_, hnonzero⟩
  have hvalid := (hAt.prefix_of_mem hnode).1
  obtain ⟨hleaves, hmem⟩ := leaves_of_stem hvalid (messages_of_mem hAt hnode hmsg)
  obtain ⟨hstems, -, hmsgs⟩ := part_of_mem hAt hmsg hx
  have hxAt := hAt.of_mem_nodes hx
  obtain ⟨path, u⟩ := x
  cases u with
  | nil => cases hint
  | stem other => cases hint
  | internal left right =>
    obtain ⟨-, hroot⟩ := stemMessage_inj hvalid (length_root H left)
      (hE.eq hmem (hmsgs _ List.mem_cons_self) heq)
    by_cases hright : right = .nil
    · rw [hright] at hroot
      exact (hfull node hnode).exists_some (merkle_zero hE hleaves hroot)
    · exact merkleRoot_ne_root hE le_rfl hleaves hxAt.2.1 hright
        (fun m hm => hmsgs m (List.mem_cons_of_mem _ (List.mem_append_right _ hm)))
        (fun n hn => hfull n (hstems n (List.mem_append_right _ hn))) hroot

end Trees

section Sparse

variable (H)

/-- The root over `2 ^ k` values, without the halves that hold none. -/
def sparseRoot : Nat → List (Option Bytes) → Bytes
  | 0, values => valueHash H (values.headD none)
  | k + 1, values =>
    if values.all Option.isNone then List.replicate 32 0
    else digest H (sparseRoot k (values.take (2 ^ k)) ++ sparseRoot k (values.drop (2 ^ k)))

/-- The messages over `2 ^ k` values other than that of zeros. -/
def sparseMessages : Nat → List (Option Bytes) → List Bytes
  | 0, _ => []
  | k + 1, values =>
    if values.all Option.isNone then []
    else
      (sparseRoot H k (values.take (2 ^ k)) ++ sparseRoot H k (values.drop (2 ^ k))) ::
        (sparseMessages k (values.take (2 ^ k)) ++ sparseMessages k (values.drop (2 ^ k)))

variable {H} {k : Nat} {values : List (Option Bytes)}

theorem zeroMessage_eq : List.replicate 32 0 ++ List.replicate 32 0 = zeroMessage := by decide

theorem digest_zeroMessage : digest H zeroMessage = List.replicate 32 0 := if_pos (by decide)

theorem halves_length (hlength : values.length = 2 ^ (k + 1)) :
    (values.take (2 ^ k)).length = 2 ^ k ∧ (values.drop (2 ^ k)).length = 2 ^ k := by
  rw [Nat.pow_succ] at hlength
  rw [List.length_take, List.length_drop]
  omega

theorem merkle_none (hnone : ∀ value ∈ values, value = none) (hlength : values.length = 2 ^ k) :
    merkleRoot H k (values.map (valueHash H)) = List.replicate 32 0 ∧
      ∀ msg ∈ merkleMessages H k (values.map (valueHash H)), msg = zeroMessage := by
  induction k generalizing values with
  | zero =>
    obtain ⟨value, rfl⟩ := List.length_eq_one_iff.mp hlength
    rw [hnone value List.mem_cons_self]
    exact ⟨rfl, fun _ h => by cases h⟩
  | succ k ih =>
    obtain ⟨htake, hdrop⟩ := halves_length hlength
    obtain ⟨hleft, hleftMessages⟩ := ih (fun v hv => hnone v (List.mem_of_mem_take hv)) htake
    obtain ⟨hright, hrightMessages⟩ := ih (fun v hv => hnone v (List.mem_of_mem_drop hv)) hdrop
    rw [merkleRoot, merkleMessages, ← List.map_take, ← List.map_drop, hleft, hright, zeroMessage_eq]
    refine ⟨digest_zeroMessage, fun msg hmsg => ?_⟩
    obtain rfl | hmsg := List.mem_cons.mp hmsg
    · rfl
    · exact (List.mem_append.mp hmsg).elim (hleftMessages msg) (hrightMessages msg)

theorem merkle_sparse (hlength : values.length = 2 ^ k) :
    merkleRoot H k (values.map (valueHash H)) = sparseRoot H k values ∧
      ∀ msg ∈ merkleMessages H k (values.map (valueHash H)),
        msg = zeroMessage ∨ msg ∈ sparseMessages H k values := by
  induction k generalizing values with
  | zero =>
    obtain ⟨value, rfl⟩ := List.length_eq_one_iff.mp hlength
    exact ⟨rfl, fun _ h => by cases h⟩
  | succ k ih =>
    rw [sparseRoot, sparseMessages]
    split
    · next hnone =>
      have hnone : ∀ value ∈ values, value = none := fun value hvalue =>
        Option.isNone_iff_eq_none.mp (List.all_eq_true.mp hnone value hvalue)
      obtain ⟨hroot, hmessages⟩ := merkle_none hnone hlength
      exact ⟨hroot, fun msg hmsg => .inl (hmessages msg hmsg)⟩
    · obtain ⟨htake, hdrop⟩ := halves_length hlength
      obtain ⟨hleft, hleftMessages⟩ := ih htake
      obtain ⟨hright, hrightMessages⟩ := ih hdrop
      rw [merkleRoot, merkleMessages, ← List.map_take, ← List.map_drop, hleft, hright]
      refine ⟨rfl, fun msg hmsg => ?_⟩
      rw [List.mem_cons, List.mem_append]
      obtain rfl | hmsg := List.mem_cons.mp hmsg
      · exact .inr (.inl rfl)
      · obtain hmsg | hmsg := List.mem_append.mp hmsg
        · exact (hleftMessages msg hmsg).imp_right fun h => .inr (.inl h)
        · exact (hrightMessages msg hmsg).imp_right fun h => .inr (.inr h)

namespace StemTree

variable (H) in
def sparseRoot : StemTree → Bytes
  | .nil => List.replicate 32 0
  | .stem node => digest H (node.stem ++ [0] ++ Binarytree.sparseRoot H 8 node.values)
  | .internal left right => digest H (left.sparseRoot ++ right.sparseRoot)

variable (H) in
/-- The messages of a tree other than that of zeros. -/
def sparseMessages : StemTree → List Bytes
  | .nil => []
  | .stem node =>
    (node.stem ++ [0] ++ Binarytree.sparseRoot H 8 node.values) ::
      (node.values.filterMap id ++ Binarytree.sparseMessages H 8 node.values)
  | .internal left right =>
    (left.sparseRoot H ++ right.sparseRoot H) :: (left.sparseMessages ++ right.sparseMessages)

theorem sparse_of_at {t : StemTree} {path : Bits} (hAt : t.At path) :
    t.root H = t.sparseRoot H ∧
      ∀ msg ∈ t.messages H, msg = zeroMessage ∨ msg ∈ t.sparseMessages H := by
  induction t generalizing path with
  | nil => exact ⟨rfl, fun _ h => by cases h⟩
  | stem node =>
    obtain ⟨hroot, hmessages⟩ := merkle_sparse (H := H) (k := 8) hAt.1.2.1
    rw [root, stemHash, messages, stemMessage, hroot, sparseRoot, sparseMessages]
    refine ⟨rfl, fun msg hmsg => ?_⟩
    rw [List.mem_cons, List.mem_append]
    obtain rfl | hmsg := List.mem_cons.mp hmsg
    · exact .inr (.inl rfl)
    · obtain hmsg | hmsg := List.mem_append.mp hmsg
      · exact .inr (.inr (.inl hmsg))
      · exact (hmessages msg hmsg).imp_right fun h => .inr (.inr h)
  | internal left right ihLeft ihRight =>
    obtain ⟨hleft, hleftMessages⟩ := ihLeft hAt.1
    obtain ⟨hright, hrightMessages⟩ := ihRight hAt.2.1
    rw [root, messages, hleft, hright, sparseRoot, sparseMessages]
    refine ⟨rfl, fun msg hmsg => ?_⟩
    rw [List.mem_cons, List.mem_append]
    obtain rfl | hmsg := List.mem_cons.mp hmsg
    · exact .inr (.inl rfl)
    · obtain hmsg | hmsg := List.mem_append.mp hmsg
      · exact (hleftMessages msg hmsg).imp_right fun h => .inr (.inl h)
      · exact (hrightMessages msg hmsg).imp_right fun h => .inr (.inr h)

end StemTree

end Sparse

end EthereumJS.Binarytree
