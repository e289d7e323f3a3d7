import EthereumJS.Mpt.Trie
import EthereumJS.Patricia.Shape
import EthereumJS.Patricia.Trail

/-! # Prefix trees as stored nodes

The raw form of a tree, the reference to it in a node above, and the class instance
it decodes to. Where the hash is injective on the encodings that occur, a reference
determines the tree.
-/

namespace EthereumJS

open RLP Patricia

/-- A value that `put` stores; an empty one would delete the key. -/
abbrev Value := { v : Bytes // v ≠ [] }

def Value.cons (first : UInt8) (rest : Bytes) : Value :=
  ⟨first :: rest, List.cons_ne_nil first rest⟩

abbrev MPTree := Tree Nibble Value

def valueBytes : Option Value → Bytes
  | none => []
  | some v => v.1

theorem valueBytes_injective : Function.Injective valueBytes := by
  intro v w h
  cases v with
  | none =>
    cases w with
    | none => rfl
    | some w => exact absurd h.symm w.2
  | some v =>
    cases w with
    | none => exact absurd h v.2
    | some w => exact congrArg some (Subtype.ext h)

theorem nonEmpty_value (v : Option Value) :
    nonEmpty (.bytes (valueBytes v)) = v.map fun v => .bytes v.1 := by
  cases v with
  | none => rfl
  | some v =>
    obtain ⟨bytes, hbytes⟩ := v
    cases bytes with
    | nil => exact absurd rfl hbytes
    | cons b bytes => rfl

/-- The hash has no collision among the given encodings, and their lengths are such
as a `Uint8Array` can have. -/
structure CollisionFree (H : HashKeysFunction) (E : Set Bytes) : Prop where
  injOn : Set.InjOn H.hash E
  short : ∀ e ∈ E, e.length < maxLength

theorem CollisionFree.mono {H : HashKeysFunction} {E F : Set Bytes} (h : CollisionFree H E)
    (hF : F ⊆ E) : CollisionFree H F :=
  ⟨h.injOn.mono hF, fun e he => h.short e (hF he)⟩

variable (H : HashKeysFunction)

def reference (raw : Item) : Item :=
  if 32 ≤ (encode raw).length then .bytes (H.hash (encode raw)) else raw

def rawTree : MPTree → Item
  | .nil => .bytes []
  | .leaf p v => .list [.bytes (compactPath p true), .bytes v.1]
  | .ext p c => .list [.bytes (compactPath p false), reference H (rawTree c)]
  | .branch c v =>
    .list ((List.finRange 16).map (fun a => reference H (rawTree (c a))) ++
      [.bytes (valueBytes v)])

def encodeTree (t : MPTree) : Bytes := encode (rawTree H t)

def rootHash (t : MPTree) : Bytes := H.hash (encodeTree H t)

/-- The reference to a subtree that a node above holds. -/
def refTree (t : MPTree) : Item := reference H (rawTree H t)

/-- The top node of a tree. -/
def nodeOf : MPTree → MPTNode
  | .nil => .emptyBranch
  | .leaf p v => .leaf p (.bytes v.1)
  | .ext p c => .extension p (refTree H c)
  | .branch c v => .branch (fun a => refTree H (c a)) (.bytes (valueBytes v))

@[simp] theorem encodeTree_nil : encodeTree H .nil = RLP_EMPTY_STRING := rfl

@[simp] theorem refTree_nil : refTree H .nil = .bytes [] := rfl

theorem rawTree_eq_list {t : MPTree} (ht : t ≠ .nil) : ∃ items, rawTree H t = .list items := by
  cases t with
  | nil => exact absurd rfl ht
  | leaf p v => exact ⟨_, rfl⟩
  | ext p c => exact ⟨_, rfl⟩
  | branch c v => exact ⟨_, rfl⟩

theorem raw_nodeOf {t : MPTree} (ht : t ≠ .nil) : (nodeOf H t).raw = rawTree H t := by
  cases t with
  | nil => exact absurd rfl ht
  | leaf p v => rfl
  | ext p c => rfl
  | branch c v => rfl

theorem serialize_nodeOf {t : MPTree} (ht : t ≠ .nil) :
    (nodeOf H t).serialize = encodeTree H t := by
  rw [MPTNode.serialize, raw_nodeOf H ht, encodeTree]

theorem refTree_of_long {t : MPTree} (h : 32 ≤ (encodeTree H t).length) :
    refTree H t = .bytes (rootHash H t) := if_pos h

theorem refTree_of_short {t : MPTree} (h : ¬ 32 ≤ (encodeTree H t).length) :
    refTree H t = rawTree H t := if_neg h

theorem hash_ne_nil (msg : Bytes) : H.hash msg ≠ [] := by
  intro h
  have := H.length_hash msg
  rw [h] at this
  cases this

theorem nonEmpty_refTree {t : MPTree} (ht : t ≠ .nil) :
    nonEmpty (refTree H t) = some (refTree H t) := by
  by_cases h : 32 ≤ (encodeTree H t).length
  · rw [refTree_of_long H h]
    cases hhash : rootHash H t with
    | nil => exact absurd hhash (hash_ne_nil H (encodeTree H t))
    | cons b hash => rfl
  · rw [refTree_of_short H h]
    cases t with
    | nil => exact absurd rfl ht
    | leaf p v => rfl
    | ext p c => rfl
    | branch c v =>
      rw [rawTree]
      generalize hitems : (List.finRange 16).map (fun a => reference H (rawTree H (c a))) ++
        [.bytes (valueBytes v)] = items
      cases items with
      | nil => simp at hitems
      | cons x items => rfl

theorem getBranch_nodeOf (c : Nibble → MPTree) (v : Option Value) (a : Nibble) :
    (nodeOf H (.branch c v)).getBranch a =
      if (c a).isNil then none else some (refTree H (c a)) := by
  rw [nodeOf, MPTNode.getBranch]
  by_cases h : c a = .nil
  · rw [h]
    rfl
  · rw [nonEmpty_refTree H h, if_neg (by simpa using h)]

/-- A node that is hashed has its encoding in the set. -/
abbrev HashedIn (E : Set Bytes) (t : MPTree) : Prop :=
  32 ≤ (encodeTree H t).length → encodeTree H t ∈ E

/-- Two references of one form refer to trees of one encoding. -/
theorem rawTree_eq_of_refTree {E : Set Bytes} (hE : CollisionFree H E) {t s : MPTree}
    (ht : HashedIn H E t) (hs : HashedIn H E s) (h : refTree H t = refTree H s) :
    rawTree H t = rawTree H s := by
  have hmixed : ∀ {t s : MPTree}, 32 ≤ (encodeTree H t).length →
      ¬ 32 ≤ (encodeTree H s).length → refTree H t ≠ refTree H s := by
    intro t s hlong hshort he
    rw [refTree_of_long H hlong, refTree_of_short H hshort] at he
    cases s with
    | nil => exact hash_ne_nil H _ (Item.bytes.inj he)
    | leaf p v => cases he
    | ext p c => cases he
    | branch c v => cases he
  by_cases hlt : 32 ≤ (encodeTree H t).length
  · by_cases hls : 32 ≤ (encodeTree H s).length
    · rw [refTree_of_long H hlt, refTree_of_long H hls] at h
      have henc := hE.injOn (ht hlt) (hs hls) (Item.bytes.inj h)
      exact encode_injective (hE.short _ (ht hlt)) henc
    · exact absurd h (hmixed hlt hls)
  · by_cases hls : 32 ≤ (encodeTree H s).length
    · exact absurd h.symm (hmixed hls hlt)
    · rwa [refTree_of_short H hlt, refTree_of_short H hls] at h

/-- Every hashed node of the tree has its encoding in the set. -/
abbrev EncodedIn (E : Set Bytes) (t : MPTree) : Prop := t.All (HashedIn H E)

theorem hashedIn_of_encodedIn {E : Set Bytes} {t : MPTree} (h : EncodedIn H E t) : HashedIn H E t := by
  intro hlen
  refine h.self ?_ hlen
  rintro rfl
  simp [RLP_EMPTY_STRING] at hlen

/-- Trees with the same raw form are equal, if the hash has no collision among the
encodings of their nodes. -/
theorem rawTree_injective {E : Set Bytes} (hE : CollisionFree H E) {t s : MPTree}
    (ht : EncodedIn H E t) (hs : EncodedIn H E s) (h : rawTree H t = rawTree H s) : t = s := by
  induction t generalizing s with
  | nil =>
    cases s with
    | nil => rfl
    | leaf p v => cases h
    | ext p c => cases h
    | branch c v => cases h
  | leaf p v =>
    cases s with
    | nil => cases h
    | leaf q w =>
      simp only [rawTree, Item.list.injEq, List.cons.injEq, Item.bytes.injEq, and_true] at h
      rw [(compactPath_inj h.1).1, Subtype.ext h.2]
    | ext q c =>
      simp only [rawTree, Item.list.injEq, List.cons.injEq, Item.bytes.injEq] at h
      cases (compactPath_inj h.1).2
    | branch c w =>
      have := congrArg List.length (Item.list.inj h)
      simp at this
  | ext p c ih =>
    cases s with
    | nil => cases h
    | leaf q w =>
      simp only [rawTree, Item.list.injEq, List.cons.injEq, Item.bytes.injEq] at h
      cases (compactPath_inj h.1).2
    | ext q d =>
      simp only [rawTree, Item.list.injEq, List.cons.injEq, Item.bytes.injEq, and_true] at h
      have hraw := rawTree_eq_of_refTree H hE (hashedIn_of_encodedIn H ht.2)
        (hashedIn_of_encodedIn H hs.2) h.2
      rw [(compactPath_inj h.1).1, ih ht.2 hs.2 hraw]
    | branch d w =>
      have := congrArg List.length (Item.list.inj h)
      simp at this
  | branch c v ih =>
    cases s with
    | nil => cases h
    | leaf q w =>
      have := congrArg List.length (Item.list.inj h)
      simp at this
    | ext q d =>
      have := congrArg List.length (Item.list.inj h)
      simp at this
    | branch d w =>
      have hitems := Item.list.inj h
      obtain ⟨hchildren, hvalue⟩ := List.append_inj hitems (by simp)
      have hcd : c = d := by
        funext a
        have href : refTree H (c a) = refTree H (d a) :=
          List.map_inj_left.mp hchildren a (List.mem_finRange a)
        exact ih a (ht.2 a) (hs.2 a)
          (rawTree_eq_of_refTree H hE (hashedIn_of_encodedIn H (ht.2 a))
            (hashedIn_of_encodedIn H (hs.2 a)) href)
      have hvw : v = w := valueBytes_injective (by simpa using hvalue)
      rw [hcd, hvw]

theorem encodeTree_injective {E : Set Bytes} (hE : CollisionFree H E) {t s : MPTree}
    (ht : EncodedIn H E t) (hs : EncodedIn H E s) (hmem : encodeTree H t ∈ E)
    (h : encodeTree H t = encodeTree H s) : t = s :=
  rawTree_injective H hE ht hs (encode_injective (hE.short _ hmem) h)

/-- A root determines the trie below it. -/
theorem rootHash_injective {E : Set Bytes} (hE : CollisionFree H E) {t s : MPTree}
    (ht : EncodedIn H E t) (hs : EncodedIn H E s) (htE : encodeTree H t ∈ E)
    (hsE : encodeTree H s ∈ E) (h : rootHash H t = rootHash H s) : t = s :=
  encodeTree_injective H hE ht hs htE (hE.injOn htE hsE h)

theorem decodeMPTNode_encodeTree {E : Set Bytes} (hE : CollisionFree H E) {t : MPTree}
    (ht : t ≠ .nil) (hmem : encodeTree H t ∈ E) :
    decodeMPTNode (encodeTree H t) = .ok (nodeOf H t) := by
  have hshort := hE.short _ hmem
  rw [← serialize_nodeOf H ht] at hshort ⊢
  exact decodeMPTNode_serialize _ hshort

theorem rootHash_ne_empty {E : Set Bytes} (hE : CollisionFree H E) {t : MPTree} (ht : t ≠ .nil)
    (hmem : encodeTree H t ∈ E) (hempty : RLP_EMPTY_STRING ∈ E) :
    rootHash H t ≠ H.hash RLP_EMPTY_STRING := by
  intro h
  have henc : encodeTree H t = encode (.bytes []) := hE.injOn hmem hempty h
  obtain ⟨items, hitems⟩ := rawTree_eq_list H ht
  have := encode_injective (hE.short _ hmem) henc
  rw [hitems] at this
  cases this

section Lengths

open Patricia.Tree

theorem length_le_encode (data : Bytes) : data.length ≤ (encode (.bytes data)).length := by
  rw [encode]
  unfold encodeBytes
  split
  · split
    · rfl
    · simp
  · simp

theorem length_encode_le_of_mem {item : Item} {items : List Item} (h : item ∈ items) :
    (encode item).length ≤ (encode (.list items)).length := by
  have hitems : ∀ {items : List Item}, item ∈ items →
      (encode item).length ≤ (encodeItems items).length := by
    intro items h
    induction items with
    | nil => cases h
    | cons first items ih =>
      rw [encodeItems, List.length_append]
      rcases List.mem_cons.mp h with rfl | h
      · exact Nat.le_add_right _ _
      · exact (ih h).trans (Nat.le_add_left _ _)
  rw [encode, List.length_append]
  exact (hitems h).trans (Nat.le_add_left _ _)

theorem length_value_le {v : Value} {items : List Item} (h : Item.bytes v.1 ∈ items) :
    v.1.length ≤ (encode (.list items)).length :=
  (length_le_encode v.1).trans (length_encode_le_of_mem h)

/-- A value is shorter than the longest message. -/
theorem EncodedIn.length_lookup {H : HashKeysFunction} {E : Set Bytes} (hE : CollisionFree H E)
    {t : MPTree} (ht : EncodedIn H E t) {k : Nibbles} {v : Value} (hv : t.lookup k = some v) :
    v.1.length < maxLength := by
  have hnode : ∀ {s : MPTree}, HashedIn H E s → v.1.length ≤ (encodeTree H s).length →
      v.1.length < maxLength := by
    intro s hs hle
    by_cases hlong : 32 ≤ (encodeTree H s).length
    · exact lt_of_le_of_lt hle (hE.short _ (hs hlong))
    · exact lt_of_lt_of_le (lt_of_le_of_lt hle (not_le.mp hlong)) (by decide)
  induction t generalizing k with
  | nil => simp at hv
  | leaf p w =>
    rw [lookup_leaf] at hv
    split at hv
    · obtain rfl := Option.some.inj hv
      exact hnode ht (length_value_le (by simp))
    · cases hv
  | ext p c ih =>
    obtain ⟨_, -, hv⟩ := ext_lookup_prefix hv
    exact ih ht.2 hv
  | branch c w ih =>
    cases k with
    | nil =>
      obtain rfl : w = some v := hv
      exact hnode ht.1 (length_value_le (by simp [valueBytes]))
    | cons a k => exact ih a (ht.2 a) hv

end Lengths

end EthereumJS
