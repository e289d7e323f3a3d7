import EthereumJS.Mpt.Trie
import EthereumJS.Rlp.RoundTrip

/-! # Nodes of the binary tree

The bit strings of `util/bytes.ts` and the nodes of the binary tree with their encoding.
-/

namespace EthereumJS.Binarytree

open RLP

abbrev Bits := List Bool

/-- Most significant bit first; past the end of the bytes the bits are zero. -/
def bytesToBits (bytes : Bytes) (bitLength : Nat) : Bits :=
  (List.range bitLength).map fun i => (bytes.getD (i / 8) 0).toNat.testBit (7 - i % 8)

/-- All bits of some bytes. -/
def keyBits (bytes : Bytes) : Bits := bytesToBits bytes (bytes.length * 8)

/-- The first eight bits as a number; missing bits are zero. -/
def packBits (bits : Bits) : Nat :=
  (List.range 8).foldl (fun acc i => 2 * acc + (bits.getD i false).toNat) 0

def bitsToBytes (bits : Bits) : Bytes :=
  (List.range ((bits.length + 7) / 8)).map fun i => UInt8.ofNat (packBits (bits.drop (8 * i)))

def matchingBitsLength : Bits → Bits → Nat
  | a :: bits1, b :: bits2 => if a = b then matchingBitsLength bits1 bits2 + 1 else 0
  | _, _ => 0

inductive TreeError
  | stemLength
  | valuesLength
  | rootNotFound
  | rootMissing
  | missingNode (path : Bits)
  | rlp (error : RLP.Error)
  | invalidNode
  | invalidNodeType
  | invalidNodeLength
  | invalidChildPath
  | invalidPathLength
  | exceedsLength
  | dataLength
  | expectedInternal (path : Bits)
  | rootMismatch
  | invalidProof
  /-- A `TypeError` of the language. -/
  | typeError
  | outOfFuel

structure ChildBinaryNode where
  hash : Bytes
  path : Bits
  deriving DecidableEq

structure InternalBinaryNode where
  left : Option ChildBinaryNode
  right : Option ChildBinaryNode
  deriving DecidableEq

structure StemBinaryNode where
  stem : Bytes
  values : List (Option Bytes)
  deriving DecidableEq

inductive BinaryNode
  | internal (node : InternalBinaryNode)
  | stem (node : StemBinaryNode)
  deriving DecidableEq

def NODE_WIDTH : Nat := 256

namespace InternalBinaryNode

def create : InternalBinaryNode := ⟨none, none⟩

def getChild (node : InternalBinaryNode) (index : Bool) : Option ChildBinaryNode :=
  if index then node.right else node.left

def setChild (node : InternalBinaryNode) (index : Bool) (child : Option ChildBinaryNode) :
    InternalBinaryNode :=
  if index then { node with right := child } else { node with left := child }

/-- The path of a child with its length in front. -/
def rawPath (child : ChildBinaryNode) : Bytes :=
  encode (.list [.bytes [UInt8.ofNat child.path.length], .bytes (bitsToBytes child.path)])

def raw (node : InternalBinaryNode) : List Item :=
  let hash (child : Option ChildBinaryNode) := .bytes ((child.map ChildBinaryNode.hash).getD [])
  let path (child : Option ChildBinaryNode) := .bytes ((child.map rawPath).getD [])
  [.bytes [0], hash node.left, hash node.right, path node.left, path node.right]

end InternalBinaryNode

namespace StemBinaryNode

def create (stem : Bytes) : StemBinaryNode := ⟨stem, List.replicate 256 none⟩

def getValue (node : StemBinaryNode) (index : UInt8) : Option Bytes :=
  node.values.getD index.toNat none

def setValue (node : StemBinaryNode) (index : UInt8) (value : Option Bytes) : StemBinaryNode :=
  { node with values := node.values.set index.toNat value }

def raw (node : StemBinaryNode) : List Item :=
  .bytes [1] :: .bytes node.stem :: node.values.map fun val => .bytes (val.getD [])

end StemBinaryNode

namespace BinaryNode

def isStem : BinaryNode → Bool
  | internal _ => false
  | stem _ => true

def raw : BinaryNode → List Item
  | internal node => node.raw
  | stem node => node.raw

def serialize (node : BinaryNode) : Bytes := encode (.list node.raw)

end BinaryNode

section Decode

/-- An array where bytes are expected: the empty one is as good as no bytes. -/
def itemBytes : Item → Except TreeError Bytes
  | .bytes data => .ok data
  | .list [] => .ok []
  | .list _ => .error .typeError

def decodeItem (raw : Bytes) : Except TreeError Item := (decode raw).mapError TreeError.rlp

def decodeChild (hash rawPath : Bytes) : Except TreeError (Option ChildBinaryNode) :=
  if hash.length = 0 then .ok none
  else do
    match ← decodeItem rawPath with
    | .list [encodedLength, encodedPath] => do
      match ← itemBytes encodedLength with
      | [pathLength] => do
        let encodedPath ← itemBytes encodedPath
        return some ⟨hash, bytesToBits encodedPath pathLength.toNat⟩
      | _ => throw .invalidPathLength
    | _ => throw .invalidChildPath

/-- `InternalBinaryNode.fromRawNode`. -/
def internalFromRawNode (rawNode : List Item) : Except TreeError BinaryNode :=
  match rawNode with
  | [_, leftChildHash, rightChildHash, leftChildRawPath, rightChildRawPath] => do
    let left ← decodeChild (← itemBytes leftChildHash) (← itemBytes leftChildRawPath)
    let right ← decodeChild (← itemBytes rightChildHash) (← itemBytes rightChildRawPath)
    return .internal ⟨left, right⟩
  | _ => throw .invalidNodeLength

/-- `StemBinaryNode.fromRawNode`. -/
def stemFromRawNode (rawNode : List Item) : Except TreeError BinaryNode :=
  if rawNode.length ≠ NODE_WIDTH + 2 then throw .invalidNodeLength
  else
    match rawNode with
    | _ :: stem :: rawValues => do
      let stem ← itemBytes stem
      let values ← rawValues.mapM itemBytes
      return .stem ⟨stem, values.map fun el => if el.length = 0 then none else some el⟩
    | _ => throw .invalidNodeLength

def decodeRawBinaryNode (raw : List Item) : Except TreeError BinaryNode :=
  match raw with
  | [] => throw .typeError
  | .bytes (nodeType :: _) :: _ =>
    if nodeType = 0 then internalFromRawNode raw
    else if nodeType = 1 then stemFromRawNode raw
    else throw .invalidNodeType
  | _ => throw .invalidNodeType

def decodeBinaryNode (raw : Bytes) : Except TreeError BinaryNode := do
  match ← decodeItem raw with
  | .list decoded => decodeRawBinaryNode decoded
  | .bytes _ => throw .invalidNode

end Decode

section Bits

@[simp] theorem length_bytesToBits (bytes : Bytes) (n : Nat) : (bytesToBits bytes n).length = n := by
  simp [bytesToBits]

@[simp] theorem length_keyBits (bytes : Bytes) : (keyBits bytes).length = bytes.length * 8 :=
  length_bytesToBits _ _

theorem packBits_lt (bits : Bits) : packBits bits < 256 := by
  simp only [packBits, List.range, List.range.loop, List.foldl]
  have hbit : ∀ b : Bool, b.toNat ≤ 1 := Bool.toNat_le
  have h0 := hbit (bits.getD 0 false)
  have h1 := hbit (bits.getD 1 false)
  have h2 := hbit (bits.getD 2 false)
  have h3 := hbit (bits.getD 3 false)
  have h4 := hbit (bits.getD 4 false)
  have h5 := hbit (bits.getD 5 false)
  have h6 := hbit (bits.getD 6 false)
  have h7 := hbit (bits.getD 7 false)
  omega

theorem testBit_packBits (bits : Bits) {k : Nat} (hk : k < 8) :
    (packBits bits).testBit (7 - k) = bits.getD k false := by
  have htable : ∀ b0 b1 b2 b3 b4 b5 b6 b7 : Bool, ∀ k < 8,
      (packBits [b0, b1, b2, b3, b4, b5, b6, b7]).testBit (7 - k) =
        [b0, b1, b2, b3, b4, b5, b6, b7].getD k false := by
    decide +kernel
  have hrow := htable (bits.getD 0 false) (bits.getD 1 false) (bits.getD 2 false)
    (bits.getD 3 false) (bits.getD 4 false) (bits.getD 5 false) (bits.getD 6 false)
    (bits.getD 7 false) k hk
  refine Eq.trans hrow ?_
  interval_cases k <;> rfl

/-- A path is read back with its length. -/
theorem bytesToBits_bitsToBytes (bits : Bits) :
    bytesToBits (bitsToBytes bits) bits.length = bits := by
  apply List.ext_getElem (length_bytesToBits _ _)
  intro i hi hi'
  simp only [bytesToBits, List.getElem_map, List.getElem_range]
  have hbyte : (bitsToBytes bits).getD (i / 8) 0 =
      UInt8.ofNat (packBits (bits.drop (8 * (i / 8)))) := by
    have hlt : i / 8 < (bits.length + 7) / 8 := by omega
    simp [bitsToBytes, List.getD_eq_getElem?_getD, hlt]
  rw [hbyte, toNat_ofNat_lt _ (packBits_lt _), testBit_packBits _ (Nat.mod_lt _ (by decide)),
    List.getD_eq_getElem?_getD, List.getElem?_drop, Nat.div_add_mod]
  simp [hi']

theorem packBits_byte (b : UInt8) :
    packBits ((List.range 8).map fun i => b.toNat.testBit (7 - i)) = b.toNat := by
  have htable : ∀ n < 256, packBits ((List.range 8).map fun i => n.testBit (7 - i)) = n := by
    decide +kernel
  exact htable _ b.toNat_lt

theorem keyBits_injective {a b : Bytes} (hlen : a.length = b.length)
    (h : keyBits a = keyBits b) : a = b := by
  apply List.ext_getElem hlen
  intro i hi hi'
  have hbits : ∀ {v : Bytes} (hv : i < v.length), packBits ((List.range 8).map fun k =>
      (keyBits v).getD (8 * i + k) false) = v[i].toNat := by
    intro v hv
    rw [← packBits_byte v[i]]
    congr 1
    apply List.map_congr_left
    intro k hk
    have hk : k < 8 := List.mem_range.mp hk
    have hlt : 8 * i + k < v.length * 8 := by omega
    have hdiv : (8 * i + k) / 8 = i := by omega
    have hmod : (8 * i + k) % 8 = k := by omega
    simp [keyBits, bytesToBits, List.getD_eq_getElem?_getD, hlt, hdiv, hmod, hv]
  apply UInt8.toNat_inj.mp
  rw [← hbits hi, ← hbits hi', h]

end Bits

section Matching

variable {a b : Bits}

theorem matchingBitsLength_cons (x y : Bool) (a b : Bits) :
    matchingBitsLength (x :: a) (y :: b) = if x = y then matchingBitsLength a b + 1 else 0 :=
  rfl

theorem matchingBitsLength_le (a b : Bits) :
    matchingBitsLength a b ≤ a.length ∧ matchingBitsLength a b ≤ b.length := by
  induction a generalizing b with
  | nil => exact ⟨Nat.zero_le _, Nat.zero_le _⟩
  | cons x a ih =>
    cases b with
    | nil => exact ⟨Nat.zero_le _, Nat.zero_le _⟩
    | cons y b =>
      rw [matchingBitsLength_cons]
      split
      · exact ⟨Nat.succ_le_succ (ih b).1, Nat.succ_le_succ (ih b).2⟩
      · exact ⟨Nat.zero_le _, Nat.zero_le _⟩

theorem matchingBitsLength_comm (a b : Bits) :
    matchingBitsLength a b = matchingBitsLength b a := by
  induction a generalizing b with
  | nil => cases b <;> rfl
  | cons x a ih =>
    cases b with
    | nil => rfl
    | cons y b => simp only [matchingBitsLength_cons, ih, eq_comm]

theorem matchingBitsLength_self (a : Bits) : matchingBitsLength a a = a.length := by
  induction a with
  | nil => rfl
  | cons x a ih => rw [matchingBitsLength_cons, if_pos rfl, ih, List.length_cons]

theorem matchingBitsLength_append (p a b : Bits) :
    matchingBitsLength (p ++ a) (p ++ b) = p.length + matchingBitsLength a b := by
  induction p with
  | nil => simp
  | cons x p ih =>
    simp only [List.cons_append, matchingBitsLength_cons, if_true, List.length_cons, ih]
    omega

/-- A prefix matches all along. -/
theorem matchingBitsLength_take (a : Bits) (n : Nat) :
    matchingBitsLength a (a.take n) = (a.take n).length := by
  have h := matchingBitsLength_append (a.take n) (a.drop n) []
  rw [List.take_append_drop, List.append_nil] at h
  rw [h]
  cases a.drop n <;> rfl

/-- Two different strings of one length differ first behind the matching bits. -/
theorem matchingBitsLength_lt (hlen : a.length = b.length) (hne : a ≠ b) :
    matchingBitsLength a b < a.length := by
  induction a generalizing b with
  | nil =>
    cases b with
    | nil => exact absurd rfl hne
    | cons y b => cases hlen
  | cons x a ih =>
    cases b with
    | nil => cases hlen
    | cons y b =>
      rw [matchingBitsLength_cons]
      split
      · rename_i hxy
        subst hxy
        exact Nat.succ_lt_succ (ih (Nat.succ.inj hlen) fun h => hne (h ▸ rfl))
      · exact Nat.succ_pos _

theorem take_matchingBitsLength (a b : Bits) :
    b.take (matchingBitsLength a b) = a.take (matchingBitsLength a b) := by
  induction a generalizing b with
  | nil => exact List.take_zero
  | cons x a ih =>
    cases b with
    | nil => rfl
    | cons y b =>
      rw [matchingBitsLength_cons]
      split
      · rename_i hxy
        rw [List.take_succ_cons, List.take_succ_cons, ih, hxy]
      · rfl

theorem getD_matchingBitsLength (hlen : a.length = b.length) (hne : a ≠ b) :
    b.getD (matchingBitsLength a b) false = !a.getD (matchingBitsLength a b) false := by
  induction a generalizing b with
  | nil =>
    cases b with
    | nil => exact absurd rfl hne
    | cons y b => cases hlen
  | cons x a ih =>
    cases b with
    | nil => cases hlen
    | cons y b =>
      rw [matchingBitsLength_cons]
      split
      · rename_i hxy
        subst hxy
        exact ih (Nat.succ.inj hlen) fun h => hne (h ▸ rfl)
      · rename_i hxy
        cases x <;> cases y <;> first | rfl | exact absurd rfl hxy

end Matching

section RoundTrip

/-- Hashes of 32 bytes, paths whose length is a byte, and values of 32 bytes. -/
def ChildBinaryNode.Valid (child : ChildBinaryNode) : Prop :=
  child.hash.length = 32 ∧ child.path.length < 256

def BinaryNode.Valid : BinaryNode → Prop
  | .internal node => ∀ child, some child = node.left ∨ some child = node.right → child.Valid
  | .stem node => node.stem.length = 31 ∧ node.values.length = 256 ∧
      ∀ value, some value ∈ node.values → value.length = 32

theorem length_encodeLength_le {len offset : Nat} (h : len < maxLength) (hoffset : offset ≤ 192) :
    (encodeLength len offset).length ≤ 8 := by
  rcases Nat.lt_or_ge len 56 with hshort | hlong
  · rw [encodeLength, if_pos hshort]
    exact (by decide : 1 ≤ 8)
  · obtain ⟨l, -, -, hl, heq⟩ := encodeLength_long len offset hlong h hoffset
    rw [heq, List.length_cons]
    omega

theorem length_encode_bytes_le {data : Bytes} {n : Nat} (h : data.length ≤ n) (hn : n < maxLength) :
    (encode (.bytes data)).length ≤ n + 8 := by
  have hlen : (encodeLength data.length 128).length ≤ 8 :=
    length_encodeLength_le (lt_of_le_of_lt h hn) (by decide)
  by_cases hsmall : ∃ b, data = [b] ∧ b < 128
  · obtain ⟨b, rfl, hb⟩ := hsmall
    rw [encode, encodeBytes, if_pos hb]
    exact (Nat.le_add_left 1 7).trans (Nat.le_add_left 8 n)
  · rw [encode, encodeBytes_eq data fun b hdata hb => hsmall ⟨b, hdata, hb⟩, List.length_append]
    omega

theorem length_encodeItems_le {items : List Item} {n : Nat}
    (h : ∀ item ∈ items, (encode item).length ≤ n) :
    (encodeItems items).length ≤ items.length * n := by
  induction items with
  | nil => exact Nat.zero_le _
  | cons item items ih =>
    have hfirst := h item List.mem_cons_self
    have hrest := ih fun item hitem => h item (List.mem_cons_of_mem _ hitem)
    rw [encodeItems, List.length_append, List.length_cons, Nat.succ_mul]
    omega

theorem decodeItem_encode {items : List Item} {n : Nat}
    (h : ∀ item ∈ items, (encode item).length ≤ n) (hn : items.length * n + 8 < maxLength) :
    decodeItem (encode (.list items)) = .ok (.list items) := by
  have hitems := length_encodeItems_le h
  have hlen : (encodeLength (encodeItems items).length 192).length ≤ 8 :=
    length_encodeLength_le (by omega) le_rfl
  rw [decodeItem, decode_encode _ (by rw [encode_list_length]; omega)]
  rfl

theorem decodeChild_raw (child : Option ChildBinaryNode) (h : ∀ c, some c = child → c.Valid) :
    decodeChild ((child.map ChildBinaryNode.hash).getD [])
      ((child.map InternalBinaryNode.rawPath).getD []) = .ok child := by
  cases child with
  | none => rfl
  | some child =>
    obtain ⟨hhash, hpath⟩ := h child rfl
    have hbytes : (bitsToBytes child.path).length ≤ 32 := by
      simp only [bitsToBytes, List.length_map, List.length_range]
      omega
    have hitem : decodeItem (InternalBinaryNode.rawPath child) = .ok (.list
        [.bytes [UInt8.ofNat child.path.length], .bytes (bitsToBytes child.path)]) := by
      refine decodeItem_encode (n := 40) (fun item hitem => ?_)
        (show 2 * 40 + 8 < maxLength by decide)
      simp only [List.mem_cons, List.not_mem_nil, or_false] at hitem
      rcases hitem with rfl | rfl
      · exact length_encode_bytes_le (by simp) (by decide)
      · exact length_encode_bytes_le hbytes (by decide)
    simp only [decodeChild, Option.map_some, Option.getD_some, hhash]
    rw [if_neg (by decide), hitem]
    change Except.ok (some (ChildBinaryNode.mk child.hash
      (bytesToBits (bitsToBytes child.path) (UInt8.ofNat child.path.length).toNat))) = _
    rw [toNat_ofNat_lt _ hpath, bytesToBits_bitsToBytes]

theorem length_rawPath_le {child : ChildBinaryNode} (h : child.path.length < 256) :
    (InternalBinaryNode.rawPath child).length ≤ 88 := by
  have hbytes : (bitsToBytes child.path).length ≤ 32 := by
    simp only [bitsToBytes, List.length_map, List.length_range]
    omega
  have hitems : (encodeItems [.bytes [UInt8.ofNat child.path.length],
      .bytes (bitsToBytes child.path)]).length ≤ 2 * 40 := by
    refine length_encodeItems_le fun item hitem => ?_
    simp only [List.mem_cons, List.not_mem_nil, or_false] at hitem
    rcases hitem with rfl | rfl
    · exact length_encode_bytes_le (by simp) (by decide)
    · exact length_encode_bytes_le hbytes (by decide)
  have hlen := length_encodeLength_le (lt_of_le_of_lt hitems (by decide)) (Nat.le_refl 192)
  rw [InternalBinaryNode.rawPath, encode_list_length]
  omega

theorem mapM_itemBytes (values : List (Option Bytes)) :
    (values.map fun val => Item.bytes (val.getD [])).mapM itemBytes =
      .ok (values.map fun val => val.getD []) :=
  mapM_map_eq_ok fun _ _ => rfl

/-- A node is read back. -/
theorem decodeBinaryNode_serialize {node : BinaryNode} (h : node.Valid) :
    decodeBinaryNode node.serialize = .ok node := by
  cases node with
  | internal node =>
    have hvalid : ∀ child, some child = node.left ∨ some child = node.right →
      child.Valid := h
    have hhash : ∀ child, child = node.left ∨ child = node.right →
        (encode (.bytes ((child.map ChildBinaryNode.hash).getD []))).length ≤ 96 := by
      intro child hchild
      refine length_encode_bytes_le (n := 88) ?_ (by decide)
      cases child with
      | none => exact Nat.zero_le _
      | some child => exact (hvalid child hchild).1 ▸ (by decide : 32 ≤ 88)
    have hpath : ∀ child, child = node.left ∨ child = node.right →
        (encode (.bytes ((child.map InternalBinaryNode.rawPath).getD []))).length ≤ 96 := by
      intro child hchild
      refine length_encode_bytes_le (n := 88) ?_ (by decide)
      cases child with
      | none => exact Nat.zero_le _
      | some child => exact length_rawPath_le (hvalid child hchild).2
    have hitem : decodeItem (BinaryNode.internal node).serialize = .ok (.list node.raw) := by
      refine decodeItem_encode (n := 96) (fun item hitem => ?_)
        (show 5 * 96 + 8 < maxLength by decide)
      simp only [BinaryNode.raw, InternalBinaryNode.raw, List.mem_cons, List.not_mem_nil, or_false] at hitem
      rcases hitem with rfl | rfl | rfl | rfl | rfl
      · decide
      · exact hhash _ (.inl rfl)
      · exact hhash _ (.inr rfl)
      · exact hpath _ (.inl rfl)
      · exact hpath _ (.inr rfl)
    rw [decodeBinaryNode, hitem]
    change internalFromRawNode node.raw = _
    have hleft := decodeChild_raw node.left fun c hc => hvalid c (.inl hc)
    have hright := decodeChild_raw node.right fun c hc => hvalid c (.inr hc)
    simp only [internalFromRawNode, InternalBinaryNode.raw, itemBytes]
    change (decodeChild _ _ >>= fun left => decodeChild _ _ >>= fun right =>
      Except.ok (BinaryNode.internal ⟨left, right⟩)) = _
    rw [hleft]
    change (decodeChild _ _ >>= fun right => Except.ok (BinaryNode.internal ⟨node.left, right⟩)) = _
    rw [hright]
    rfl
  | stem node =>
    obtain ⟨hstem, hlen, hvalues⟩ := h
    have hitem : decodeItem (BinaryNode.stem node).serialize = .ok (.list node.raw) := by
      refine decodeItem_encode (n := 40) (fun item hitem => ?_) ?_
      · simp only [BinaryNode.raw, StemBinaryNode.raw, List.mem_cons, List.mem_map] at hitem
        rcases hitem with rfl | rfl | ⟨value, hvalue, rfl⟩
        · decide
        · exact length_encode_bytes_le (by omega) (by decide)
        · cases value with
          | none => decide
          | some value => exact length_encode_bytes_le (hvalues value hvalue).le (by decide)
      · change node.raw.length * 40 + 8 < maxLength
        simp only [StemBinaryNode.raw, List.length_cons, List.length_map, hlen]
        decide
    rw [decodeBinaryNode, hitem]
    change stemFromRawNode node.raw = _
    have hwidth : ¬ node.raw.length ≠ NODE_WIDTH + 2 := by
      simp [StemBinaryNode.raw, hlen, NODE_WIDTH]
    unfold stemFromRawNode
    rw [if_neg hwidth]
    change (((node.values.map fun val => Item.bytes (val.getD [])).mapM itemBytes) >>= _) = _
    rw [mapM_itemBytes]
    change Except.ok (BinaryNode.stem ⟨node.stem, (node.values.map fun val => val.getD []).map
      fun el => if el.length = 0 then none else some el⟩) = _
    rw [List.map_map]
    congr 3
    refine (List.map_congr_left fun value hvalue => ?_).trans (List.map_id _)
    cases value with
    | none => rfl
    | some value =>
      have hne : value ≠ [] := by
        rintro rfl
        cases hvalues _ hvalue
      simp [hne]

end RoundTrip

end EthereumJS.Binarytree
