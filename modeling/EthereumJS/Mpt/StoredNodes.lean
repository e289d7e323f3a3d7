import EthereumJS.Mpt.CompactBytes
import EthereumJS.Mpt.Node

/-! # Nodes before they are stored

The node classes with `null` for what a branch does not have, also in the raw nodes that stand
for short children. What is read back from a store has an empty byte string there.
-/

namespace EthereumJS

open RLP Encoding

/-- `BranchMPTNodeBranchValue`, a reference or a raw node or `null`. -/
inductive RawValue
  | null
  | bytes (data : Bytes)
  | list (items : List RawValue)

namespace RawValue

mutual
/-- `RLP.encode`, for which `null` has no bytes. -/
def encode : RawValue → Bytes
  | null => encodeBytes []
  | bytes data => encodeBytes data
  | list items =>
    let output := encodeItems items
    encodeLength output.length 192 ++ output

def encodeItems : List RawValue → Bytes
  | [] => []
  | item :: items => encode item ++ encodeItems items
end

mutual
/-- The value with empty byte strings for `null`. -/
def filled : RawValue → Item
  | null => .bytes []
  | bytes data => .bytes data
  | list items => .list (filledItems items)

def filledItems : List RawValue → List Item
  | [] => []
  | item :: items => filled item :: filledItems items
end

mutual
theorem encode_filled : ∀ v : RawValue, RLP.encode v.filled = v.encode
  | null => rfl
  | bytes data => rfl
  | list items => by
    rw [filled, RLP.encode, encode, encodeItems_filled items]

theorem encodeItems_filled :
    ∀ items : List RawValue, RLP.encodeItems (filledItems items) = encodeItems items
  | [] => rfl
  | item :: items => by
    rw [filledItems, RLP.encodeItems, encodeItems, encode_filled item, encodeItems_filled items]
end

theorem filledItems_eq_map : ∀ items : List RawValue, filledItems items = items.map filled
  | [] => rfl
  | item :: items => by rw [filledItems, List.map_cons, filledItems_eq_map items]

/-- The test `b !== null && b.length > 0`. -/
def nonEmpty : RawValue → Option RawValue
  | null => none
  | bytes [] => none
  | list [] => none
  | v => some v

theorem nonEmpty_filled (v : RawValue) : EthereumJS.nonEmpty v.filled = v.nonEmpty.map filled := by
  cases v with
  | null => rfl
  | bytes data => cases data <;> rfl
  | list items => cases items <;> rfl

end RawValue

/-- A node as the program builds it. -/
inductive RawNode
  | branch (branches : Nibble → RawValue) (value : RawValue)
  | extension (nibbles : Nibbles) (value : RawValue)
  | leaf (nibbles : Nibbles) (value : RawValue)

namespace RawNode

def raw : RawNode → RawValue
  | branch branches value => .list ((List.finRange 16).map branches ++ [value])
  | extension nibbles value =>
    .list [.bytes (nibblesTypeToPackedBytes (addHexPrefix nibbles false)), value]
  | leaf nibbles value =>
    .list [.bytes (nibblesTypeToPackedBytes (addHexPrefix nibbles true)), value]

def serialize (node : RawNode) : Bytes := node.raw.encode

def value : RawNode → Option RawValue
  | branch _ value => value.nonEmpty
  | extension _ value => some value
  | leaf _ value => some value

def getBranch : RawNode → Nibble → Option RawValue
  | branch branches _, i => (branches i).nonEmpty
  | _, _ => none

/-- The node with empty byte strings for `null`. -/
def filled : RawNode → MPTNode
  | branch branches value => .branch (fun i => (branches i).filled) value.filled
  | extension nibbles value => .extension nibbles value.filled
  | leaf nibbles value => .leaf nibbles value.filled

variable (node : RawNode)

theorem raw_filled : node.raw.filled = node.filled.raw := by
  cases node with
  | branch branches value =>
    rw [raw, RawValue.filled, RawValue.filledItems_eq_map, List.map_append, List.map_map]
    rfl
  | extension nibbles value => rfl
  | leaf nibbles value => rfl

theorem serialize_filled : node.filled.serialize = node.serialize := by
  rw [MPTNode.serialize, ← raw_filled, RawValue.encode_filled]
  rfl

/-- The accessors do not tell `null` from an empty byte string. -/
theorem value_filled : node.filled.value = node.value.map RawValue.filled := by
  cases node with
  | branch branches value => exact value.nonEmpty_filled
  | extension nibbles value => rfl
  | leaf nibbles value => rfl

theorem getBranch_filled (i : Nibble) :
    node.filled.getBranch i = (node.getBranch i).map RawValue.filled := by
  cases node with
  | branch branches value => exact (branches i).nonEmpty_filled
  | extension nibbles value => rfl
  | leaf nibbles value => rfl

/-- Every node is read back as it was stored, `null` as an empty byte string, and the paths of
leaves and extensions are the compact bytes of the other codec, which gives them back. -/
theorem decodeMPTNode_serialize_and_codecs :
    (∀ node : RawNode, node.serialize.length < maxLength →
      decodeMPTNode node.serialize = .ok node.filled) ∧
    ∀ (path : Nibbles) (isLeaf : Bool),
      nibblesToCompactBytes (hexKey path isLeaf) =
        nibblesTypeToPackedBytes (addHexPrefix path isLeaf) ∧
      compactBytesToNibbles (nibblesToCompactBytes (hexKey path isLeaf)) = hexKey path isLeaf := by
  refine ⟨fun node hlength => ?_, fun path isLeaf =>
    ⟨nibblesToCompactBytes_hexKey path isLeaf,
      compactBytesToNibbles_nibblesToCompactBytes path isLeaf⟩⟩
  rw [← serialize_filled] at hlength ⊢
  exact decodeMPTNode_serialize node.filled hlength

/-- A branch with an inlined leaf. -/
def inlinedLeaf : RawNode :=
  .branch (fun i => if i = 3 then (leaf [1, 2, 3] (.bytes [7])).raw else .null) .null

theorem decodeMPTNode_serialize_and_codecs_inlinedLeaf :
    decodeMPTNode inlinedLeaf.serialize = .ok inlinedLeaf.filled :=
  decodeMPTNode_serialize_and_codecs.1 inlinedLeaf (by decide)

end RawNode

end EthereumJS
