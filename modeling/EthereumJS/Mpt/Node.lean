import EthereumJS.Mpt.Nibbles
import EthereumJS.Rlp.RoundTrip

/-! # Trie nodes

The classes of `node/`. The source tells neither `null` from an empty byte string
in a branch nor do its encodings, so one `Item` stands for both. A reference to a
node is its hash, or the raw node itself where that is short.
-/

namespace EthereumJS

open RLP

inductive MPTError
  | missingNode
  | invalidNode
  | stackUnderflow
  | missingLastNode
  | expectedBranchNode
  | expectedExtensionNode
  | invalidRootLength (expected actual : Nat)
  | unexpectedRoot
  | invalidProof
  | rlp (error : RLP.Error)
  | typeError (text : String)
  | outOfFuel
  deriving DecidableEq

def MPTError.message : MPTError → String
  | missingNode => "Missing node in DB"
  | invalidNode => "Invalid node"
  | stackUnderflow => "Stack underflow"
  | missingLastNode => "missing last node"
  | expectedBranchNode => "Expected branch node"
  | expectedExtensionNode => "Expected extension node"
  | invalidRootLength expected actual =>
    "Invalid root length. Roots are " ++ toString expected ++ " bytes, got " ++
      toString actual ++ " bytes"
  | unexpectedRoot => "The provided proof does not have the expected trie root"
  | invalidProof => "Invalid proof provided"
  | rlp error => error.message
  | typeError text => text
  | outOfFuel => "the walk does not end"

/-- `BranchMPTNode`, `ExtensionMPTNode` and `LeafMPTNode`. -/
inductive MPTNode
  | branch (branches : Nibble → Item) (value : Item)
  | extension (nibbles : Nibbles) (value : Item)
  | leaf (nibbles : Nibbles) (value : Item)

/-- The test `v !== null && v.length > 0`. -/
def nonEmpty : Item → Option Item
  | .bytes [] => none
  | .list [] => none
  | v => some v

@[simp] theorem nonEmpty_nil : nonEmpty (.bytes []) = none := rfl

namespace MPTNode

/-- A new `BranchMPTNode`. -/
def emptyBranch : MPTNode := branch (fun _ => .bytes []) (.bytes [])

def key : MPTNode → Nibbles
  | branch _ _ => []
  | extension nibbles _ => nibbles
  | leaf nibbles _ => nibbles

def setKey : MPTNode → Nibbles → MPTNode
  | branch b v, _ => branch b v
  | extension _ v, k => extension k v
  | leaf _ v, k => leaf k v

/-- `value()`; `none` is `null`. -/
def value : MPTNode → Option Item
  | branch _ v => nonEmpty v
  | extension _ v => some v
  | leaf _ v => some v

/-- `value(v)`; a branch ignores `null`. -/
def setValue : MPTNode → Option Item → MPTNode
  | branch b w, none => branch b w
  | branch b _, some v => branch b v
  | extension nibbles _, v => extension nibbles (v.getD (.bytes []))
  | leaf nibbles _, v => leaf nibbles (v.getD (.bytes []))

def setBranch : MPTNode → Nibble → Item → MPTNode
  | branch b w, i, v => branch (Function.update b i v) w
  | node, _, _ => node

def getBranch : MPTNode → Nibble → Option Item
  | branch b _, i => nonEmpty (b i)
  | _, _ => none

def getChildren : MPTNode → List (Nibble × Item)
  | branch b _ => (List.finRange 16).filterMap fun i => (nonEmpty (b i)).map (i, ·)
  | _ => []

def isBranch : MPTNode → Bool
  | branch _ _ => true
  | _ => false

def isLeaf : MPTNode → Bool
  | leaf _ _ => true
  | _ => false

def raw : MPTNode → Item
  | branch b w => .list ((List.finRange 16).map b ++ [w])
  | extension nibbles v => .list [.bytes (compactPath nibbles false), v]
  | leaf nibbles v => .list [.bytes (compactPath nibbles true), v]

def serialize (node : MPTNode) : Bytes := encode node.raw

end MPTNode

def fromArray (arr : List Item) : MPTNode :=
  .branch (fun i => arr.getD i.val (.bytes [])) (arr.getD 16 (.bytes []))

/-- No encoder writes a path that is a list; there the source would coerce the
entries to numbers. -/
def decodeRawMPTNode : List Item → Except MPTError MPTNode
  | [.bytes path, v] =>
    let nibbles := bytesToNibbles path
    .ok (if isTerminator nibbles then .leaf (removeHexPrefix nibbles) v
      else .extension (removeHexPrefix nibbles) v)
  | raw => if raw.length = 17 then .ok (fromArray raw) else .error .invalidNode

def decodeMPTNode (node : Bytes) : Except MPTError MPTNode :=
  match decode node with
  | .ok (.list raw) => decodeRawMPTNode raw
  | .ok (.bytes _) => .error .invalidNode
  | .error e => .error (.rlp e)

theorem getD_branches (b : Nibble → Item) (w : Item) (i : Nibble) :
    ((List.finRange 16).map b ++ [w]).getD i.val (.bytes []) = b i := by
  rw [List.getD_eq_getElem?_getD, List.getElem?_append_left (by simp)]
  simp

theorem fromArray_branch (b : Nibble → Item) (w : Item) :
    fromArray ((List.finRange 16).map b ++ [w]) = .branch b w := by
  unfold fromArray
  congr 1
  funext i
  exact getD_branches b w i

/-- A raw node decodes to the node it was made from. -/
theorem decodeRawMPTNode_raw (node : MPTNode) (items : List Item) (h : node.raw = .list items) :
    decodeRawMPTNode items = .ok node := by
  cases node with
  | branch b w =>
    obtain rfl := Item.list.inj h
    have hlen : ((List.finRange 16).map b ++ [w]).length = 17 := by simp
    rw [← fromArray_branch b w]
    generalize (List.finRange 16).map b ++ [w] = arr at hlen ⊢
    unfold decodeRawMPTNode
    split
    · simp at hlen
    · rw [if_pos hlen]
  | extension nibbles v =>
    obtain rfl := Item.list.inj h
    simp [decodeRawMPTNode]
  | leaf nibbles v =>
    obtain rfl := Item.list.inj h
    simp [decodeRawMPTNode]

theorem MPTNode.raw_eq_list (node : MPTNode) : ∃ items, node.raw = .list items := by
  cases node <;> exact ⟨_, rfl⟩

/-- A stored node decodes to itself. -/
theorem decodeMPTNode_serialize (node : MPTNode) (h : node.serialize.length < maxLength) :
    decodeMPTNode node.serialize = .ok node := by
  obtain ⟨items, hitems⟩ := node.raw_eq_list
  unfold decodeMPTNode MPTNode.serialize
  rw [decode_encode node.raw h, hitems]
  exact decodeRawMPTNode_raw node items hitems

end EthereumJS
