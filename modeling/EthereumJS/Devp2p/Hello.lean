import EthereumJS.Devp2p.Peer
import EthereumJS.Ordered.Best
import EthereumJS.Ordered.Sorting
import EthereumJS.Rlp.RoundTrip

/-! # Shared protocols

How two peers that exchange HELLO come to the protocols they share and to the offsets of their
codes, how a protocol sends a message and which protocol the other side hands it to.
-/

namespace EthereumJS.Devp2p

open RLP Ordered

section Names

/-- A string, by its 16-bit code units. -/
abbrev JsString := List (Fin 65536)

instance neZero_codeUnits : NeZero 65536 := ⟨by decide⟩

def isLeadingSurrogate (unit : Fin 65536) : Bool := 0xD800 ≤ unit.val && unit.val ≤ 0xDBFF

def isTrailingSurrogate (unit : Fin 65536) : Bool := 0xDC00 ≤ unit.val && unit.val ≤ 0xDFFF

/-- Every surrogate that is not one of a pair becomes the replacement character. -/
def toWellFormed : JsString → JsString
  | [] => []
  | [unit] => if isLeadingSurrogate unit || isTrailingSurrogate unit then [0xFFFD] else [unit]
  | unit :: next :: rest =>
    if isLeadingSurrogate unit then
      if isTrailingSurrogate next then unit :: next :: toWellFormed rest
      else 0xFFFD :: toWellFormed (next :: rest)
    else if isTrailingSurrogate unit then 0xFFFD :: toWellFormed (next :: rest)
    else unit :: toWellFormed (next :: rest)

def dropByteOrderMark : JsString → JsString
  | [] => []
  | unit :: rest => if unit = 0xFEFF then rest else unit :: rest

/-- `bytesToUtf8(utf8ToBytes(text))`. -/
def throughUtf8 (text : JsString) : JsString := dropByteOrderMark (toWellFormed text)

end Names

/-- The constructor of a protocol is known by its name and version. -/
structure Capability where
  name : JsString
  version : Nat
  length : Nat
  /-- `intToBytes` throws on others. -/
  safe : version ≤ 2 ^ 53 - 1
  deriving DecidableEq

/-- A capability as it is read from HELLO. -/
structure HelloCapability where
  name : JsString
  version : Nat

/-- The capabilities that the other side reads from the HELLO of `_sendHello`. -/
def sendHelloCapabilities (capabilities : List Capability) : List HelloCapability :=
  capabilities.map fun c => ⟨throughUtf8 c.name, bytesToNumber (intToBytes c.version)⟩

/-- `__proto__`: an assignment under this key leaves no key of its own. -/
def protoKey : JsString := [95, 95, 112, 114, 111, 116, 111, 95, 95]

/-- The two loops over `shared`. -/
def shared (capabilities : List Capability) (hello : List HelloCapability) :
    InsertionMap JsString Capability :=
  hello.foldl
    (fun shared item =>
      capabilities.foldl
        (fun shared c =>
          if c.name ≠ item.name ∨ c.version ≠ item.version then shared
          else if c.name = protoKey then shared
          else shared.offer Capability.name Capability.version c)
        shared)
    InsertionMap.empty

/-- The comparator of the sort; it never sees one name twice. -/
def byName (obj1 obj2 : Capability) : Prop :=
  compareLists Fin.val obj1.name obj2.name ≠ .gt

instance : DecidableRel byName := fun obj1 obj2 =>
  inferInstanceAs (Decidable (compareLists Fin.val obj1.name obj2.name ≠ .gt))

instance : Std.Total byName where
  total obj1 obj2 := total_compareLists.total obj1.name obj2.name

instance : IsTrans Capability byName where
  trans obj1 obj2 obj3 := trans_compareLists.trans obj1.name obj2.name obj3.name

/-- An entry of `_protocols`: the protocol object and where its codes begin. -/
structure SharedProtocol where
  obj : Capability
  offset : Nat
  deriving DecidableEq

namespace SharedProtocol

def length (d : SharedProtocol) : Nat := d.obj.length

def toDescriptor (d : SharedProtocol) : ProtocolDescriptor := ⟨d.offset, d.length⟩

end SharedProtocol

/-- The `map` that counts the offset on. -/
def withOffsets : Nat → List Capability → List SharedProtocol
  | _, [] => []
  | offset, obj :: objs => ⟨obj, offset⟩ :: withOffsets (offset + obj.length) objs

/-- `_protocols` after `_handleHello`. -/
def handleHello (capabilities : List Capability) (hello : List HelloCapability) :
    List SharedProtocol :=
  withOffsets BASE_PROTOCOL_LENGTH ((shared capabilities hello).values.insertionSort byName)

/-- The send method of a protocol; the message as `_sendMessage` puts it into a frame. -/
def sendMethod (d : SharedProtocol) (code : Nat) (data : Bytes) : Except String Bytes :=
  if code > d.length then .error "Code out of range"
  else .ok (encodeCode (d.offset + code) ++ data)

inductive Recipient
  | peer
  | subProtocol (d : SharedProtocol)
  deriving DecidableEq

def Recipient.offset : Recipient → Nat
  | .peer => 0
  | .subProtocol d => d.offset

/-- `_getProtocol`. -/
def getProtocol (protocols : List SharedProtocol) (code : Nat) : Option Recipient :=
  if code < BASE_PROTOCOL_LENGTH then some .peer
  else
    (protocols.find? fun obj => obj.offset ≤ code ∧ code < obj.offset + obj.length).map
      .subProtocol

/-- Whom `_handleBody` gives a message to after HELLO, and under which code. -/
def handleBody (protocols : List SharedProtocol) (body : Bytes) : Option (Recipient × Nat) := do
  let code ← Peer.bodyCode body
  let protocolObj ← getProtocol protocols code
  return (protocolObj, code - protocolObj.offset)

/-- A peer with these protocols subtracts the offset of the protocol that is found here. -/
theorem getProtocol_peer (peer : Peer) {protocols : List SharedProtocol}
    (h : peer.protocols = protocols.map SharedProtocol.toDescriptor) (code : Nat) :
    peer.getProtocol code = (getProtocol protocols code).map Recipient.offset := by
  rw [Peer.getProtocol, getProtocol, h]
  split
  · rfl
  · rw [List.find?_map, Option.map_map, Option.map_map]
    rfl

section Choice

variable {a b : List Capability} {hello : List HelloCapability}

/-- The capabilities that match one of the other side, as often as they do. -/
def candidates (capabilities : List Capability) (hello : List HelloCapability) :
    List Capability :=
  hello.flatMap fun item =>
    capabilities.filter fun c =>
      c.name = item.name ∧ c.version = item.version ∧ c.name ≠ protoKey

/-- The best version of a name that a peer with the first capabilities finds in the HELLO of a
peer with the second ones. -/
def Chosen (a b : List Capability) (c : Capability) : Prop :=
  IsBest Capability.name Capability.version (candidates a (sendHelloCapabilities b)) c

/-- Both sides choose the same. -/
def SameChoice (a b : List Capability) : Prop := ∀ c, Chosen a b c ↔ Chosen b a c

/-- Equal lengths for equal name and version. -/
def SameLengths (capabilities : List Capability) : Prop :=
  ∀ c ∈ capabilities, ∀ c' ∈ capabilities, c.name = c'.name → c.version = c'.version →
    c.length = c'.length

theorem mem_candidates {c : Capability} :
    c ∈ candidates a hello ↔
      c ∈ a ∧ c.name ≠ protoKey ∧
        ∃ item ∈ hello, c.name = item.name ∧ c.version = item.version := by
  simp only [candidates, List.mem_flatMap, List.mem_filter, decide_eq_true_eq]
  constructor
  · rintro ⟨item, hitem, hc, hname, hversion, hproto⟩
    exact ⟨hc, hproto, item, hitem, hname, hversion⟩
  · rintro ⟨hc, hproto, item, hitem, hname, hversion⟩
    exact ⟨item, hitem, hc, hname, hversion, hproto⟩

theorem shared_eq_foldl (a : List Capability) (hello : List HelloCapability) :
    shared a hello =
      (candidates a hello).foldl (InsertionMap.offer Capability.name Capability.version)
        InsertionMap.empty := by
  rw [candidates, List.foldl_flatMap, shared]
  congr 1
  funext shared item
  rw [List.foldl_filter]
  congr 1
  funext shared c
  grind

theorem oneForEach_candidates (h : SameLengths a) :
    OneForEach Capability.name Capability.version (candidates a hello) := by
  intro c hc c' hc' hname hversion
  have hlength := h c (mem_candidates.mp hc).1 c' (mem_candidates.mp hc').1 hname hversion
  cases c
  cases c'
  cases hname
  cases hversion
  cases hlength
  rfl

theorem SameLengths.left (h : SameLengths (a ++ b)) : SameLengths a :=
  fun c hc c' hc' => h c (List.mem_append_left _ hc) c' (List.mem_append_left _ hc')

theorem SameLengths.right (h : SameLengths (a ++ b)) : SameLengths b :=
  fun c hc c' hc' => h c (List.mem_append_right _ hc) c' (List.mem_append_right _ hc')

theorem get_shared (h : SameLengths a) {name : JsString} {c : Capability} :
    (shared a (sendHelloCapabilities b)).get name = some c ↔ c.name = name ∧ Chosen a b c := by
  rw [shared_eq_foldl]
  exact (InsertionMap.holdsBest_foldl_offer _).get_eq_some_iff (oneForEach_candidates h)

theorem keyed_shared : (shared a hello).Keyed Capability.name := by
  rw [shared_eq_foldl]
  exact fun name c h => ((InsertionMap.holdsBest_foldl_offer _).sound name c h).1

theorem sameChoice_iff (h : SameLengths (a ++ b)) :
    SameChoice a b ↔ ∀ name, (shared a (sendHelloCapabilities b)).get name =
      (shared b (sendHelloCapabilities a)).get name := by
  constructor
  · intro hsame name
    refine Option.ext fun c => ?_
    rw [get_shared h.left, get_shared h.right, hsame c]
  · intro hget c
    have hboth := congrArg (· = some c) (hget c.name)
    simp only [get_shared h.left, get_shared h.right, true_and] at hboth
    exact iff_of_eq hboth

/-- Names that arrive as they were sent lead to one choice. -/
theorem sameChoice_of_names (h : SameLengths (a ++ b))
    (hnames : ∀ c ∈ a ++ b, throughUtf8 c.name = c.name) : SameChoice a b := by
  have hread : ∀ l, l ⊆ a ++ b →
      sendHelloCapabilities l = l.map fun c => ⟨c.name, c.version⟩ := by
    intro l hl
    refine List.map_congr_left fun c hc => ?_
    rw [hnames c (hl hc), intToBytes, bytesToNumber_numberToBytes]
  have hmem : ∀ c, c ∈ candidates a (sendHelloCapabilities b) ↔
      c ∈ candidates b (sendHelloCapabilities a) := by
    have hhalf : ∀ l r, l ⊆ a ++ b → r ⊆ a ++ b → ∀ c,
        c ∈ candidates l (sendHelloCapabilities r) →
          c ∈ candidates r (sendHelloCapabilities l) := by
      intro l r hl hr c hc
      rw [mem_candidates, hread r hr] at hc
      simp only [List.mem_map, exists_exists_and_eq_and] at hc
      obtain ⟨hc, hproto, c', hc', hname, hversion⟩ := hc
      have hlength := h c (hl hc) c' (hr hc') hname hversion
      have heq : c = c' := by
        cases c
        cases c'
        cases hname
        cases hversion
        cases hlength
        rfl
      subst heq
      rw [mem_candidates, hread l hl]
      exact ⟨hc', hproto, _, List.mem_map.mpr ⟨c, hc, rfl⟩, rfl, rfl⟩
    have ha := List.subset_append_left a b
    have hb := List.subset_append_right a b
    exact fun c => ⟨hhalf a b ha hb c, hhalf b a hb ha c⟩
  intro c
  simp only [Chosen, IsBest, hmem]

end Choice

end EthereumJS.Devp2p
