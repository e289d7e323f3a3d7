import EthereumJS.Parsing.Prefix
import EthereumJS.Rlp.Basic

/-! # EOF containers

`eof/container.ts`, where the input is the whole of its buffer.
-/

namespace EthereumJS.Evm.Eof

open RLP Parsing

section Constants

def FORMAT : UInt8 := 0xef

def MAGIC : UInt8 := 0x00

def VERSION : UInt8 := 0x01

def MAX_HEADER_SIZE : Nat := 49152

def KIND_TYPE : UInt8 := 0x01

def KIND_CODE : UInt8 := 0x02

def KIND_CONTAINER : UInt8 := 0x03

def KIND_DATA : UInt8 := 0x04

def TERMINATOR : UInt8 := 0x00

def TYPE_MIN : Nat := 0x0004

def TYPE_MAX : Nat := 0x1000

def TYPE_DIVISOR : Nat := 4

def CODE_MIN : Nat := 0x0001

def CODE_SIZE_MIN : Nat := 1

def CONTAINER_MIN : Nat := 0x0001

def CONTAINER_MAX : Nat := 0x0100

def CONTAINER_SIZE_MIN : Nat := 1

def INPUTS_MAX : Nat := 0x7f

def OUTPUTS_MAX : Nat := 0x80

def MAX_STACK_HEIGHT : Nat := 0x03ff

end Constants

inductive EOFContainerMode
  | Default
  | Initmode
  | TxInitmode
  deriving DecidableEq

section StreamReader

abbrev StreamReader := Input UInt8

abbrev Reader := Parser UInt8 String

/-- `validationError` of `OUT_OF_BOUNDS`. -/
def outOfBounds {α : Type} (pos : Nat) (errorStr : Option String) : Except String α :=
  .error (if pos ∈ [0, 2, 3, 6] then errorStr.getD "" else "Trying to read out of bounds ")

/-- `validationError` of `VERIFY_UINT`. -/
def verifyUintError {α : Type} (pos : Nat) (errorStr : String) : Except String α :=
  .error (if pos ∈ [0, 2, 3, 6, 18] then errorStr
    else s!"Uint does not match expected value at pos: {pos}: {errorStr}")

def readBytes (amount : Nat) (errorStr : Option String) : Reader Bytes := fun stream =>
  let end_ := stream.ptr + amount
  if end_ > stream.data.length then outOfBounds stream.ptr errorStr
  else .ok ((stream.data.drop stream.ptr).take amount, { stream with ptr := end_ })

def readUint (errorStr : Option String) : Reader UInt8 := fun stream =>
  match stream.data[stream.ptr]? with
  | none => outOfBounds stream.ptr errorStr
  | some uint => .ok (uint, { stream with ptr := stream.ptr + 1 })

def verifyUint (expect : UInt8) (errorStr : String) : Reader Unit := fun stream =>
  match readUint none stream with
  | .error error => .error error
  | .ok (uint, stream) =>
    if uint ≠ expect then verifyUintError (stream.ptr - 1) errorStr else .ok ((), stream)

def readUint16 (errorStr : Option String) : Reader Nat := fun stream =>
  let end_ := stream.ptr + 2
  if end_ > stream.data.length then outOfBounds stream.ptr errorStr
  else .ok (bytesToNumber ((stream.data.drop stream.ptr).take 2), { stream with ptr := end_ })

def failIf (c : Prop) [Decidable c] (error : String) : Reader PUnit :=
  if c then throw error else pure PUnit.unit

end StreamReader

section Header

structure EOFHeader where
  typeSize : Nat
  codeSizes : List Nat
  containerSizes : List Nat
  dataSize : Nat
  dataSizePtr : Nat
  buffer : Bytes
  deriving DecidableEq

def readVersion : Reader Unit := do
  verifyUint FORMAT "err: invalid format"
  verifyUint MAGIC "err: invalid magic"
  verifyUint VERSION "err: invalid eof version"

def readTypeSize : Reader Nat := do
  verifyUint KIND_TYPE "err: expected kind types"
  let typeSize ← readUint16 (some "missing type size")
  failIf (typeSize < TYPE_MIN) "err: type section size invalid"
  failIf (typeSize % TYPE_DIVISOR ≠ 0) "err: type section size invalid"
  failIf (typeSize > TYPE_MAX)
    s!"err: number of code sections must not exceed 1024 (got {typeSize})"
  return typeSize

def readCodeSize : Reader Nat := do
  let codeSectionSize ← readUint16 (some "expected a code section")
  failIf (codeSectionSize < CODE_SIZE_MIN) "code section should be at least one byte"
  return codeSectionSize

def readCodeSizes (typeSize : Nat) : Reader (List Nat) := do
  verifyUint KIND_CODE "err: expected kind code"
  let codeSize ← readUint16 (some "missing code size")
  failIf (codeSize < CODE_MIN) "should have at least 1 code section"
  let codes := typeSize / TYPE_DIVISOR
  failIf (codeSize ≠ codes) ("err: mismatch of code sections count and type signatures " ++
    s!"(types {codes} code {codeSize})")
  (List.range codeSize).mapM fun _ => readCodeSize

def readContainerSize : Reader Nat := do
  let containerSize ← readUint16 (some "expected a container section")
  failIf (containerSize < CONTAINER_SIZE_MIN) "container section should be at least 1 byte"
  return containerSize

/-- The sizes of the optional container sections. -/
def readContainerSizes : Reader (List Nat) := do
  let containerSectionSize ← readUint16 (some "missing container size")
  let message := "container section should at least contain one section and at most 255 sections"
  failIf (containerSectionSize < CONTAINER_MIN) message
  failIf (containerSectionSize > CONTAINER_MAX) message
  (List.range containerSectionSize).mapM fun _ => readContainerSize

/-- The sizes of the container sections, up to the kind of the data section. -/
def readContainers : Reader (List Nat) := do
  let nextSection ← readUint none
  if nextSection = KIND_CONTAINER then
    let containerSizes ← readContainerSizes
    let nextSection ← readUint none
    failIf (nextSection ≠ KIND_DATA) "err: expected kind data"
    return containerSizes
  else
    failIf (nextSection ≠ KIND_DATA) "err: expected kind data"
    return []

def readSizes : Reader (Nat × List Nat × List Nat) := do
  let typeSize ← readTypeSize
  let codeSizes ← readCodeSizes typeSize
  let containerSizes ← readContainers
  return (typeSize, codeSizes, containerSizes)

def readDataSize : Reader Nat := do
  let dataSize ← readUint16 (some "missing data size")
  verifyUint TERMINATOR "err: expected terminator"
  return dataSize

/-- The constructor of `EOFHeader`. -/
def newEOFHeader (input : Bytes) : Except String EOFHeader :=
  if input.length > MAX_HEADER_SIZE then
    .error "err: container size more than maximum valid size"
  else do
    let version ← readVersion ⟨input, 0⟩
    if input.length < 15 then .error "err: container size less than minimum valid size"
    else do
      let sizes ← readSizes version.2
      let dataSize ← readDataSize sizes.2
      return {
        typeSize := sizes.1.1
        codeSizes := sizes.1.2.1
        containerSizes := sizes.1.2.2
        dataSize := dataSize.1
        dataSizePtr := sizes.2.ptr
        buffer := input.take dataSize.2.ptr }

end Header

section Body

structure TypeSection where
  inputs : Nat
  outputs : Nat
  maxStackHeight : Nat
  deriving DecidableEq

structure EOFBody where
  typeSections : List TypeSection
  codeSections : List Bytes
  containerSections : List Bytes
  entireCode : Bytes
  dataSection : Bytes
  buffer : Bytes
  txCallData : Option Bytes
  deriving DecidableEq

def checkTypeSection (i : Nat) (inputs outputs : UInt8) (maxStackHeight : Nat) : Reader PUnit := do
  failIf (i = 0 ∧ inputs ≠ 0) "first code section should have 0 inputs"
  failIf (i = 0 ∧ outputs ≠ 0x80) "first code section should have 0 outputs"
  failIf (inputs.toNat > INPUTS_MAX)
    s!"inputs exceeds 127, the maximum, got: {inputs} - code section {i}"
  failIf (outputs.toNat > OUTPUTS_MAX)
    s!"outputs exceeds 127, the maximum, got: {outputs} - code section {i}"
  failIf (maxStackHeight > MAX_STACK_HEIGHT) "stack height limit of 1024 exceeded: "

def readTypeSection (i : Nat) : Reader TypeSection := do
  let inputs ← readUint (some "expected inputs")
  let outputs ← readUint (some "expected outputs")
  let maxStackHeight ← readUint16 (some "expected maxStackHeight")
  checkTypeSection i inputs outputs maxStackHeight
  return ⟨inputs.toNat, outputs.toNat, maxStackHeight⟩

def readTypeSections (typeSize : Nat) : Reader (List TypeSection) :=
  (List.range (typeSize / 4)).mapM readTypeSection

/-- The sections of the given sizes, with the error for the one that is not there. -/
def readSections (sizes : List Nat) (error : Nat → String) : Reader (List Bytes) :=
  sizes.zipIdx.mapM fun size => orThrow (readBytes size.1 none) (error size.2)

/-- The data section and what is left for the call data of a transaction. -/
def readData (stream : StreamReader) (dataSize : Nat) (eofMode : EOFContainerMode)
    (dataSectionAllowedSmaller : Bool) : Except String (Bytes × Option Bytes) :=
  if eofMode ≠ .Initmode ∧ ¬ dataSectionAllowedSmaller then do
    let dataSection ← readBytes dataSize (some "Expected data section") stream
    let remainder := dataSection.2.data.drop dataSection.2.ptr
    if eofMode = .Default then
      if dataSection.2.ptr ≠ dataSection.2.data.length then .error "got dangling bytes in body"
      else return (dataSection.1, none)
    else return (dataSection.1, some remainder)
  else
    let dataSection := stream.data.drop stream.ptr
    if dataSection.length > dataSize then .error "got dangling bytes in body"
    else return (dataSection, none)

/-- The constructor of `EOFBody`. -/
def newEOFBody (buf : Bytes) (header : EOFHeader) (eofMode : EOFContainerMode)
    (dataSectionAllowedSmaller : Bool) : Except String EOFBody := do
  let types ← readTypeSections header.typeSize ⟨buf, 0⟩
  let codes ← readSections header.codeSizes (fun i => s!"expected a code section{i}") types.2
  let containers ← readSections header.containerSizes (fun _ => "expected a container section")
    codes.2
  let data ← readData containers.2 header.dataSize eofMode dataSectionAllowedSmaller
  return {
    typeSections := types.1
    codeSections := codes.1
    containerSections := containers.1
    entireCode := (buf.take codes.2.ptr).drop types.2.ptr
    dataSection := data.1
    buffer := buf
    txCallData := data.2 }

structure EOFContainer where
  header : EOFHeader
  body : EOFBody
  buffer : Bytes
  eofMode : EOFContainerMode
  deriving DecidableEq

/-- The constructor of `EOFContainer`. -/
def newEOFContainer (buf : Bytes) (eofMode : EOFContainerMode) (dataSectionAllowedSmaller : Bool) :
    Except String EOFContainer := do
  let header ← newEOFHeader buf
  let body ← newEOFBody (buf.drop header.buffer.length) header eofMode dataSectionAllowedSmaller
  return ⟨header, body, buf, eofMode⟩

end Body

section Grammar

/-- A number in two bytes, the higher one first. -/
def uint16 (n : Nat) : Bytes := [UInt8.ofNat (n / 256), UInt8.ofNat n]

@[simp] theorem length_uint16 (n : Nat) : (uint16 n).length = 2 := rfl

theorem bytesToNumber_uint16 {n : Nat} (h : n < 2 ^ 16) : bytesToNumber (uint16 n) = n := by
  change (0 * 256 + (UInt8.ofNat (n / 256)).toNat) * 256 + (UInt8.ofNat n).toNat = n
  rw [UInt8.toNat_ofNat', UInt8.toNat_ofNat']
  omega

theorem uint16_bytesToNumber (a b : UInt8) :
    bytesToNumber [a, b] < 2 ^ 16 ∧ uint16 (bytesToNumber [a, b]) = [a, b] := by
  have hnumber : bytesToNumber [a, b] = a.toNat * 256 + b.toNat := by
    change (0 * 256 + a.toNat) * 256 + b.toNat = _
    omega
  have ha := a.toNat_lt
  have hb := b.toNat_lt
  refine ⟨by omega, ?_⟩
  rw [hnumber, uint16]
  congr 1
  · apply UInt8.toNat_inj.mp
    rw [UInt8.toNat_ofNat']
    omega
  · congr 1
    apply UInt8.toNat_inj.mp
    rw [UInt8.toNat_ofNat']
    omega

theorem parses_readBytes (amount : Nat) (errorStr : Option String) :
    Parses (readBytes amount errorStr) fun bytes items =>
      bytes.length = amount ∧ items = bytes := by
  intro s bytes s' hs
  unfold readBytes
  dsimp only
  split
  · rename_i hlong
    constructor
    · intro h
      cases h
    · rintro ⟨items, ⟨rfl, rfl⟩, hstart, -⟩
      have hlen := hstart.length_le
      rw [List.length_drop] at hlen
      omega
  · rename_i hshort
    have hlen : ((s.data.drop s.ptr).take amount).length = amount := by
      rw [List.length_take, List.length_drop]
      omega
    constructor
    · intro h
      obtain ⟨rfl, rfl⟩ := Prod.mk.inj (Except.ok.inj h)
      exact ⟨_, ⟨hlen, rfl⟩, List.take_prefix _ _, by rw [hlen]⟩
    · rintro ⟨items, ⟨rfl, rfl⟩, hstart, rfl⟩
      rw [← List.prefix_iff_eq_take.mp hstart]

theorem parses_readUint (errorStr : Option String) :
    Parses (readUint errorStr) fun uint items => items = [uint] := by
  intro s uint s' hs
  unfold readUint
  have hget : s.data[s.ptr]? = (s.data.drop s.ptr).head? := by
    rw [List.head?_drop]
  rw [hget]
  cases s.data.drop s.ptr with
  | nil => simp [outOfBounds]
  | cons first rest =>
    constructor
    · intro h
      obtain ⟨rfl, rfl⟩ := Prod.mk.inj (Except.ok.inj h)
      exact ⟨_, rfl, ⟨rest, rfl⟩, rfl⟩
    · rintro ⟨items, rfl, hstart, rfl⟩
      obtain ⟨rfl, -⟩ := List.cons_prefix_cons.mp hstart
      rfl

theorem parses_verifyUint (expect : UInt8) (errorStr : String) :
    Parses (verifyUint expect errorStr) fun _ items => items = [expect] := by
  intro s x s' hs
  have hread := fun uint t => parses_readUint none s uint t hs
  unfold verifyUint
  cases hresult : readUint none s with
  | error error =>
    constructor
    · intro h
      cases h
    · rintro ⟨items, rfl, hstart, rfl⟩
      have hok := (hread expect _).mpr ⟨_, rfl, hstart, rfl⟩
      rw [hresult] at hok
      cases hok
  | ok result =>
    obtain ⟨uint, t⟩ := result
    obtain ⟨items, rfl, hstart, rfl⟩ := (hread uint t).mp hresult
    dsimp only
    split
    · rename_i hne
      constructor
      · intro h
        cases h
      · rintro ⟨items, rfl, hstart', -⟩
        obtain ⟨rest, hrest⟩ := hstart
        obtain ⟨rest', hrest'⟩ := hstart'
        rw [← hrest', List.singleton_append, List.singleton_append] at hrest
        exact (hne (List.cons.inj hrest).1).elim
    · rename_i heq
      obtain rfl := not_not.mp heq
      constructor
      · intro h
        obtain ⟨-, rfl⟩ := Prod.mk.inj (Except.ok.inj h)
        exact ⟨_, rfl, hstart, rfl⟩
      · rintro ⟨items, rfl, -, rfl⟩
        rfl

theorem parses_readUint16 (errorStr : Option String) :
    Parses (readUint16 errorStr) fun n items => n < 2 ^ 16 ∧ items = uint16 n := by
  intro s n s' hs
  have hread := fun bytes t => parses_readBytes 2 errorStr s bytes t hs
  have hmap : readUint16 errorStr s =
      (readBytes 2 errorStr s).map fun result => (bytesToNumber result.1, result.2) := by
    unfold readUint16 readBytes
    dsimp only
    split <;> rfl
  rw [hmap]
  constructor
  · intro h
    cases hbytes : readBytes 2 errorStr s with
    | error error =>
      rw [hbytes] at h
      cases h
    | ok result =>
      obtain ⟨bytes, t⟩ := result
      rw [hbytes] at h
      obtain ⟨rfl, rfl⟩ := Prod.mk.inj (Except.ok.inj h)
      obtain ⟨items, ⟨hlen, rfl⟩, hstart, rfl⟩ := (hread bytes t).mp hbytes
      obtain ⟨a, b, rfl⟩ := List.length_eq_two.mp hlen
      obtain ⟨hlt, heq⟩ := uint16_bytesToNumber a b
      exact ⟨_, ⟨hlt, heq.symm⟩, hstart, rfl⟩
  · rintro ⟨items, ⟨hn, rfl⟩, hstart, rfl⟩
    rw [(hread (uint16 n) _).mpr ⟨_, ⟨rfl, rfl⟩, hstart, rfl⟩]
    change Except.ok (bytesToNumber (uint16 n), _) = _
    rw [bytesToNumber_uint16 hn]

theorem parses_failIf (c : Prop) [Decidable c] (error : String) :
    Parses (failIf c error) fun _ items => ¬ c ∧ items = [] :=
  parses_check error

theorem parses_readVersion :
    Parses readVersion fun _ items => items = [FORMAT, MAGIC, VERSION] := by
  refine ((parses_verifyUint _ _).bind fun _ => (parses_verifyUint _ _).bind fun _ =>
    parses_verifyUint _ _).congr fun _ items => ?_
  simp

def IsTypeSize (n : Nat) : Prop := TYPE_MIN ≤ n ∧ n ≤ TYPE_MAX ∧ n % TYPE_DIVISOR = 0

theorem parses_readTypeSize :
    Parses readTypeSize fun n items => IsTypeSize n ∧ items = KIND_TYPE :: uint16 n := by
  refine ((parses_verifyUint _ _).bind fun _ => (parses_readUint16 _).bind fun n =>
    (parses_failIf _ _).bind fun _ => (parses_failIf _ _).bind fun _ =>
      (parses_failIf _ _).bind fun _ => parses_pure n).congr fun n items => ?_
  simp [IsTypeSize, TYPE_MAX]
  omega

def IsSize (n : Nat) : Prop := 1 ≤ n ∧ n < 2 ^ 16

theorem parses_readCodeSize : Parses readCodeSize fun n items => IsSize n ∧ items = uint16 n := by
  refine ((parses_readUint16 _).bind fun n => (parses_failIf _ _).bind fun _ =>
    parses_pure n).congr fun n items => ?_
  simp [IsSize, CODE_SIZE_MIN]
  grind

theorem parses_readContainerSize :
    Parses readContainerSize fun n items => IsSize n ∧ items = uint16 n := by
  refine ((parses_readUint16 _).bind fun n => (parses_failIf _ _).bind fun _ =>
    parses_pure n).congr fun n items => ?_
  simp [IsSize, CONTAINER_SIZE_MIN]
  grind

/-- Sizes that are read one after the other. -/
theorem parses_sizes {readSize : Reader Nat} (n : Nat)
    (h : Parses readSize fun n items => IsSize n ∧ items = uint16 n) :
    Parses ((List.range n).mapM fun _ => readSize) fun sizes items =>
      (sizes.length = n ∧ ∀ size ∈ sizes, IsSize size) ∧ items = sizes.flatMap uint16 := by
  refine (Parses.mapM (fun _ => h) (List.range n)).congr fun sizes items => ?_
  rw [sequence_iff]
  refine and_congr_left fun _ => ?_
  rw [List.forall₂_iff_get, List.length_range]
  constructor
  · rintro ⟨hlen, hget⟩
    refine ⟨hlen.symm, fun size hsize => ?_⟩
    obtain ⟨i, hi, rfl⟩ := List.getElem_of_mem hsize
    exact hget i (hlen ▸ hi) hi
  · rintro ⟨hlen, hall⟩
    exact ⟨hlen.symm, fun i _ hi => hall _ (List.getElem_mem hi)⟩

theorem parses_readCodeSizes (typeSize : Nat) :
    Parses (readCodeSizes typeSize) fun sizes items =>
      (sizes.length = typeSize / TYPE_DIVISOR ∧ IsSize sizes.length ∧
        ∀ size ∈ sizes, IsSize size) ∧
      items = KIND_CODE :: uint16 sizes.length ++ sizes.flatMap uint16 := by
  refine ((parses_verifyUint _ _).bind fun _ => (parses_readUint16 _).bind fun n =>
    (parses_failIf _ _).bind fun _ => (parses_failIf _ _).bind fun _ =>
      parses_sizes n parses_readCodeSize).congr fun sizes items => ?_
  simp [IsSize, CODE_MIN]
  grind

theorem parses_readContainerSizes :
    Parses readContainerSizes fun sizes items =>
      ((CONTAINER_MIN ≤ sizes.length ∧ sizes.length ≤ CONTAINER_MAX) ∧
        ∀ size ∈ sizes, IsSize size) ∧
      items = uint16 sizes.length ++ sizes.flatMap uint16 := by
  refine ((parses_readUint16 _).bind fun n => (parses_failIf _ _).bind fun _ =>
    (parses_failIf _ _).bind fun _ =>
      parses_sizes n parses_readContainerSize).congr fun sizes items => ?_
  simp [CONTAINER_MAX]
  grind

/-- The header has an entry for the container sections where there are some. -/
def containersBytes (sizes : List Nat) : Bytes :=
  if sizes = [] then [] else KIND_CONTAINER :: uint16 sizes.length ++ sizes.flatMap uint16

theorem parses_readContainers :
    Parses readContainers fun sizes items =>
      (sizes.length ≤ CONTAINER_MAX ∧ ∀ size ∈ sizes, IsSize size) ∧
      items = containersBytes sizes ++ [KIND_DATA] := by
  refine ((parses_readUint _).bind fun n => Parses.ite
    (fun _ => parses_readContainerSizes.bind fun sizes => (parses_readUint _).bind fun _ =>
      (parses_failIf _ _).bind fun _ => parses_pure sizes)
    fun _ => (parses_failIf _ _).bind fun _ => parses_pure []).congr fun sizes items => ?_
  constructor
  · rintro ⟨x, first, rest, rfl, h, rfl⟩
    obtain ⟨rfl, h⟩ | ⟨-, -, h⟩ := h
    · simp at h
      obtain ⟨⟨⟨hmin, hmax⟩, hall⟩, rfl⟩ := h
      refine ⟨⟨hmax, hall⟩, ?_⟩
      rw [containersBytes, if_neg (List.ne_nil_of_length_pos hmin)]
      simp
    · simp at h
      obtain ⟨rfl, rfl, rfl⟩ := h
      simp [containersBytes]
  · rintro ⟨⟨hmax, hall⟩, rfl⟩
    cases sizes with
    | nil => exact ⟨KIND_DATA, [KIND_DATA], [], rfl, .inr ⟨by decide, by simp⟩, rfl⟩
    | cons size sizes =>
      refine ⟨KIND_CONTAINER, [KIND_CONTAINER], _, rfl, .inl ⟨rfl, size :: sizes, _, [KIND_DATA],
        ⟨⟨⟨Nat.le_add_left _ _, hmax⟩, hall⟩, rfl⟩, by simp, rfl⟩, ?_⟩
      rw [containersBytes, if_neg (List.cons_ne_nil _ _)]
      simp

theorem parses_readSizes :
    Parses readSizes fun sizes items =>
      (IsTypeSize sizes.1 ∧ sizes.2.1.length = sizes.1 / TYPE_DIVISOR ∧
        (∀ size ∈ sizes.2.1, IsSize size) ∧
        sizes.2.2.length ≤ CONTAINER_MAX ∧ ∀ size ∈ sizes.2.2, IsSize size) ∧
      items = KIND_TYPE :: uint16 sizes.1 ++ KIND_CODE :: uint16 sizes.2.1.length ++
        sizes.2.1.flatMap uint16 ++ containersBytes sizes.2.2 ++ [KIND_DATA] := by
  refine (parses_readTypeSize.bind fun typeSize => (parses_readCodeSizes typeSize).bind fun codes =>
    parses_readContainers.bind fun containers =>
      parses_pure (typeSize, codes, containers)).congr fun sizes items => ?_
  obtain ⟨typeSize, codes, containers⟩ := sizes
  constructor
  · rintro ⟨_, _, _, ⟨htype, rfl⟩, ⟨_, _, _, ⟨⟨hlen, -, hcodes⟩, rfl⟩, ⟨_, _, _,
      ⟨⟨hmax, hcontainers⟩, rfl⟩, ⟨heq, rfl⟩, rfl⟩, rfl⟩, rfl⟩
    cases heq
    exact ⟨⟨htype, hlen, hcodes, hmax, hcontainers⟩, by simp⟩
  · rintro ⟨⟨htype, hlen, hcodes, hmax, hcontainers⟩, rfl⟩
    have hsize : IsSize codes.length := by
      obtain ⟨hmin, hle, -⟩ := htype
      unfold TYPE_MIN TYPE_MAX at *
      dsimp only at hlen hmin hle
      rw [hlen]
      unfold TYPE_DIVISOR
      constructor <;> omega
    exact ⟨typeSize, _, _, ⟨htype, rfl⟩, ⟨codes, _, _, ⟨⟨hlen, hsize, hcodes⟩, rfl⟩,
      ⟨containers, _, [], ⟨⟨hmax, hcontainers⟩, rfl⟩, ⟨rfl, rfl⟩, rfl⟩, rfl⟩, by simp⟩

theorem parses_readDataSize :
    Parses readDataSize fun n items => n < 2 ^ 16 ∧ items = uint16 n ++ [TERMINATOR] := by
  refine ((parses_readUint16 _).bind fun n => (parses_verifyUint _ _).bind fun _ =>
    parses_pure n).congr fun n items => ?_
  simp

/-- What the entry of a code section may say; the first section takes nothing and never returns. -/
structure IsTypeSection (i : Nat) (types : TypeSection) : Prop where
  inputs : types.inputs ≤ INPUTS_MAX
  outputs : types.outputs ≤ OUTPUTS_MAX
  maxStackHeight : types.maxStackHeight ≤ MAX_STACK_HEIGHT
  first : i = 0 → types.inputs = 0 ∧ types.outputs = 0x80

def TypeSection.bytes (types : TypeSection) : Bytes :=
  [UInt8.ofNat types.inputs, UInt8.ofNat types.outputs] ++ uint16 types.maxStackHeight

theorem parses_checkTypeSection (i : Nat) (inputs outputs : UInt8) (maxStackHeight : Nat) :
    Parses (checkTypeSection i inputs outputs maxStackHeight) fun _ items =>
      IsTypeSection i ⟨inputs.toNat, outputs.toNat, maxStackHeight⟩ ∧ items = [] := by
  refine ((parses_failIf _ _).bind fun _ => (parses_failIf _ _).bind fun _ =>
    (parses_failIf _ _).bind fun _ => (parses_failIf _ _).bind fun _ =>
      parses_failIf _ _).congr fun _ items => ?_
  have hinputs : inputs.toNat = 0 ↔ inputs = 0 := UInt8.toNat_inj (b := 0)
  have houtputs : outputs.toNat = 0x80 ↔ outputs = 0x80 := UInt8.toNat_inj (b := 0x80)
  constructor
  · rintro ⟨_, _, _, ⟨h0, rfl⟩, ⟨_, _, _, ⟨h1, rfl⟩, ⟨_, _, _, ⟨h2, rfl⟩, ⟨_, _, _, ⟨h3, rfl⟩,
      ⟨h4, rfl⟩, rfl⟩, rfl⟩, rfl⟩, rfl⟩
    refine ⟨⟨Nat.not_lt.mp h2, Nat.not_lt.mp h3, Nat.not_lt.mp h4, fun hi => ?_⟩, rfl⟩
    exact ⟨hinputs.mpr (by tauto), houtputs.mpr (by tauto)⟩
  · rintro ⟨h, rfl⟩
    have h0 : ¬ (i = 0 ∧ inputs ≠ 0) := fun hi => hi.2 (hinputs.mp (h.first hi.1).1)
    have h1 : ¬ (i = 0 ∧ outputs ≠ 0x80) := fun hi => hi.2 (houtputs.mp (h.first hi.1).2)
    exact ⟨⟨⟩, [], [], ⟨h0, rfl⟩, ⟨⟨⟩, [], [], ⟨h1, rfl⟩, ⟨⟨⟩, [], [], ⟨h.inputs.not_gt, rfl⟩,
      ⟨⟨⟩, [], [], ⟨h.outputs.not_gt, rfl⟩, ⟨h.maxStackHeight.not_gt, rfl⟩, rfl⟩, rfl⟩, rfl⟩, rfl⟩

theorem parses_readTypeSection (i : Nat) :
    Parses (readTypeSection i) fun types items => IsTypeSection i types ∧ items = types.bytes := by
  refine ((parses_readUint _).bind fun inputs => (parses_readUint _).bind fun outputs =>
    (parses_readUint16 _).bind fun maxStackHeight =>
      (parses_checkTypeSection i inputs outputs maxStackHeight).bind fun _ =>
        parses_pure (TypeSection.mk inputs.toNat outputs.toNat maxStackHeight)).congr
          fun types items => ?_
  constructor
  · rintro ⟨inputs, _, _, rfl, ⟨outputs, _, _, rfl, ⟨max, _, _, ⟨-, rfl⟩, ⟨_, _, _, ⟨h, rfl⟩,
      ⟨rfl, rfl⟩, rfl⟩, rfl⟩, rfl⟩, rfl⟩
    exact ⟨h, by simp [TypeSection.bytes]⟩
  · rintro ⟨h, rfl⟩
    obtain ⟨inputs, outputs, max⟩ := types
    have hinputs : (UInt8.ofNat inputs).toNat = inputs := by
      have hle : inputs ≤ INPUTS_MAX := h.inputs
      unfold INPUTS_MAX at hle
      rw [UInt8.toNat_ofNat']
      omega
    have houtputs : (UInt8.ofNat outputs).toNat = outputs := by
      have hle : outputs ≤ OUTPUTS_MAX := h.outputs
      unfold OUTPUTS_MAX at hle
      rw [UInt8.toNat_ofNat']
      omega
    have hmax : max < 2 ^ 16 := by
      have hle : max ≤ MAX_STACK_HEIGHT := h.maxStackHeight
      unfold MAX_STACK_HEIGHT at hle
      omega
    refine ⟨UInt8.ofNat inputs, _, _, rfl, ⟨UInt8.ofNat outputs, _, _, rfl,
      ⟨max, _, _, ⟨hmax, rfl⟩, ⟨⟨⟩, [], [], ⟨?_, rfl⟩, ⟨?_, rfl⟩, rfl⟩, rfl⟩, rfl⟩, ?_⟩
    · rw [hinputs, houtputs]
      exact h
    · rw [hinputs, houtputs]
    · simp [TypeSection.bytes]

/-- The entries of the code sections. -/
def AreTypeSections (types : List TypeSection) : Prop :=
  ∀ i section_, types[i]? = some section_ → IsTypeSection i section_

theorem parses_readTypeSections (typeSize : Nat) :
    Parses (readTypeSections typeSize) fun types items =>
      (types.length = typeSize / 4 ∧ AreTypeSections types) ∧
        items = types.flatMap TypeSection.bytes := by
  refine (Parses.mapM parses_readTypeSection (List.range (typeSize / 4))).congr
    fun types items => ?_
  rw [sequence_iff]
  refine and_congr_left fun _ => ?_
  rw [List.forall₂_iff_get]
  have hrange : (List.range (typeSize / 4)).length = typeSize / 4 := List.length_range
  constructor
  · rintro ⟨hlen, hget⟩
    refine ⟨hlen.symm.trans hrange, fun i section_ hi => ?_⟩
    obtain ⟨hlt, rfl⟩ := List.getElem?_eq_some_iff.mp hi
    simpa using hget i (hlen ▸ hlt) hlt
  · rintro ⟨hlen, hall⟩
    refine ⟨hrange.trans hlen.symm, fun i _ hi => ?_⟩
    simpa using hall i _ (List.getElem?_eq_getElem hi)

theorem parses_readSections (sizes : List Nat) (error : Nat → String) :
    Parses (readSections sizes error) fun codes items =>
      codes.map List.length = sizes ∧ items = codes.flatten := by
  refine (Parses.mapM (fun size => (parses_readBytes size.1 none).orThrow (error size.2))
    sizes.zipIdx).congr fun codes items => ?_
  rw [sequence_iff, List.flatMap_id']
  refine and_congr_left fun _ => ?_
  rw [List.forall₂_iff_get]
  constructor
  · rintro ⟨hlen, hget⟩
    rw [List.length_zipIdx] at hlen
    apply List.ext_getElem
    · rw [List.length_map, hlen]
    · intro i hcodes hsizes
      rw [List.getElem_map]
      simpa using hget i (by rwa [List.length_zipIdx]) (hlen ▸ hsizes)
  · rintro rfl
    exact ⟨by simp, fun i _ hi => by simp⟩

end Grammar

section Accepted

/-- The bytes of a header. -/
def EOFHeader.bytes (header : EOFHeader) : Bytes :=
  [FORMAT, MAGIC, VERSION] ++ (KIND_TYPE :: uint16 header.typeSize ++
    KIND_CODE :: uint16 header.codeSizes.length ++ header.codeSizes.flatMap uint16 ++
    containersBytes header.containerSizes ++ [KIND_DATA]) ++
    (uint16 header.dataSize ++ [TERMINATOR])

structure EOFHeader.WellFormed (header : EOFHeader) : Prop where
  typeSize : IsTypeSize header.typeSize
  codes : header.codeSizes.length = header.typeSize / TYPE_DIVISOR
  codeSizes : ∀ size ∈ header.codeSizes, IsSize size
  containers : header.containerSizes.length ≤ CONTAINER_MAX
  containerSizes : ∀ size ∈ header.containerSizes, IsSize size
  dataSize : header.dataSize < 2 ^ 16
  buffer : header.buffer = header.bytes
  dataSizePtr : header.dataSizePtr = header.buffer.length - 3

variable {header : EOFHeader} {buf : Bytes} {eofMode : EOFContainerMode} {smaller : Bool}

theorem two_le_length_flatMap_uint16 {sizes : List Nat} (h : 1 ≤ sizes.length) :
    2 ≤ (sizes.flatMap uint16).length := by
  obtain ⟨size, sizes, rfl⟩ := List.exists_cons_of_length_pos h
  rw [List.flatMap_cons, List.length_append, length_uint16]
  exact Nat.le_add_right _ _

theorem EOFHeader.WellFormed.length_codes (h : header.WellFormed) :
    1 ≤ header.codeSizes.length := by
  have hmin := h.typeSize.1
  rw [h.codes]
  unfold TYPE_MIN at hmin
  unfold TYPE_DIVISOR
  omega

theorem EOFHeader.WellFormed.length_bytes (h : header.WellFormed) : 15 ≤ header.bytes.length := by
  have hcodes := two_le_length_flatMap_uint16 h.length_codes
  unfold bytes
  simp only [List.length_append, List.length_cons, List.length_nil, length_uint16]
  omega

/-- A parser that is run on the rest of an input. -/
theorem parses_at {α : Type} {p : Reader α} {G : α → Bytes → Prop} (hp : Parses p G)
    (before rest : Bytes) (x : α) (s : StreamReader) :
    p ⟨before ++ rest, before.length⟩ = .ok (x, s) ↔
      ∃ items tail, G x items ∧ rest = items ++ tail ∧
        s = ⟨before ++ items ++ tail, (before ++ items).length⟩ := by
  rw [hp _ _ _ (by simp)]
  dsimp only
  rw [List.drop_left]
  constructor
  · rintro ⟨items, hG, ⟨tail, rfl⟩, rfl⟩
    exact ⟨items, tail, hG, rfl, by simp⟩
  · rintro ⟨items, tail, hG, rfl, rfl⟩
    exact ⟨items, hG, List.prefix_append _ _, by simp⟩

theorem take_three (a b c tail : Bytes) :
    (a ++ (b ++ (c ++ tail))).take ([] ++ a ++ b ++ c).length = a ++ b ++ c := by
  rw [← List.append_assoc b, ← List.append_assoc a, List.nil_append, ← List.append_assoc a,
    List.take_left]

theorem length_before_data (a : Bytes) (n : Nat) :
    a.length = (a ++ (uint16 n ++ [TERMINATOR])).length - 3 := by
  rw [List.length_append]
  exact (Nat.add_sub_cancel _ 3).symm

/-- A header is read from its bytes and from no others. -/
theorem newEOFHeader_eq_ok_iff (input : Bytes) (header : EOFHeader) :
    newEOFHeader input = .ok header ↔
      input.length ≤ MAX_HEADER_SIZE ∧ header.WellFormed ∧ header.buffer <+: input := by
  unfold newEOFHeader
  split
  · rename_i hlong
    constructor
    · intro h
      cases h
    · rintro ⟨hle, -⟩
      omega
  · rename_i hshort
    rw [bind_eq_ok]
    have hversion := parses_at parses_readVersion [] input
    constructor
    · rintro ⟨version, hread, hok⟩
      obtain ⟨items, tail, rfl, rfl, heq⟩ := (hversion version.1 version.2).mp hread
      rw [heq] at hok
      split at hok
      · cases hok
      · obtain ⟨sizes, hsizes, hok⟩ := bind_eq_ok.mp hok
        obtain ⟨items, tail, ⟨⟨htype, hcodes, hall, hmax, hall'⟩, rfl⟩, rfl, hptr⟩ :=
          (parses_at parses_readSizes _ _ sizes.1 sizes.2).mp hsizes
        rw [hptr] at hok
        obtain ⟨dataSize, hdata, hok⟩ := bind_eq_ok.mp hok
        obtain ⟨items, tail, ⟨hlt, rfl⟩, rfl, hptr'⟩ :=
          (parses_at parses_readDataSize _ _ dataSize.1 dataSize.2).mp hdata
        obtain rfl := Except.ok.inj hok
        rw [hptr']
        refine ⟨Nat.not_lt.mp hshort, ⟨htype, hcodes, hall, hmax, hall', hlt, ?_, ?_⟩,
          List.take_prefix _ _⟩
        · exact take_three _ _ _ _
        · dsimp only
          rw [take_three]
          exact length_before_data _ _
    · rintro ⟨hle, hwell, tail, rfl⟩
      have hinput : header.buffer ++ tail = [FORMAT, MAGIC, VERSION] ++ ((KIND_TYPE ::
          uint16 header.typeSize ++ KIND_CODE :: uint16 header.codeSizes.length ++
          header.codeSizes.flatMap uint16 ++ containersBytes header.containerSizes ++
          [KIND_DATA]) ++ ((uint16 header.dataSize ++ [TERMINATOR]) ++ tail)) := by
        rw [hwell.buffer, EOFHeader.bytes]
        simp only [List.append_assoc]
      refine ⟨((), _), (hversion () _).mpr ⟨_, _, rfl, hinput, rfl⟩, ?_⟩
      have hmin := hwell.length_bytes
      rw [← hwell.buffer] at hmin
      rw [if_neg (by rw [List.length_append]; omega)]
      refine bind_eq_ok.mpr ⟨((header.typeSize, header.codeSizes, header.containerSizes), _),
        (parses_at parses_readSizes _ _ _ _).mpr ⟨_, _, ⟨⟨hwell.typeSize, hwell.codes,
          hwell.codeSizes, hwell.containers, hwell.containerSizes⟩, rfl⟩, rfl, rfl⟩, ?_⟩
      refine bind_eq_ok.mpr ⟨(header.dataSize, _), (parses_at parses_readDataSize _ _ _ _).mpr
        ⟨_, _, ⟨hwell.dataSize, rfl⟩, rfl, rfl⟩, ?_⟩
      have hptr := hwell.dataSizePtr
      have hbuffer := hwell.buffer
      obtain ⟨typeSize, codeSizes, containerSizes, dataSize, dataSizePtr, buffer⟩ := header
      dsimp only at hptr hbuffer hinput ⊢
      rw [hinput]
      change Except.ok _ = Except.ok _
      congr 2
      · rw [hptr, hbuffer]
        exact length_before_data _ _
      · rw [hbuffer]
        exact take_three _ _ _ _

/-- What may stand behind the sections. Only in the mode for transactions there may be more than
the data section, and only a container that is still to be deployed may have less. -/
structure IsData (dataSize : Nat) (eofMode : EOFContainerMode) (smaller : Bool)
    (dataSection : Bytes) (txCallData : Option Bytes) : Prop where
  length_le : dataSection.length ≤ dataSize
  whole : eofMode ≠ .Initmode ∧ ¬ smaller → dataSection.length = dataSize
  txCallData : txCallData.isSome ↔ eofMode = .TxInitmode ∧ ¬ smaller

theorem IsData.none_of_small {dataSize : Nat} {dataSection : Bytes} {txCallData : Option Bytes}
    (h : IsData dataSize eofMode smaller dataSection txCallData)
    (hsmall : ¬ (eofMode ≠ .Initmode ∧ ¬ smaller)) : txCallData = none := by
  apply Option.not_isSome_iff_eq_none.mp
  intro hsome
  obtain ⟨rfl, hnot⟩ := h.txCallData.mp hsome
  exact hsmall ⟨by decide, hnot⟩

theorem readData_eq_ok_iff (before rest : Bytes) (dataSize : Nat) (dataSection : Bytes)
    (txCallData : Option Bytes) :
    readData ⟨before ++ rest, before.length⟩ dataSize eofMode smaller =
        .ok (dataSection, txCallData) ↔
      IsData dataSize eofMode smaller dataSection txCallData ∧
        rest = dataSection ++ txCallData.getD [] := by
  have hread := fun bytes s =>
    parses_at (parses_readBytes dataSize (some "Expected data section")) before rest bytes s
  unfold readData
  rw [List.drop_left]
  split
  · rename_i hwhole
    rw [bind_eq_ok]
    constructor
    · rintro ⟨⟨bytes, s⟩, hbytes, hok⟩
      obtain ⟨items, tail, ⟨hlen, rfl⟩, rfl, rfl⟩ := (hread bytes s).mp hbytes
      dsimp only at hok
      rw [List.drop_left] at hok
      split at hok
      · rename_i hmode
        split at hok
        · cases hok
        · rename_i hend
          obtain ⟨rfl, rfl⟩ := Prod.mk.inj (Except.ok.inj hok)
          have htail : tail = [] := by
            rw [not_not] at hend
            simp only [List.length_append] at hend
            exact List.eq_nil_of_length_eq_zero (by omega)
          refine ⟨⟨hlen.le, fun _ => hlen, ?_⟩, by rw [htail]; rfl⟩
          simp [hmode]
      · rename_i hmode
        obtain ⟨rfl, rfl⟩ := Prod.mk.inj (Except.ok.inj hok)
        refine ⟨⟨hlen.le, fun _ => hlen, ?_⟩, rfl⟩
        cases eofMode <;> simp_all
    · rintro ⟨h, rfl⟩
      refine ⟨⟨dataSection, _⟩, (hread _ _).mpr ⟨_, _, ⟨h.whole hwhole, rfl⟩, rfl, rfl⟩, ?_⟩
      dsimp only
      rw [List.drop_left]
      have hcall := h.txCallData
      cases txCallData with
      | none =>
        have hmode : eofMode = .Default := by
          cases eofMode <;> simp_all
        rw [if_pos hmode, if_neg (by simp)]
        rfl
      | some data =>
        have hmode : eofMode ≠ .Default := by
          cases eofMode <;> simp_all
        rw [if_neg hmode]
        rfl
  · rename_i hsmall
    dsimp only
    split
    · rename_i hlong
      constructor
      · intro h
        cases h
      · rintro ⟨h, rfl⟩
        rw [h.none_of_small hsmall, Option.getD_none, List.append_nil] at hlong
        exact absurd h.length_le hlong.not_ge
    · rename_i hshort
      constructor
      · intro h
        obtain ⟨rfl, rfl⟩ := Prod.mk.inj (Except.ok.inj h)
        refine ⟨⟨Nat.not_lt.mp hshort, fun h => (hsmall h).elim, ?_⟩, (List.append_nil _).symm⟩
        cases eofMode <;> simp_all
      · rintro ⟨h, rfl⟩
        rw [h.none_of_small hsmall, Option.getD_none, List.append_nil]
        rfl

theorem take_drop_middle (a b tail : Bytes) :
    ((a ++ (b ++ tail)).take ([] ++ a ++ b).length).drop ([] ++ a).length = b := by
  rw [← List.append_assoc a, List.nil_append, List.take_left, List.drop_left]

structure EOFBody.WellFormed (body : EOFBody) (header : EOFHeader) (eofMode : EOFContainerMode)
    (smaller : Bool) : Prop where
  types : body.typeSections.length = header.typeSize / 4
  typeSections : AreTypeSections body.typeSections
  codes : body.codeSections.map List.length = header.codeSizes
  containers : body.containerSections.map List.length = header.containerSizes
  data : IsData header.dataSize eofMode smaller body.dataSection body.txCallData
  entireCode : body.entireCode = body.codeSections.flatten
  buffer : body.buffer = body.typeSections.flatMap TypeSection.bytes ++
    body.codeSections.flatten ++ body.containerSections.flatten ++ body.dataSection ++
    body.txCallData.getD []

theorem newEOFBody_eq_ok_iff (buf : Bytes) (header : EOFHeader) (body : EOFBody) :
    newEOFBody buf header eofMode smaller = .ok body ↔
      body.WellFormed header eofMode smaller ∧ body.buffer = buf := by
  unfold newEOFBody
  rw [bind_eq_ok]
  constructor
  · rintro ⟨types, htypes, hok⟩
    obtain ⟨_, tail, ⟨⟨hcount, hall⟩, rfl⟩, rfl, hs⟩ :=
      (parses_at (parses_readTypeSections _) [] buf types.1 types.2).mp htypes
    rw [hs] at hok
    obtain ⟨codes, hcodes, hok⟩ := bind_eq_ok.mp hok
    obtain ⟨_, tail, ⟨hlens, rfl⟩, rfl, hs'⟩ :=
      (parses_at (parses_readSections _ _) _ _ codes.1 codes.2).mp hcodes
    rw [hs'] at hok
    obtain ⟨containers, hcontainers, hok⟩ := bind_eq_ok.mp hok
    obtain ⟨_, tail, ⟨hlens', rfl⟩, rfl, hs''⟩ :=
      (parses_at (parses_readSections _ _) _ _ containers.1 containers.2).mp hcontainers
    rw [hs''] at hok
    obtain ⟨data, hdata, hok⟩ := bind_eq_ok.mp hok
    obtain ⟨hisData, rfl⟩ := (readData_eq_ok_iff _ _ _ _ _).mp hdata
    obtain rfl := Except.ok.inj hok
    refine ⟨⟨hcount, hall, hlens, hlens', hisData, take_drop_middle _ _ _, ?_⟩, rfl⟩
    simp only [List.append_assoc]
  · rintro ⟨hwell, rfl⟩
    obtain ⟨types, codes, containers, entireCode, dataSection, buffer, txCallData⟩ := body
    obtain ⟨hcount, hall, hlens, hlens', hisData, hentire, hbuffer⟩ := hwell
    dsimp only at hcount hall hlens hlens' hisData hentire hbuffer ⊢
    subst hentire hbuffer
    simp only [List.append_assoc]
    refine ⟨(types, _), (parses_at (parses_readTypeSections _) [] _ _ _).mpr
      ⟨_, _, ⟨⟨hcount, hall⟩, rfl⟩, rfl, rfl⟩, ?_⟩
    refine bind_eq_ok.mpr ⟨(codes, _), (parses_at (parses_readSections _ _) _ _ _ _).mpr
      ⟨_, _, ⟨hlens, rfl⟩, rfl, rfl⟩, ?_⟩
    refine bind_eq_ok.mpr ⟨(containers, _), (parses_at (parses_readSections _ _) _ _ _ _).mpr
      ⟨_, _, ⟨hlens', rfl⟩, rfl, rfl⟩, ?_⟩
    refine bind_eq_ok.mpr ⟨(dataSection, txCallData),
      (readData_eq_ok_iff _ _ _ _ _).mpr ⟨hisData, rfl⟩, ?_⟩
    change Except.ok _ = Except.ok _
    congr 2
    exact take_drop_middle _ _ _

/-- A container and the bytes it is read from. -/
structure EOFContainer.WellFormed (container : EOFContainer) (smaller : Bool) : Prop where
  header : container.header.WellFormed
  body : container.body.WellFormed container.header container.eofMode smaller
  buffer : container.buffer = container.header.buffer ++ container.body.buffer
  length_le : container.buffer.length ≤ MAX_HEADER_SIZE

theorem wellFormed_of_newEOFContainer {container : EOFContainer}
    (h : newEOFContainer buf eofMode smaller = .ok container) :
    container.WellFormed smaller ∧ container.eofMode = eofMode ∧ container.buffer = buf := by
  obtain ⟨header, hheader, h⟩ := bind_eq_ok.mp h
  obtain ⟨body, hbody, hok⟩ := bind_eq_ok.mp h
  obtain rfl := Except.ok.inj hok
  obtain ⟨hle, hwell, tail, rfl⟩ := (newEOFHeader_eq_ok_iff _ _).mp hheader
  rw [List.drop_left] at hbody
  obtain ⟨hwell', rfl⟩ := (newEOFBody_eq_ok_iff _ _ _).mp hbody
  exact ⟨⟨hwell, hwell', rfl, hle⟩, rfl, rfl⟩

theorem EOFContainer.WellFormed.newEOFContainer_eq {container : EOFContainer}
    (h : container.WellFormed smaller) :
    newEOFContainer container.buffer container.eofMode smaller = .ok container := by
  obtain ⟨hwell, hwell', hbuffer, hle⟩ := h
  refine bind_eq_ok.mpr ⟨container.header, (newEOFHeader_eq_ok_iff _ _).mpr ⟨hle, hwell, ?_⟩,
    bind_eq_ok.mpr ⟨container.body, (newEOFBody_eq_ok_iff _ _ _).mpr ⟨hwell', ?_⟩, rfl⟩⟩
  · rw [hbuffer]
    exact List.prefix_append _ _
  · rw [hbuffer, List.drop_left]

end Accepted

/-- A container is accepted just where its bytes are those of a well formed one, of which nothing
is lost: the header and the sections are laid out one behind the other. -/
theorem newEOFContainer_eq_ok_iff (buf : Bytes) (eofMode : EOFContainerMode) (smaller : Bool)
    (container : EOFContainer) :
    newEOFContainer buf eofMode smaller = .ok container ↔
      container.WellFormed smaller ∧ container.eofMode = eofMode ∧ container.buffer = buf := by
  constructor
  · exact wellFormed_of_newEOFContainer
  · rintro ⟨h, rfl, rfl⟩
    exact h.newEOFContainer_eq

section Positions

/-- The loop of `getCodePosition`, for the given number of sections. -/
def extendPositions (codeSizes : List Nat) : Nat → List Nat → Option (List Nat)
  | 0, codeStartPos => some codeStartPos
  | n + 1, codeStartPos => do
    let offset ← codeStartPos.getLast?
    let size ← codeSizes[codeStartPos.length - 1]?
    extendPositions codeSizes n (codeStartPos ++ [offset + size])

/-- The position with what is noted in `codeStartPos`. A position behind the last section is
`NaN`, which is none here. -/
def EOFHeader.getCodePosition (header : EOFHeader) (codeStartPos : List Nat) (section_ : Nat) :
    Option (Nat × List Nat) :=
  let noted := codeStartPos.getD section_ 0
  if noted ≠ 0 then some (noted, codeStartPos)
  else do
    let codeStartPos ← extendPositions header.codeSizes (section_ + 1 - codeStartPos.length)
      codeStartPos
    let offset ← codeStartPos.getLast?
    return (offset, codeStartPos)

/-- The loop of `getSectionFromProgramCounter`. -/
def findSection (codeSizes codeStartPos : List Nat) (programCounter : Nat) : Option Nat :=
  (List.range codeSizes.length).find? fun i =>
    programCounter < codeStartPos.getD i 0 + codeSizes.getD i 0

def EOFHeader.getSectionFromProgramCounter (header : EOFHeader) (codeStartPos : List Nat)
    (programCounter : Nat) : Except String (Nat × List Nat) :=
  let lastIndex := header.codeSizes.length - 1
  match header.getCodePosition codeStartPos lastIndex with
  | none => .error "NaN"
  | some (lastStart, codeStartPos) =>
    if programCounter > lastStart + header.codeSizes.getD lastIndex 0 then
      .error "program counter out of bounds"
    else
      match findSection header.codeSizes codeStartPos programCounter with
      | none => .error s!"Invalid program counter value: {programCounter}"
      | some i => .ok (i, codeStartPos)

variable {header : EOFHeader} {codeStartPos : List Nat}

/-- Where a code section starts in the container. -/
def EOFHeader.codePosition (header : EOFHeader) (section_ : Nat) : Nat :=
  header.buffer.length + header.typeSize + (header.codeSizes.take section_).sum

def EOFHeader.initialPositions (header : EOFHeader) : List Nat :=
  [header.buffer.length + header.typeSize]

/-- The first positions, one at least. -/
def Noted (header : EOFHeader) (codeStartPos : List Nat) : Prop :=
  ∃ k, k < header.codeSizes.length ∧
    codeStartPos = (List.range (k + 1)).map header.codePosition

theorem codePosition_succ {i size : Nat} (h : header.codeSizes[i]? = some size) :
    header.codePosition (i + 1) = header.codePosition i + size := by
  unfold EOFHeader.codePosition
  rw [List.take_add_one, h, List.sum_append]
  simp only [Option.toList_some, List.sum_cons, List.sum_nil]
  omega

theorem noted_initial (h : header.WellFormed) : Noted header header.initialPositions :=
  ⟨0, h.length_codes, by simp [EOFHeader.initialPositions, EOFHeader.codePosition]⟩

theorem extendPositions_noted {k n : Nat} (h : k + n < header.codeSizes.length) :
    extendPositions header.codeSizes n ((List.range (k + 1)).map header.codePosition) =
      some ((List.range (k + n + 1)).map header.codePosition) := by
  induction n generalizing k with
  | zero => rfl
  | succ n ih =>
    have hget := List.getElem?_eq_getElem (l := header.codeSizes) (i := k) (by omega)
    have hlast : ((List.range (k + 1)).map header.codePosition).getLast? =
        some (header.codePosition k) := by
      rw [List.range_succ, List.map_append, List.map_singleton, List.getLast?_concat]
    rw [extendPositions, hlast]
    change (header.codeSizes[((List.range (k + 1)).map header.codePosition).length - 1]?).bind _ = _
    rw [List.length_map, List.length_range, Nat.add_sub_cancel, hget, Option.bind_some,
      ← codePosition_succ hget]
    have happend : (List.range (k + 1)).map header.codePosition ++ [header.codePosition (k + 1)] =
        (List.range (k + 1 + 1)).map header.codePosition := by
      rw [List.range_succ (n := k + 1), List.map_append, List.map_singleton]
    rw [happend, ih (by omega), Nat.add_right_comm k 1 n, Nat.add_assoc k n 1]

/-- What is noted does not change what is returned. -/
theorem getCodePosition_eq (h : header.WellFormed) (hnoted : Noted header codeStartPos)
    {section_ : Nat} (hsection : section_ < header.codeSizes.length) :
    ∃ codeStartPos', header.getCodePosition codeStartPos section_ =
        some (header.codePosition section_, codeStartPos') ∧
      Noted header codeStartPos' ∧ section_ < codeStartPos'.length := by
  obtain ⟨k, hk, rfl⟩ := hnoted
  have hpos : header.codePosition section_ ≠ 0 := by
    have hmin := h.length_bytes
    rw [← h.buffer] at hmin
    unfold EOFHeader.codePosition
    omega
  unfold EOFHeader.getCodePosition
  dsimp only
  rcases Nat.lt_or_ge section_ (k + 1) with hlt | hge
  · have hget : ((List.range (k + 1)).map header.codePosition).getD section_ 0 =
        header.codePosition section_ := by
      rw [List.getD_eq_getElem?_getD, List.getElem?_map, List.getElem?_range hlt]
      rfl
    rw [hget, if_pos hpos]
    exact ⟨_, rfl, ⟨k, hk, rfl⟩, by simpa using hlt⟩
  · have hget : ((List.range (k + 1)).map header.codePosition).getD section_ 0 = 0 := by
      rw [List.getD_eq_getElem?_getD, List.getElem?_eq_none (by simpa using hge)]
      rfl
    obtain ⟨n, rfl⟩ := Nat.exists_eq_add_of_le (Nat.le_of_succ_le hge)
    have hcount : k + n + 1 - ((List.range (k + 1)).map header.codePosition).length = n := by
      rw [List.length_map, List.length_range]
      omega
    rw [hget, if_neg (not_not.mpr rfl), hcount, extendPositions_noted hsection]
    have hlast : ((List.range (k + n + 1)).map header.codePosition).getLast? =
        some (header.codePosition (k + n)) := by
      rw [List.range_succ, List.map_append, List.map_singleton, List.getLast?_concat]
    refine ⟨(List.range (k + n + 1)).map header.codePosition, ?_, ⟨k + n, hsection, rfl⟩, by simp⟩
    change (((List.range (k + n + 1)).map header.codePosition).getLast?.bind fun offset =>
      some (offset, (List.range (k + n + 1)).map header.codePosition)) = _
    rw [hlast]
    rfl

theorem codePosition_mono (header : EOFHeader) {i j : Nat} (h : i ≤ j) :
    header.codePosition i ≤ header.codePosition j := by
  obtain ⟨n, rfl⟩ := Nat.exists_eq_add_of_le h
  unfold EOFHeader.codePosition
  rw [List.take_add, List.sum_append]
  omega

theorem findSection_eq {k section_ i size : Nat} (hk : section_ < k)
    (hsize : header.codeSizes[section_]? = some size) (hi : i < size) :
    findSection header.codeSizes ((List.range k).map header.codePosition)
      (header.codePosition section_ + i) = some section_ := by
  have hget : ∀ j ≤ section_, ((List.range k).map header.codePosition).getD j 0 =
      header.codePosition j := by
    intro j hj
    rw [List.getD_eq_getElem?_getD, List.getElem?_map, List.getElem?_range (hj.trans_lt hk)]
    rfl
  unfold findSection
  rw [List.find?_range_eq_some]
  refine ⟨?_, List.mem_range.mpr (List.getElem?_eq_some_iff.mp hsize).1, fun j hj => ?_⟩
  · rw [hget section_ le_rfl, List.getD_eq_getElem?_getD, hsize]
    simpa using hi
  · have hlt : j < header.codeSizes.length :=
      hj.trans (List.getElem?_eq_some_iff.mp hsize).1
    have hnext := codePosition_succ (List.getElem?_eq_getElem hlt)
    have hle := codePosition_mono header (Nat.succ_le_of_lt hj)
    rw [hget j hj.le, List.getD_eq_getElem?_getD, List.getElem?_eq_getElem hlt, Option.getD_some,
      ← hnext]
    simp only [Bool.not_eq_true', decide_eq_false_iff_not, not_lt]
    exact hle.trans (Nat.le_add_right _ _)

/-- A program counter in a section is traced to that section. -/
theorem getSectionFromProgramCounter_eq (h : header.WellFormed) (hnoted : Noted header codeStartPos)
    {section_ i size : Nat} (hsize : header.codeSizes[section_]? = some size) (hi : i < size) :
    ∃ codeStartPos', header.getSectionFromProgramCounter codeStartPos
        (header.codePosition section_ + i) = .ok (section_, codeStartPos') ∧
      Noted header codeStartPos' := by
  have hsection := (List.getElem?_eq_some_iff.mp hsize).1
  have hlt : header.codeSizes.length - 1 < header.codeSizes.length := by omega
  obtain ⟨codeStartPos', hlast, hnoted', hlen⟩ := getCodePosition_eq h hnoted hlt
  unfold EOFHeader.getSectionFromProgramCounter
  dsimp only
  rw [hlast]
  dsimp only
  obtain ⟨k, hk, rfl⟩ := hnoted'
  rw [if_neg, findSection_eq (by rw [List.length_map, List.length_range] at hlen; omega) hsize hi]
  · exact ⟨_, rfl, ⟨k, hk, rfl⟩⟩
  · have hsize' := List.getElem?_eq_getElem (l := header.codeSizes)
      (i := header.codeSizes.length - 1) (by omega)
    have hend := codePosition_succ hsize'
    have hle := codePosition_mono header
      (show section_ + 1 ≤ header.codeSizes.length - 1 + 1 by omega)
    have hnext := codePosition_succ hsize
    rw [List.getD_eq_getElem?_getD, hsize', Option.getD_some]
    omega

/-- What is noted after the positions of some sections were asked for. -/
def EOFHeader.askPositions (header : EOFHeader) : List Nat → List Nat → Option (List Nat)
  | codeStartPos, [] => some codeStartPos
  | codeStartPos, section_ :: sections => do
    let result ← header.getCodePosition codeStartPos section_
    header.askPositions result.2 sections

theorem askPositions_noted (h : header.WellFormed) (hnoted : Noted header codeStartPos)
    {sections : List Nat} (hall : ∀ s ∈ sections, s < header.codeSizes.length) :
    ∃ codeStartPos', header.askPositions codeStartPos sections = some codeStartPos' ∧
      Noted header codeStartPos' := by
  induction sections generalizing codeStartPos with
  | nil => exact ⟨codeStartPos, rfl, hnoted⟩
  | cons section_ sections ih =>
    obtain ⟨mid, hget, hmid, -⟩ := getCodePosition_eq h hnoted (hall section_ List.mem_cons_self)
    obtain ⟨last, hrest, hlast⟩ := ih hmid fun s hs => hall s (List.mem_cons_of_mem _ hs)
    refine ⟨last, ?_, hlast⟩
    rw [EOFHeader.askPositions, hget]
    exact hrest

theorem length_flatMap_typeSections (types : List TypeSection) :
    (types.flatMap TypeSection.bytes).length = 4 * types.length := by
  induction types with
  | nil => rfl
  | cons first types ih =>
    rw [List.flatMap_cons, List.length_append, ih, List.length_cons, Nat.mul_add, Nat.add_comm]
    rfl

variable {container : EOFContainer} {smaller : Bool} {section_ : Nat} {code : Bytes}

/-- Where the bytes of a code section stand in the container. -/
theorem EOFContainer.WellFormed.split (h : container.WellFormed smaller)
    (hcode : container.body.codeSections[section_]? = some code) :
    ∃ before rest, container.buffer = before ++ code ++ rest ∧
      before.length = container.header.codePosition section_ ∧
      container.header.codeSizes[section_]? = some code.length := by
  have htypes : (container.body.typeSections.flatMap TypeSection.bytes).length =
      container.header.typeSize := by
    obtain ⟨-, -, hmod⟩ := h.header.typeSize
    unfold TYPE_DIVISOR at hmod
    rw [length_flatMap_typeSections, h.body.types]
    omega
  obtain ⟨hlt, rfl⟩ := List.getElem?_eq_some_iff.mp hcode
  have hflatten : container.body.codeSections.flatten =
      (container.body.codeSections.take section_).flatten ++
        container.body.codeSections[section_] ++
          (container.body.codeSections.drop (section_ + 1)).flatten := by
    rw [List.append_assoc, ← List.flatten_cons, ← List.drop_eq_getElem_cons hlt,
      ← List.flatten_append, List.take_append_drop]
  refine ⟨container.header.buffer ++ container.body.typeSections.flatMap TypeSection.bytes ++
    (container.body.codeSections.take section_).flatten,
    (container.body.codeSections.drop (section_ + 1)).flatten ++
      container.body.containerSections.flatten ++ container.body.dataSection ++
      container.body.txCallData.getD [], ?_, ?_, ?_⟩
  · rw [h.buffer, h.body.buffer, hflatten]
    simp only [List.append_assoc]
  · rw [List.length_append, List.length_append, htypes, List.length_flatten, List.map_take,
      h.body.codes]
    rfl
  · rw [← h.body.codes, List.getElem?_map, hcode]
    rfl

end Positions

/-- Whatever positions were asked for before, the position of a code section is where its bytes
stand in the container, and a program counter there is traced to that section. -/
theorem programCounter_traced {buf : Bytes} {eofMode : EOFContainerMode} {smaller : Bool}
    {container : EOFContainer} (h : newEOFContainer buf eofMode smaller = .ok container)
    {asked : List Nat} (hasked : ∀ s ∈ asked, s < container.header.codeSizes.length)
    {section_ i : Nat} {code : Bytes}
    (hcode : container.body.codeSections[section_]? = some code) (hi : i < code.length) :
    ∃ noted position noted', container.header.askPositions container.header.initialPositions asked =
        some noted ∧
      container.header.getCodePosition noted section_ = some (position, noted') ∧
      buf[position + i]? = code[i]? ∧
      (container.header.getSectionFromProgramCounter noted (position + i)).map Prod.fst =
        .ok section_ := by
  obtain ⟨hwell, -, rfl⟩ := wellFormed_of_newEOFContainer h
  obtain ⟨before, rest, hbuffer, hlen, hsize⟩ := hwell.split hcode
  obtain ⟨noted, hask, hnoted⟩ :=
    askPositions_noted hwell.header (noted_initial hwell.header) hasked
  obtain ⟨noted', hget, -, -⟩ := getCodePosition_eq hwell.header hnoted
    (List.getElem?_eq_some_iff.mp hsize).1
  obtain ⟨last, hsection, -⟩ := getSectionFromProgramCounter_eq hwell.header hnoted hsize hi
  refine ⟨noted, _, noted', hask, hget, ?_, ?_⟩
  · rw [hbuffer, ← hlen, List.append_assoc, List.getElem?_append_right (Nat.le_add_right _ _),
      Nat.add_sub_cancel_left, List.getElem?_append_left hi]
  · rw [hsection]
    rfl

/-- One section that stops. -/
def stopContainer : Bytes :=
  [0xef, 0x00, 0x01, 0x01, 0x00, 0x04, 0x02, 0x00, 0x01, 0x00, 0x01, 0x04, 0x00, 0x00, 0x00,
    0x00, 0x80, 0x00, 0x00, 0x00]

def parsedStop : EOFContainer where
  header := ⟨4, [1], [], 0, 12, stopContainer.take 15⟩
  body := ⟨[⟨0, 0x80, 0⟩], [[0x00]], [], [0x00], [], stopContainer.drop 15, none⟩
  buffer := stopContainer
  eofMode := .Default

theorem newEOFContainer_stop : newEOFContainer stopContainer .Default false = .ok parsedStop := by
  decide +kernel

theorem programCounter_traced_stop :
    ∃ noted position noted', parsedStop.header.askPositions parsedStop.header.initialPositions
        [0] = some noted ∧
      parsedStop.header.getCodePosition noted 0 = some (position, noted') ∧
      stopContainer[position + 0]? = ([0x00] : Bytes)[0]? ∧
      (parsedStop.header.getSectionFromProgramCounter noted (position + 0)).map Prod.fst = .ok 0 :=
  programCounter_traced newEOFContainer_stop (by decide) rfl (by decide)

end EthereumJS.Evm.Eof
