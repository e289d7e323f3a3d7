import EthereumJS.Evm.EofContainer
import EthereumJS.Evm.JumpAnalysis
import EthereumJS.Ordered.InsertionMap

/-! # Validation of EOF code

`eof/verify.ts` and `eof/stackDelta.ts`. An instruction is validated where it is met in the code,
with the bounds of the stack height that the instructions before it have left there.
-/

namespace EthereumJS.Evm.Eof

open RLP Ordered

section StackDelta

structure StackDelta where
  inputs : Nat
  outputs : Nat
  intermediates : Nat
  terminating : Bool
  deriving DecidableEq

/-- The opcodes with the same entry, other than `PUSH`, `DUP`, `SWAP` and `LOG`. -/
def stackDeltaRows : List (List UInt8 × StackDelta) :=
  [([0x01, 0x02, 0x03, 0x04, 0x05, 0x06, 0x07, 0x0a, 0x0b, 0x10, 0x11, 0x12, 0x13, 0x14, 0x16, 0x17,
      0x18, 0x1a, 0x1b, 0x1c, 0x1d, 0x20], ⟨2, 1, 0, false⟩),
    ([0x30, 0x32, 0x33, 0x34, 0x36, 0x3a, 0x3d, 0x41, 0x42, 0x43, 0x44, 0x45, 0x46, 0x47, 0x48,
      0x4a, 0x4b, 0x59, 0x5f, 0xd2], ⟨0, 1, 0, false⟩),
    ([0x15, 0x19, 0x31, 0x35, 0x40, 0x49, 0x51, 0x54, 0x5c, 0xd0, 0xf7], ⟨1, 1, 0, false⟩),
    ([0x52, 0x53, 0x55, 0x5d], ⟨2, 0, 0, false⟩), ([0x37, 0x3e, 0x5e, 0xd3], ⟨3, 0, 0, false⟩),
    ([0x08, 0x09, 0xf9, 0xfb], ⟨3, 1, 0, false⟩), ([0xf8], ⟨4, 1, 0, false⟩),
    ([0x50, 0xe2], ⟨1, 0, 0, false⟩), ([0x5b], ⟨0, 0, 0, false⟩), ([0xe6], ⟨0, 1, 1, false⟩),
    ([0xe7, 0xe8], ⟨0, 0, 1, false⟩), ([0xd1], ⟨0, 1, 2, false⟩), ([0xe1], ⟨1, 0, 2, false⟩),
    ([0xe0, 0xe3], ⟨0, 0, 2, false⟩), ([0xe5], ⟨0, 0, 2, true⟩), ([0xec], ⟨4, 1, 1, false⟩),
    ([0xee], ⟨2, 0, 1, true⟩), ([0xf3, 0xfd], ⟨2, 0, 0, true⟩),
    ([0x00, 0xe4, 0xfe], ⟨0, 0, 0, true⟩)]

def stackDelta (opcode : UInt8) : Option StackDelta :=
  let op := opcode.toNat
  if 0x60 ≤ op ∧ op ≤ 0x7f then some ⟨0, 1, op - 0x5f, false⟩
  else if 0x80 ≤ op ∧ op ≤ 0x8f then some ⟨op - 0x7f, op - 0x7e, 0, false⟩
  else if 0x90 ≤ op ∧ op ≤ 0x9f then some ⟨op - 0x8e, op - 0x8e, 0, false⟩
  else if 0xa0 ≤ op ∧ op ≤ 0xa4 then some ⟨op - 0x9e, 0, 0, false⟩
  else (stackDeltaRows.find? fun row => row.1.contains opcode).map Prod.snd

end StackDelta

/-- `getActiveOpcodes` without what is removed for EOF. -/
def opcodeNumbers (common : Common) : List UInt8 :=
  (0xfe :: Analysis.opcodesForHF common).filter fun opcode =>
    opcode ∉ ([0x38, 0x39, 0x5a, 0x3b, 0x3c, 0x3f, 0xf2, 0xff, 0x56, 0x57, 0x58, 0xf0, 0xf5] :
      List UInt8)

inductive ContainerSectionType
  | InitCode
  | DeploymentCode
  | RuntimeCode
  deriving DecidableEq

section Section_

/-- A code section that is validated. -/
structure CodeSection where
  common : Common
  mode : ContainerSectionType
  container : EOFContainer
  codeSection : Nat
  code : Bytes
  types : TypeSection

/-- The variables of the loop over a code section. The arrays of the minimal and of the maximal
heights, which have the same indices, are one map. -/
structure SectionState where
  intermediateBytes : List Nat
  jumpLocations : List Nat
  reachableOpcodes : List Nat
  stackHeights : Nat → Option (ℤ × ℤ)
  maxStackHeight : ℤ
  ptr : Nat
  lastOpcode : UInt8
  sectionHasReturningOpcode : Bool
  reachableSections : List Nat
  containerTypeMap : InsertionMap Nat ContainerSectionType

def failWhen (c : Prop) [Decidable c] (error : String) : Except String Unit :=
  if c then .error error else .ok ()

def addJump (st : SectionState) (location : Nat) : Except String SectionState := do
  failWhen (location ∈ st.intermediateBytes) "invalid rjump* target"
  return { st with jumpLocations := location :: st.jumpLocations }

def addIntermediate (st : SectionState) (location : Nat) : Except String SectionState := do
  failWhen (location ∈ st.jumpLocations) "invalid rjump* target"
  return { st with intermediateBytes := location :: st.intermediateBytes }

/-- `getUint16` of a view on the code. -/
def readCodeUint16 (code : Bytes) (start : Nat) : Except String Nat :=
  if start + 2 ≤ code.length then .ok (bytesToNumber ((code.drop start).take 2))
  else .error "Offset is outside the bounds of the DataView"

/-- `getInt16` of a view on the code. -/
def readCodeInt16 (code : Bytes) (start : Nat) : Except String ℤ :=
  (readCodeUint16 code start).map fun n => if n < 2 ^ 15 then n else n - 2 ^ 16

/-- What a branch for an opcode leaves: the successors and the heights there. -/
structure Operands where
  state : SectionState
  successorSet : List Nat
  minStackNext : ℤ
  maxStackNext : ℤ

/-- The heights before an instruction and behind it. -/
structure Heights where
  minStackCurrent : ℤ
  maxStackCurrent : ℤ
  minStackNext : ℤ
  maxStackNext : ℤ

variable (section_ : CodeSection) (st : SectionState) (heights : Heights)

def nonReturningFunction : Bool := section_.types.outputs == 0x80

/-- A jump to a target in the code. -/
def jumpTo (target : ℤ) (error : String) : Except String (SectionState × Nat) := do
  failWhen (target < 0 ∨ target ≥ section_.code.length) error
  let st ← addJump st target.toNat
  return ({ st with reachableOpcodes := target.toNat :: st.reachableOpcodes }, target.toNat)

def validateRjump (opcode : UInt8) : Except String Operands := do
  let offset ← readCodeInt16 section_.code (st.ptr + 1)
  let (st, target) ← jumpTo section_ st (offset + st.ptr + 3) "invalid rjump* target"
  failWhen (opcode = 0xe0 ∧ st.ptr + 3 ∉ st.reachableOpcodes ∧ st.ptr + 3 < section_.code.length)
    "unreachable code (by forward jumps)"
  return ⟨st, [target], heights.minStackNext, heights.maxStackNext⟩

/-- An entry of the jump table. -/
def validateTableEntry (newPc : Nat) (result : SectionState × List Nat) (newPtr : Nat) :
    Except String (SectionState × List Nat) := do
  let st ← addIntermediate result.1 newPtr
  let st ← addIntermediate st (newPtr + 1)
  let offset ← readCodeInt16 section_.code newPtr
  let (st, target) ← jumpTo section_ st (offset + newPc)
    "invalid opcode: intermediates out-of-bounds"
  return (st, result.2 ++ [target])

/-- At the end of the code the size of the table is `NaN`, with which the loop ends behind this
opcode. -/
def validateRjumpv : Except String Operands :=
  match section_.code[st.ptr + 1]? with
  | none => .error "invalid terminating opcode"
  | some entries => do
    let tableSize := entries.toNat + 1
    failWhen (st.ptr + tableSize * 2 + 2 ≥ section_.code.length)
      "invalid opcode: intermediates out-of-bounds"
    let newPc := st.ptr + 2 + tableSize * 2
    let table := (List.range tableSize).map fun i => st.ptr + 2 + i * 2
    let (next, successors) ← table.foldlM (validateTableEntry section_ newPc) (st, [])
    let next ← addIntermediate next (st.ptr + 1)
    return ⟨{ next with ptr := st.ptr + (2 * tableSize + 1) }, successors, heights.minStackNext,
      heights.maxStackNext⟩

/-- The section that is called, which is noted before the target is checked. -/
def callTarget : Except String (SectionState × TypeSection) := do
  let target ← readCodeUint16 section_.code (st.ptr + 1)
  failWhen (target ≥ section_.container.header.codeSizes.length) "invalid callf/jumpf target"
  match section_.container.body.typeSections[target]? with
  | none => .error "Cannot read properties of undefined (reading 'outputs')"
  | some types => return ({ st with reachableSections := target :: st.reachableSections }, types)

def validateCallf : Except String Operands := do
  let (st, target) ← callTarget section_ st
  failWhen (target.outputs = 0x80) "invalid callf: calls to non-returning function"
  failWhen (heights.minStackCurrent < target.inputs) "Stack underflow"
  failWhen (heights.maxStackCurrent + target.maxStackHeight - target.inputs > 1024) "Stack overflow"
  let delta : ℤ := target.outputs - target.inputs
  return ⟨st, [], heights.minStackNext + delta, heights.maxStackNext + delta⟩

def validateJumpf : Except String Operands := do
  let (st, target) ← callTarget section_ st
  let currentOutputs := section_.types.outputs
  failWhen (target.outputs > currentOutputs ∧ target.outputs ≠ 0x80)
    "invalid jumpf target (output count)"
  failWhen (nonReturningFunction section_ ∧ target.outputs ≤ 0x7f)
    "invalid returning code section: section is not returning"
  let expectedStack : ℤ := currentOutputs + target.inputs - target.outputs
  failWhen (target.outputs = 0x80 ∧ heights.minStackCurrent < target.inputs) "Stack underflow"
  failWhen (target.outputs ≠ 0x80 ∧ ¬ (heights.minStackCurrent = heights.maxStackCurrent ∧
    heights.maxStackCurrent = expectedStack)) "invalid stack height"
  failWhen (heights.maxStackCurrent + target.maxStackHeight - target.inputs > 1024) "Stack overflow"
  let returning := st.sectionHasReturningOpcode || target.outputs != 0x80
  return ⟨{ st with sectionHasReturningOpcode := returning }, [], heights.minStackNext,
    heights.maxStackNext⟩

def validateRetf : Except String Operands := do
  failWhen (¬ (heights.minStackCurrent = heights.maxStackCurrent ∧
    heights.maxStackCurrent = section_.types.outputs)) "invalid stack height"
  return ⟨{ st with sectionHasReturningOpcode := true }, [], heights.minStackNext,
    heights.maxStackNext⟩

/-- The items that `DUPN`, `SWAPN` or `EXCHANGE` need. A comparison with the byte behind the end of
the code is false. -/
def immediateItems (opcode : UInt8) : Nat :=
  match section_.code[st.ptr + 1]? with
  | none => 0
  | some immediate =>
    if opcode = 0xe6 then immediate.toNat + 1
    else if opcode = 0xe7 then immediate.toNat + 2
    else (immediate.toNat / 16 + 1) + (immediate.toNat % 16 + 1) + 1

/-- `EOFCREATE` and `RETURNCONTRACT`, whose containers are of one type each. A byte behind the end
of the code is no target, which is an error later. -/
def validateTarget (type : ContainerSectionType) (error : String) : Except String Operands :=
  match section_.code[st.ptr + 1]? with
  | none => return ⟨st, [], heights.minStackNext, heights.maxStackNext⟩
  | some target => do
    failWhen (target.toNat ≥ section_.container.header.containerSizes.length) error
    failWhen ((st.containerTypeMap.get target.toNat).any fun other => other ≠ type)
      "Container is targeted by both EOFCREATE and RETURNCONTRACT"
    let containerTypeMap := st.containerTypeMap.set target.toNat type
    return ⟨{ st with containerTypeMap := containerTypeMap }, [], heights.minStackNext,
      heights.maxStackNext⟩

def containerTypeError : String :=
  "Container contains opcodes which this mode (deployment mode / init code / runtime mode) " ++
    "cannot have"

/-- The branch for the opcode. -/
def validateOperands (opcode : UInt8) : Except String Operands :=
  let operands : Operands := ⟨st, [], heights.minStackNext, heights.maxStackNext⟩
  if opcode = 0xe0 ∨ opcode = 0xe1 then validateRjump section_ st heights opcode
  else if opcode = 0xe2 then validateRjumpv section_ st heights
  else if opcode = 0xe3 then validateCallf section_ st heights
  else if opcode = 0xe5 then validateJumpf section_ st heights
  else if opcode = 0xe4 then validateRetf section_ st heights
  else if opcode = 0xe6 ∨ opcode = 0xe7 ∨ opcode = 0xe8 then do
    failWhen (immediateItems section_ st opcode > heights.minStackCurrent) "Stack underflow"
    return operands
  else if opcode = 0xec then
    validateTarget section_ st heights .InitCode "EOFCREATE targets an undefined container"
  else if opcode = 0xee then do
    failWhen (section_.mode ≠ .InitCode) containerTypeError
    validateTarget section_ st heights .DeploymentCode
      "RETURNCONTRACT targets an undefined container"
  else if opcode = 0xd1 then do
    let dataTarget ← readCodeUint16 section_.code (st.ptr + 1)
    failWhen (section_.container.header.dataSize < dataTarget + 32)
      "DATALOADN reading out of bounds"
    return operands
  else if opcode = 0x00 ∨ opcode = 0xf3 then do
    failWhen (section_.mode = .InitCode) containerTypeError
    return operands
  else return operands

/-- The heights at a successor. A jump back leads to a height that does not change any more. -/
def meetSuccessor (minStackNext maxStackNext : ℤ) (st : SectionState) (successor : Nat) :
    Except String SectionState := do
  failWhen (successor < st.ptr ∧ st.stackHeights successor ≠ some (minStackNext, maxStackNext))
    "Unstable stack (can reach stack under/overflow by jumps)"
  let next := match st.stackHeights successor with
    | none => (minStackNext, maxStackNext)
    | some (low, high) => (min low minStackNext, max high maxStackNext)
  return { st with stackHeights := Function.update st.stackHeights successor (some next) }

/-- What follows the branch for the opcode. -/
def finishInstruction (opcode : UInt8) (delta : StackDelta) (operands : Operands) :
    Except String SectionState := do
  let bytes := (List.range delta.intermediates).map fun i => operands.state.ptr + (i + 1)
  let st ← bytes.foldlM addIntermediate operands.state
  let ptr := st.ptr + delta.intermediates
  failWhen (ptr ≥ section_.code.length) "invalid opcode: intermediates out-of-bounds"
  let ptr := ptr + 1
  let reachable := if delta.terminating then st.reachableOpcodes else ptr :: st.reachableOpcodes
  let falls := ¬ delta.terminating ∧ opcode ≠ 0xe0
  let successors := if falls then operands.successorSet ++ [ptr] else operands.successorSet
  let st ← successors.foldlM (meetSuccessor operands.minStackNext operands.maxStackNext)
    { st with ptr := ptr, reachableOpcodes := reachable }
  return { st with maxStackHeight := max operands.maxStackNext st.maxStackHeight }

/-- The body of the loop for an opcode and the heights at it. -/
def validateOpcode (opcode : UInt8) (low high : ℤ) : Except String SectionState :=
  match stackDelta opcode with
  | none => .error "Cannot read properties of undefined (reading 'inputs')"
  | some delta => do
    failWhen (low - delta.inputs < 0) "Stack underflow"
    let change : ℤ := delta.outputs - delta.inputs
    failWhen (high + change > 1024) "Stack overflow"
    failWhen (nonReturningFunction section_ ∧ opcode = 0xe4)
      "invalid returning code section: section is not returning"
    failWhen (opcode ∉ opcodeNumbers section_.common) "invalid opcode"
    let operands ← validateOperands section_ { st with lastOpcode := opcode }
      ⟨low, high, low + change, high + change⟩ opcode
    finishInstruction section_ opcode delta operands

/-- The body of the loop. -/
def validateInstruction (opcode : UInt8) : Except String SectionState :=
  if st.ptr ∉ st.reachableOpcodes then .error "unreachable code (by forward jumps)"
  else match st.stackHeights st.ptr with
    | none => .error "unreachable code (by forward jumps)"
    | some (low, high) => validateOpcode section_ st opcode low high

/-- The loop over the code, which has at most as many instructions as bytes. -/
def validateInstructions : Nat → SectionState → Except String SectionState
  | 0, st => .ok st
  | n + 1, st =>
    match section_.code[st.ptr]? with
    | none => .ok st
    | some opcode => do validateInstructions n (← validateInstruction section_ st opcode)

def terminatingOpcodes (common : Common) : List UInt8 :=
  [0x00, 0xf3, 0xfd, 0xfe, 0xee, 0xe4, 0xe5, 0xe0].filter fun opcode =>
    opcode ∈ opcodeNumbers common

def initialState (containerTypeMap : InsertionMap Nat ContainerSectionType) : SectionState where
  intermediateBytes := []
  jumpLocations := []
  reachableOpcodes := [0]
  stackHeights := Function.update (fun _ => none) 0
    (some ((section_.types.inputs : ℤ), (section_.types.inputs : ℤ)))
  maxStackHeight := section_.types.inputs
  ptr := 0
  lastOpcode := 0
  sectionHasReturningOpcode := false
  reachableSections := []
  containerTypeMap := containerTypeMap

/-- The body of the loop over the code sections. -/
def validateSection (containerTypeMap : InsertionMap Nat ContainerSectionType) :
    Except String SectionState := do
  let st ← validateInstructions section_ section_.code.length
    (initialState section_ containerTypeMap)
  failWhen (st.lastOpcode ∉ terminatingOpcodes section_.common) "invalid terminating opcode"
  failWhen ((section_.types.maxStackHeight : ℤ) ≠ st.maxStackHeight)
    "Max stack height does not match the reported max stack height"
  failWhen (st.maxStackHeight > 1024) "stack height limit of 1024 exceeded: "
  failWhen (¬ st.sectionHasReturningOpcode ∧ ¬ nonReturningFunction section_)
    "invalid section: section should return but has no RETF/JUMP to return"
  return st

/-- The loop over the code sections, with what each of them calls. -/
def validateSections (common : Common) (mode : ContainerSectionType) (container : EOFContainer) :
    List (Bytes × Nat) → InsertionMap Nat ContainerSectionType →
      Except String (List (List Nat) × InsertionMap Nat ContainerSectionType)
  | [], containerTypeMap => .ok ([], containerTypeMap)
  | (code, codeSection) :: sections, containerTypeMap =>
    match container.body.typeSections[codeSection]? with
    | none => .error "Cannot read properties of undefined (reading 'outputs')"
    | some types => do
      let st ← validateSection ⟨common, mode, container, codeSection, code, types⟩ containerTypeMap
      let (reachable, containerTypeMap) ← validateSections common mode container sections
        st.containerTypeMap
      return (st.reachableSections :: reachable, containerTypeMap)

/-- A section that a checked section calls is checked too, once. -/
def noteSection (result : List Nat × List Nat) (checkSection : Nat) : List Nat × List Nat :=
  if checkSection ∈ result.1 then result
  else (checkSection :: result.1, checkSection :: result.2)

/-- The loop over `toCheck`, the last of which comes first. Every section is checked once. -/
def accumulateSections (reachableSections : List (List Nat)) : Nat → List Nat × List Nat → List Nat
  | 0, (sectionAccumulator, _) => sectionAccumulator
  | _ + 1, (sectionAccumulator, []) => sectionAccumulator
  | n + 1, (sectionAccumulator, section_ :: toCheck) =>
    accumulateSections reachableSections n
      ((reachableSections.getD section_ []).foldl noteSection (sectionAccumulator, toCheck))

def validateOpcodes (common : Common) (mode : ContainerSectionType) (container : EOFContainer) :
    Except String (InsertionMap Nat ContainerSectionType) := do
  let (reachableSections, containerTypeMap) ← validateSections common mode container
    container.body.codeSections.zipIdx .empty
  let sections := container.header.codeSizes.length
  failWhen ((accumulateSections reachableSections sections ([0], [0])).length ≠ sections)
    "unreachable code sections"
  failWhen (containerTypeMap.size ≠ container.header.containerSizes.length)
    "Unreachable containers (by both EOFCREATE and RETURNCONTRACT)"
  return containerTypeMap

end Section_

section Growth

variable {section_ : CodeSection} {st st' st'' : SectionState} {len : Nat}

@[simp] theorem failWhen_bind_eq_ok {α : Type} {c : Prop} [Decidable c] {error : String}
    {x : Except String α} {a : α} :
    (failWhen c error >>= fun _ => x) = .ok a ↔ ¬ c ∧ x = .ok a := by
  unfold failWhen
  split
  · rename_i hc
    exact iff_of_false (by rintro ⟨⟩) fun h => h.1 hc
  · rename_i hc
    exact ⟨fun h => ⟨hc, h⟩, fun h => h.2⟩

/-- No jump leads into an instruction. -/
def Apart (st : SectionState) : Prop := ∀ q ∈ st.jumpLocations, q ∉ st.intermediateBytes

/-- The containers that are targeted stay of their types. -/
def KeepsTypes (before after : InsertionMap Nat ContainerSectionType) : Prop :=
  ∀ i type, before.get i = some type → after.get i = some type

/-- What the checks of operands do to the variables of the loop. -/
structure Grows (len : Nat) (st st' : SectionState) : Prop where
  intermediates : st.intermediateBytes ⊆ st'.intermediateBytes
  jumps : st.jumpLocations ⊆ st'.jumpLocations
  jumps_lt : ∀ q ∈ st'.jumpLocations, q ∈ st.jumpLocations ∨ q < len
  apart : Apart st → Apart st'
  stackHeights : st'.stackHeights = st.stackHeights
  maxStackHeight : st'.maxStackHeight = st.maxStackHeight
  lastOpcode : st'.lastOpcode = st.lastOpcode
  ptr : st'.ptr = st.ptr
  types : KeepsTypes st.containerTypeMap st'.containerTypeMap

theorem Grows.refl (len : Nat) (st : SectionState) : Grows len st st :=
  ⟨fun _ h => h, fun _ h => h, fun _ h => .inl h, id, rfl, rfl, rfl, rfl, fun _ _ h => h⟩

theorem Grows.trans (h : Grows len st st') (h' : Grows len st' st'') : Grows len st st'' where
  intermediates := fun _ hq => h'.intermediates (h.intermediates hq)
  jumps := fun _ hq => h'.jumps (h.jumps hq)
  jumps_lt := fun q hq => (h'.jumps_lt q hq).elim (h.jumps_lt q) .inr
  apart := fun hapart => h'.apart (h.apart hapart)
  stackHeights := h'.stackHeights.trans h.stackHeights
  maxStackHeight := h'.maxStackHeight.trans h.maxStackHeight
  lastOpcode := h'.lastOpcode.trans h.lastOpcode
  ptr := h'.ptr.trans h.ptr
  types := fun i type hi => h'.types i type (h.types i type hi)

theorem addJump_grows {location : Nat} (hlt : location < len)
    (h : addJump st location = .ok st') : Grows len st st' ∧ location ∈ st'.jumpLocations := by
  obtain ⟨hnot, hok⟩ := failWhen_bind_eq_ok.mp h
  obtain rfl := Except.ok.inj hok
  refine ⟨⟨fun _ h => h, fun _ h => List.mem_cons_of_mem _ h, fun q hq => ?_, fun hapart q hq => ?_,
    rfl, rfl, rfl, rfl, fun _ _ h => h⟩, List.mem_cons_self⟩
  · obtain rfl | hq := List.mem_cons.mp hq
    · exact .inr hlt
    · exact .inl hq
  · obtain rfl | hq := List.mem_cons.mp hq
    · exact hnot
    · exact hapart q hq

theorem addIntermediate_grows (len : Nat) {location : Nat} (h : addIntermediate st location = .ok st') :
    Grows len st st' ∧ location ∈ st'.intermediateBytes := by
  obtain ⟨hnot, hok⟩ := failWhen_bind_eq_ok.mp h
  obtain rfl := Except.ok.inj hok
  refine ⟨⟨fun _ h => List.mem_cons_of_mem _ h, fun _ h => h, fun q hq => .inl hq,
    fun hapart q hq hmem => ?_, rfl, rfl, rfl, rfl, fun _ _ h => h⟩, List.mem_cons_self⟩
  obtain rfl | hmem := List.mem_cons.mp hmem
  · exact hnot hq
  · exact hapart q hq hmem

theorem jumpTo_grows {target : ℤ} {error : String} {q : Nat}
    (h : jumpTo section_ st target error = .ok (st', q)) :
    Grows section_.code.length st st' ∧ q ∈ st'.jumpLocations ∧ (q : ℤ) = target := by
  obtain ⟨hrange, h⟩ := failWhen_bind_eq_ok.mp h
  obtain ⟨mid, hjump, hok⟩ := bind_eq_ok.mp h
  obtain ⟨rfl, rfl⟩ := Prod.mk.inj (Except.ok.inj hok)
  rw [not_or, not_lt, ge_iff_le, not_le] at hrange
  have htarget : (target.toNat : ℤ) = target := Int.toNat_of_nonneg hrange.1
  obtain ⟨hgrows, hmem⟩ := addJump_grows ((Int.toNat_lt hrange.1).mpr hrange.2) hjump
  exact ⟨⟨hgrows.intermediates, hgrows.jumps, hgrows.jumps_lt, hgrows.apart, hgrows.stackHeights,
    hgrows.maxStackHeight, hgrows.lastOpcode, hgrows.ptr, hgrows.types⟩, hmem, htarget⟩

theorem foldlM_addIntermediate (len : Nat) {locations : List Nat}
    (h : locations.foldlM addIntermediate st = .ok st') :
    Grows len st st' ∧ ∀ q ∈ locations, q ∈ st'.intermediateBytes := by
  induction locations generalizing st with
  | nil =>
    obtain rfl := Except.ok.inj h
    exact ⟨.refl _ _, fun _ hq => absurd hq List.not_mem_nil⟩
  | cons location locations ih =>
    rw [List.foldlM_cons] at h
    obtain ⟨mid, hfirst, hrest⟩ := bind_eq_ok.mp h
    obtain ⟨hgrows, hmem⟩ := addIntermediate_grows len hfirst
    obtain ⟨hgrows', hall⟩ := ih hrest
    refine ⟨hgrows.trans hgrows', fun q hq => ?_⟩
    obtain rfl | hq := List.mem_cons.mp hq
    · exact hgrows'.intermediates hmem
    · exact hall q hq

end Growth

section Branches

variable {section_ : CodeSection} {st st' : SectionState} {heights : Heights} {opcode : UInt8}
  {operands : Operands}

/-- The operand is a container of the type that is required. -/
def TargetOk (section_ : CodeSection) (p : Nat) (Typed : Nat → ContainerSectionType → Prop)
    (type : ContainerSectionType) : Prop :=
  ∀ target, section_.code[p + 1]? = some target →
    target.toNat < section_.container.header.containerSizes.length ∧ Typed target.toNat type

/-- What the branch for an opcode has checked. The next instruction starts at `next`. -/
structure OperandsOk (section_ : CodeSection) (p next : Nat) (opcode : UInt8) (heights : Heights)
    (Jump : Nat → Prop) (Typed : Nat → ContainerSectionType → Prop) (low high : ℤ) : Prop where
  rjump : opcode = 0xe0 ∨ opcode = 0xe1 →
    ∃ offset, readCodeInt16 section_.code (p + 1) = .ok offset ∧
      ∃ target : Nat, (target : ℤ) = offset + p + 3 ∧ Jump target
  rjumpv : opcode = 0xe2 → ∃ entries, section_.code[p + 1]? = some entries ∧
    next = p + 2 + (entries.toNat + 1) * 2 ∧ ∀ i ≤ entries.toNat,
      ∃ offset, readCodeInt16 section_.code (p + 2 + i * 2) = .ok offset ∧
        ∃ target : Nat, (target : ℤ) = offset + next ∧ Jump target
  callf : opcode = 0xe3 → ∃ target types, readCodeUint16 section_.code (p + 1) = .ok target ∧
    section_.container.body.typeSections[target]? = some types ∧ types.outputs ≠ 0x80 ∧
    (types.inputs : ℤ) ≤ heights.minStackCurrent ∧
    low = heights.minStackNext + (types.outputs - types.inputs) ∧
    high = heights.maxStackNext + (types.outputs - types.inputs)
  jumpf : opcode = 0xe5 → ∃ target types, readCodeUint16 section_.code (p + 1) = .ok target ∧
    section_.container.body.typeSections[target]? = some types ∧
    ((types.outputs = 0x80 ∧ (types.inputs : ℤ) ≤ heights.minStackCurrent) ∨
      (types.outputs ≠ 0x80 ∧ section_.types.outputs ≠ 0x80 ∧
        types.outputs ≤ section_.types.outputs ∧
        heights.minStackCurrent = heights.maxStackCurrent ∧
        heights.maxStackCurrent = section_.types.outputs + types.inputs - types.outputs))
  retf : opcode = 0xe4 → heights.minStackCurrent = heights.maxStackCurrent ∧
    heights.maxStackCurrent = section_.types.outputs
  eofcreate : opcode = 0xec → TargetOk section_ p Typed .InitCode
  returnContract : opcode = 0xee → TargetOk section_ p Typed .DeploymentCode
  same : opcode ≠ 0xe3 → low = heights.minStackNext ∧ high = heights.maxStackNext

/-- The container is targeted, as one of this type. -/
def HasType (st : SectionState) (i : Nat) (type : ContainerSectionType) : Prop :=
  st.containerTypeMap.get i = some type

structure BranchOk (section_ : CodeSection) (st : SectionState) (heights : Heights)
    (opcode : UInt8) (operands : Operands) : Prop where
  grows : ∃ mid, Grows section_.code.length st mid ∧
    operands.state = { mid with ptr := operands.state.ptr }
  ptr_le : st.ptr ≤ operands.state.ptr
  ptr_eq : opcode ≠ 0xe2 → operands.state.ptr = st.ptr
  tiled : ∀ q, st.ptr < q → q ≤ operands.state.ptr → q ∈ operands.state.intermediateBytes
  operands : OperandsOk section_ st.ptr (operands.state.ptr + 1) opcode heights
    (fun q => q ∈ operands.state.jumpLocations ∧ q ∈ operands.successorSet)
    (HasType operands.state) operands.minStackNext operands.maxStackNext

/-- A branch that leaves the pointer. -/
theorem BranchOk.of_grows (hgrows : Grows section_.code.length st operands.state)
    (hoperands : OperandsOk section_ st.ptr (operands.state.ptr + 1) opcode heights
      (fun q => q ∈ operands.state.jumpLocations ∧ q ∈ operands.successorSet)
      (HasType operands.state) operands.minStackNext operands.maxStackNext) :
    BranchOk section_ st heights opcode operands where
  grows := ⟨operands.state, hgrows, rfl⟩
  ptr_le := hgrows.ptr.ge
  ptr_eq := fun _ => hgrows.ptr
  tiled := fun _ hlt hle => absurd (hgrows.ptr ▸ hle) hlt.not_ge
  operands := hoperands

/-- An opcode with no operands that matter to jumps and calls. -/
theorem operandsOk_plain {p next : Nat} {Jump : Nat → Prop}
    {Typed : Nat → ContainerSectionType → Prop}
    (hopcode : ∀ op ∈ ([0xe0, 0xe1, 0xe2, 0xe3, 0xe4, 0xe5] : List UInt8), opcode ≠ op)
    (hcreate : opcode = 0xec → TargetOk section_ p Typed .InitCode)
    (hreturn : opcode = 0xee → TargetOk section_ p Typed .DeploymentCode) :
    OperandsOk section_ p next opcode heights Jump Typed heights.minStackNext
      heights.maxStackNext where
  rjump h := (h.elim (hopcode _ (by decide)) (hopcode _ (by decide))).elim
  rjumpv h := (hopcode _ (by decide) h).elim
  callf h := (hopcode _ (by decide) h).elim
  jumpf h := (hopcode _ (by decide) h).elim
  retf h := (hopcode _ (by decide) h).elim
  eofcreate := hcreate
  returnContract := hreturn
  same _ := ⟨rfl, rfl⟩

theorem validateRjump_ok (hopcode : opcode = 0xe0 ∨ opcode = 0xe1)
    (h : validateRjump section_ st heights opcode = .ok operands) :
    BranchOk section_ st heights opcode operands := by
  obtain ⟨offset, hread, h⟩ := bind_eq_ok.mp h
  obtain ⟨⟨next, target⟩, hjump, h⟩ := bind_eq_ok.mp h
  obtain ⟨-, hok⟩ := failWhen_bind_eq_ok.mp h
  obtain rfl := Except.ok.inj hok
  obtain ⟨hgrows, hmem, htarget⟩ := jumpTo_grows hjump
  refine .of_grows hgrows ⟨fun _ => ⟨offset, hread, target, htarget, hmem, List.mem_cons_self⟩, ?_,
    ?_, ?_, ?_, ?_, ?_, fun _ => ⟨rfl, rfl⟩⟩
  all_goals
    rintro rfl
    exact absurd hopcode (by decide)

theorem validateTableEntry_ok {newPc newPtr : Nat} {result result' : SectionState × List Nat}
    (h : validateTableEntry section_ newPc result newPtr = .ok result') :
    Grows section_.code.length result.1 result'.1 ∧ newPtr ∈ result'.1.intermediateBytes ∧
      newPtr + 1 ∈ result'.1.intermediateBytes ∧ result.2 ⊆ result'.2 ∧
      ∃ offset, readCodeInt16 section_.code newPtr = .ok offset ∧
        ∃ target : Nat, (target : ℤ) = offset + newPc ∧ target ∈ result'.1.jumpLocations ∧
          target ∈ result'.2 := by
  obtain ⟨first, hfirst, h⟩ := bind_eq_ok.mp h
  obtain ⟨second, hsecond, h⟩ := bind_eq_ok.mp h
  obtain ⟨offset, hread, h⟩ := bind_eq_ok.mp h
  obtain ⟨⟨last, target⟩, hjump, hok⟩ := bind_eq_ok.mp h
  obtain rfl := Except.ok.inj hok
  obtain ⟨hgrows, hmem⟩ := addIntermediate_grows section_.code.length hfirst
  obtain ⟨hgrows', hmem'⟩ := addIntermediate_grows section_.code.length hsecond
  obtain ⟨hgrows'', htarget, heq⟩ := jumpTo_grows hjump
  exact ⟨hgrows.trans (hgrows'.trans hgrows''), hgrows''.intermediates (hgrows'.intermediates hmem),
    hgrows''.intermediates hmem', List.subset_append_left _ _, offset, hread, target, heq, htarget,
    List.mem_append_right _ List.mem_cons_self⟩

theorem foldlM_tableEntry_ok {newPc : Nat} {table : List Nat}
    {result result' : SectionState × List Nat}
    (h : table.foldlM (validateTableEntry section_ newPc) result = .ok result') :
    Grows section_.code.length result.1 result'.1 ∧ result.2 ⊆ result'.2 ∧
      ∀ newPtr ∈ table, newPtr ∈ result'.1.intermediateBytes ∧
        newPtr + 1 ∈ result'.1.intermediateBytes ∧
        ∃ offset, readCodeInt16 section_.code newPtr = .ok offset ∧
          ∃ target : Nat, (target : ℤ) = offset + newPc ∧ target ∈ result'.1.jumpLocations ∧
            target ∈ result'.2 := by
  induction table generalizing result with
  | nil =>
    obtain rfl := Except.ok.inj h
    exact ⟨.refl _ _, fun _ hq => hq, fun _ hq => absurd hq List.not_mem_nil⟩
  | cons newPtr table ih =>
    rw [List.foldlM_cons] at h
    obtain ⟨mid, hfirst, hrest⟩ := bind_eq_ok.mp h
    obtain ⟨hgrows, hmem, hmem', hsub, offset, hread, target, htarget, hjump, hsucc⟩ :=
      validateTableEntry_ok hfirst
    obtain ⟨hgrows', hsub', hall⟩ := ih hrest
    refine ⟨hgrows.trans hgrows', fun _ hq => hsub' (hsub hq), fun q hq => ?_⟩
    obtain rfl | hq := List.mem_cons.mp hq
    · exact ⟨hgrows'.intermediates hmem, hgrows'.intermediates hmem', offset, hread, target,
        htarget, hgrows'.jumps hjump, hsub' hsucc⟩
    · exact hall q hq

theorem validateRjumpv_ok (h : validateRjumpv section_ st heights = .ok operands) :
    BranchOk section_ st heights 0xe2 operands := by
  unfold validateRjumpv at h
  split at h
  · cases h
  · rename_i entries hentries
    obtain ⟨-, h⟩ := failWhen_bind_eq_ok.mp h
    obtain ⟨⟨next, successors⟩, htable, h⟩ := bind_eq_ok.mp h
    obtain ⟨last, hlast, hok⟩ := bind_eq_ok.mp h
    obtain rfl := Except.ok.inj hok
    obtain ⟨hgrows, -, hall⟩ := foldlM_tableEntry_ok htable
    obtain ⟨hgrows', hmem⟩ := addIntermediate_grows section_.code.length hlast
    have hentry : ∀ i ≤ entries.toNat, st.ptr + 2 + i * 2 ∈
        (List.range (entries.toNat + 1)).map fun i => st.ptr + 2 + i * 2 := fun i hi =>
      List.mem_map.mpr ⟨i, List.mem_range.mpr (Nat.lt_succ_of_le hi), rfl⟩
    have hnext : st.ptr + (2 * (entries.toNat + 1) + 1) + 1 =
        st.ptr + 2 + (entries.toNat + 1) * 2 := by omega
    refine ⟨⟨last, hgrows.trans hgrows', rfl⟩, Nat.le_add_right _ _, fun h => (h rfl).elim,
      fun q hlt hle => ?_, ⟨fun h => ?_, fun _ => ⟨entries, hentries, hnext, fun i hi => ?_⟩,
        fun h => absurd h (by decide), fun h => absurd h (by decide), fun h => absurd h (by decide),
        fun h => absurd h (by decide), fun h => absurd h (by decide), fun _ => ⟨rfl, rfl⟩⟩⟩
    · -- Every byte of the table is the first or the second one of an entry.
      obtain rfl | hlt' := Nat.eq_or_lt_of_le hlt
      · exact hmem
      · dsimp only at hle
        obtain ⟨hfirst, hsecond, -⟩ := hall _ (hentry ((q - (st.ptr + 2)) / 2) (by omega))
        obtain heq | heq : q = st.ptr + 2 + (q - (st.ptr + 2)) / 2 * 2 ∨
            q = st.ptr + 2 + (q - (st.ptr + 2)) / 2 * 2 + 1 := by omega
        · rw [heq]
          exact hgrows'.intermediates hfirst
        · rw [heq]
          exact hgrows'.intermediates hsecond
    · exact absurd h (by decide)
    · obtain ⟨-, -, offset, hread, target, htarget, hjump, hsucc⟩ := hall _ (hentry i hi)
      refine ⟨offset, hread, target, ?_, hgrows'.jumps hjump, hsucc⟩
      rw [htarget, hnext]

theorem callTarget_ok {types : TypeSection} (h : callTarget section_ st = .ok (st', types)) :
    Grows section_.code.length st st' ∧ ∃ target,
      readCodeUint16 section_.code (st.ptr + 1) = .ok target ∧
        section_.container.body.typeSections[target]? = some types := by
  obtain ⟨target, hread, h⟩ := bind_eq_ok.mp h
  obtain ⟨-, h⟩ := failWhen_bind_eq_ok.mp h
  split at h
  · cases h
  · rename_i types' htypes
    obtain ⟨rfl, rfl⟩ := Prod.mk.inj (Except.ok.inj h)
    exact ⟨⟨fun _ h => h, fun _ h => h, fun _ h => .inl h, id, rfl, rfl, rfl, rfl, fun _ _ h => h⟩,
      target, hread, htypes⟩

theorem validateCallf_ok (h : validateCallf section_ st heights = .ok operands) :
    BranchOk section_ st heights 0xe3 operands := by
  obtain ⟨⟨next, types⟩, hcall, h⟩ := bind_eq_ok.mp h
  obtain ⟨houtputs, h⟩ := failWhen_bind_eq_ok.mp h
  obtain ⟨hinputs, h⟩ := failWhen_bind_eq_ok.mp h
  obtain ⟨-, hok⟩ := failWhen_bind_eq_ok.mp h
  obtain rfl := Except.ok.inj hok
  obtain ⟨hgrows, target, hread, htypes⟩ := callTarget_ok hcall
  exact .of_grows hgrows ⟨fun h => absurd h (by decide), fun h => absurd h (by decide),
    fun _ => ⟨target, types, hread, htypes, houtputs, not_lt.mp hinputs, rfl, rfl⟩,
    fun h => absurd h (by decide), fun h => absurd h (by decide), fun h => absurd h (by decide),
    fun h => absurd h (by decide), fun h => (h rfl).elim⟩

theorem validateJumpf_ok (h : validateJumpf section_ st heights = .ok operands) :
    BranchOk section_ st heights 0xe5 operands := by
  obtain ⟨⟨next, types⟩, hcall, h⟩ := bind_eq_ok.mp h
  obtain ⟨hmore, h⟩ := failWhen_bind_eq_ok.mp h
  obtain ⟨hreturning, h⟩ := failWhen_bind_eq_ok.mp h
  obtain ⟨hunder, h⟩ := failWhen_bind_eq_ok.mp h
  obtain ⟨hexact, h⟩ := failWhen_bind_eq_ok.mp h
  obtain ⟨-, hok⟩ := failWhen_bind_eq_ok.mp h
  obtain rfl := Except.ok.inj hok
  obtain ⟨hgrows, target, hread, htypes⟩ := callTarget_ok hcall
  refine .of_grows ⟨hgrows.intermediates, hgrows.jumps, hgrows.jumps_lt, hgrows.apart,
    hgrows.stackHeights, hgrows.maxStackHeight, hgrows.lastOpcode, hgrows.ptr, hgrows.types⟩
    ⟨fun h => absurd h (by decide), fun h => absurd h (by decide), fun h => absurd h (by decide),
      fun _ => ⟨target, types, hread, htypes, ?_⟩, fun h => absurd h (by decide),
      fun h => absurd h (by decide), fun h => absurd h (by decide), fun _ => ⟨rfl, rfl⟩⟩
  rcases Classical.em (types.outputs = 0x80) with hnever | hreturns
  · exact .inl ⟨hnever, not_lt.mp fun hlt => hunder ⟨hnever, hlt⟩⟩
  · have hle : types.outputs ≤ section_.types.outputs :=
      not_lt.mp fun hlt => hmore ⟨hlt, hreturns⟩
    obtain ⟨hsame, hheight⟩ := not_not.mp fun hne => hexact ⟨hreturns, hne⟩
    refine .inr ⟨hreturns, fun hsection => ?_, hle, hsame, hheight⟩
    -- A section that never returns may not go on in one that returns.
    refine hreturning ⟨?_, by omega⟩
    unfold nonReturningFunction
    rw [hsection]
    rfl

theorem validateRetf_ok (h : validateRetf section_ st heights = .ok operands) :
    BranchOk section_ st heights 0xe4 operands := by
  obtain ⟨hheights, hok⟩ := failWhen_bind_eq_ok.mp h
  obtain rfl := Except.ok.inj hok
  refine .of_grows ⟨fun _ h => h, fun _ h => h, fun _ h => .inl h, id, rfl, rfl, rfl, rfl,
    fun _ _ h => h⟩ ?_
  exact ⟨fun h => absurd h (by decide), fun h => absurd h (by decide),
    fun h => absurd h (by decide), fun h => absurd h (by decide), fun _ => not_not.mp hheights,
    fun h => absurd h (by decide), fun h => absurd h (by decide), fun _ => ⟨rfl, rfl⟩⟩

/-- A container that is targeted keeps the type that it has. -/
theorem keepsTypes_set {types : InsertionMap Nat ContainerSectionType} {i : Nat}
    {type : ContainerSectionType} (h : ¬ (types.get i).any fun other => other ≠ type) :
    KeepsTypes types (types.set i type) := by
  intro j type' hj
  rw [InsertionMap.get_set]
  split
  · rename_i heq
    subst heq
    rw [hj, Option.any_some] at h
    have hsame : type' = type := not_not.mp fun hne => h (decide_eq_true hne)
    rw [hsame]
  · exact hj

theorem validateTarget_ok {type : ContainerSectionType} {error : String}
    (hopcode : ∀ op ∈ ([0xe0, 0xe1, 0xe2, 0xe3, 0xe4, 0xe5] : List UInt8), opcode ≠ op)
    (hcreate : opcode = 0xec → type = .InitCode) (hreturn : opcode = 0xee → type = .DeploymentCode)
    (h : validateTarget section_ st heights type error = .ok operands) :
    BranchOk section_ st heights opcode operands := by
  unfold validateTarget at h
  split at h
  · rename_i hend
    obtain rfl := Except.ok.inj h
    refine .of_grows (.refl _ _) (operandsOk_plain hopcode ?_ ?_)
    all_goals
      intro _ target htarget
      rw [hend] at htarget
      cases htarget
  · rename_i target htarget
    obtain ⟨hlt, h⟩ := failWhen_bind_eq_ok.mp h
    obtain ⟨htype, hok⟩ := failWhen_bind_eq_ok.mp h
    obtain rfl := Except.ok.inj hok
    have hset : TargetOk section_ st.ptr (fun i type' =>
        (st.containerTypeMap.set target.toNat type).get i = some type') type := by
      intro target' htarget'
      obtain rfl := Option.some.inj (htarget.symm.trans htarget')
      refine ⟨not_le.mp hlt, ?_⟩
      dsimp only
      rw [InsertionMap.get_set, if_pos rfl]
    refine .of_grows ⟨fun _ h => h, fun _ h => h, fun _ h => .inl h, id, rfl, rfl, rfl, rfl,
      keepsTypes_set htype⟩ (operandsOk_plain hopcode ?_ ?_)
    · intro hop
      exact hcreate hop ▸ hset
    · intro hop
      exact hreturn hop ▸ hset

theorem validateOperands_ok (h : validateOperands section_ st heights opcode = .ok operands) :
    BranchOk section_ st heights opcode operands := by
  unfold validateOperands at h
  dsimp only at h
  split at h
  · rename_i hopcode
    exact validateRjump_ok hopcode h
  rename_i hjump
  split at h
  · rename_i hopcode
    subst hopcode
    exact validateRjumpv_ok h
  rename_i hjumpv
  split at h
  · rename_i hopcode
    subst hopcode
    exact validateCallf_ok h
  rename_i hcallf
  split at h
  · rename_i hopcode
    subst hopcode
    exact validateJumpf_ok h
  rename_i hjumpf
  split at h
  · rename_i hopcode
    subst hopcode
    exact validateRetf_ok h
  rename_i hretf
  have hopcode : ∀ op ∈ ([0xe0, 0xe1, 0xe2, 0xe3, 0xe4, 0xe5] : List UInt8), opcode ≠ op := by
    simp only [List.mem_cons, List.not_mem_nil, or_false]
    rintro op (rfl | rfl | rfl | rfl | rfl | rfl) rfl
    all_goals tauto
  have hplain : opcode ≠ 0xec → opcode ≠ 0xee → BranchOk section_ st heights opcode
      ⟨st, [], heights.minStackNext, heights.maxStackNext⟩ := fun hcreate hreturn =>
    .of_grows (.refl _ _) (operandsOk_plain hopcode (fun hop => absurd hop hcreate)
      fun hop => absurd hop hreturn)
  split at h
  · rename_i himmediate
    obtain ⟨-, hok⟩ := failWhen_bind_eq_ok.mp h
    refine Except.ok.inj hok ▸ hplain ?_ ?_
    all_goals
      rintro rfl
      exact absurd himmediate (by decide)
  split at h
  · rename_i hop
    exact validateTarget_ok hopcode (fun _ => rfl)
      (fun hop' => absurd (hop.symm.trans hop') (by decide)) h
  rename_i hcreate
  split at h
  · rename_i hop
    obtain ⟨-, h⟩ := failWhen_bind_eq_ok.mp h
    exact validateTarget_ok hopcode (fun hop' => absurd (hop.symm.trans hop') (by decide))
      (fun _ => rfl) h
  rename_i hreturn
  have hplain := hplain hcreate hreturn
  split at h
  · obtain ⟨_, -, h⟩ := bind_eq_ok.mp h
    obtain ⟨-, hok⟩ := failWhen_bind_eq_ok.mp h
    exact Except.ok.inj hok ▸ hplain
  split at h
  · obtain ⟨-, hok⟩ := failWhen_bind_eq_ok.mp h
    exact Except.ok.inj hok ▸ hplain
  · exact Except.ok.inj h ▸ hplain

end Branches

section Successors

variable {section_ : CodeSection} {st st' : SectionState} {opcode : UInt8} {delta : StackDelta}
  {operands : Operands}

/-- The heights at `q` allow for these. -/
def Meets (stackHeights : Nat → Option (ℤ × ℤ)) (q : Nat) (low high : ℤ) : Prop :=
  ∃ a b, stackHeights q = some (a, b) ∧ a ≤ low ∧ high ≤ b

/-- Heights that change only from a pointer on, where they allow for more. -/
structure Widens (ptr : Nat) (before after : Nat → Option (ℤ × ℤ)) : Prop where
  stable : ∀ q < ptr, after q = before q
  mono : ∀ q low high, Meets before q low high → Meets after q low high

theorem Widens.refl (ptr : Nat) (stackHeights : Nat → Option (ℤ × ℤ)) :
    Widens ptr stackHeights stackHeights :=
  ⟨fun _ _ => rfl, fun _ _ _ h => h⟩

theorem Widens.trans {ptr : Nat} {a b c : Nat → Option (ℤ × ℤ)} (h : Widens ptr a b)
    (h' : Widens ptr b c) : Widens ptr a c :=
  ⟨fun q hq => (h'.stable q hq).trans (h.stable q hq),
    fun q low high hmeets => h'.mono q low high (h.mono q low high hmeets)⟩

theorem meetSuccessor_ok {low high : ℤ} {successor : Nat}
    (h : meetSuccessor low high st successor = .ok st') :
    st' = { st with stackHeights := st'.stackHeights } ∧
      Widens st.ptr st.stackHeights st'.stackHeights ∧
      Meets st'.stackHeights successor low high := by
  obtain ⟨hback, hok⟩ := failWhen_bind_eq_ok.mp h
  obtain rfl := Except.ok.inj hok
  refine ⟨rfl, ⟨fun q hq => ?_, fun q a b hmeets => ?_⟩, ?_⟩
  · dsimp only
    rw [Function.update_apply]
    split
    · rename_i heq
      subst heq
      -- The heights at a processed instruction are those that are met.
      rw [not_not.mp fun hne => hback ⟨hq, hne⟩]
      simp
    · rfl
  · obtain ⟨a', b', hq, hlow, hhigh⟩ := hmeets
    unfold Meets
    dsimp only
    rw [Function.update_apply]
    split
    · rename_i heq
      subst heq
      rw [hq]
      exact ⟨_, _, rfl, (min_le_left _ _).trans hlow, hhigh.trans (le_max_left _ _)⟩
    · exact ⟨a', b', hq, hlow, hhigh⟩
  · unfold Meets
    dsimp only
    rw [Function.update_self]
    cases st.stackHeights successor with
    | none => exact ⟨_, _, rfl, le_rfl, le_rfl⟩
    | some heights => exact ⟨_, _, rfl, min_le_right _ _, le_max_right _ _⟩

theorem foldlM_meetSuccessor_ok {low high : ℤ} {successors : List Nat}
    (h : successors.foldlM (meetSuccessor low high) st = .ok st') :
    st' = { st with stackHeights := st'.stackHeights } ∧
      Widens st.ptr st.stackHeights st'.stackHeights ∧
      ∀ q ∈ successors, Meets st'.stackHeights q low high := by
  induction successors generalizing st with
  | nil =>
    obtain rfl := Except.ok.inj h
    exact ⟨rfl, .refl _ _, fun _ hq => absurd hq List.not_mem_nil⟩
  | cons successor successors ih =>
    rw [List.foldlM_cons] at h
    obtain ⟨mid, hfirst, hrest⟩ := bind_eq_ok.mp h
    obtain ⟨hmid, hwidens, hmeets⟩ := meetSuccessor_ok hfirst
    obtain ⟨hst', hwidens', hall⟩ := ih hrest
    rw [hmid] at hst' hwidens'
    refine ⟨hst', hwidens.trans hwidens', fun q hq => ?_⟩
    obtain rfl | hq := List.mem_cons.mp hq
    · rw [hmid] at hmeets
      exact hwidens'.mono _ _ _ hmeets
    · exact hall q hq

/-- What follows a branch. -/
structure Finished (section_ : CodeSection) (opcode : UInt8) (delta : StackDelta)
    (operands : Operands) (st' : SectionState) : Prop where
  grows : ∃ mid, Grows section_.code.length operands.state mid ∧
    st'.intermediateBytes = mid.intermediateBytes ∧ st'.jumpLocations = mid.jumpLocations ∧
    st'.lastOpcode = mid.lastOpcode ∧ st'.containerTypeMap = mid.containerTypeMap
  ptr : st'.ptr = operands.state.ptr + delta.intermediates + 1
  ptr_le : st'.ptr ≤ section_.code.length
  tiled : ∀ q, operands.state.ptr < q → q < st'.ptr → q ∈ st'.intermediateBytes
  widens : Widens st'.ptr operands.state.stackHeights st'.stackHeights
  maxStackHeight : st'.maxStackHeight = max operands.maxStackNext operands.state.maxStackHeight
  meets : ∀ q ∈ operands.successorSet,
    Meets st'.stackHeights q operands.minStackNext operands.maxStackNext
  falls : ¬ delta.terminating → opcode ≠ 0xe0 →
    Meets st'.stackHeights st'.ptr operands.minStackNext operands.maxStackNext

theorem finishInstruction_ok
    (h : finishInstruction section_ opcode delta operands = .ok st') :
    Finished section_ opcode delta operands st' := by
  obtain ⟨mid, hbytes, h⟩ := bind_eq_ok.mp h
  obtain ⟨hin, h⟩ := failWhen_bind_eq_ok.mp h
  obtain ⟨last, hsuccessors, hok⟩ := bind_eq_ok.mp h
  obtain rfl := Except.ok.inj hok
  obtain ⟨hgrows, hmem⟩ := foldlM_addIntermediate section_.code.length hbytes
  obtain ⟨hlast, hwidens, hall⟩ := foldlM_meetSuccessor_ok hsuccessors
  have hptr : last.ptr = mid.ptr + delta.intermediates + 1 := by rw [hlast]
  refine ⟨⟨mid, hgrows, by rw [hlast], by rw [hlast], by rw [hlast], by rw [hlast]⟩, ?_, ?_,
    fun q hlt hle => ?_, ?_, ?_, fun q hq => hall q ?_, fun hnot hne => ?_⟩
  · rw [← hgrows.ptr]
    exact hptr
  · dsimp only
    rw [hptr]
    omega
  · have hq : q ∈ last.intermediateBytes := by
      rw [hlast]
      dsimp only at hle ⊢
      rw [hptr, hgrows.ptr] at hle
      refine hmem q (List.mem_map.mpr ⟨q - (operands.state.ptr + 1), ?_, ?_⟩)
      · rw [List.mem_range]
        omega
      · omega
    exact hq
  · dsimp only
    rw [hptr, ← hgrows.stackHeights]
    exact hwidens
  · dsimp only
    rw [← hgrows.maxStackHeight, hlast]
  · split
    · exact List.mem_append_left _ hq
    · exact hq
  · dsimp only
    rw [hptr]
    refine hall _ ?_
    rw [if_pos ⟨hnot, hne⟩]
    exact List.mem_append_right _ List.mem_cons_self

end Successors

section Scan

variable {section_ : CodeSection} {st st' : SectionState} {opcode : UInt8}

/-- An instruction that was validated: what its operands are, and that the heights behind it are
allowed for where control goes next. `Jump` and `Fall` say where that may be. -/
structure Checked (section_ : CodeSection) (stackHeights : Nat → Option (ℤ × ℤ))
    (Jump Fall : Nat → Prop) (Typed : Nat → ContainerSectionType → Prop) (top : ℤ) (p next : Nat)
    (opcode : UInt8) (delta : StackDelta) (low high lowNext highNext : ℤ) : Prop where
  heights : stackHeights p = some (low, high)
  entry : stackDelta opcode = some delta
  active : opcode ∈ opcodeNumbers section_.common
  inputs : (delta.inputs : ℤ) ≤ low
  top : highNext ≤ top
  next_eq : opcode ≠ 0xe2 → next = p + 1 + delta.intermediates
  next_le : next ≤ section_.code.length
  returning : opcode = 0xe4 → section_.types.outputs ≠ 0x80
  operands : OperandsOk section_ p next opcode
    ⟨low, high, low + (delta.outputs - delta.inputs), high + (delta.outputs - delta.inputs)⟩
    (fun q => Jump q ∧ Meets stackHeights q lowNext highNext) Typed lowNext highNext
  falls : ¬ delta.terminating → opcode ≠ 0xe0 →
    Fall next ∧ Meets stackHeights next lowNext highNext

theorem OperandsOk.of_next {p next next' : Nat} {heights : Heights} {Jump : Nat → Prop}
    {Typed : Nat → ContainerSectionType → Prop} {low high : ℤ}
    (h : OperandsOk section_ p next opcode heights Jump Typed low high)
    (hnext : opcode = 0xe2 → next = next') :
    OperandsOk section_ p next' opcode heights Jump Typed low high :=
  ⟨h.rjump, fun hop => hnext hop ▸ h.rjumpv hop, h.callf, h.jumpf, h.retf, h.eofcreate,
    h.returnContract, h.same⟩

theorem OperandsOk.imp {p next : Nat} {heights : Heights} {Jump Jump' : Nat → Prop}
    {Typed Typed' : Nat → ContainerSectionType → Prop} {low high : ℤ}
    (h : OperandsOk section_ p next opcode heights Jump Typed low high)
    (hjump : ∀ q, Jump q → Jump' q) (htyped : ∀ i type, Typed i type → Typed' i type) :
    OperandsOk section_ p next opcode heights Jump' Typed' low high where
  rjump hop := by
    obtain ⟨offset, hread, target, htarget, hq⟩ := h.rjump hop
    exact ⟨offset, hread, target, htarget, hjump target hq⟩
  rjumpv hop := by
    obtain ⟨entries, hentries, hnext, hall⟩ := h.rjumpv hop
    refine ⟨entries, hentries, hnext, fun i hi => ?_⟩
    obtain ⟨offset, hread, target, htarget, hq⟩ := hall i hi
    exact ⟨offset, hread, target, htarget, hjump target hq⟩
  callf := h.callf
  jumpf := h.jumpf
  retf := h.retf
  eofcreate hop target htarget :=
    ((h.eofcreate hop) target htarget).imp_right fun htype => htyped _ _ htype
  returnContract hop target htarget :=
    ((h.returnContract hop) target htarget).imp_right fun htype => htyped _ _ htype
  same := h.same

theorem Checked.mono {H H' : Nat → Option (ℤ × ℤ)} {Jump Jump' Fall Fall' : Nat → Prop}
    {Typed Typed' : Nat → ContainerSectionType → Prop} {top top' : ℤ} {p next ptr : Nat}
    {delta : StackDelta} {low high lowNext highNext : ℤ}
    (h : Checked section_ H Jump Fall Typed top p next opcode delta low high lowNext highNext)
    (hp : p < ptr) (hwidens : Widens ptr H H') (hjump : ∀ q, Jump q → Jump' q)
    (hfall : ¬ delta.terminating → opcode ≠ 0xe0 → Fall next → Fall' next)
    (htyped : ∀ i type, Typed i type → Typed' i type) (htop : top ≤ top') :
    Checked section_ H' Jump' Fall' Typed' top' p next opcode delta low high lowNext highNext where
  heights := (hwidens.stable p hp).trans h.heights
  entry := h.entry
  active := h.active
  inputs := h.inputs
  top := h.top.trans htop
  next_eq := h.next_eq
  next_le := h.next_le
  returning := h.returning
  operands := h.operands.imp (fun q hq => ⟨hjump q hq.1, hwidens.mono q _ _ hq.2⟩) htyped
  falls hnot hne :=
    ⟨hfall hnot hne (h.falls hnot hne).1, hwidens.mono next _ _ (h.falls hnot hne).2⟩

/-- What the loop knows before it validates the instruction at the pointer. -/
structure Scanned (section_ : CodeSection) (starts : List Nat) (st : SectionState) : Prop where
  zero : 0 ∈ starts ∨ st.ptr = 0
  inputs : st.stackHeights 0 = some ((section_.types.inputs : ℤ), (section_.types.inputs : ℤ))
  apart : Apart st
  jumps_lt : ∀ q ∈ st.jumpLocations, q < section_.code.length
  tiled : ∀ q < st.ptr, q ∈ starts ∨ q ∈ st.intermediateBytes
  lt : ∀ p ∈ starts, p < st.ptr
  ptr_le : st.ptr ≤ section_.code.length
  checked : ∀ p ∈ starts, ∃ next opcode delta low high lowNext highNext,
    section_.code[p]? = some opcode ∧
    (next ∈ starts ∨ next = st.ptr ∧ opcode = st.lastOpcode) ∧
    Checked section_ st.stackHeights (fun q => q ∈ st.jumpLocations) (fun _ => True) (HasType st)
      st.maxStackHeight p next opcode delta low high lowNext highNext

theorem scanned_initial (containerTypeMap : InsertionMap Nat ContainerSectionType) :
    Scanned section_ [] (initialState section_ containerTypeMap) where
  zero := .inr rfl
  inputs := by
    unfold initialState
    dsimp only
    rw [Function.update_self]
  apart _ hq := absurd hq List.not_mem_nil
  jumps_lt _ hq := absurd hq List.not_mem_nil
  tiled _ hq := absurd hq (Nat.not_lt_zero _)
  lt _ hp := absurd hp List.not_mem_nil
  ptr_le := Nat.zero_le _
  checked _ hp := absurd hp List.not_mem_nil

/-- The instruction that was validated at the pointer. -/
structure Stepped (section_ : CodeSection) (st st' : SectionState) (opcode : UInt8) : Prop where
  ptr_lt : st.ptr < st'.ptr
  ptr_le : st'.ptr ≤ section_.code.length
  intermediates : st.intermediateBytes ⊆ st'.intermediateBytes
  jumps : st.jumpLocations ⊆ st'.jumpLocations
  jumps_lt : ∀ q ∈ st'.jumpLocations, q ∈ st.jumpLocations ∨ q < section_.code.length
  apart : Apart st → Apart st'
  tiled : ∀ q, st.ptr < q → q < st'.ptr → q ∈ st'.intermediateBytes
  widens : Widens st'.ptr st.stackHeights st'.stackHeights
  maxStackHeight : st.maxStackHeight ≤ st'.maxStackHeight
  lastOpcode : st'.lastOpcode = opcode
  types : KeepsTypes st.containerTypeMap st'.containerTypeMap
  checked : ∃ delta low high lowNext highNext,
    Checked section_ st'.stackHeights (fun q => q ∈ st'.jumpLocations) (fun _ => True) (HasType st')
      st'.maxStackHeight st.ptr st'.ptr opcode delta low high lowNext highNext

theorem validateOpcode_ok {low high : ℤ} (hheights : st.stackHeights st.ptr = some (low, high))
    (h : validateOpcode section_ st opcode low high = .ok st') :
    Stepped section_ st st' opcode := by
  unfold validateOpcode at h
  split at h
  · cases h
  rename_i delta hdelta
  obtain ⟨hunder, h⟩ := failWhen_bind_eq_ok.mp h
  obtain ⟨-, h⟩ := failWhen_bind_eq_ok.mp h
  obtain ⟨hreturning, h⟩ := failWhen_bind_eq_ok.mp h
  obtain ⟨hactive, h⟩ := failWhen_bind_eq_ok.mp h
  obtain ⟨operands, hoperands, h⟩ := bind_eq_ok.mp h
  obtain ⟨⟨mid, hgrows, hmid⟩, hle, heq, htiled, hok⟩ := validateOperands_ok hoperands
  obtain ⟨⟨last, hgrows', hinter, hjumps, hlast, htypes⟩, hptr, hptr_le, htiled', hwidens, hmax, hmeets,
    hfalls⟩ := finishInstruction_ok h
  rw [hmid] at hgrows'
  have hstack : operands.state.stackHeights = st.stackHeights := by
    rw [hmid]
    exact hgrows.stackHeights
  have hptr_lt : st.ptr < st'.ptr := by
    dsimp only at hle
    omega
  rw [hstack] at hwidens
  constructor
  · exact hptr_lt
  · exact hptr_le
  · rw [hinter]
    exact fun q hq => hgrows'.intermediates (hgrows.intermediates hq)
  · rw [hjumps]
    exact fun q hq => hgrows'.jumps (hgrows.jumps hq)
  · rw [hjumps]
    exact fun q hq => (hgrows'.jumps_lt q hq).elim (hgrows.jumps_lt q) .inr
  · intro hapart
    have hafter := hgrows'.apart (hgrows.apart hapart)
    unfold Apart
    rw [hinter, hjumps]
    exact hafter
  · intro q hlt hq
    rcases Nat.lt_or_ge operands.state.ptr q with hgt | hge
    · exact htiled' q hgt hq
    · rw [hinter]
      have hmem := htiled q hlt hge
      rw [hmid] at hmem
      exact hgrows'.intermediates hmem
  · exact hwidens
  · rw [hmax, hmid]
    exact hgrows.maxStackHeight.ge.trans (le_max_right _ _)
  · rw [hlast]
    exact hgrows'.lastOpcode.trans hgrows.lastOpcode
  · rw [htypes]
    exact fun i type hi => hgrows'.types i type (hgrows.types i type hi)
  · refine ⟨delta, low, high, operands.minStackNext, operands.maxStackNext, ?_⟩
    constructor
    · exact (hwidens.stable _ hptr_lt).trans hheights
    · exact hdelta
    · exact not_not.mp hactive
    · omega
    · rw [hmax]
      exact le_max_left _ _
    · intro hne
      have hsame : operands.state.ptr = st.ptr := heq hne
      omega
    · exact hptr_le
    · rintro rfl hnever
      refine hreturning ⟨?_, rfl⟩
      unfold nonReturningFunction
      rw [hnever]
      rfl
    · refine (hok.of_next fun hop => ?_).imp (fun q hq => ⟨?_, hmeets q hq.2⟩) fun i type hi => ?_
      · subst hop
        obtain rfl := Option.some.inj hdelta
        exact hptr.symm
      · rw [hjumps]
        exact hgrows'.jumps (by rw [← hmid]; exact hq.1)
      · unfold HasType at hi ⊢
        rw [htypes]
        exact hgrows'.types i type (by rw [← hmid]; exact hi)
    · intro hnot hne
      exact ⟨trivial, hfalls hnot hne⟩

theorem Stepped.scanned {starts : List Nat} (hscan : Scanned section_ starts st)
    (hcode : section_.code[st.ptr]? = some opcode) (h : Stepped section_ st st' opcode) :
    Scanned section_ (st.ptr :: starts) st' where
  zero := by
    refine .inl (hscan.zero.elim (List.mem_cons_of_mem _) fun hzero => ?_)
    rw [hzero]
    exact List.mem_cons_self
  inputs := (h.widens.stable 0 (Nat.zero_lt_of_lt h.ptr_lt)).trans hscan.inputs
  apart := h.apart hscan.apart
  jumps_lt q hq := (h.jumps_lt q hq).elim (hscan.jumps_lt q) id
  tiled q hq := by
    rcases Nat.lt_trichotomy q st.ptr with hlt | rfl | hgt
    · exact (hscan.tiled q hlt).imp (List.mem_cons_of_mem _) fun hmem => h.intermediates hmem
    · exact .inl List.mem_cons_self
    · exact .inr (h.tiled q hgt hq)
  lt p hp := by
    obtain rfl | hp := List.mem_cons.mp hp
    · exact h.ptr_lt
    · exact (hscan.lt p hp).trans h.ptr_lt
  ptr_le := h.ptr_le
  checked p hp := by
    obtain rfl | hp := List.mem_cons.mp hp
    · obtain ⟨delta, low, high, lowNext, highNext, hchecked⟩ := h.checked
      exact ⟨st'.ptr, opcode, delta, low, high, lowNext, highNext, hcode,
        .inr ⟨rfl, h.lastOpcode.symm⟩, hchecked⟩
    · obtain ⟨next, opcode', delta, low, high, lowNext, highNext, hget, hnext, hchecked⟩ :=
        hscan.checked p hp
      refine ⟨next, opcode', delta, low, high, lowNext, highNext, hget, .inl ?_,
        hchecked.mono ((hscan.lt p hp).trans h.ptr_lt) h.widens (fun q hq => h.jumps hq)
          (fun _ _ hfall => hfall) h.types h.maxStackHeight⟩
      obtain hmem | ⟨rfl, -⟩ := hnext
      · exact List.mem_cons_of_mem _ hmem
      · exact List.mem_cons_self

theorem validateInstruction_ok (h : validateInstruction section_ st opcode = .ok st') :
    Stepped section_ st st' opcode := by
  unfold validateInstruction at h
  split at h
  · cases h
  split at h
  · cases h
  · rename_i low high hheights
    exact validateOpcode_ok hheights h

/-- The loop ends at the end of the code, where every instruction is scanned. -/
theorem validateInstructions_ok {n : Nat} {starts : List Nat} (hscan : Scanned section_ starts st)
    (hn : section_.code.length ≤ st.ptr + n)
    (h : validateInstructions section_ n st = .ok st') :
    ∃ starts', Scanned section_ starts' st' ∧ st'.ptr = section_.code.length ∧
      KeepsTypes st.containerTypeMap st'.containerTypeMap := by
  induction n generalizing st starts with
  | zero =>
    obtain rfl := Except.ok.inj h
    exact ⟨starts, hscan, le_antisymm hscan.ptr_le hn, fun _ _ hi => hi⟩
  | succ n ih =>
    unfold validateInstructions at h
    split at h
    · rename_i hend
      obtain rfl := Except.ok.inj h
      exact ⟨starts, hscan, le_antisymm hscan.ptr_le (List.getElem?_eq_none_iff.mp hend),
        fun _ _ hi => hi⟩
    · rename_i opcode hcode
      obtain ⟨mid, hstep, hrest⟩ := bind_eq_ok.mp h
      have hstepped := validateInstruction_ok hstep
      have hlt := hstepped.ptr_lt
      obtain ⟨starts', hscan', hptr, htypes⟩ :=
        ih (hstepped.scanned hscan hcode) (by omega) hrest
      exact ⟨starts', hscan', hptr, fun i type hi => htypes i type (hstepped.types i type hi)⟩

/-- A code section with the heights at its instructions: control stays on these, and where the
stack is as high as they say it is so behind every instruction. -/
structure Validated (section_ : CodeSection) (types : InsertionMap Nat ContainerSectionType)
    (Start : Nat → Prop) (stackHeights : Nat → Option (ℤ × ℤ)) : Prop where
  zero : Start 0
  inputs : stackHeights 0 = some ((section_.types.inputs : ℤ), (section_.types.inputs : ℤ))
  checked : ∀ p, Start p → ∃ next opcode delta low high lowNext highNext,
    section_.code[p]? = some opcode ∧
      Checked section_ stackHeights Start Start (fun i type => types.get i = some type)
        section_.types.maxStackHeight p next opcode delta low high lowNext highNext

theorem Validated.mono {types types' : InsertionMap Nat ContainerSectionType} {Start : Nat → Prop}
    {stackHeights : Nat → Option (ℤ × ℤ)} (h : Validated section_ types Start stackHeights)
    (htypes : KeepsTypes types types') : Validated section_ types' Start stackHeights where
  zero := h.zero
  inputs := h.inputs
  checked p hp := by
    obtain ⟨next, opcode, delta, low, high, lowNext, highNext, hget, hchecked⟩ := h.checked p hp
    exact ⟨next, opcode, delta, low, high, lowNext, highNext, hget,
      hchecked.mono (Nat.lt_succ_self p) (.refl _ _) (fun _ hq => hq) (fun _ _ hq => hq) htypes
        le_rfl⟩

theorem terminating_of_mem (common : Common) {delta : StackDelta}
    (h : opcode ∈ terminatingOpcodes common) (hdelta : stackDelta opcode = some delta) :
    delta.terminating ∨ opcode = 0xe0 := by
  have hall : ([0x00, 0xf3, 0xfd, 0xfe, 0xee, 0xe4, 0xe5, 0xe0] : List UInt8).all fun op =>
      (stackDelta op).all (fun delta => delta.terminating) || op == 0xe0 := by decide
  have hop := List.all_eq_true.mp hall opcode (List.mem_filter.mp h).1
  obtain hop | heq := Bool.or_eq_true_iff.mp hop
  · rw [hdelta] at hop
    exact .inl hop
  · exact .inr (eq_of_beq heq)

theorem validateSection_ok {containerTypeMap : InsertionMap Nat ContainerSectionType}
    (hcode : section_.code ≠ [])
    (h : validateSection section_ containerTypeMap = .ok st') :
    KeepsTypes containerTypeMap st'.containerTypeMap ∧
      ∃ Start stackHeights, Validated section_ st'.containerTypeMap Start stackHeights := by
  obtain ⟨last, hloop, h⟩ := bind_eq_ok.mp h
  obtain ⟨hterminates, h⟩ := failWhen_bind_eq_ok.mp h
  obtain ⟨hmax, h⟩ := failWhen_bind_eq_ok.mp h
  obtain ⟨-, h⟩ := failWhen_bind_eq_ok.mp h
  obtain ⟨-, hok⟩ := failWhen_bind_eq_ok.mp h
  obtain rfl := Except.ok.inj hok
  obtain ⟨starts, hscan, hptr, htypes⟩ := validateInstructions_ok (scanned_initial containerTypeMap)
    (Nat.le_add_left _ _) hloop
  have hjump : ∀ q ∈ last.jumpLocations, q ∈ starts := by
    intro q hq
    refine (hscan.tiled q ?_).resolve_right (hscan.apart q hq)
    rw [hptr]
    exact hscan.jumps_lt q hq
  refine ⟨htypes, fun q => q ∈ starts, last.stackHeights, ?_, hscan.inputs, fun p hp => ?_⟩
  · refine hscan.zero.resolve_right fun hzero => hcode ?_
    exact List.eq_nil_of_length_eq_zero (hptr.symm.trans hzero)
  · obtain ⟨next, opcode, delta, low, high, lowNext, highNext, hget, hnext, hchecked⟩ :=
      hscan.checked p hp
    refine ⟨next, opcode, delta, low, high, lowNext, highNext, hget,
      hchecked.mono (hscan.lt p hp) (.refl _ _) hjump (fun hnot hne _ => ?_) (fun _ _ hi => hi)
        ?_⟩
    · obtain hmem | ⟨-, hlast⟩ := hnext
      · exact hmem
      · -- The last opcode does not fall through to the end of the code.
        have hmem := not_not.mp hterminates
        rw [← hlast] at hmem
        exact ((terminating_of_mem _ hmem hchecked.entry).elim hnot hne).elim
    · exact (not_not.mp hmax).ge

theorem validateSections_ok {common : Common} {mode : ContainerSectionType}
    {container : EOFContainer} {sections : List (Bytes × Nat)}
    {containerTypeMap : InsertionMap Nat ContainerSectionType}
    {result : List (List Nat) × InsertionMap Nat ContainerSectionType}
    (hcode : ∀ section_ ∈ sections, section_.1 ≠ [])
    (h : validateSections common mode container sections containerTypeMap = .ok result) :
    KeepsTypes containerTypeMap result.2 ∧ ∀ code codeSection, (code, codeSection) ∈ sections →
      ∃ types, container.body.typeSections[codeSection]? = some types ∧
        ∃ Start stackHeights, Validated ⟨common, mode, container, codeSection, code, types⟩ result.2
          Start stackHeights := by
  induction sections generalizing containerTypeMap result with
  | nil =>
    obtain rfl := Except.ok.inj h
    exact ⟨fun _ _ hi => hi, fun _ _ hmem => absurd hmem List.not_mem_nil⟩
  | cons first sections ih =>
    obtain ⟨code, codeSection⟩ := first
    unfold validateSections at h
    split at h
    · cases h
    rename_i types htypes
    obtain ⟨st, hsection, h⟩ := bind_eq_ok.mp h
    obtain ⟨rest, hrest, hok⟩ := bind_eq_ok.mp h
    obtain rfl := Except.ok.inj hok
    obtain ⟨hkeeps, Start, stackHeights, hvalidated⟩ :=
      validateSection_ok (hcode _ List.mem_cons_self) hsection
    obtain ⟨hkeeps', hall⟩ := ih (fun s hs => hcode s (List.mem_cons_of_mem _ hs)) hrest
    refine ⟨fun i type hi => hkeeps' i type (hkeeps i type hi), fun code' codeSection' hmem => ?_⟩
    obtain heq | hmem := List.mem_cons.mp hmem
    · obtain ⟨rfl, rfl⟩ := Prod.mk.inj heq
      exact ⟨types, htypes, Start, stackHeights, hvalidated.mono hkeeps'⟩
    · exact hall code' codeSection' hmem

/-- Every code section of a validated container. -/
theorem validateOpcodes_ok {common : Common} {mode : ContainerSectionType}
    {container : EOFContainer} {containerTypeMap : InsertionMap Nat ContainerSectionType}
    (hne : ∀ code ∈ container.body.codeSections, code ≠ [])
    (h : validateOpcodes common mode container = .ok containerTypeMap) {codeSection : Nat}
    {code : Bytes} (hcode : container.body.codeSections[codeSection]? = some code) :
    ∃ types, container.body.typeSections[codeSection]? = some types ∧
      ∃ Start stackHeights, Validated ⟨common, mode, container, codeSection, code, types⟩
        containerTypeMap Start stackHeights := by
  obtain ⟨result, hsections, h⟩ := bind_eq_ok.mp h
  obtain ⟨-, h⟩ := failWhen_bind_eq_ok.mp h
  obtain ⟨-, hok⟩ := failWhen_bind_eq_ok.mp h
  obtain rfl := Except.ok.inj hok
  refine (validateSections_ok (fun section_ hs => ?_) hsections).2 code codeSection
    (List.mem_zipIdx_iff_getElem?.mpr hcode)
  exact hne _ (List.mem_of_getElem? (List.mem_zipIdx_iff_getElem?.mp hs))

end Scan

end EthereumJS.Evm.Eof
