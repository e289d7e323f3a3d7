import EthereumJS.Evm.EofDeploy
import EthereumJS.Evm.Operations

/-! # Runs of EOF code

The loop of `interpreter.ts` in a container, with the handlers of the jumps and calls of EOF and of
EIP-8024. The other handlers take their inputs from the stack and push their outputs, or end the
run.
-/

namespace EthereumJS.Evm.Eof

open RLP Ordered

section Machine

/-- Why a run ends. A crash is no error of the EVM. -/
inductive EofHalt
  | codeEnd
  | ended
  | crash
  | invalidOpcode
  | stackUnderflow
  | stackOverflow
  | sectionOverflow
  | returnStackOverflow
  | retfNoReturn
  deriving DecidableEq

structure EofRunState where
  programCounter : ℤ
  stack : Operations.Stack
  returnStack : List ℤ
  codeStartPos : List Nat
  analysis : Option Analysis.JumpAnalysis

/-- What is not modelled of the instructions: whether there is the gas for one, whether its handler
ends the run, and the values that it pushes. -/
structure Handlers where
  outOfGas : UInt8 → EofRunState → Bool
  ends : UInt8 → EofRunState → Bool
  value : UInt8 → EofRunState → Nat → ℤ

def pushAll (stack : Operations.Stack) (values : List ℤ) : Except EofHalt Operations.Stack :=
  match values.foldlM Operations.push stack with
  | .error _ => .error .stackOverflow
  | .ok stack => .ok stack

variable (common : Common) (container : EOFContainer) (handlers : Handlers)

/-- `getInt16` at the program counter. -/
def rjumpDest (programCounter : Nat) : Except EofHalt ℤ :=
  match readCodeInt16 container.buffer programCounter with
  | .error _ => .error .crash
  | .ok dest => .ok dest

def rjump (pc : Nat) (state : EofRunState) : Except EofHalt EofRunState := do
  let dest ← rjumpDest container pc
  return { state with programCounter := pc + (2 + dest) }

def rjumpi (pc : Nat) (state : EofRunState) : Except EofHalt EofRunState :=
  match state.stack with
  | [] => .error .stackUnderflow
  | cond :: stack =>
    if cond > 0 then do
      let dest ← rjumpDest container pc
      return { state with stack := stack, programCounter := pc + dest + 2 }
    else return { state with stack := stack, programCounter := pc + 2 }

/-- Without the size of the table the program counter is `NaN`, with which the loop ends. -/
def rjumpv (pc : Nat) (state : EofRunState) : Except EofHalt EofRunState :=
  match state.stack with
  | [] => .error .stackUnderflow
  | jumptableCase :: stack =>
    match container.buffer[pc]? with
    | none => .error .codeEnd
    | some jumptableEntries =>
      let jumptableSize := (jumptableEntries.toNat + 1) * 2
      let pc := pc + 1
      if jumptableCase ≤ jumptableEntries.toNat then do
        let dest ← rjumpDest container (pc + jumptableCase.toNat * 2)
        return { state with stack := stack, programCounter := pc + (jumptableSize + dest) }
      else return { state with stack := stack, programCounter := pc + jumptableSize }

/-- The section of `CALLF` and `JUMPF`, where the stack may become as high as it says. -/
def sectionTarget (pc : Nat) (state : EofRunState) : Except EofHalt Nat :=
  let target := bytesToNumber ((container.buffer.drop pc).take 2)
  match container.body.typeSections[target]? with
  | none => .error .crash
  | some types =>
    if (state.stack.length : ℤ) > 1024 - types.maxStackHeight + types.inputs then
      .error .sectionOverflow
    else .ok target

def enterSection (target : Nat) (state : EofRunState) : Except EofHalt EofRunState :=
  match container.header.getCodePosition state.codeStartPos target with
  | none => .error .codeEnd
  | some (position, codeStartPos) =>
    .ok { state with programCounter := position, codeStartPos := codeStartPos }

def callf (pc : Nat) (state : EofRunState) : Except EofHalt EofRunState := do
  let target ← sectionTarget container pc state
  if state.returnStack.length ≥ 1024 then throw .returnStackOverflow
  let returnStack := ((pc + 2 : Nat) : ℤ) :: state.returnStack
  enterSection container target { state with returnStack := returnStack }

def retf (state : EofRunState) : Except EofHalt EofRunState :=
  match state.returnStack with
  | [] => .error .retfNoReturn
  | newPc :: returnStack => .ok { state with programCounter := newPc, returnStack := returnStack }

def jumpf (pc : Nat) (state : EofRunState) : Except EofHalt EofRunState := do
  let target ← sectionTarget container pc state
  enterSection container target state

def decodeEIP8024SingleImmediate (immediate : UInt8) : Nat := (immediate.toNat + 145) % 256

def decodeEIP8024PairImmediate (immediate : UInt8) : Nat × Nat :=
  let k := (immediate ^^^ 0x8f).toNat
  let q := k / 16
  let r := k % 16
  if q < r then (q + 1, r + 1) else (r + 1, 29 - q)

/-- `dup` of the stack. -/
def dup (stack : Operations.Stack) (position : Nat) : Except EofHalt Operations.Stack :=
  if stack.length < position then .error .stackUnderflow
  else pushAll stack [stack.getD (position - 1) 0]

/-- `swap` and `exchange` of the stack. -/
def exchange (stack : Operations.Stack) (i j : Nat) : Except EofHalt Operations.Stack :=
  if stack.length ≤ i ∨ stack.length ≤ j then .error .stackUnderflow
  else .ok ((stack.set i (stack.getD j 0)).set j (stack.getD i 0))

/-- `DUPN`, `SWAPN` and `EXCHANGE`. -/
def stackImmediate (opcode : UInt8) (pc : Nat) (state : EofRunState) :
    Except EofHalt EofRunState :=
  let immediate := container.buffer.getD pc 0
  if ¬ common.isActivatedEIP 8024 ∨ ¬ Analysis.isImmediateValid opcode immediate then
    .error .invalidOpcode
  else do
    let pair := decodeEIP8024PairImmediate immediate
    let stack ←
      if opcode = 0xe6 then dup state.stack (decodeEIP8024SingleImmediate immediate)
      else if opcode = 0xe7 then
        exchange state.stack 0 (decodeEIP8024SingleImmediate immediate)
      else exchange state.stack pair.1 pair.2
    return { state with stack := stack, programCounter := pc + 1 }

/-- The other handlers; those of terminating opcodes end the run. An opcode without an entry has
none here. -/
def operate (opcode : UInt8) (pc : Nat) (state : EofRunState) : Except EofHalt EofRunState :=
  match stackDelta opcode with
  | none => .error .ended
  | some delta =>
    if handlers.ends opcode state then .error .ended
    else if state.stack.length < delta.inputs then .error .stackUnderflow
    else if delta.terminating then .error .ended
    else do
      let stack ← pushAll (state.stack.drop delta.inputs)
        ((List.range delta.outputs).map (handlers.value opcode state))
      return { state with stack := stack, programCounter := pc + delta.intermediates }

/-- The handler of an opcode behind which the program counter is. -/
def eofHandler (opcode : UInt8) (pc : Nat) (state : EofRunState) : Except EofHalt EofRunState :=
  if opcode = 0xe0 then rjump container pc state
  else if opcode = 0xe1 then rjumpi container pc state
  else if opcode = 0xe2 then rjumpv container pc state
  else if opcode = 0xe3 then callf container pc state
  else if opcode = 0xe4 then retf state
  else if opcode = 0xe5 then jumpf container pc state
  else if opcode = 0xe6 ∨ opcode = 0xe7 ∨ opcode = 0xe8 then
    stackImmediate common container opcode pc state
  else operate handlers opcode pc state

/-- The entry at the program counter. After a `JUMP`, a `JUMPI` or `0x5e` it is from the analysis
of the container as legacy code. -/
def fetch (pc : Nat) (state : EofRunState) :
    Option (Analysis.OpcodeMapEntry × Option Analysis.JumpAnalysis) :=
  match state.analysis with
  | none => do
    let opCode ← container.buffer[pc]?
    let analysis := if opCode = 0x56 ∨ opCode = 0x57 ∨ opCode = 0x5e then
      some (Analysis.getValidJumpDestinations common container.buffer) else none
    return (Analysis.lookupOpInfo common opCode, analysis)
  | some analysis => do
    let entry ← analysis.opcodesCached[pc]?
    let entry ← entry
    return (entry, some analysis)

/-- One round of the loop. -/
def eofStep (state : EofRunState) : Except EofHalt EofRunState :=
  if state.programCounter ≥ container.buffer.length then .error .codeEnd
  else if state.programCounter < 0 then .error .crash
  else
    let pc := state.programCounter.toNat
    match fetch common container pc state with
    | none => .error .crash
    | some (entry, analysis) =>
      if entry.isInvalid then .error .invalidOpcode
      else if handlers.outOfGas entry.code state then .error .ended
      else eofHandler common container handlers entry.code (pc + 1)
        { state with programCounter := ((pc + 1 : Nat) : ℤ), analysis := analysis }

/-- `setupEOF`. -/
def setupEOF : EofRunState where
  programCounter := ((container.header.getCodePosition container.header.initialPositions 0).map
    Prod.fst).getD 0
  stack := []
  returnStack := []
  codeStartPos := container.header.initialPositions
  analysis := none

def eofRun : Nat → EofRunState → Except EofHalt EofRunState
  | 0, state => .ok state
  | n + 1, state => do eofRun n (← eofStep common container handlers state)

end Machine

section Reads

variable {container : EOFContainer} {smaller : Bool} {section_ : Nat} {code : Bytes} {i : Nat}

theorem EOFContainer.WellFormed.take_drop (h : container.WellFormed smaller)
    (hcode : container.body.codeSections[section_]? = some code) {n : Nat}
    (hle : i + n ≤ code.length) :
    (container.buffer.drop (container.header.codePosition section_ + i)).take n =
      (code.drop i).take n := by
  obtain ⟨before, rest, hbuffer, hlen, -⟩ := h.split hcode
  have hi : i ≤ code.length := (Nat.le_add_right _ _).trans hle
  rw [hbuffer, ← hlen, List.append_assoc, List.drop_length_add_append,
    List.drop_append_of_le_length hi]
  apply List.take_append_of_le_length
  rw [List.length_drop]
  omega

theorem EOFContainer.WellFormed.codePosition_add_le (h : container.WellFormed smaller)
    (hcode : container.body.codeSections[section_]? = some code) :
    container.header.codePosition section_ + code.length ≤ container.buffer.length := by
  obtain ⟨before, rest, hbuffer, hlen, -⟩ := h.split hcode
  rw [hbuffer, List.length_append, List.length_append, hlen]
  exact Nat.le_add_right _ _

theorem EOFContainer.WellFormed.getElem?_section (h : container.WellFormed smaller)
    (hcode : container.body.codeSections[section_]? = some code) (hi : i < code.length) :
    container.buffer[container.header.codePosition section_ + i]? = code[i]? := by
  obtain ⟨before, rest, hbuffer, hlen, -⟩ := h.split hcode
  rw [hbuffer, ← hlen, List.append_assoc, List.getElem?_append_right (Nat.le_add_right _ _),
    Nat.add_sub_cancel_left, List.getElem?_append_left hi]

theorem readCodeUint16_eq_ok {start n : Nat} :
    readCodeUint16 code start = .ok n ↔
      start + 2 ≤ code.length ∧ bytesToNumber ((code.drop start).take 2) = n := by
  unfold readCodeUint16
  split
  · rename_i hle
    simp [hle]
  · rename_i hlt
    simp [hlt]

/-- An operand that is validated in the section is read from the container. -/
theorem EOFContainer.WellFormed.readCodeUint16_eq (h : container.WellFormed smaller)
    (hcode : container.body.codeSections[section_]? = some code) {n : Nat}
    (hread : readCodeUint16 code i = .ok n) :
    readCodeUint16 container.buffer (container.header.codePosition section_ + i) = .ok n := by
  obtain ⟨hle, hn⟩ := readCodeUint16_eq_ok.mp hread
  have hend := h.codePosition_add_le hcode
  refine readCodeUint16_eq_ok.mpr ⟨by omega, ?_⟩
  rw [h.take_drop hcode hle]
  exact hn

theorem EOFContainer.WellFormed.rjumpDest_eq (h : container.WellFormed smaller)
    (hcode : container.body.codeSections[section_]? = some code) {offset : ℤ}
    (hread : readCodeInt16 code i = .ok offset) :
    rjumpDest container (container.header.codePosition section_ + i) = .ok offset := by
  have hsame : readCodeInt16 container.buffer (container.header.codePosition section_ + i) =
      readCodeInt16 code i := by
    unfold readCodeInt16
    cases hn : readCodeUint16 code i with
    | error e =>
      unfold readCodeInt16 at hread
      rw [hn] at hread
      cases hread
    | ok n => rw [h.readCodeUint16_eq hcode hn]
  unfold rjumpDest
  rw [hsame, hread]

end Reads

section Invariant

/-- Control is at an instruction of a validated section, the stack of which starts at `base`. -/
structure At (section_ : CodeSection) (targets : InsertionMap Nat ContainerSectionType)
    (Start : Nat → Prop) (stackHeights : Nat → Option (ℤ × ℤ)) (p : Nat)
    (programCounter height base : ℤ) : Prop where
  code : section_.container.body.codeSections[section_.codeSection]? = some section_.code
  validated : Validated section_ targets Start stackHeights
  start : Start p
  pc_eq : programCounter = section_.container.header.codePosition section_.codeSection + p
  meets : Meets stackHeights p (height - base) (height - base)
  base_nonneg : 0 ≤ base
  base_le : base + section_.types.maxStackHeight ≤ 1024

/-- A place in the container, with the entry of its section. -/
def Inside (common : Common) (container : EOFContainer)
    (targets : InsertionMap Nat ContainerSectionType) (types : TypeSection)
    (programCounter height base : ℤ) : Prop :=
  ∃ section_ Start stackHeights p, section_.common = common ∧ section_.container = container ∧
    section_.types = types ∧ At section_ targets Start stackHeights p programCounter height base

/-- What a section returns to, unless it never returns. -/
inductive Frames (common : Common) (container : EOFContainer)
    (targets : InsertionMap Nat ContainerSectionType) : TypeSection → ℤ → List ℤ → Prop
  | never {types : TypeSection} {base : ℤ} {returnStack : List ℤ} (outputs : types.outputs = 0x80) :
    Frames common container targets types base returnStack
  | back {types caller : TypeSection} {base callerBase newPc : ℤ} {returnStack : List ℤ}
    (inside : Inside common container targets caller newPc (base + types.outputs) callerBase)
    (frames : Frames common container targets caller callerBase returnStack) :
    Frames common container targets types base (newPc :: returnStack)

variable {common : Common} {container : EOFContainer}
  {targets : InsertionMap Nat ContainerSectionType}

/-- Only what a section leaves on the stack matters to where it returns. -/
theorem Frames.of_add_eq {types types' : TypeSection} {base base' : ℤ} {returnStack : List ℤ}
    (h : Frames common container targets types base returnStack) (hreturns : types.outputs ≠ 0x80)
    (heq : base' + types'.outputs = base + types.outputs) :
    Frames common container targets types' base' returnStack := by
  cases h with
  | never outputs => exact absurd outputs hreturns
  | back inside frames => exact .back (heq ▸ inside) frames

variable (common container targets) in
/-- A state of the machine in validated code. -/
def Good (state : EofRunState) : Prop :=
  ∃ types base, Inside common container targets types state.programCounter state.stack.length base ∧
    Frames common container targets types base state.returnStack ∧
    Noted container.header state.codeStartPos ∧ state.analysis = none

variable (common container targets) in
/-- What may come of a step of validated code. -/
inductive Sound (opcode : UInt8) : Except EofHalt EofRunState → Prop
  | next {state : EofRunState} (good : Good common container targets state) : Sound opcode (.ok state)
  | ended : Sound opcode (.error .ended)
  | sectionOverflow : Sound opcode (.error .sectionOverflow)
  | returnStackOverflow : Sound opcode (.error .returnStackOverflow)
  | invalidOpcode (invalid : opcode = 0xfe) : Sound opcode (.error .invalidOpcode)

variable (common container targets) in
/-- The code sections of a container are all validated. -/
def AllValidated : Prop :=
  ∀ target types, container.body.typeSections[target]? = some types →
    ∃ section_ Start stackHeights, section_.common = common ∧ section_.container = container ∧
      section_.types = types ∧ section_.codeSection = target ∧
      container.body.codeSections[target]? = some section_.code ∧
      Validated section_ targets Start stackHeights

theorem sections_ne_nil {smaller : Bool} (hwell : container.WellFormed smaller) :
    ∀ code ∈ container.body.codeSections, code ≠ [] := by
  rintro _ hmem rfl
  obtain ⟨i, hi⟩ := List.mem_iff_getElem?.mp hmem
  obtain ⟨-, -, -, -, hsize⟩ := hwell.split hi
  exact absurd (hwell.header.codeSizes _ (List.mem_of_getElem? hsize)).1 (by decide)

theorem allValidated_of_validateOpcodes {mode : ContainerSectionType} {smaller : Bool}
    (hwell : container.WellFormed smaller)
    (h : validateOpcodes common mode container = .ok targets) :
    AllValidated common container targets := by
  intro target types htypes
  have hlen : container.body.codeSections.length = container.body.typeSections.length := by
    rw [hwell.body.types, ← List.length_map List.length, hwell.body.codes, hwell.header.codes]
    rfl
  have hlt : target < container.body.codeSections.length :=
    hlen ▸ (List.getElem?_eq_some_iff.mp htypes).1
  have hcode := List.getElem?_eq_getElem hlt
  obtain ⟨types', htypes', Start, stackHeights, hvalidated⟩ :=
    validateOpcodes_ok (sections_ne_nil hwell) h hcode
  obtain rfl := Option.some.inj (htypes.symm.trans htypes')
  exact ⟨_, Start, stackHeights, rfl, rfl, rfl, rfl, hcode, hvalidated⟩

end Invariant

section Steps

/-- An instruction that is executed, where the stack is as high as was validated. -/
structure Ready (section_ : CodeSection) (targets : InsertionMap Nat ContainerSectionType)
    (Start : Nat → Prop) (stackHeights : Nat → Option (ℤ × ℤ)) (smaller : Bool) (p next : Nat)
    (opcode : UInt8) (delta : StackDelta) (low high lowNext highNext base : ℤ)
    (state : EofRunState) : Prop where
  wellFormed : section_.container.WellFormed smaller
  all : AllValidated section_.common section_.container targets
  place : At section_ targets Start stackHeights p
    (section_.container.header.codePosition section_.codeSection + p : ℤ) state.stack.length base
  frames : Frames section_.common section_.container targets section_.types base state.returnStack
  noted : Noted section_.container.header state.codeStartPos
  analysis : state.analysis = none
  checked : Checked section_ stackHeights Start Start (fun i type => targets.get i = some type)
    section_.types.maxStackHeight p next opcode delta low high lowNext highNext

variable {section_ : CodeSection} {targets : InsertionMap Nat ContainerSectionType}
  {Start : Nat → Prop} {stackHeights : Nat → Option (ℤ × ℤ)} {smaller : Bool} {p next : Nat}
  {opcode : UInt8} {delta : StackDelta} {low high lowNext highNext base : ℤ} {state : EofRunState}

theorem Ready.bounds
    (h : Ready section_ targets Start stackHeights smaller p next opcode delta low high lowNext highNext
      base state) : low ≤ state.stack.length - base ∧ state.stack.length - base ≤ high := by
  obtain ⟨a, b, hheights, hlow, hhigh⟩ := h.place.meets
  obtain ⟨rfl, rfl⟩ := Prod.mk.inj (Option.some.inj (h.checked.heights.symm.trans hheights))
  exact ⟨hlow, hhigh⟩

/-- Control goes on in the section. -/
theorem Ready.move
    (h : Ready section_ targets Start stackHeights smaller p next opcode delta low high lowNext highNext
      base state) (hopcode : opcode ≠ 0xe3) {q : Nat}
    (hq : Start q ∧ Meets stackHeights q lowNext highNext) {stack : Operations.Stack}
    (hstack : stack.length + delta.inputs = state.stack.length + delta.outputs) {pc : ℤ}
    (hpc : pc = section_.container.header.codePosition section_.codeSection + q) :
    Good section_.common section_.container targets
      { state with stack := stack, programCounter := pc } := by
  obtain ⟨hlow, hhigh⟩ := h.bounds
  obtain ⟨hlowNext, hhighNext⟩ := h.checked.operands.same hopcode
  obtain ⟨a, b, hheights, ha, hb⟩ := hq.2
  dsimp only at hlowNext hhighNext
  refine ⟨section_.types, base, ⟨section_, Start, stackHeights, q, rfl, rfl, rfl, ?_⟩, h.frames,
    h.noted, h.analysis⟩
  constructor
  · exact h.place.code
  · exact h.place.validated
  · exact hq.1
  · exact hpc
  · exact ⟨a, b, hheights, by dsimp only; omega, by dsimp only; omega⟩
  · exact h.place.base_nonneg
  · exact h.place.base_le

theorem rjump_sound
    (h : Ready section_ targets Start stackHeights smaller p next 0xe0 delta low high lowNext highNext base
      state) : Sound section_.common section_.container targets 0xe0 (rjump section_.container
        (section_.container.header.codePosition section_.codeSection + (p + 1)) state) := by
  obtain ⟨offset, hread, target, htarget, hnext⟩ := h.checked.operands.rjump (.inl rfl)
  obtain rfl := Option.some.inj h.checked.entry
  unfold rjump
  rw [h.wellFormed.rjumpDest_eq h.place.code hread]
  refine .next (h.move (by decide) hnext rfl ?_)
  push_cast
  omega

theorem rjumpi_sound
    (h : Ready section_ targets Start stackHeights smaller p next 0xe1 delta low high lowNext highNext base
      state) : Sound section_.common section_.container targets 0xe1 (rjumpi section_.container
        (section_.container.header.codePosition section_.codeSection + (p + 1)) state) := by
  obtain ⟨offset, hread, target, htarget, hnext⟩ := h.checked.operands.rjump (.inr rfl)
  have hfalls := h.checked.falls
  have hnextEq := h.checked.next_eq (by decide)
  have hinputs := h.checked.inputs
  obtain rfl := Option.some.inj h.checked.entry
  have hbase := h.place.base_nonneg
  have hlow := h.bounds.1
  unfold rjumpi
  cases hstack : state.stack with
  | nil =>
    rw [hstack] at hlow
    dsimp only [List.length_nil] at hlow hinputs
    omega
  | cons cond stack =>
    dsimp only
    have hlen : stack.length + 1 = state.stack.length + 0 := by rw [hstack]; rfl
    split
    · rw [h.wellFormed.rjumpDest_eq h.place.code hread]
      refine .next (h.move (by decide) hnext hlen ?_)
      push_cast
      omega
    · refine .next (h.move (by decide) (hfalls (by decide) (by decide)) hlen ?_)
      rw [hnextEq]
      push_cast
      omega

theorem rjumpv_sound
    (h : Ready section_ targets Start stackHeights smaller p next 0xe2 delta low high lowNext highNext base
      state) : Sound section_.common section_.container targets 0xe2 (rjumpv section_.container
        (section_.container.header.codePosition section_.codeSection + (p + 1)) state) := by
  obtain ⟨entries, hentries, hnextEq, hall⟩ := h.checked.operands.rjumpv rfl
  have hfalls := h.checked.falls
  have hinputs := h.checked.inputs
  obtain rfl := Option.some.inj h.checked.entry
  have hbase := h.place.base_nonneg
  have hlow := h.bounds.1
  unfold rjumpv
  cases hstack : state.stack with
  | nil =>
    rw [hstack] at hlow
    dsimp only [List.length_nil] at hlow hinputs
    omega
  | cons jumptableCase stack =>
    have hlen : stack.length + 1 = state.stack.length + 0 := by rw [hstack]; rfl
    rw [h.wellFormed.getElem?_section h.place.code (List.getElem?_eq_some_iff.mp hentries).1,
      hentries]
    dsimp only
    split
    · rename_i hcase
      obtain ⟨offset, hread, target, htarget, hnext⟩ := hall jumptableCase.toNat (by omega)
      have hpos : section_.container.header.codePosition section_.codeSection + (p + 1) + 1 +
          jumptableCase.toNat * 2 = section_.container.header.codePosition section_.codeSection +
            (p + 2 + jumptableCase.toNat * 2) := by omega
      rw [hpos, h.wellFormed.rjumpDest_eq h.place.code hread]
      refine .next (h.move (by decide) hnext hlen ?_)
      push_cast
      omega
    · refine .next (h.move (by decide) (hfalls (by decide) (by decide)) hlen ?_)
      rw [hnextEq]
      push_cast
      omega

/-- A section that is entered with room for its stack. -/
theorem enterSection_good {common : Common} {container : EOFContainer} {target : Nat}
    {types : TypeSection} (state : EofRunState) (base : ℤ) (hwell : container.WellFormed smaller)
    (hall : AllValidated common container targets)
    (htypes : container.body.typeSections[target]? = some types)
    (hbase : 0 ≤ base) (hmax : base + types.maxStackHeight ≤ 1024)
    (hstack : (state.stack.length : ℤ) = base + types.inputs)
    (hframes : Frames common container targets types base state.returnStack)
    (hnoted : Noted container.header state.codeStartPos) (hanalysis : state.analysis = none) :
    ∃ next, enterSection container target state = .ok next ∧ Good common container targets next := by
  obtain ⟨section_, Start, stackHeights, rfl, rfl, rfl, rfl, hcode, hvalidated⟩ :=
    hall target types htypes
  obtain ⟨-, -, -, -, hsize⟩ := hwell.split hcode
  obtain ⟨codeStartPos, hget, hnoted', -⟩ := getCodePosition_eq hwell.header hnoted
    (List.getElem?_eq_some_iff.mp hsize).1
  unfold enterSection
  rw [hget]
  refine ⟨_, rfl, section_.types, base, ⟨section_, Start, stackHeights, 0, rfl, rfl, rfl, ?_⟩,
    hframes, hnoted', hanalysis⟩
  constructor
  · exact hcode
  · exact hvalidated
  · exact hvalidated.zero
  · rw [Nat.cast_zero, add_zero]
  · refine ⟨_, _, hvalidated.inputs, ?_, ?_⟩
    all_goals
      dsimp only
      omega
  · exact hbase
  · exact hmax

/-- The operand of `CALLF` and `JUMPF`. -/
theorem sectionTarget_cases (state : EofRunState) {target : Nat} {types : TypeSection}
    (hwell : section_.container.WellFormed smaller)
    (hcode : section_.container.body.codeSections[section_.codeSection]? = some section_.code)
    (hread : readCodeUint16 section_.code (p + 1) = .ok target)
    (htypes : section_.container.body.typeSections[target]? = some types) :
    sectionTarget section_.container
        (section_.container.header.codePosition section_.codeSection + (p + 1)) state =
        .error .sectionOverflow ∨
      sectionTarget section_.container
        (section_.container.header.codePosition section_.codeSection + (p + 1)) state = .ok target ∧
        (state.stack.length : ℤ) - types.inputs + types.maxStackHeight ≤ 1024 := by
  obtain ⟨hle, hn⟩ := readCodeUint16_eq_ok.mp hread
  unfold sectionTarget
  rw [hwell.take_drop hcode hle, hn]
  dsimp only
  rw [htypes]
  dsimp only
  split
  · exact .inl rfl
  · exact .inr ⟨rfl, by omega⟩

theorem callf_sound
    (h : Ready section_ targets Start stackHeights smaller p next 0xe3 delta low high lowNext highNext base
      state) : Sound section_.common section_.container targets 0xe3 (callf section_.container
        (section_.container.header.codePosition section_.codeSection + (p + 1)) state) := by
  obtain ⟨target, types, hread, htypes, -, hinputs, hlowNext, hhighNext⟩ :=
    h.checked.operands.callf rfl
  obtain ⟨hstart, a, b, hheights, ha, hb⟩ := h.checked.falls
    (by obtain rfl := Option.some.inj h.checked.entry; decide) (by decide)
  have hnextEq := h.checked.next_eq (by decide)
  obtain rfl := Option.some.inj h.checked.entry
  obtain ⟨hlow, hhigh⟩ := h.bounds
  have hbase := h.place.base_nonneg
  dsimp only at hinputs hlowNext hhighNext
  unfold callf
  obtain hover | ⟨htarget, hmax⟩ := sectionTarget_cases state h.wellFormed h.place.code
    hread htypes
  · rw [hover]
    exact .sectionOverflow
  rw [htarget]
  change Sound _ _ _ _ (if _ then _ else _)
  split
  · exact .returnStackOverflow
  · -- The section returns behind the operand, with its outputs in place of its inputs.
    have hback : At section_ targets Start stackHeights next
        ((section_.container.header.codePosition section_.codeSection + (p + 1) + 2 : Nat) : ℤ)
        (state.stack.length - types.inputs + types.outputs) base := by
      constructor
      · exact h.place.code
      · exact h.place.validated
      · exact hstart
      · rw [hnextEq]
        push_cast
        omega
      · exact ⟨a, b, hheights, by omega, by omega⟩
      · exact hbase
      · exact h.place.base_le
    obtain ⟨after, henter, hgood⟩ := enterSection_good
      { state with returnStack := ((section_.container.header.codePosition
        section_.codeSection + (p + 1) + 2 : Nat) : ℤ) :: state.returnStack }
      (state.stack.length - types.inputs) h.wellFormed h.all htypes (by omega) hmax
      (by dsimp only; omega)
      (.back ⟨section_, Start, stackHeights, next, rfl, rfl, rfl, hback⟩ h.frames)
      h.noted h.analysis
    rw [henter]
    exact .next hgood

theorem jumpf_sound
    (h : Ready section_ targets Start stackHeights smaller p next 0xe5 delta low high lowNext highNext base
      state) : Sound section_.common section_.container targets 0xe5 (jumpf section_.container
        (section_.container.header.codePosition section_.codeSection + (p + 1)) state) := by
  obtain ⟨target, types, hread, htypes, hcases⟩ := h.checked.operands.jumpf rfl
  obtain rfl := Option.some.inj h.checked.entry
  obtain ⟨hlow, hhigh⟩ := h.bounds
  have hbase := h.place.base_nonneg
  unfold jumpf
  obtain hover | ⟨htarget, hmax⟩ := sectionTarget_cases state h.wellFormed h.place.code
    hread htypes
  · rw [hover]
    exact .sectionOverflow
  rw [htarget]
  have henter : 0 ≤ (state.stack.length : ℤ) - types.inputs ∧ Frames section_.common
      section_.container targets types (state.stack.length - types.inputs) state.returnStack := by
    obtain ⟨hnever, hinputs⟩ | ⟨-, hreturns, hle, hsame, hheight⟩ := hcases
    · dsimp only at hinputs
      exact ⟨by omega, .never hnever⟩
    · -- What the target leaves is what this section has to leave.
      dsimp only at hsame hheight
      exact ⟨by omega, h.frames.of_add_eq hreturns (by omega)⟩
  obtain ⟨after, hok, hgood⟩ := enterSection_good state _ h.wellFormed h.all htypes henter.1 hmax
    (by omega) henter.2 h.noted h.analysis
  change Sound _ _ _ _ (enterSection _ _ _)
  rw [hok]
  exact .next hgood

theorem retf_sound
    (h : Ready section_ targets Start stackHeights smaller p next 0xe4 delta low high lowNext highNext base
      state) : Sound section_.common section_.container targets 0xe4 (retf state) := by
  obtain ⟨hsame, hheight⟩ := h.checked.operands.retf rfl
  have hreturns := h.checked.returning rfl
  obtain rfl := Option.some.inj h.checked.entry
  obtain ⟨hlow, hhigh⟩ := h.bounds
  dsimp only at hsame hheight
  have hframes := h.frames
  unfold retf
  cases hreturn : state.returnStack with
  | nil =>
    rw [hreturn] at hframes
    cases hframes with
    | never houtputs => exact absurd houtputs hreturns
  | cons newPc returnStack =>
    rw [hreturn] at hframes
    cases hframes with
    | never houtputs => exact absurd houtputs hreturns
    | @back _ caller _ callerBase _ _ hinside hframes =>
      have hlen : (state.stack.length : ℤ) = base + section_.types.outputs := by omega
      exact .next ⟨caller, callerBase, hlen ▸ hinside, hframes, h.noted, h.analysis⟩

theorem foldlM_push (stack : Operations.Stack) (values : List ℤ)
    (h : stack.length + values.length ≤ 1024) :
    values.foldlM Operations.push stack = .ok (values.reverse ++ stack) := by
  induction values generalizing stack with
  | nil => rfl
  | cons value values ih =>
    rw [List.length_cons] at h
    have hpush : Operations.push stack value = .ok (value :: stack) := by
      unfold Operations.push Operations.maxHeight
      rw [if_neg (by omega)]
    rw [List.foldlM_cons, hpush]
    change values.foldlM Operations.push (value :: stack) = _
    rw [ih _ (by rw [List.length_cons]; omega), List.reverse_cons, List.append_assoc]
    rfl

theorem operate_sound {handlers : Handlers}
    (hopcode : ∀ op ∈ ([0xe0, 0xe1, 0xe2, 0xe3, 0xe4, 0xe5] : List UInt8), opcode ≠ op)
    (h : Ready section_ targets Start stackHeights smaller p next opcode delta low high lowNext highNext
      base state) : Sound section_.common section_.container targets opcode (operate handlers opcode
        (section_.container.header.codePosition section_.codeSection + (p + 1)) state) := by
  obtain ⟨hlow, hhigh⟩ := h.bounds
  have hinputs := h.checked.inputs
  have hbase := h.place.base_nonneg
  have hmax := h.place.base_le
  have htop := h.checked.top
  obtain ⟨-, hhighNext⟩ := h.checked.operands.same (hopcode _ (by decide))
  dsimp only at hhighNext
  unfold operate
  rw [h.checked.entry]
  dsimp only
  split
  · exact .ended
  split
  · omega
  split
  · exact .ended
  · rename_i hterminating
    have hlen : (state.stack.drop delta.inputs).length +
        ((List.range delta.outputs).map (handlers.value opcode state)).length ≤ 1024 := by
      rw [List.length_drop, List.length_map, List.length_range]
      omega
    unfold pushAll
    rw [foldlM_push _ _ hlen]
    refine .next (h.move (hopcode _ (by decide))
      (h.checked.falls hterminating (hopcode _ (by decide))) ?_ ?_)
    · rw [List.length_append, List.length_reverse, List.length_map, List.length_range,
        List.length_drop]
      omega
    · rw [h.checked.next_eq (hopcode _ (by decide))]
      push_cast
      omega

/-- The opcode at the program counter is none for which the machine does something that is not
validated: after `0x5e` the entries are those of legacy code, and the operands of `DUPN`, `SWAPN`
and `EXCHANGE` are read in another way. -/
def Plain (container : EOFContainer) (state : EofRunState) : Prop :=
  ∀ opcode ∈ ([0x5e, 0xe6, 0xe7, 0xe8] : List UInt8),
    container.buffer[state.programCounter.toNat]? ≠ some opcode

theorem lookupOpInfo_active {common : Common} (h : opcode ∈ opcodeNumbers common) :
    Analysis.lookupOpInfo common opcode = ⟨opcode⟩ ∧ opcode ≠ 0x56 ∧ opcode ≠ 0x57 := by
  obtain ⟨hmem, hnot⟩ := List.mem_filter.mp h
  have hremoved := of_decide_eq_true hnot
  refine ⟨?_, ?_, ?_⟩
  · unfold Analysis.lookupOpInfo
    obtain rfl | hmem := List.mem_cons.mp hmem
    · split <;> rfl
    · rw [if_pos (List.contains_iff_mem.mpr hmem)]
  · rintro rfl
    exact hremoved (by decide)
  · rintro rfl
    exact hremoved (by decide)

variable {common : Common} {container : EOFContainer} {handlers : Handlers}

theorem eofHandler_sound
    (hplain : ∀ op ∈ ([0x5e, 0xe6, 0xe7, 0xe8] : List UInt8), opcode ≠ op)
    (h : Ready section_ targets Start stackHeights smaller p next opcode delta low high lowNext highNext
      base state) :
    Sound section_.common section_.container targets opcode
      (eofHandler section_.common section_.container handlers opcode
        (section_.container.header.codePosition section_.codeSection + (p + 1)) state) := by
  unfold eofHandler
  split
  · rename_i hopcode
    subst hopcode
    exact rjump_sound h
  rename_i hrjump
  split
  · rename_i hopcode
    subst hopcode
    exact rjumpi_sound h
  rename_i hrjumpi
  split
  · rename_i hopcode
    subst hopcode
    exact rjumpv_sound h
  rename_i hrjumpv
  split
  · rename_i hopcode
    subst hopcode
    exact callf_sound h
  rename_i hcallf
  split
  · rename_i hopcode
    subst hopcode
    exact retf_sound h
  rename_i hretf
  split
  · rename_i hopcode
    subst hopcode
    exact jumpf_sound h
  rename_i hjumpf
  split
  · rename_i himmediate
    obtain rfl | rfl | rfl := himmediate
    all_goals exact absurd rfl (hplain _ (by decide))
  · refine operate_sound ?_ h
    simp only [List.mem_cons, List.not_mem_nil, or_false]
    rintro op (rfl | rfl | rfl | rfl | rfl | rfl)
    all_goals assumption

/-- In validated code there is an instruction at the program counter. -/
theorem Good.ready (hwell : container.WellFormed smaller) (hall : AllValidated common container targets)
    (h : Good common container targets state) :
    ∃ section_ Start stackHeights p next opcode delta low high lowNext highNext base,
      section_.common = common ∧ section_.container = container ∧
      section_.container.body.codeSections[section_.codeSection]? = some section_.code ∧
      section_.code[p]? = some opcode ∧
      state.programCounter =
        ((section_.container.header.codePosition section_.codeSection + p : Nat) : ℤ) ∧
      Ready section_ targets Start stackHeights smaller p next opcode delta low high lowNext highNext base
        state := by
  obtain ⟨types, base, ⟨section_, Start, stackHeights, p, rfl, rfl, rfl, hat⟩, hframes, hnoted,
    hanalysis⟩ := h
  obtain ⟨next, opcode, delta, low, high, lowNext, highNext, hget, hchecked⟩ :=
    hat.validated.checked p hat.start
  refine ⟨section_, Start, stackHeights, p, next, opcode, delta, low, high, lowNext, highNext, base,
    rfl, rfl, hat.code, hget, ?_, ?_⟩
  · rw [hat.pc_eq]
    push_cast
    rfl
  · exact ⟨hwell, hall, hat.pc_eq ▸ hat, hframes, hnoted, hanalysis, hchecked⟩

/-- One step. -/
theorem eofStep_sound (handlers : Handlers) (hwell : container.WellFormed smaller)
    (hall : AllValidated common container targets)
    (hgood : Good common container targets state) (hplain : Plain container state) :
    ∃ opcode, container.buffer[state.programCounter.toNat]? = some opcode ∧
      Sound common container targets opcode (eofStep common container handlers state) := by
  obtain ⟨section_, Start, stackHeights, p, next, opcode, delta, low, high, lowNext, highNext, base,
    rfl, rfl, hcode, hget, hpc, hready⟩ := hgood.ready hwell hall
  have hlt := (List.getElem?_eq_some_iff.mp hget).1
  have hbyte : section_.container.buffer[state.programCounter.toNat]? = some opcode := by
    rw [hpc, Int.toNat_natCast, hwell.getElem?_section hcode hlt]
    exact hget
  have hend := hwell.codePosition_add_le hcode
  obtain ⟨hlookup, hjump, hjumpi⟩ := lookupOpInfo_active hready.checked.active
  have hopcode : ∀ op ∈ ([0x5e, 0xe6, 0xe7, 0xe8] : List UInt8), opcode ≠ op :=
    fun op hop heq => hplain op hop (heq ▸ hbyte)
  have hfetch : fetch section_.common section_.container state.programCounter.toNat state =
      some (⟨opcode⟩, none) := by
    unfold fetch
    rw [hready.analysis]
    dsimp only
    rw [hbyte]
    change some (Analysis.lookupOpInfo section_.common opcode, if _ then _ else _) = _
    rw [hlookup, if_neg]
    rintro (heq | heq | heq)
    · exact hjump heq
    · exact hjumpi heq
    · exact hopcode 0x5e (by decide) heq
  refine ⟨opcode, hbyte, ?_⟩
  unfold eofStep
  rw [if_neg (by omega), if_neg (by omega)]
  dsimp only
  rw [hfetch]
  dsimp only
  split
  · rename_i hinvalid
    exact .invalidOpcode (beq_iff_eq.mp hinvalid)
  split
  · exact .ended
  · rw [hpc, Int.toNat_natCast, Nat.add_assoc]
    exact eofHandler_sound hopcode
      ⟨hwell, hall, hready.place, hready.frames, hready.noted, rfl, hready.checked⟩

theorem eofRun_good (hwell : container.WellFormed smaller) (hall : AllValidated common container targets)
    {n : Nat} {start : EofRunState} (hgood : Good common container targets start)
    (hplain : ∀ m < n, ∀ s, eofRun common container handlers m start = .ok s → Plain container s)
    (hrun : eofRun common container handlers n start = .ok state) : Good common container targets state := by
  induction n generalizing start with
  | zero =>
    obtain rfl := Except.ok.inj hrun
    exact hgood
  | succ n ih =>
    obtain ⟨mid, hstep, hrest⟩ := bind_eq_ok.mp hrun
    obtain ⟨opcode, -, hsound⟩ := eofStep_sound handlers hwell hall hgood
      (hplain 0 (Nat.succ_pos n) start rfl)
    rw [hstep] at hsound
    cases hsound with
    | next hmid =>
      refine ih hmid (fun m hm s hs => hplain (m + 1) (Nat.succ_lt_succ hm) s ?_) hrest
      exact bind_eq_ok.mpr ⟨mid, hstep, hs⟩

theorem setupEOF_good (hwell : container.WellFormed smaller) (hall : AllValidated common container targets) :
    Good common container targets (setupEOF container) := by
  have hcodes := hwell.header.length_codes
  obtain ⟨codeStartPos, hget, -, -⟩ :=
    getCodePosition_eq hwell.header (noted_initial hwell.header) hcodes
  have htypes : 0 < container.body.typeSections.length := by
    rw [hwell.body.types]
    exact hwell.header.codes ▸ hcodes
  have hfirst := List.getElem?_eq_getElem htypes
  obtain ⟨section_, Start, stackHeights, rfl, rfl, htypes', hsection, hcode, hvalidated⟩ :=
    hall 0 _ hfirst
  have hentry := hwell.body.typeSections 0 _ hfirst
  obtain ⟨hinputs, houtputs⟩ := hentry.first rfl
  have hmax : section_.types.maxStackHeight ≤ MAX_STACK_HEIGHT := htypes' ▸ hentry.maxStackHeight
  unfold MAX_STACK_HEIGHT at hmax
  refine ⟨section_.types, 0, ⟨section_, Start, stackHeights, 0, rfl, rfl, rfl, ?_⟩,
    .never (htypes' ▸ houtputs), noted_initial hwell.header, rfl⟩
  constructor
  · exact hsection ▸ hcode
  · exact hvalidated
  · exact hvalidated.zero
  · unfold setupEOF
    rw [hget, hsection]
    simp
  · refine ⟨_, _, hvalidated.inputs, ?_, ?_⟩
    all_goals simp [setupEOF, htypes', hinputs]
  · exact le_rfl
  · omega

/-- The container that an instruction targets. -/
theorem Ready.target
    (h : Ready section_ targets Start stackHeights smaller p next opcode delta low high lowNext
      highNext base state) (hintermediates : delta.intermediates = 1) (hopcode : opcode ≠ 0xe2)
    {type : ContainerSectionType}
    (htarget : TargetOk section_ p (fun i type => targets.get i = some type) type) :
    ∃ target containerCode,
      section_.container.buffer[section_.container.header.codePosition section_.codeSection +
        (p + 1)]? = some target ∧
      section_.container.body.containerSections[target.toNat]? = some containerCode ∧
      targets.get target.toNat = some type := by
  have hnext := h.checked.next_eq hopcode
  have hle := h.checked.next_le
  have hlt : p + 1 < section_.code.length := by omega
  have hget := List.getElem?_eq_getElem hlt
  obtain ⟨hindex, htype⟩ := htarget _ hget
  have hcount : section_.container.body.containerSections.length =
      section_.container.header.containerSizes.length := by
    rw [← h.wellFormed.body.containers, List.length_map]
  refine ⟨_, _, ?_, List.getElem?_eq_getElem (hcount ▸ hindex), htype⟩
  rw [h.wellFormed.getElem?_section h.place.code hlt, hget]

end Steps

section Runs

variable {common : Common} {input : Bytes} {containerMode : ContainerSectionType}
  {eofMode : EOFContainerMode} {container : EOFContainer} {handlers : Handlers} {n : Nat}
  {state : EofRunState}

theorem good_of_validateEOF
    (hvalid : validateEOF common input containerMode eofMode = .ok container)
    (hplain : ∀ m < n, ∀ s,
      eofRun common container handlers m (setupEOF container) = .ok s → Plain container s)
    (hrun : eofRun common container handlers n (setupEOF container) = .ok state) :
    ∃ targets, container.WellFormed (containerMode = .DeploymentCode) ∧
      AllValidated common container targets ∧ Good common container targets state ∧
      ∀ i sub, container.body.containerSections[i]? = some sub →
        ∃ inner, validateEOF common sub ((targets.get i).getD .RuntimeCode) .Default =
          .ok inner := by
  obtain ⟨hparse, targets, hmap, hsubs⟩ := validateEOF_eq_ok_iff.mp hvalid
  have hwell := (wellFormed_of_newEOFContainer hparse).1
  have hall := allValidated_of_validateOpcodes hwell hmap
  exact ⟨targets, hwell, hall, eofRun_good hwell hall (setupEOF_good hwell hall) hplain hrun, hsubs⟩

/-- The code of a validated container runs within its sections: however long it has run, there is an
instruction at the program counter, and neither it nor the stack it finds is a reason to halt
other than to end, to have no room for another section, or to be `INVALID`. -/
theorem validated_run_sound
    (hvalid : validateEOF common input containerMode eofMode = .ok container)
    (hrun : eofRun common container handlers n (setupEOF container) = .ok state)
    (hplain : ∀ m ≤ n, ∀ s,
      eofRun common container handlers m (setupEOF container) = .ok s → Plain container s) :
    ∃ codeSection code p opcode, container.body.codeSections[codeSection]? = some code ∧
      code[p]? = some opcode ∧
      state.programCounter = ((container.header.codePosition codeSection + p : Nat) : ℤ) ∧
      ∀ halt, eofStep common container handlers state = .error halt →
        halt = .ended ∨ halt = .sectionOverflow ∨ halt = .returnStackOverflow ∨
          halt = .invalidOpcode ∧ opcode = 0xfe := by
  obtain ⟨targets, hwell, hall, hgood, -⟩ := good_of_validateEOF hvalid
    (fun m hm => hplain m hm.le) hrun
  obtain ⟨opcode, hbyte, hsound⟩ := eofStep_sound handlers hwell hall hgood
    (hplain n le_rfl state hrun)
  obtain ⟨section_, Start, stackHeights, p, next, opcode', delta, low, high, lowNext, highNext, base,
    rfl, rfl, hcode, hget, hpc, -⟩ := hgood.ready hwell hall
  have hlt := (List.getElem?_eq_some_iff.mp hget).1
  rw [hpc, Int.toNat_natCast, hwell.getElem?_section hcode hlt, hget] at hbyte
  obtain rfl := Option.some.inj hbyte
  refine ⟨section_.codeSection, section_.code, p, opcode', hcode, hget, hpc, fun halt hhalt => ?_⟩
  rw [hhalt] at hsound
  cases hsound with
  | ended => exact .inl rfl
  | sectionOverflow => exact .inr (.inl rfl)
  | returnStackOverflow => exact .inr (.inr (.inl rfl))
  | invalidOpcode hinvalid => exact .inr (.inr (.inr ⟨rfl, hinvalid⟩))

/-- Init code that returns a container which stops. -/
def returnCode : Bytes :=
  [0xef, 0x00, 0x01, 0x01, 0x00, 0x04, 0x02, 0x00, 0x01, 0x00, 0x04, 0x03, 0x00, 0x01, 0x00, 0x14,
    0x04, 0x00, 0x00, 0x00, 0x00, 0x80, 0x00, 0x02, 0x5f, 0x5f, 0xee, 0x00] ++ stopContainer

def parsedReturn : EOFContainer where
  header := ⟨4, [4], [20], 0, 17, returnCode.take 20⟩
  body := ⟨[⟨0, 0x80, 2⟩], [[0x5f, 0x5f, 0xee, 0x00]], [stopContainer], [0x5f, 0x5f, 0xee, 0x00], [],
    returnCode.drop 20, none⟩
  buffer := returnCode
  eofMode := .Default

def eofCommon : Common := ⟨.cancun, [7620]⟩

/-- Handlers that push zeros. -/
def zeroHandlers : Handlers := ⟨fun _ _ => false, fun _ _ => false, fun _ _ _ => 0⟩

/-- A state in the first section of `returnCode`. -/
def returnState (programCounter : ℤ) (stack : List ℤ) : EofRunState :=
  ⟨programCounter, stack, [], [24], none⟩

theorem validateEOF_stop :
    validateEOF eofCommon stopContainer .DeploymentCode .Default = .ok parsedStop := by
  refine validateEOF_eq_ok_iff.mpr ⟨by decide +kernel, .empty, by rfl, fun i sub hsub => ?_⟩
  cases hsub

theorem validateEOF_return :
    validateEOF eofCommon returnCode .InitCode .Default = .ok parsedReturn := by
  refine validateEOF_eq_ok_iff.mpr ⟨by decide +kernel,
    (.empty : InsertionMap Nat ContainerSectionType).set 0 .DeploymentCode, by rfl,
    fun i sub hsub => ?_⟩
  cases i with
  | zero =>
    obtain rfl := Option.some.inj hsub
    exact ⟨parsedStop, validateEOF_stop⟩
  | succ i => cases hsub

theorem eofRun_return : eofRun eofCommon parsedReturn zeroHandlers 2 (setupEOF parsedReturn) =
    .ok (returnState 26 [0, 0]) := by rfl

theorem plain_of_all {container : EOFContainer} {state : EofRunState}
    (h : ([0x5e, 0xe6, 0xe7, 0xe8] : List UInt8).all fun opcode =>
      container.buffer[state.programCounter.toNat]? != some opcode) : Plain container state :=
  fun opcode hmem => bne_iff_ne.mp (List.all_eq_true.mp h opcode hmem)

theorem plain_return : ∀ m ≤ 2, ∀ s,
    eofRun eofCommon parsedReturn zeroHandlers m (setupEOF parsedReturn) = .ok s →
      Plain parsedReturn s := by
  have hfirst : eofRun eofCommon parsedReturn zeroHandlers 1 (setupEOF parsedReturn) =
      .ok (returnState 25 [0]) := by rfl
  intro m hm s hs
  obtain rfl | rfl | rfl : m = 0 ∨ m = 1 ∨ m = 2 := by omega
  · obtain rfl := Except.ok.inj hs
    exact plain_of_all (by decide)
  · obtain rfl := Except.ok.inj (hfirst.symm.trans hs)
    exact plain_of_all (by decide)
  · obtain rfl := Except.ok.inj (eofRun_return.symm.trans hs)
    exact plain_of_all (by decide)

theorem validated_run_sound_return :
    ∃ codeSection code p opcode, parsedReturn.body.codeSections[codeSection]? = some code ∧
      code[p]? = some opcode ∧ (returnState 26 [0, 0]).programCounter =
        ((parsedReturn.header.codePosition codeSection + p : Nat) : ℤ) ∧
      ∀ halt, eofStep eofCommon parsedReturn zeroHandlers (returnState 26 [0, 0]) = .error halt →
        halt = .ended ∨ halt = .sectionOverflow ∨ halt = .returnStackOverflow ∨
          halt = .invalidOpcode ∧ opcode = 0xfe :=
  validated_run_sound validateEOF_return eofRun_return plain_return

/-- Wherever a run of validated code comes to `EOFCREATE` or `RETURNCONTRACT`, what it creates or
returns is valid, whatever data is appended. -/
theorem validated_run_creates
    (hvalid : validateEOF common input containerMode eofMode = .ok container)
    (hrun : eofRun common container handlers n (setupEOF container) = .ok state)
    (hplain : ∀ m < n, ∀ s,
      eofRun common container handlers m (setupEOF container) = .ok s → Plain container s)
    {opcode : UInt8} (hopcode : container.buffer[state.programCounter.toNat]? = some opcode)
    (hcreates : opcode = 0xec ∨ opcode = 0xee) :
    ∃ target containerCode, container.buffer[state.programCounter.toNat + 1]? = some target ∧
      container.body.containerSections[target.toNat]? = some containerCode ∧
      (opcode = 0xec →
        ∃ created, validateEOF common containerCode .InitCode .Default = .ok created) ∧
      (opcode = 0xee → ∀ auxData returnContainer,
        returnContract containerCode auxData = .ok returnContainer →
        returnContainer.length ≤ MAX_HEADER_SIZE →
          ∃ deployed, validateEOF common returnContainer .RuntimeCode .Default = .ok deployed) := by
  obtain ⟨targets, hwell, hall, hgood, hsubs⟩ := good_of_validateEOF hvalid hplain hrun
  obtain ⟨section_, Start, stackHeights, p, next, opcode', delta, low, high, lowNext, highNext, base,
    rfl, rfl, hcode, hget, hpc, hready⟩ := hgood.ready hwell hall
  have hlt := (List.getElem?_eq_some_iff.mp hget).1
  rw [hpc, Int.toNat_natCast] at hopcode ⊢
  rw [hwell.getElem?_section hcode hlt, hget] at hopcode
  obtain rfl := Option.some.inj hopcode
  have hentry := hready.checked.entry
  rw [Nat.add_assoc]
  obtain rfl | rfl := hcreates
  · obtain rfl := Option.some.inj hentry
    obtain ⟨target, containerCode, hbyte, hsub, htype⟩ := hready.target rfl (by decide)
      (hready.checked.operands.eofcreate rfl)
    obtain ⟨created, hcreated⟩ := hsubs _ _ hsub
    rw [htype, Option.getD_some] at hcreated
    exact ⟨target, containerCode, hbyte, hsub, fun _ => ⟨created, hcreated⟩,
      fun h => absurd h (by decide)⟩
  · obtain rfl := Option.some.inj hentry
    obtain ⟨target, containerCode, hbyte, hsub, htype⟩ := hready.target rfl (by decide)
      (hready.checked.operands.returnContract rfl)
    obtain ⟨inner, hinner⟩ := hsubs _ _ hsub
    rw [htype, Option.getD_some] at hinner
    refine ⟨target, containerCode, hbyte, hsub, fun h => absurd h (by decide),
      fun _ auxData returnContainer hreturn hlen => ?_⟩
    obtain ⟨deployed, hdeployed, -⟩ := returnContract_valid hinner hreturn hlen
    exact ⟨deployed, hdeployed⟩

theorem validated_run_creates_return :
    ∃ target containerCode,
      parsedReturn.buffer[(returnState 26 [0, 0]).programCounter.toNat + 1]? = some target ∧
      parsedReturn.body.containerSections[target.toNat]? = some containerCode ∧
      ((0xee : UInt8) = 0xec →
        ∃ created, validateEOF eofCommon containerCode .InitCode .Default = .ok created) ∧
      ((0xee : UInt8) = 0xee → ∀ auxData returnContainer,
        returnContract containerCode auxData = .ok returnContainer →
        returnContainer.length ≤ MAX_HEADER_SIZE →
          ∃ deployed, validateEOF eofCommon returnContainer .RuntimeCode .Default =
            .ok deployed) :=
  validated_run_creates validateEOF_return eofRun_return (fun m hm => plain_return m hm.le)
    (by decide) (.inr rfl)

end Runs

end EthereumJS.Evm.Eof
