import EthereumJS.Evm.Common
import EthereumJS.Util.CodeChunks

/-! # The analysis of jumps

`_getValidJumpDestinations` of `interpreter.ts` and the loop of `run` for legacy code as far as the
program counter goes: which entry is fetched, what a push pushes and where the next instruction is.
Of the other instructions only this is modelled that they do not jump.
-/

namespace EthereumJS.Evm.Analysis

open RLP

section Opcodes

/-- The opcodes from a first to a last one. -/
def opcodeRange (first last : Nat) : List UInt8 :=
  (List.range (last + 1 - first)).map fun n => UInt8.ofNat (first + n)

/-- `opcodes`. -/
def baseOpcodes : List UInt8 :=
  opcodeRange 0x00 0x0b ++ opcodeRange 0x10 0x1a ++ [0x20] ++ opcodeRange 0x30 0x3c ++
    opcodeRange 0x40 0x45 ++ opcodeRange 0x50 0x5b ++ opcodeRange 0x60 0x7f ++
    opcodeRange 0x80 0x8f ++ opcodeRange 0x90 0x9f ++ opcodeRange 0xa0 0xa4 ++
    opcodeRange 0xf0 0xf3 ++ [0xfe, 0xff]

/-- What the hardforks add. -/
def hardforkOpcodes : List (Hardfork × List UInt8) :=
  [(.homestead, [0xf4]),
    (.tangerineWhistle, [0x54, 0xf1, 0xf2, 0x3b, 0x3c, 0xf4, 0xff, 0x31]),
    (.byzantium, [0xfd, 0xfa, 0x3d, 0x3e]),
    (.constantinople, [0x1b, 0x1c, 0x1d, 0x3f, 0xf5]),
    (.istanbul, [0x46, 0x47]),
    (.paris, [0x44])]

def eipOpcodes : List (Nat × List UInt8) :=
  [(8024, [0xe6, 0xe7, 0xe8]), (1153, [0x5c, 0x5d]), (3198, [0x48]), (3855, [0x5f]),
    (4200, [0xe0, 0xe1, 0xe2]), (4750, [0xe3, 0xe4]), (4844, [0x49]), (5656, [0x5e]),
    (6206, [0xe5]), (7069, [0xf7, 0xf8, 0xf9, 0xfb]), (7480, [0xd0, 0xd1, 0xd2, 0xd3]),
    (7516, [0x4a]), (7843, [0x4b]), (7620, [0xec, 0xee]), (7939, [0x1e])]

/-- An entry of the opcode map by its code; `0xfe` is `INVALID`. -/
structure OpcodeMapEntry where
  code : UInt8
  deriving DecidableEq

def OpcodeMapEntry.isInvalid (entry : OpcodeMapEntry) : Bool := entry.code == 0xfe

/-- The codes that `getOpcodesForHF` gives an entry of their own. -/
def opcodesForHF (common : Common) : List UInt8 :=
  baseOpcodes ++
    (hardforkOpcodes.filter fun fork => common.gteHardfork fork.1).flatMap Prod.snd ++
    (eipOpcodes.filter fun eip => common.isActivatedEIP eip.1).flatMap Prod.snd

def lookupOpInfo (common : Common) (opcode : UInt8) : OpcodeMapEntry :=
  if (opcodesForHF common).contains opcode then ⟨opcode⟩ else ⟨0xfe⟩

end Opcodes

section Immediates

def isEIP8024SingleImmediateValid (immediate : UInt8) : Bool :=
  decide (immediate.toNat ≤ 0x5a) || decide (immediate.toNat ≥ 0x80)

def isEIP8024PairImmediateValid (immediate : UInt8) : Bool :=
  decide (immediate.toNat ≤ 0x51) || decide (immediate.toNat ≥ 0x80)

/-- The immediate of `DUPN`, `SWAPN` and `EXCHANGE`. -/
def isImmediateValid (opcode immediate : UInt8) : Bool :=
  if opcode = 0xe8 then isEIP8024PairImmediateValid immediate
  else isEIP8024SingleImmediateValid immediate

def takesImmediate (opcode : UInt8) : Bool := opcode == 0xe6 || opcode == 0xe7 || opcode == 0xe8

/-- `setLengthRight` without truncation. -/
def setLengthRight (msg : Bytes) (length : Nat) : Bytes :=
  msg ++ List.replicate (length - msg.length) 0

/-- The bytes behind an opcode, with zeros where the code ends. -/
def pushBytes (code : Bytes) (position bytesToPush : Nat) : Bytes :=
  let bytes := (code.drop position).take bytesToPush
  if bytes.length < bytesToPush then setLengthRight bytes bytesToPush else bytes

end Immediates

section Scan

/-- An index that was not written is `none`. -/
structure JumpAnalysis where
  jumps : List UInt8
  pushes : Nat → Option Nat
  opcodesCached : List (Option OpcodeMapEntry)

variable (common : Common) (code : Bytes)

/-- The body of the loop, and the index that it leaves. -/
def scanStep (i : Nat) (opcode : UInt8) (analysis : JumpAnalysis) : JumpAnalysis × Nat :=
  let analysis := { analysis with
    opcodesCached := analysis.opcodesCached.set i (some (lookupOpInfo common opcode)) }
  if opcode.toNat ≤ 0x7f then
    if opcode.toNat ≥ 0x60 then
      let bytesToPush := opcode.toNat - 0x5f
      let push := bytesToBigInt (pushBytes code (i + 1) bytesToPush)
      ({ analysis with pushes := Function.update analysis.pushes (i + 1) (some push) },
        i + bytesToPush)
    else if opcode = 0x5b then ({ analysis with jumps := analysis.jumps.set i 1 }, i)
    else (analysis, i)
  else if common.isActivatedEIP 8024 && takesImmediate opcode then
    match code[i + 1]? with
    | none => (analysis, i)
    | some immediate => (analysis, if isImmediateValid opcode immediate then i + 1 else i)
  else (analysis, i)

theorem le_scanStep {i : Nat} {opcode : UInt8} {analysis : JumpAnalysis} :
    i ≤ (scanStep common code i opcode analysis).2 := by
  unfold scanStep
  dsimp only
  split
  · split
    · exact Nat.le_add_right _ _
    · split <;> exact le_rfl
  · split
    · split
      · exact le_rfl
      · dsimp only
        split
        · exact Nat.le_succ _
        · exact le_rfl
    · exact le_rfl

def scanFrom (i : Nat) (analysis : JumpAnalysis) : JumpAnalysis :=
  if h : i < code.length then
    scanFrom ((scanStep common code i (code[i]) analysis).2 + 1)
      (scanStep common code i (code[i]) analysis).1
  else analysis
termination_by code.length - i
decreasing_by
  have hle := @le_scanStep common code i code[i] analysis
  omega

def getValidJumpDestinations : JumpAnalysis :=
  scanFrom common code 0
    { jumps := List.replicate code.length 0
      pushes := fun _ => none
      opcodesCached := List.replicate code.length none }

end Scan

section Run

/-- Why a run of legacy code ends. A crash is no error of the EVM. -/
inductive Halt
  | codeEnd
  | stopped
  | invalidOpcode
  | invalidJump
  | crash
  deriving DecidableEq

/-- There is an analysis where `shouldDoJumpAnalysis` is false. -/
structure RunState where
  programCounter : Nat
  analysis : Option JumpAnalysis

/-- `STOP`, `RETURN`, `REVERT` and `SELFDESTRUCT`. -/
def stops (opcode : UInt8) : Bool :=
  opcode == 0x00 || opcode == 0xf3 || opcode == 0xfd || opcode == 0xff

/-- The opcodes that trap in legacy contracts. -/
def eofOpcodes : List UInt8 :=
  [0xd0, 0xd1, 0xd2, 0xd3, 0xe0, 0xe1, 0xe2, 0xe3, 0xe4, 0xe5, 0xec, 0xee, 0xf7, 0xf8, 0xf9, 0xfb]

variable (common : Common) (code : Bytes)

/-- `jumpIsValid` with the check of the size of the code. -/
def jump (analysis : Option JumpAnalysis) (dest : Nat) : Except Halt Nat :=
  if dest > code.length then .error .invalidJump
  else if ((analysis.map JumpAnalysis.jumps).getD [])[dest]? = some 1 then .ok dest
  else .error .invalidJump

/-- What a push pushes, where `none` is `undefined`, and the program counter behind it. -/
def pushHandler (analysis : Option JumpAnalysis) (opcode : UInt8) (programCounter : Nat) :
    Option Nat × Nat :=
  let numToPush := opcode.toNat - 0x5f
  match analysis with
  | some analysis => (analysis.pushes programCounter, programCounter + numToPush)
  | none => (some (bytesToBigInt (pushBytes code programCounter numToPush)),
      programCounter + numToPush)

/-- The handler of an instruction behind which the program counter is, with what a jump and a push
do. `operand` is the destination that a jump takes; `JUMPI` does not jump without one. -/
def handler (jump : Nat → Except Halt Nat) (push : UInt8 → Nat → Option Nat × Nat) (opcode : UInt8)
    (programCounter : Nat) (operand : Option Nat) : Except Halt (List (Option Nat) × Nat) :=
  if stops opcode then .error .stopped
  else if eofOpcodes.contains opcode then .error .invalidOpcode
  else if opcode = 0x56 then (jump (operand.getD 0)).map fun dest => ([], dest)
  else if opcode = 0x57 then
    match operand with
    | none => .ok ([], programCounter)
    | some dest => (jump dest).map fun dest => ([], dest)
  else if 0x60 ≤ opcode.toNat ∧ opcode.toNat ≤ 0x7f then
    let pushed := push opcode programCounter
    .ok ([pushed.1], pushed.2)
  else if takesImmediate opcode then
    if !common.isActivatedEIP 8024 then .error .invalidOpcode
    else
      let immediate := code.getD programCounter 0
      if isImmediateValid opcode immediate then .ok ([], programCounter + 1)
      else .error .invalidOpcode
  else .ok ([], programCounter)

def opHandler (analysis : Option JumpAnalysis) : UInt8 → Nat → Option Nat →
    Except Halt (List (Option Nat) × Nat) :=
  handler common code (jump code analysis) (pushHandler code analysis)

def runStep (analysis : Option JumpAnalysis) (entry : OpcodeMapEntry) (programCounter : Nat)
    (operand : Option Nat) : Except Halt (List (Option Nat) × Nat) :=
  if entry.isInvalid then .error .invalidOpcode
  else opHandler common code analysis entry.code (programCounter + 1) operand

/-- One round of the loop of `run`. -/
def loopStep (state : RunState) (operand : Option Nat) :
    Except Halt (List (Option Nat) × RunState) :=
  if state.programCounter < code.length then
    match state.analysis with
    | none =>
      let opCode := code.getD state.programCounter 0
      let analysis :=
        if opCode = 0x56 ∨ opCode = 0x57 ∨ opCode = 0x5e then
          some (getValidJumpDestinations common code)
        else none
      (runStep common code analysis (lookupOpInfo common opCode) state.programCounter operand).map
        fun result => (result.1, ⟨result.2, analysis⟩)
    | some analysis =>
      match analysis.opcodesCached[state.programCounter]? with
      | some (some entry) =>
        (runStep common code (some analysis) entry state.programCounter operand).map
          fun result => (result.1, ⟨result.2, some analysis⟩)
      | _ => .error .crash
  else .error .codeEnd

/-- Rounds of the loop with what they take from the stack, and what was pushed. -/
def runLoop : List (Option Nat) → RunState → Except Halt (List (Option Nat) × RunState)
  | [], state => .ok ([], state)
  | operand :: operands, state => do
    let (pushed, state) ← loopStep common code state operand
    let (later, state) ← runLoop operands state
    .ok (pushed ++ later, state)

end Run

end EthereumJS.Evm.Analysis
