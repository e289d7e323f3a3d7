import Mathlib.Data.Int.Bitwise
import Mathlib.Data.List.Basic

/-! # Arithmetic opcodes

The handlers of `evm/src/opcodes/functions.ts` from `ADD` to `CLZ` and the helpers of
`opcodes/util.ts` on big integers, which are unbounded: their shifts take amounts of either sign,
and their division and remainder round towards zero.
-/

namespace EthereumJS.Evm.Operations

inductive StackError
  | STACK_UNDERFLOW
  | STACK_OVERFLOW
  deriving DecidableEq

/-- The items of a stack, its top first. -/
abbrev Stack := List ℤ

def maxHeight : ℕ := 1024

section Bigint

def TWO_POW256 : ℤ := 0x10000000000000000000000000000000000000000000000000000000000000000

def MAX_INTEGER_BIGINT : ℤ :=
  115792089237316195423570985008687907853269984665640564039457584007913129639935

def BIGINT_2EXP96 : ℤ := 79228162514264337593543950336

def BIGINT_2EXP160 : ℤ := 1461501637330902918203684832716283019655932542976

def BIGINT_2EXP224 : ℤ := 26959946667150639794667015087019630673637144422540572481103610249216

/-- `BigInt.asUintN`. -/
def asUintN (bits : ℕ) (a : ℤ) : ℤ := a % 2 ^ bits

/-- `BigInt.asIntN`. -/
def asIntN (bits : ℕ) (a : ℤ) : ℤ :=
  if a % 2 ^ bits ≥ 2 ^ (bits - 1) then a % 2 ^ bits - 2 ^ bits else a % 2 ^ bits

def mod (a b : ℤ) : ℤ :=
  let r := a.tmod b
  if r < 0 then b + r else r

def fromTwos (a : ℤ) : ℤ := asIntN 256 a

def toTwos (a : ℤ) : ℤ := asUintN 256 a

def N : ℤ := 115792089237316195423570985008687907853269984665640564039457584007913129639936

/-- The loop of `exponentiation`. -/
def exponentiationLoop (t bas : ℤ) (exp : ℕ) : ℤ :=
  if exp > 0 then
    exponentiationLoop (if exp % 2 ≠ 0 then (t * bas).tmod N else t) ((bas * bas).tmod N) (exp / 2)
  else t
termination_by exp
decreasing_by omega

def exponentiation (bas exp : ℤ) : ℤ := exponentiationLoop 1 bas exp.toNat

/-- The length of `x.toString(2)`. -/
def binaryLength (x : ℤ) : ℕ := (Nat.toDigits 2 x.toNat).length

end Bigint

section Handlers

def ADD (a b : ℤ) : ℤ := mod (a + b) TWO_POW256

def MUL (a b : ℤ) : ℤ := mod (a * b) TWO_POW256

def SUB (a b : ℤ) : ℤ := mod (a - b) TWO_POW256

def DIV (a b : ℤ) : ℤ := if b = 0 then 0 else mod (a.tdiv b) TWO_POW256

def SDIV (a b : ℤ) : ℤ := if b = 0 then 0 else toTwos ((fromTwos a).tdiv (fromTwos b))

def MOD (a b : ℤ) : ℤ := if b = 0 then b else mod a b

def SMOD (a b : ℤ) : ℤ := toTwos (if b = 0 then b else (fromTwos a).tmod (fromTwos b))

def ADDMOD (a b c : ℤ) : ℤ := if c = 0 then 0 else mod (a + b) c

def MULMOD (a b c : ℤ) : ℤ := if c = 0 then 0 else mod (a * b) c

def EXP (base exponent : ℤ) : ℤ :=
  if base = 2 ∧ exponent = 96 then BIGINT_2EXP96
  else if base = 2 ∧ exponent = 160 then BIGINT_2EXP160
  else if base = 2 ∧ exponent = 224 then BIGINT_2EXP224
  else if exponent = 0 then 1
  else if base = 0 then base
  else exponentiation base exponent

def SIGNEXTEND (k val : ℤ) : ℤ :=
  if k < 31 then
    let signBit := k * 8 + 7
    let mask := (1 : ℤ) <<< signBit - 1
    if Int.land (val >>> signBit) 1 ≠ 0 then Int.lor val (asUintN 256 (Int.lnot mask))
    else Int.land val mask
  else val

def LT (a b : ℤ) : ℤ := if a < b then 1 else 0

def GT (a b : ℤ) : ℤ := if a > b then 1 else 0

def SLT (a b : ℤ) : ℤ := if fromTwos a < fromTwos b then 1 else 0

def SGT (a b : ℤ) : ℤ := if fromTwos a > fromTwos b then 1 else 0

def EQ (a b : ℤ) : ℤ := if a = b then 1 else 0

def ISZERO (a : ℤ) : ℤ := if a = 0 then 1 else 0

def AND (a b : ℤ) : ℤ := Int.land a b

def OR (a b : ℤ) : ℤ := Int.lor a b

def XOR (a b : ℤ) : ℤ := Int.xor a b

def NOT (a : ℤ) : ℤ := asUintN 256 (Int.lnot a)

def BYTE (pos word : ℤ) : ℤ :=
  if pos > 32 then 0 else Int.land (word >>> ((31 - pos) * 8)) 255

def SHL (a b : ℤ) : ℤ := if a > 256 then 0 else Int.land (b <<< a) MAX_INTEGER_BIGINT

def SHR (a b : ℤ) : ℤ := if a > 256 then 0 else b >>> a

def SAR (a b : ℤ) : ℤ :=
  let bComp := asIntN 256 b
  if a > 256 then if bComp < 0 then MAX_INTEGER_BIGINT else 0
  else
    let c := b >>> a
    if bComp < 0 then
      let shiftedOutWidth := 255 - a
      let mask := (MAX_INTEGER_BIGINT >>> shiftedOutWidth) <<< shiftedOutWidth
      Int.lor c mask
    else c

def CLZ (x : ℤ) : ℤ := if x = 0 then 256 else 256 - binaryLength x

end Handlers

section Stack

def push (stack : Stack) (value : ℤ) : Except StackError Stack :=
  if stack.length ≥ maxHeight then .error .STACK_OVERFLOW else .ok (value :: stack)

inductive ArithmeticOpcode
  | ADD
  | MUL
  | SUB
  | DIV
  | SDIV
  | MOD
  | SMOD
  | ADDMOD
  | MULMOD
  | EXP
  | SIGNEXTEND
  | LT
  | GT
  | SLT
  | SGT
  | EQ
  | ISZERO
  | AND
  | OR
  | XOR
  | NOT
  | BYTE
  | SHL
  | SHR
  | SAR
  | CLZ
  deriving DecidableEq

/-- The byte of an opcode. -/
def ArithmeticOpcode.code : ArithmeticOpcode → ℕ
  | ADD => 0x01
  | MUL => 0x02
  | SUB => 0x03
  | DIV => 0x04
  | SDIV => 0x05
  | MOD => 0x06
  | SMOD => 0x07
  | ADDMOD => 0x08
  | MULMOD => 0x09
  | EXP => 0x0a
  | SIGNEXTEND => 0x0b
  | LT => 0x10
  | GT => 0x11
  | SLT => 0x12
  | SGT => 0x13
  | EQ => 0x14
  | ISZERO => 0x15
  | AND => 0x16
  | OR => 0x17
  | XOR => 0x18
  | NOT => 0x19
  | BYTE => 0x1a
  | SHL => 0x1b
  | SHR => 0x1c
  | SAR => 0x1d
  | CLZ => 0x1e

def unary (f : ℤ → ℤ) : Stack → Except StackError Stack
  | a :: stack => push stack (f a)
  | _ => .error .STACK_UNDERFLOW

def binary (f : ℤ → ℤ → ℤ) : Stack → Except StackError Stack
  | a :: b :: stack => push stack (f a b)
  | _ => .error .STACK_UNDERFLOW

def ternary (f : ℤ → ℤ → ℤ → ℤ) : Stack → Except StackError Stack
  | a :: b :: c :: stack => push stack (f a b c)
  | _ => .error .STACK_UNDERFLOW

/-- The entry of `handlers` for an opcode. -/
def handler : ArithmeticOpcode → Stack → Except StackError Stack
  | .ADD => binary ADD
  | .MUL => binary MUL
  | .SUB => binary SUB
  | .DIV => binary DIV
  | .SDIV => binary SDIV
  | .MOD => binary MOD
  | .SMOD => binary SMOD
  | .ADDMOD => ternary ADDMOD
  | .MULMOD => ternary MULMOD
  | .EXP => binary EXP
  | .SIGNEXTEND => binary SIGNEXTEND
  | .LT => binary LT
  | .GT => binary GT
  | .SLT => binary SLT
  | .SGT => binary SGT
  | .EQ => binary EQ
  | .ISZERO => unary ISZERO
  | .AND => binary AND
  | .OR => binary OR
  | .XOR => binary XOR
  | .NOT => unary NOT
  | .BYTE => binary BYTE
  | .SHL => binary SHL
  | .SHR => binary SHR
  | .SAR => binary SAR
  | .CLZ => unary CLZ

end Stack

end EthereumJS.Evm.Operations
