import EthereumJS.Evm.Operations
import Mathlib.Data.Nat.ModEq
import Mathlib.Tactic.Linarith
import Mathlib.Tactic.NormNum
import Mathlib.Tactic.Ring

/-! # The arithmetic opcodes are exact

What the arithmetic opcodes compute on words of 256 bits by their definitions, and that the
handlers on big integers push just that.
-/

namespace EthereumJS.Evm.Operations

abbrev Word := BitVec 256

section Definitions

/-- A quotient rounded towards zero. -/
def signedQuotient (a b : ℤ) : ℤ := a.sign * b.sign * (a.natAbs / b.natAbs : ℕ)

/-- A remainder with the sign of the dividend. -/
def signedRemainder (a b : ℤ) : ℤ := a.sign * (a.natAbs % b.natAbs : ℕ)

def ofBool (b : Prop) [Decidable b] : Word := if b then 1 else 0

/-- The result of an opcode on the items at the top of the stack. Signed items are in two's
complement. -/
def ArithmeticOpcode.result (a b c : Word) : ArithmeticOpcode → Word
  | ADD => a + b
  | MUL => a * b
  | SUB => a - b
  | DIV => if b = 0 then 0 else .ofNat 256 (a.toNat / b.toNat)
  | SDIV => if b = 0 then 0 else .ofInt 256 (signedQuotient a.toInt b.toInt)
  | MOD => if b = 0 then 0 else .ofNat 256 (a.toNat % b.toNat)
  | SMOD => if b = 0 then 0 else .ofInt 256 (signedRemainder a.toInt b.toInt)
  | ADDMOD => if c = 0 then 0 else .ofNat 256 ((a.toNat + b.toNat) % c.toNat)
  | MULMOD => if c = 0 then 0 else .ofNat 256 (a.toNat * b.toNat % c.toNat)
  | EXP => .ofNat 256 (a.toNat ^ b.toNat)
  | SIGNEXTEND =>
    if a.toNat < 31 then (b.setWidth (8 * (a.toNat + 1))).signExtend 256 else b
  | LT => ofBool (a.toNat < b.toNat)
  | GT => ofBool (b.toNat < a.toNat)
  | SLT => ofBool (a.toInt < b.toInt)
  | SGT => ofBool (b.toInt < a.toInt)
  | EQ => ofBool (a = b)
  | ISZERO => ofBool (a = 0)
  | AND => a &&& b
  | OR => a ||| b
  | XOR => a ^^^ b
  | NOT => ~~~a
  | BYTE =>
    if a.toNat < 32 then (b.extractLsb' (8 * (31 - a.toNat)) 8).setWidth 256 else 0
  | SHL => if a.toNat < 256 then .ofNat 256 (b.toNat * 2 ^ a.toNat) else 0
  | SHR => if a.toNat < 256 then .ofNat 256 (b.toNat / 2 ^ a.toNat) else 0
  | SAR =>
    if a.toNat < 256 then .ofInt 256 (b.toInt / 2 ^ a.toNat)
    else if b.toInt < 0 then .ofInt 256 (-1) else 0
  | CLZ => a.clz

/-- How many items an opcode takes. -/
def ArithmeticOpcode.arity : ArithmeticOpcode → ℕ
  | ISZERO | NOT | CLZ => 1
  | ADDMOD | MULMOD => 3
  | _ => 2

/-- The words an opcode takes, of three at the top of the stack. -/
def ArithmeticOpcode.operands (op : ArithmeticOpcode) (a b c : Word) : List Word :=
  [a, b, c].take op.arity

/-- The stack that holds the given words. -/
def ofWords (words : List Word) : Stack := words.map fun w => (w.toNat : ℤ)

end Definitions

section Bigint

variable (a b : Word)

theorem toNat_lt : a.toNat < 2 ^ 256 := a.isLt

theorem TWO_POW256_eq : TWO_POW256 = 2 ^ 256 := by norm_num [TWO_POW256]

theorem N_eq : N = 2 ^ 256 := by norm_num [N]

theorem MAX_INTEGER_BIGINT_eq : MAX_INTEGER_BIGINT = (2 ^ 256 - 1 : ℕ) := by
  norm_num [MAX_INTEGER_BIGINT]

theorem mod_eq {x y : ℤ} (hy : 0 < y) : mod x y = x % y := by
  have hlt := Int.emod_lt_of_pos x hy
  have hnonneg := Int.emod_nonneg x hy.ne'
  have habs : (y.natAbs : ℤ) = y := Int.natAbs_of_nonneg hy.le
  rw [mod, Int.tmod_eq_emod]
  by_cases h : 0 ≤ x ∨ y ∣ x
  · rw [if_pos h, Nat.cast_zero, Int.sub_zero]
    exact if_neg (Int.not_lt.mpr hnonneg)
  · rw [if_neg h, habs]
    refine (if_pos (by omega)).trans ?_
    omega

theorem mod_natCast (m n : ℕ) (hn : n ≠ 0) : mod m n = (m % n : ℕ) := by
  rw [mod_eq (by omega), Int.natCast_emod]

theorem mod_word (x : ℤ) : mod x TWO_POW256 = (BitVec.ofInt 256 x).toNat := by
  have hpos : (0 : ℤ) < 2 ^ 256 := by norm_num
  rw [TWO_POW256_eq, mod_eq hpos, BitVec.toNat_ofInt, Int.toNat_of_nonneg]
  · norm_num
  · exact Int.emod_nonneg x (by norm_num)

theorem asUintN_eq (x : ℤ) : asUintN 256 x = (BitVec.ofInt 256 x).toNat := by
  rw [← mod_word, TWO_POW256_eq, mod_eq (by norm_num)]
  rfl

theorem toTwos_eq (x : ℤ) : toTwos x = (BitVec.ofInt 256 x).toNat := asUintN_eq x

theorem fromTwos_eq : fromTwos a.toNat = a.toInt := by
  have hlt := a.isLt
  have hself : (a.toNat : ℤ) % 2 ^ 256 = a.toNat := by
    rw [Int.emod_eq_of_lt (Int.natCast_nonneg _)]
    exact_mod_cast hlt
  rw [fromTwos, asIntN, hself, BitVec.toInt_eq_toNat_cond]
  by_cases h : 2 * a.toNat < 2 ^ 256
  · rw [if_pos h, if_neg]
    omega
  · rw [if_neg h, if_pos]
    · norm_num
    · omega

theorem eq_zero_iff : (a.toNat : ℤ) = 0 ↔ a = 0 := by
  rw [Int.natCast_eq_zero, ← BitVec.toNat_inj]
  rfl

end Bigint

section Unsigned

variable (a b c : Word)

theorem ADD_eq : ADD a.toNat b.toNat = (a + b).toNat := by
  rw [ADD, mod_word, BitVec.ofInt_add, BitVec.ofInt_natCast, BitVec.ofInt_natCast,
    BitVec.ofNat_toNat, BitVec.ofNat_toNat, BitVec.setWidth_eq, BitVec.setWidth_eq]

theorem MUL_eq : MUL a.toNat b.toNat = (a * b).toNat := by
  rw [MUL, mod_word, BitVec.ofInt_mul, BitVec.ofInt_natCast, BitVec.ofInt_natCast,
    BitVec.ofNat_toNat, BitVec.ofNat_toNat, BitVec.setWidth_eq, BitVec.setWidth_eq]

theorem SUB_eq : SUB a.toNat b.toNat = (a - b).toNat := by
  rw [SUB, mod_word, Int.sub_eq_add_neg, BitVec.ofInt_add, BitVec.ofInt_neg, BitVec.ofInt_natCast,
    BitVec.ofInt_natCast, BitVec.ofNat_toNat, BitVec.ofNat_toNat, BitVec.setWidth_eq,
    BitVec.setWidth_eq, BitVec.sub_eq_add_neg]

theorem toNat_ofNat_of_le {n : ℕ} (h : n ≤ a.toNat) : (BitVec.ofNat 256 n).toNat = n := by
  rw [BitVec.toNat_ofNat, Nat.mod_eq_of_lt (h.trans_lt a.isLt)]

/-- A handler that looks for a zero divisor first. -/
theorem guard_eq {b y : Word} {zero x : ℤ} (hzero : b = 0 → zero = 0)
    (h : b.toNat ≠ 0 → x = y.toNat) :
    (if (b.toNat : ℤ) = 0 then zero else x) = (if b = 0 then 0 else y).toNat := by
  by_cases hb : b = 0
  · rw [if_pos ((eq_zero_iff b).mpr hb), if_pos hb, hzero hb]
    rfl
  · have hne : (b.toNat : ℤ) ≠ 0 := fun heq => hb ((eq_zero_iff b).mp heq)
    rw [if_neg hne, if_neg hb]
    exact h (by exact_mod_cast hne)

theorem DIV_eq : DIV a.toNat b.toNat =
    (if b = 0 then 0 else BitVec.ofNat 256 (a.toNat / b.toNat)).toNat := by
  refine guard_eq (fun _ => rfl) fun _ => ?_
  rw [mod_word]
  rfl

theorem MOD_eq : MOD a.toNat b.toNat =
    (if b = 0 then 0 else BitVec.ofNat 256 (a.toNat % b.toNat)).toNat := by
  refine guard_eq (eq_zero_iff b).mpr fun hne => ?_
  rw [mod_natCast _ _ hne, toNat_ofNat_of_le a (Nat.mod_le _ _)]

theorem ADDMOD_eq : ADDMOD a.toNat b.toNat c.toNat =
    (if c = 0 then 0 else BitVec.ofNat 256 ((a.toNat + b.toNat) % c.toNat)).toNat := by
  refine guard_eq (fun _ => rfl) fun hne => ?_
  rw [← Int.natCast_add, mod_natCast _ _ hne,
    toNat_ofNat_of_le c (Nat.mod_lt _ (Nat.pos_of_ne_zero hne)).le]

theorem MULMOD_eq : MULMOD a.toNat b.toNat c.toNat =
    (if c = 0 then 0 else BitVec.ofNat 256 (a.toNat * b.toNat % c.toNat)).toNat := by
  refine guard_eq (fun _ => rfl) fun hne => ?_
  rw [← Int.natCast_mul, mod_natCast _ _ hne,
    toNat_ofNat_of_le c (Nat.mod_lt _ (Nat.pos_of_ne_zero hne)).le]

end Unsigned

section Exponentiation

theorem tmod_N (m : ℕ) : (m : ℤ).tmod N = (m % 2 ^ 256 : ℕ) := by
  rw [N_eq, Int.tmod_eq_emod_of_nonneg (Int.natCast_nonneg m), Int.natCast_emod]
  norm_num

/-- The loop squares the base as it halves the exponent. -/
theorem exponentiationLoop_eq {t : ℕ} (ht : t < 2 ^ 256) (bas exp : ℕ) :
    exponentiationLoop t bas exp = (t * bas ^ exp % 2 ^ 256 : ℕ) := by
  induction exp using Nat.strongRecOn generalizing t bas with
  | ind exp ih =>
    rw [exponentiationLoop]
    by_cases hexp : exp = 0
    · subst hexp
      rw [if_neg (Nat.lt_irrefl 0), Nat.pow_zero, Nat.mul_one, Nat.mod_eq_of_lt ht]
    · have hbas : ((bas : ℤ) * bas).tmod N = (bas * bas % 2 ^ 256 : ℕ) := by
        rw [← Int.natCast_mul, tmod_N]
      have hsquare : bas * bas % 2 ^ 256 ≡ bas ^ 2 [MOD 2 ^ 256] := by
        rw [pow_two]
        exact Nat.mod_modEq _ _
      rw [if_pos (Nat.pos_of_ne_zero hexp), hbas]
      by_cases hodd : exp % 2 ≠ 0
      · have hstep : ((t : ℤ) * bas).tmod N = (t * bas % 2 ^ 256 : ℕ) := by
          rw [← Int.natCast_mul, tmod_N]
        rw [if_pos hodd, hstep, ih (exp / 2) (by omega) (Nat.mod_lt _ (by norm_num))]
        congr 1
        calc t * bas % 2 ^ 256 * (bas * bas % 2 ^ 256) ^ (exp / 2)
            ≡ t * bas * (bas ^ 2) ^ (exp / 2) [MOD 2 ^ 256] :=
              (Nat.mod_modEq _ _).mul (hsquare.pow _)
          _ = t * bas ^ exp := by
              rw [← pow_mul, Nat.mul_assoc, ← pow_succ']
              congr 2
              omega
      · rw [if_neg hodd, ih (exp / 2) (by omega) ht]
        congr 1
        calc t * (bas * bas % 2 ^ 256) ^ (exp / 2)
            ≡ t * (bas ^ 2) ^ (exp / 2) [MOD 2 ^ 256] := (Nat.ModEq.refl t).mul (hsquare.pow _)
          _ = t * bas ^ exp := by
              rw [← pow_mul]
              congr 2
              omega

theorem exponentiation_eq (bas exp : ℕ) :
    exponentiation bas exp = (BitVec.ofNat 256 (bas ^ exp)).toNat := by
  have hloop := exponentiationLoop_eq (by norm_num : 1 < 2 ^ 256) bas exp
  rw [Nat.one_mul] at hloop
  rw [exponentiation, Int.toNat_natCast, BitVec.toNat_ofNat, ← hloop]
  rfl

/-- The powers that are looked up are those that the loop would compute. -/
theorem EXP_eq (a b : Word) :
    EXP a.toNat b.toNat = (BitVec.ofNat 256 (a.toNat ^ b.toNat)).toNat := by
  rw [EXP, BitVec.toNat_ofNat]
  generalize a.toNat = base
  generalize b.toNat = exponent
  split_ifs with h96 h160 h224 hzero hbase
  · obtain ⟨hbase, hexp⟩ := h96
    rw [show base = 2 by omega, show exponent = 96 by omega]
    norm_num [BIGINT_2EXP96]
  · obtain ⟨hbase, hexp⟩ := h160
    rw [show base = 2 by omega, show exponent = 160 by omega]
    norm_num [BIGINT_2EXP160]
  · obtain ⟨hbase, hexp⟩ := h224
    rw [show base = 2 by omega, show exponent = 224 by omega]
    norm_num [BIGINT_2EXP224]
  · rw [show exponent = 0 by omega]
    norm_num
  · rw [show base = 0 by omega, Nat.zero_pow (by omega), Nat.zero_mod]
  · rw [exponentiation_eq, BitVec.toNat_ofNat]

end Exponentiation

section Signed

variable (a b : Word)

theorem sign_natCast_mul {m k : ℕ} (h : m = 0 → k = 0) : (m : ℤ).sign * k = k := by
  cases m with
  | zero => rw [h rfl, Nat.cast_zero, Int.mul_zero]
  | succ m => rw [Int.sign_natCast_of_ne_zero (Nat.succ_ne_zero m), Int.one_mul]

theorem tdiv_eq_signedQuotient (x y : ℤ) : x.tdiv y = signedQuotient x y := by
  have hnat (m n : ℕ) : (m : ℤ).tdiv n = (m : ℤ).sign * (n : ℤ).sign * (m / n : ℕ) := by
    rw [Int.mul_assoc, sign_natCast_mul fun hn => by rw [hn, Nat.div_zero],
      sign_natCast_mul fun hm => by rw [hm, Nat.zero_div]]
    rfl
  rw [signedQuotient]
  obtain ⟨m, rfl | rfl⟩ := x.eq_nat_or_neg
  · obtain ⟨n, rfl | rfl⟩ := y.eq_nat_or_neg
    · exact hnat m n
    · rw [Int.tdiv_neg, hnat, Int.sign_neg, Int.natAbs_neg, Int.natAbs_natCast, Int.natAbs_natCast]
      ring
  · obtain ⟨n, rfl | rfl⟩ := y.eq_nat_or_neg
    · rw [Int.neg_tdiv, hnat, Int.sign_neg, Int.natAbs_neg, Int.natAbs_natCast, Int.natAbs_natCast]
      ring
    · rw [Int.neg_tdiv_neg, hnat, Int.sign_neg, Int.sign_neg, Int.natAbs_neg, Int.natAbs_neg,
        Int.natAbs_natCast, Int.natAbs_natCast]
      ring

theorem tmod_eq_signedRemainder (x y : ℤ) : x.tmod y = signedRemainder x y := by
  have hnat (m n : ℕ) : (m : ℤ).tmod n = (m : ℤ).sign * (m % n : ℕ) := by
    rw [sign_natCast_mul fun hm => by rw [hm, Nat.zero_mod]]
    rfl
  have hdivisor : x.tmod y = x.tmod y.natAbs := by
    obtain ⟨n, rfl | rfl⟩ := y.eq_nat_or_neg
    · rw [Int.natAbs_natCast]
    · rw [Int.tmod_neg, Int.natAbs_neg, Int.natAbs_natCast]
  rw [signedRemainder, hdivisor]
  obtain ⟨m, rfl | rfl⟩ := x.eq_nat_or_neg
  · exact hnat m y.natAbs
  · rw [Int.neg_tmod, hnat, Int.sign_neg, Int.natAbs_neg, Int.natAbs_natCast, Int.neg_mul]

theorem SDIV_eq : SDIV a.toNat b.toNat =
    (if b = 0 then 0 else BitVec.ofInt 256 (signedQuotient a.toInt b.toInt)).toNat := by
  refine guard_eq (fun _ => rfl) fun _ => ?_
  rw [fromTwos_eq, fromTwos_eq, tdiv_eq_signedQuotient, toTwos_eq]

theorem SMOD_eq : SMOD a.toNat b.toNat =
    (if b = 0 then 0 else BitVec.ofInt 256 (signedRemainder a.toInt b.toInt)).toNat := by
  unfold SMOD
  rw [apply_ite toTwos]
  refine guard_eq ?_ fun _ => ?_
  · rintro rfl
    rfl
  · rw [fromTwos_eq, fromTwos_eq, tmod_eq_signedRemainder, toTwos_eq]

end Signed

section Comparisons

variable (a b : Word)

theorem ofBool_eq {p q : Prop} [Decidable p] [Decidable q] (h : p ↔ q) :
    (if p then 1 else 0 : ℤ) = (ofBool q).toNat := by
  by_cases hq : q
  · rw [if_pos (h.mpr hq), ofBool, if_pos hq]
    rfl
  · rw [if_neg (mt h.mp hq), ofBool, if_neg hq]
    rfl

theorem LT_eq : LT a.toNat b.toNat = (ofBool (a.toNat < b.toNat)).toNat := ofBool_eq Nat.cast_lt

theorem GT_eq : GT a.toNat b.toNat = (ofBool (b.toNat < a.toNat)).toNat := ofBool_eq Nat.cast_lt

theorem ISZERO_eq : ISZERO a.toNat = (ofBool (a = 0)).toNat := ofBool_eq (eq_zero_iff a)

theorem SLT_eq : SLT a.toNat b.toNat = (ofBool (a.toInt < b.toInt)).toNat := by
  apply ofBool_eq
  rw [fromTwos_eq, fromTwos_eq]

theorem SGT_eq : SGT a.toNat b.toNat = (ofBool (b.toInt < a.toInt)).toNat := by
  apply ofBool_eq
  rw [fromTwos_eq, fromTwos_eq]

theorem EQ_eq : EQ a.toNat b.toNat = (ofBool (a = b)).toNat := by
  apply ofBool_eq
  rw [Int.natCast_inj, BitVec.toNat_inj]

theorem AND_eq : AND a.toNat b.toNat = (a &&& b).toNat := by
  rw [BitVec.toNat_and]
  rfl

theorem OR_eq : OR a.toNat b.toNat = (a ||| b).toNat := by
  rw [BitVec.toNat_or]
  rfl

theorem XOR_eq : XOR a.toNat b.toNat = (a ^^^ b).toNat := by
  rw [BitVec.toNat_xor]
  rfl

theorem NOT_eq : NOT a.toNat = (~~~a).toNat := by
  have hnot : Int.lnot a.toNat = Int.negSucc a.toNat := rfl
  rw [NOT, hnot, asUintN_eq, BitVec.ofInt_negSucc_eq_not_ofNat, BitVec.ofNat_toNat,
    BitVec.setWidth_eq]

end Comparisons

section Shifts

variable (a b : Word)

theorem shiftLeft_cast (m n : ℕ) : (m : ℤ) <<< (n : ℤ) = (m * 2 ^ n : ℕ) := by
  rw [Int.shiftLeft_natCast, Nat.shiftLeft_eq]

theorem shiftRight_cast (m n : ℕ) : (m : ℤ) >>> (n : ℤ) = (m / 2 ^ n : ℕ) := by
  rw [Int.shiftRight_natCast, Nat.shiftRight_eq_div_pow]

theorem SHL_eq : SHL a.toNat b.toNat =
    (if a.toNat < 256 then BitVec.ofNat 256 (b.toNat * 2 ^ a.toNat) else 0).toNat := by
  rw [SHL]
  by_cases hlarge : (a.toNat : ℤ) > 256
  · rw [if_pos hlarge, if_neg (by omega)]
    rfl
  · have hmask : Int.land ((b.toNat : ℤ) <<< (a.toNat : ℤ)) MAX_INTEGER_BIGINT =
        (b.toNat * 2 ^ a.toNat % 2 ^ 256 : ℕ) := by
      rw [shiftLeft_cast, MAX_INTEGER_BIGINT_eq, ← Nat.and_two_pow_sub_one_eq_mod]
      rfl
    rw [if_neg hlarge, hmask]
    by_cases hsmall : a.toNat < 256
    · rw [if_pos hsmall, BitVec.toNat_ofNat]
    · rw [if_neg hsmall, show a.toNat = 256 by omega, Nat.mul_mod_left]
      rfl

theorem SHR_eq : SHR a.toNat b.toNat =
    (if a.toNat < 256 then BitVec.ofNat 256 (b.toNat / 2 ^ a.toNat) else 0).toNat := by
  rw [SHR]
  by_cases hlarge : (a.toNat : ℤ) > 256
  · rw [if_pos hlarge, if_neg (by omega)]
    rfl
  · rw [if_neg hlarge, shiftRight_cast]
    by_cases hsmall : a.toNat < 256
    · rw [if_pos hsmall, toNat_ofNat_of_le b (Nat.div_le_self _ _)]
    · rw [if_neg hsmall, show a.toNat = 256 by omega, Nat.div_eq_of_lt b.isLt]
      rfl

theorem BYTE_eq : BYTE a.toNat b.toNat =
    (if a.toNat < 32 then (b.extractLsb' (8 * (31 - a.toNat)) 8).setWidth 256 else 0).toNat := by
  rw [BYTE]
  by_cases hlarge : (a.toNat : ℤ) > 32
  · rw [if_pos hlarge, if_neg (by omega)]
    rfl
  · rw [if_neg hlarge]
    by_cases hsmall : a.toNat < 32
    · have hamount : (31 - (a.toNat : ℤ)) * 8 = (8 * (31 - a.toNat) : ℕ) := by omega
      have hbyte : Int.land (b.toNat >>> (8 * (31 - a.toNat)) : ℕ) 255 =
          (b.toNat >>> (8 * (31 - a.toNat)) % 2 ^ 8 : ℕ) := by
        rw [← Nat.and_two_pow_sub_one_eq_mod]
        rfl
      rw [if_pos hsmall, hamount, Int.shiftRight_natCast, hbyte, BitVec.toNat_setWidth_of_le
        (by decide), BitVec.extractLsb'_toNat]
    · have hamount : (31 - (a.toNat : ℤ)) * 8 = -(8 : ℕ) := by omega
      have hbyte : Int.land (b.toNat * 2 ^ 8 : ℕ) 255 = (b.toNat * 2 ^ 8 % 2 ^ 8 : ℕ) := by
        rw [← Nat.and_two_pow_sub_one_eq_mod]
        rfl
      rw [if_neg hsmall, hamount, Int.shiftRight_neg, shiftLeft_cast, hbyte, Nat.mul_mod_left]
      rfl

theorem CLZ_eq : CLZ a.toNat = a.clz.toNat := by
  rw [CLZ]
  by_cases hzero : a = 0
  · rw [if_pos ((eq_zero_iff a).mpr hzero), BitVec.clz_eq_iff_eq_zero.mpr hzero]
    rfl
  · have hclz : a.clz.toNat < 256 := by
      have hlt := BitVec.clz_lt_iff_ne_zero.mpr hzero
      rwa [BitVec.lt_def] at hlt
    have hupper := BitVec.toNat_lt_two_pow_sub_clz (x := a)
    have hlower := BitVec.two_pow_sub_clz_le_toNat_of_ne_zero (by decide) hzero
    have hle : binaryLength a.toNat ≤ 256 - a.clz.toNat :=
      (Nat.length_toDigits_le_iff (by decide) (by omega)).mpr hupper
    have hge : ¬ binaryLength a.toNat ≤ 255 - a.clz.toNat := by
      intro hshort
      have hpos : 0 < binaryLength a.toNat := Nat.length_toDigits_pos
      have hlt := (Nat.length_toDigits_le_iff (by decide) (by omega)).mp hshort
      exact absurd hlower (Nat.not_le.mpr hlt)
    rw [if_neg (mt (eq_zero_iff a).mp hzero)]
    omega

end Shifts

section SignBits

variable (a b : Word)

/-- A word is known by its bits. -/
theorem natCast_eq_toNat {n : ℕ} {x : Word} (hlt : n < 2 ^ 256)
    (hbits : ∀ i < 256, n.testBit i = x.getLsbD i) : (n : ℤ) = x.toNat := by
  congr 1
  apply Nat.eq_of_testBit_eq
  intro i
  by_cases hi : i < 256
  · exact hbits i hi
  · have hpow : 2 ^ 256 ≤ 2 ^ i := Nat.pow_le_pow_right (by decide) (Nat.not_lt.mp hi)
    rw [Nat.testBit_lt_two_pow (hlt.trans_le hpow), Nat.testBit_lt_two_pow (x.isLt.trans_le hpow)]

theorem testBit_highMask {s i : ℕ} (hs : s ≤ 256) (hi : i < 256) :
    (2 ^ 256 - 2 ^ s).testBit i = decide (s ≤ i) := by
  have hsplit : 2 ^ 256 - 2 ^ s = (2 ^ (256 - s) - 1) <<< s := by
    rw [Nat.shiftLeft_eq, Nat.sub_mul, Nat.one_mul, ← Nat.pow_add, Nat.sub_add_cancel hs]
  rw [hsplit, Nat.testBit_shiftLeft, Nat.testBit_two_pow_sub_one]
  by_cases h : s ≤ i
  · rw [decide_eq_true h, decide_eq_true (by omega)]
    rfl
  · rw [decide_eq_false h]
    rfl

theorem land_one_ne_zero_iff (m s : ℕ) :
    Int.land ((m : ℤ) >>> (s : ℤ)) 1 ≠ 0 ↔ m.testBit s = true := by
  have hland : Int.land ((m : ℤ) >>> (s : ℤ)) 1 = ((m >>> s) &&& 1 : ℕ) := by
    rw [Int.shiftRight_natCast]
    rfl
  rw [hland, Nat.and_comm, Nat.testBit, bne_iff_ne]
  exact Int.natCast_ne_zero

theorem one_shiftLeft_sub_one (s : ℕ) : (1 : ℤ) <<< (s : ℤ) - 1 = (2 ^ s - 1 : ℕ) := by
  have hone : (1 : ℤ) <<< (s : ℤ) = (1 * 2 ^ s : ℕ) := shiftLeft_cast 1 s
  rw [hone, Nat.one_mul, Nat.cast_sub Nat.one_le_two_pow, Nat.cast_one]

theorem natCast_two_pow_sub {s : ℕ} (hs : s ≤ 256) :
    ((2 ^ 256 - 2 ^ s : ℕ) : ℤ) = 2 ^ 256 - 2 ^ s := by
  rw [Nat.cast_sub (Nat.pow_le_pow_right (by decide) hs), Nat.cast_pow, Nat.cast_pow]
  rfl

/-- The mask that sets every bit from the sign bit on. -/
theorem asUintN_lnot_mask {s : ℕ} (hs : s ≤ 256) :
    asUintN 256 (Int.lnot (2 ^ s - 1 : ℕ)) = (2 ^ 256 - 2 ^ s : ℕ) := by
  have hpos : 1 ≤ 2 ^ s := Nat.one_le_two_pow
  have hle : (2 : ℤ) ^ s ≤ 2 ^ 256 := pow_le_pow_right₀ (by norm_num) hs
  have hone : (1 : ℤ) ≤ 2 ^ s := one_le_pow₀ (by norm_num)
  have hlnot : Int.lnot (2 ^ s - 1 : ℕ) = -2 ^ s := by
    have hneg : Int.lnot (2 ^ s - 1 : ℕ) = -(((2 ^ s - 1 : ℕ) : ℤ) + 1) := Int.negSucc_eq _
    rw [hneg, Nat.cast_sub hpos, Nat.cast_pow, Nat.cast_one]
    norm_num
  rw [asUintN, hlnot, natCast_two_pow_sub hs, ← Int.add_emod_right, Int.emod_eq_of_lt]
  · ring
  · linarith
  · linarith

theorem SIGNEXTEND_eq : SIGNEXTEND a.toNat b.toNat =
    (if a.toNat < 31 then (b.setWidth (8 * (a.toNat + 1))).signExtend 256 else b).toNat := by
  rw [SIGNEXTEND]
  by_cases hk : a.toNat < 31
  · rw [if_pos (by exact_mod_cast hk), if_pos hk]
    obtain ⟨s, hs⟩ : ∃ s, s = a.toNat * 8 + 7 := ⟨_, rfl⟩
    have hsign : (a.toNat : ℤ) * 8 + 7 = s := by omega
    have hwidth : 8 * (a.toNat + 1) = s + 1 := by omega
    have hs256 : s < 256 := by omega
    have hext {i : ℕ} (hi : i < 256) : ((b.setWidth (s + 1)).signExtend 256).getLsbD i =
        if i < s then b.getLsbD i else b.getLsbD s := by
      rw [BitVec.getLsbD_signExtend, decide_eq_true hi, Bool.true_and, BitVec.getLsbD_setWidth,
        BitVec.msb_setWidth'']
      rcases Nat.lt_trichotomy i s with hlt | rfl | hgt
      · rw [if_pos (by omega), if_pos hlt, decide_eq_true (by omega), Bool.true_and]
      · rw [if_pos (by omega), if_neg (Nat.lt_irrefl _), decide_eq_true (by omega), Bool.true_and]
      · rw [if_neg (by omega), if_neg (by omega)]
    rw [hwidth, hsign]
    dsimp only
    rw [one_shiftLeft_sub_one, asUintN_lnot_mask hs256.le]
    by_cases hbit : b.toNat.testBit s = true
    · rw [if_pos ((land_one_ne_zero_iff _ _).mpr hbit)]
      refine natCast_eq_toNat (n := b.toNat ||| (2 ^ 256 - 2 ^ s))
        (Nat.or_lt_two_pow b.isLt (Nat.sub_lt (by norm_num) (Nat.two_pow_pos s))) fun i hi => ?_
      rw [hext hi, Nat.testBit_or, testBit_highMask hs256.le hi]
      by_cases hlt : i < s
      · rw [if_pos hlt, decide_eq_false (by omega), Bool.or_false]
        rfl
      · rw [if_neg hlt, decide_eq_true (by omega), Bool.or_true]
        exact hbit.symm
    · rw [if_neg (mt (land_one_ne_zero_iff _ _).mp hbit)]
      refine natCast_eq_toNat (n := b.toNat &&& (2 ^ s - 1))
        (Nat.and_le_left.trans_lt b.isLt) fun i hi => ?_
      rw [hext hi, Nat.testBit_and, Nat.testBit_two_pow_sub_one]
      by_cases hlt : i < s
      · rw [if_pos hlt, decide_eq_true hlt, Bool.and_true]
        rfl
      · rw [if_neg hlt, decide_eq_false hlt, Bool.and_false]
        exact (Bool.eq_false_iff.mpr hbit).symm
  · rw [if_neg (by exact_mod_cast hk), if_neg hk]

theorem ofInt_ediv_two_pow (n : ℕ) : BitVec.ofInt 256 (b.toInt / 2 ^ n) = b.sshiftRight n := by
  rw [← BitVec.ofInt_toInt (x := b.sshiftRight n), BitVec.toInt_sshiftRight,
    Int.shiftRight_eq_div_pow]
  norm_num

/-- The mask that sets the bits which the shift freed. -/
theorem MAX_INTEGER_BIGINT_shift {s : ℕ} (hs : s ≤ 256) :
    (MAX_INTEGER_BIGINT >>> (s : ℤ)) <<< (s : ℤ) = (2 ^ 256 - 2 ^ s : ℕ) := by
  have hsplit : (2 ^ 256 - 1) / 2 ^ s = 2 ^ (256 - s) - 1 := by
    rw [← Nat.shiftRight_eq_div_pow]
    apply Nat.eq_of_testBit_eq
    intro i
    rw [Nat.testBit_shiftRight, Nat.testBit_two_pow_sub_one, Nat.testBit_two_pow_sub_one]
    congr 1
    exact propext (by omega)
  rw [MAX_INTEGER_BIGINT_eq, shiftRight_cast, shiftLeft_cast, hsplit, Nat.sub_mul, Nat.one_mul,
    ← Nat.pow_add, Nat.sub_add_cancel hs]

theorem toInt_neg_iff : b.toInt < 0 ↔ b.msb = true := by
  rw [BitVec.msb_eq_toInt, decide_eq_true_iff]

theorem SAR_of_lt (hlt : a.toNat < 256) :
    SAR a.toNat b.toNat = (BitVec.ofInt 256 (b.toInt / 2 ^ a.toNat)).toNat := by
  have hle : ¬ (a.toNat : ℤ) > 256 := by omega
  have hwidth : (255 : ℤ) - a.toNat = (255 - a.toNat : ℕ) := by omega
  have hquotient : b.toNat / 2 ^ a.toNat < 2 ^ 256 := (Nat.div_le_self _ _).trans_lt b.isLt
  have hbit (i : ℕ) : (b.toNat / 2 ^ a.toNat).testBit i = b.getLsbD (a.toNat + i) := by
    rw [← Nat.shiftRight_eq_div_pow, Nat.testBit_shiftRight]
    rfl
  rw [SAR, show asIntN 256 b.toNat = b.toInt from fromTwos_eq b]
  dsimp only
  rw [if_neg hle, ofInt_ediv_two_pow, shiftRight_cast, hwidth, MAX_INTEGER_BIGINT_shift (by omega)]
  by_cases hneg : b.toInt < 0
  · rw [if_pos hneg]
    refine natCast_eq_toNat (n := b.toNat / 2 ^ a.toNat ||| (2 ^ 256 - 2 ^ (255 - a.toNat)))
      (Nat.or_lt_two_pow hquotient (Nat.sub_lt (by norm_num) (Nat.two_pow_pos _))) fun i hi => ?_
    rw [Nat.testBit_or, hbit, testBit_highMask (by omega) hi, BitVec.getLsbD_sshiftRight,
      decide_eq_false (Nat.not_le.mpr hi), Bool.not_false, Bool.true_and, (toInt_neg_iff b).mp hneg]
    rcases Nat.lt_trichotomy (a.toNat + i) 255 with hinner | hsign | houter
    · rw [if_pos (by omega), decide_eq_false (by omega), Bool.or_false]
    · rw [if_pos (by omega), decide_eq_true (by omega), Bool.or_true, hsign]
      exact ((toInt_neg_iff b).mp hneg).symm
    · rw [if_neg (by omega), decide_eq_true (by omega), Bool.or_true]
  · rw [if_neg hneg]
    refine natCast_eq_toNat hquotient fun i hi => ?_
    rw [hbit, BitVec.getLsbD_sshiftRight, decide_eq_false (Nat.not_le.mpr hi), Bool.not_false,
      Bool.true_and, Bool.eq_false_iff.mpr (mt (toInt_neg_iff b).mpr hneg)]
    split
    · rfl
    · next hinner => exact BitVec.getLsbD_of_ge _ _ (Nat.not_lt.mp hinner)

/-- Shifts by the width and beyond leave the sign. -/
theorem SAR_of_le (hle : 256 ≤ a.toNat) :
    SAR a.toNat b.toNat = (if b.toInt < 0 then BitVec.ofInt 256 (-1) else (0 : Word)).toNat := by
  rw [SAR, show asIntN 256 b.toNat = b.toInt from fromTwos_eq b]
  dsimp only
  split
  · split <;> rfl
  · next hgt =>
    have heq : a.toNat = 256 := by omega
    rw [heq, shiftRight_cast, Nat.div_eq_of_lt b.isLt]
    split <;> rfl

theorem SAR_eq : SAR a.toNat b.toNat =
    (if a.toNat < 256 then BitVec.ofInt 256 (b.toInt / 2 ^ a.toNat)
      else if b.toInt < 0 then BitVec.ofInt 256 (-1) else 0).toNat := by
  split
  · next hlt => exact SAR_of_lt a b hlt
  · next hge => exact SAR_of_le a b (Nat.not_lt.mp hge)

end SignBits

section Exactness

theorem arity_pos (op : ArithmeticOpcode) : 0 < op.arity := by cases op <;> decide

/-- The value of a handler, before it is pushed. -/
theorem push_of_lt {rest : Stack} (hroom : rest.length < maxHeight) (value : ℤ) :
    push rest value = .ok (value :: rest) := if_neg (Nat.not_le.mpr hroom)

theorem handler_operands {rest : Stack} (hroom : rest.length < maxHeight) (op : ArithmeticOpcode)
    (a b c : Word) :
    handler op (ofWords (op.operands a b c) ++ rest) = .ok ((op.result a b c).toNat :: rest) := by
  have hpush {value : ℤ} {w : Word} (heq : value = w.toNat) :
      push rest value = .ok ((w.toNat : ℤ) :: rest) := by rw [push_of_lt hroom, heq]
  cases op with
  | ADD => exact hpush (ADD_eq a b)
  | MUL => exact hpush (MUL_eq a b)
  | SUB => exact hpush (SUB_eq a b)
  | DIV => exact hpush (DIV_eq a b)
  | SDIV => exact hpush (SDIV_eq a b)
  | MOD => exact hpush (MOD_eq a b)
  | SMOD => exact hpush (SMOD_eq a b)
  | ADDMOD => exact hpush (ADDMOD_eq a b c)
  | MULMOD => exact hpush (MULMOD_eq a b c)
  | EXP => exact hpush (EXP_eq a b)
  | SIGNEXTEND => exact hpush (SIGNEXTEND_eq a b)
  | LT => exact hpush (LT_eq a b)
  | GT => exact hpush (GT_eq a b)
  | SLT => exact hpush (SLT_eq a b)
  | SGT => exact hpush (SGT_eq a b)
  | EQ => exact hpush (EQ_eq a b)
  | ISZERO => exact hpush (ISZERO_eq a)
  | AND => exact hpush (AND_eq a b)
  | OR => exact hpush (OR_eq a b)
  | XOR => exact hpush (XOR_eq a b)
  | NOT => exact hpush (NOT_eq a)
  | BYTE => exact hpush (BYTE_eq a b)
  | SHL => exact hpush (SHL_eq a b)
  | SHR => exact hpush (SHR_eq a b)
  | SAR => exact hpush (SAR_eq a b)
  | CLZ => exact hpush (CLZ_eq a)

/-- On words, an opcode pushes a word: the one its definition gives. -/
theorem handler_exact (op : ArithmeticOpcode) (a b c : Word) (rest : Stack)
    (hheight : (ofWords (op.operands a b c) ++ rest).length ≤ maxHeight) :
    ∃ value : ℤ, handler op (ofWords (op.operands a b c) ++ rest) = .ok (value :: rest) ∧
      0 ≤ value ∧ value < 2 ^ 256 ∧ value = (op.result a b c).toNat := by
  have hlength : (ofWords (op.operands a b c)).length = op.arity := by cases op <;> rfl
  rw [List.length_append, hlength] at hheight
  have hroom : rest.length < maxHeight := by
    have hpos := arity_pos op
    omega
  exact ⟨_, handler_operands hroom op a b c, Int.natCast_nonneg _,
    by exact_mod_cast (op.result a b c).isLt, rfl⟩

/-- The arithmetic shift of the least integer by one less than the width. -/
theorem handler_exact_SAR : ∃ value : ℤ,
    handler .SAR (ofWords [255, .intMin 256] ++ []) = .ok [value] ∧ 0 ≤ value ∧ value < 2 ^ 256 ∧
      value = (ArithmeticOpcode.SAR.result 255 (.intMin 256) 0).toNat :=
  handler_exact .SAR 255 (.intMin 256) 0 [] (by decide)

end Exactness

end EthereumJS.Evm.Operations
