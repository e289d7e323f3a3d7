import EthereumJS.Evm.JumpAnalysis

/-! # Decoding with and without the analysis

The scan visits the instructions of a code one after the other, and so does a run that only jumps to
what the scan has found. So the entries that were cached are those that a direct decoding gives.
-/

namespace EthereumJS.Evm.Analysis

open RLP

variable {common : Common} {code : Bytes} {analysis : JumpAnalysis} {i j k m : Nat}

section Starts

/-- How many bytes the scan skips behind an opcode. -/
def skipped (common : Common) (code : Bytes) (i : Nat) : Nat :=
  let opcode := code.getD i 0
  if opcode.toNat ≤ 0x7f then pushDataBytes opcode
  else if common.isActivatedEIP 8024 && takesImmediate opcode then
    match code[i + 1]? with
    | none => 0
    | some immediate => if isImmediateValid opcode immediate then 1 else 0
  else 0

def nextStart (common : Common) (code : Bytes) (i : Nat) : Nat := i + 1 + skipped common code i

/-- The scan from one index comes to another one. -/
def ScansTo (common : Common) (code : Bytes) (i j : Nat) : Prop :=
  ∃ k, (nextStart common code)^[k] i = j

theorem pushDataBytes_of_le {opcode : UInt8} (hlow : opcode.toNat ≤ 0x7f) :
    pushDataBytes opcode = opcode.toNat - 0x5f := by
  unfold pushDataBytes
  split <;> omega

theorem pushDataBytes_pos_iff {opcode : UInt8} :
    0 < pushDataBytes opcode ↔ 0x60 ≤ opcode.toNat ∧ opcode.toNat ≤ 0x7f := by
  unfold pushDataBytes
  split <;> omega

theorem scanStep_snd (hi : i < code.length) :
    (scanStep common code i code[i] analysis).2 + 1 = nextStart common code i := by
  have hget : code.getD i 0 = code[i] := (List.getElem_eq_getD 0).symm
  unfold scanStep nextStart skipped
  rw [hget]
  dsimp only
  split
  · next hlow =>
    rw [pushDataBytes_of_le hlow]
    split
    · dsimp only
      omega
    · split
      · dsimp only
        omega
      · dsimp only
        omega
  · split
    · cases code[i + 1]? with
      | none => rfl
      | some immediate =>
        dsimp only
        split <;> rfl
    · rfl

/-- What one step of the scan writes. -/
theorem scanStep_fst (opcode : UInt8) :
    (scanStep common code i opcode analysis).1 =
      { jumps := if opcode = 0x5b then analysis.jumps.set i 1 else analysis.jumps
        pushes :=
          if 0 < pushDataBytes opcode then
            Function.update analysis.pushes (i + 1)
              (some (bytesToBigInt (pushBytes code (i + 1) (pushDataBytes opcode))))
          else analysis.pushes
        opcodesCached := analysis.opcodesCached.set i (some (lookupOpInfo common opcode)) } := by
  unfold scanStep
  dsimp only
  split
  · next hlow =>
    split
    · next hpush =>
      have hne : opcode ≠ 0x5b := by
        rintro rfl
        exact absurd hpush (by decide)
      rw [if_neg hne, if_pos (pushDataBytes_pos_iff.mpr ⟨hpush, hlow⟩), pushDataBytes_of_le hlow]
    · next hpush =>
      rw [if_neg fun h => hpush (pushDataBytes_pos_iff.mp h).1]
      split <;> rfl
  · next hhigh =>
    have hne : opcode ≠ 0x5b := by
      rintro rfl
      exact hhigh (by decide)
    rw [if_neg hne, if_neg fun h => hhigh (pushDataBytes_pos_iff.mp h).2]
    split
    · cases code[i + 1]? <;> rfl
    · rfl

theorem scansTo_iff :
    ScansTo common code i j ↔ i = j ∨ ScansTo common code (nextStart common code i) j := by
  constructor
  · rintro ⟨k, rfl⟩
    cases k with
    | zero => exact .inl rfl
    | succ k => exact .inr ⟨k, rfl⟩
  · rintro (rfl | ⟨k, rfl⟩)
    · exact ⟨0, rfl⟩
    · exact ⟨k + 1, rfl⟩

theorem ScansTo.le (h : ScansTo common code i j) : i ≤ j := by
  obtain ⟨k, rfl⟩ := h
  induction k generalizing i with
  | zero => exact le_rfl
  | succ k ih =>
    have hnext : i ≤ nextStart common code i := by
      unfold nextStart
      omega
    exact hnext.trans ih

theorem ScansTo.next (h : ScansTo common code i j) :
    ScansTo common code i (nextStart common code j) := by
  obtain ⟨k, rfl⟩ := h
  exact ⟨k + 1, Function.iterate_succ_apply' _ _ _⟩

end Starts

section Scan

/-- What the scan from an index leaves: it writes at the indices that it comes to. -/
structure Scanned (common : Common) (code : Bytes) (i : Nat) (before after : JumpAnalysis) :
    Prop where
  cached : ∀ j < code.length, ScansTo common code i j →
    after.opcodesCached[j]? = some (some (lookupOpInfo common (code.getD j 0)))
  jumps : ∀ j < code.length, ScansTo common code i j → code.getD j 0 = 0x5b →
    after.jumps[j]? = some 1
  jumps_kept : ∀ j, ¬ (ScansTo common code i j ∧ code.getD j 0 = 0x5b) →
    after.jumps[j]? = before.jumps[j]?
  pushes : ∀ j < code.length, ScansTo common code i j → 0 < pushDataBytes (code.getD j 0) →
    after.pushes (j + 1) =
      some (bytesToBigInt (pushBytes code (j + 1) (pushDataBytes (code.getD j 0))))
  earlier : ∀ j < i, after.opcodesCached[j]? = before.opcodesCached[j]? ∧
    after.pushes (j + 1) = before.pushes (j + 1)

theorem scanFrom_scanned (hcached : analysis.opcodesCached.length = code.length)
    (hjumps : analysis.jumps.length = code.length) :
    Scanned common code i analysis (scanFrom common code i analysis) := by
  induction i, analysis using scanFrom.induct common code with
  | case1 i analysis hi ih =>
    have hget : code.getD i 0 = code[i] := (List.getElem_eq_getD 0).symm
    have hlt : i < nextStart common code i := by
      unfold nextStart
      omega
    rw [scanFrom, dif_pos hi]
    rw [scanStep_snd hi] at ih ⊢
    rw [scanStep_fst, ← hget] at ih ⊢
    have hscanned := ih (by rw [List.length_set, hcached])
      (by split <;> simp only [List.length_set, hjumps])
    obtain ⟨hafter, hpushes⟩ := hscanned.earlier i hlt
    refine ⟨?_, ?_, ?_, ?_, ?_⟩
    · intro j hj hto
      obtain rfl | hto := scansTo_iff.mp hto
      · rw [hafter]
        exact List.getElem?_set_self (by omega)
      · exact hscanned.cached j hj hto
    · intro j hj hto hdest
      obtain rfl | hto := scansTo_iff.mp hto
      · have hnot : ¬ ScansTo common code (nextStart common code i) i := fun h => by
          have hle := h.le
          omega
        rw [hscanned.jumps_kept i (fun h => hnot h.1), if_pos hdest]
        exact List.getElem?_set_self (by omega)
      · exact hscanned.jumps j hj hto hdest
    · intro j hnot
      rw [hscanned.jumps_kept j fun h => hnot ⟨scansTo_iff.mpr (.inr h.1), h.2⟩]
      split
      · next hdest =>
        refine List.getElem?_set_ne fun heq => hnot ?_
        rw [← heq]
        exact ⟨scansTo_iff.mpr (.inl rfl), hdest⟩
      · rfl
    · intro j hj hto hpush
      obtain rfl | hto := scansTo_iff.mp hto
      · rw [hpushes, if_pos hpush]
        exact Function.update_self _ _ _
      · exact hscanned.pushes j hj hto hpush
    · intro j hji
      obtain ⟨hsame, hsame'⟩ := hscanned.earlier j (hji.trans hlt)
      rw [hsame, hsame']
      constructor
      · exact List.getElem?_set_ne (by omega)
      · dsimp only
        by_cases hpush : 0 < pushDataBytes (code.getD i 0)
        · rw [if_pos hpush]
          exact Function.update_of_ne (by omega) _ _
        · rw [if_neg hpush]
  | case2 i analysis hi =>
    rw [scanFrom, dif_neg hi]
    refine ⟨?_, ?_, fun j hnot => rfl, ?_, fun j hji => ⟨rfl, rfl⟩⟩
    · intro j hj hto
      have hle := hto.le
      omega
    · intro j hj hto
      have hle := hto.le
      omega
    · intro j hj hto
      have hle := hto.le
      omega

/-- The whole analysis. -/
theorem getValidJumpDestinations_scanned (common : Common) (code : Bytes) :
    Scanned common code 0
      { jumps := List.replicate code.length 0, pushes := fun _ => none
        opcodesCached := List.replicate code.length none }
      (getValidJumpDestinations common code) :=
  scanFrom_scanned List.length_replicate List.length_replicate

end Scan

section Destinations

/-- Every byte is an opcode or data of a push. -/
theorem start_or_pushData (code : Bytes) (p : Nat) :
    (∃ m, p = instructionStart code m) ∨ ∃ s, PushDataOf code s p := by
  induction p with
  | zero => exact .inl ⟨0, rfl⟩
  | succ p ih =>
    obtain ⟨m, rfl⟩ | ⟨s, ⟨m, rfl⟩, hlt, hle⟩ := ih
    · by_cases hpush : pushDataBytes (code.getD (instructionStart code m) 0) = 0
      · refine .inl ⟨m + 1, ?_⟩
        rw [instructionStart_succ, hpush]
      · exact .inr ⟨_, ⟨m, rfl⟩, by omega, by omega⟩
    · by_cases hend : p = instructionStart code m +
        pushDataBytes (code.getD (instructionStart code m) 0)
      · refine .inl ⟨m + 1, ?_⟩
        rw [instructionStart_succ]
        omega
      · exact .inr ⟨_, ⟨m, rfl⟩, by omega, by omega⟩

/-- An immediate that the scan skips. -/
structure SkippedImmediate (common : Common) (code : Bytes) (i : Nat) : Prop where
  active : common.isActivatedEIP 8024 = true
  takes : takesImmediate (code.getD i 0) = true
  valid : ∃ immediate, code[i + 1]? = some immediate ∧
    isImmediateValid (code.getD i 0) immediate = true

/-- A valid immediate is no jump destination and no push. -/
theorem immediate_range {opcode immediate : UInt8}
    (h : isImmediateValid opcode immediate = true) :
    immediate.toNat < 0x5b ∨ 0x7f < immediate.toNat := by
  unfold isImmediateValid isEIP8024PairImmediateValid isEIP8024SingleImmediateValid at h
  split at h
  · rw [Bool.or_eq_true, decide_eq_true_eq, decide_eq_true_eq] at h
    omega
  · rw [Bool.or_eq_true, decide_eq_true_eq, decide_eq_true_eq] at h
    omega

theorem takesImmediate_high {opcode : UInt8} (h : takesImmediate opcode = true) :
    0x7f < opcode.toNat := by
  unfold takesImmediate at h
  rw [Bool.or_eq_true, Bool.or_eq_true, beq_iff_eq, beq_iff_eq, beq_iff_eq] at h
  obtain (rfl | rfl) | rfl := h <;> decide

theorem pushDataBytes_of_high {opcode : UInt8} (h : opcode.toNat < 0x60 ∨ 0x7f < opcode.toNat) :
    pushDataBytes opcode = 0 :=
  if_neg fun hpush => by omega

theorem SkippedImmediate.nextStart (h : SkippedImmediate common code i) :
    nextStart common code i = i + 2 := by
  have hhigh := takesImmediate_high h.takes
  obtain ⟨immediate, hget, hvalid⟩ := h.valid
  unfold Analysis.nextStart skipped
  dsimp only
  rw [if_neg (by omega), h.active, h.takes, hget]
  dsimp only
  rw [if_pos hvalid]
  rfl

theorem nextStart_of_not_skipped (h : ¬ SkippedImmediate common code i) :
    nextStart common code i = i + 1 + pushDataBytes (code.getD i 0) := by
  unfold nextStart skipped
  dsimp only
  split
  · rfl
  · next hhigh =>
    rw [pushDataBytes_of_high (.inr (by omega))]
    split
    · next htakes =>
      rw [Bool.and_eq_true] at htakes
      cases hget : code[i + 1]? with
      | none => rfl
      | some immediate =>
        dsimp only
        rw [if_neg fun hvalid => h ⟨htakes.1, htakes.2, immediate, hget, hvalid⟩]
    · rfl

/-- Behind a skipped immediate the scans with and without it are together again. -/
theorem SkippedImmediate.start (h : SkippedImmediate common code (instructionStart code m)) :
    instructionStart code (m + 2) = instructionStart code m + 2 := by
  have hfirst : instructionStart code (m + 1) = instructionStart code m + 1 := by
    rw [instructionStart_succ, pushDataBytes_of_high (.inr (takesImmediate_high h.takes))]
  obtain ⟨immediate, hget, hvalid⟩ := h.valid
  have hrange := immediate_range hvalid
  have himmediate : code.getD (instructionStart code m + 1) 0 = immediate := by
    rw [List.getD_eq_getElem?_getD, hget, Option.getD_some]
  rw [instructionStart_succ, hfirst, himmediate, pushDataBytes_of_high (by omega)]

/-- The scan comes to instructions only. -/
theorem ScansTo.start (h : ScansTo common code 0 i) : ∃ m, i = instructionStart code m := by
  obtain ⟨k, rfl⟩ := h
  induction k with
  | zero => exact ⟨0, rfl⟩
  | succ k ih =>
    obtain ⟨m, hm⟩ := ih
    rw [Function.iterate_succ_apply', hm]
    by_cases hskipped : SkippedImmediate common code (instructionStart code m)
    · exact ⟨m + 2, by rw [hskipped.nextStart, hskipped.start]⟩
    · exact ⟨m + 1, nextStart_of_not_skipped hskipped⟩

/-- It leaves out no instruction but the immediates that it skips. -/
theorem scansTo_or_skipped (common : Common) (code : Bytes) (m : Nat) :
    ScansTo common code 0 (instructionStart code m) ∨
      ∃ t, ScansTo common code 0 t ∧ SkippedImmediate common code t ∧
        instructionStart code m = t + 1 := by
  induction m with
  | zero => exact .inl ⟨0, rfl⟩
  | succ m ih =>
    rw [instructionStart_succ]
    obtain hto | ⟨t, hto, hskipped, heq⟩ := ih
    · by_cases hskipped : SkippedImmediate common code (instructionStart code m)
      · refine .inr ⟨_, hto, hskipped, ?_⟩
        rw [pushDataBytes_of_high (.inr (takesImmediate_high hskipped.takes))]
      · rw [← nextStart_of_not_skipped hskipped]
        exact .inl hto.next
    · left
      obtain ⟨immediate, hget, hvalid⟩ := hskipped.valid
      have hrange := immediate_range hvalid
      have himmediate : code.getD (t + 1) 0 = immediate := by
        rw [List.getD_eq_getElem?_getD, hget, Option.getD_some]
      rw [heq, himmediate, pushDataBytes_of_high (by omega)]
      have hnext := hto.next
      rw [hskipped.nextStart] at hnext
      exact hnext

/-- Where a jump may go: to a `JUMPDEST` that is no data of a push. -/
def IsJumpDest (code : Bytes) (dest : Nat) : Prop :=
  code[dest]? = some 0x5b ∧ ∀ s, ¬ PushDataOf code s dest

theorem getD_of_getElem? {b : UInt8} (h : code[i]? = some b) : code.getD i 0 = b := by
  rw [List.getD_eq_getElem?_getD, h, Option.getD_some]

theorem IsJumpDest.scansTo (h : IsJumpDest code i) (common : Common) : ScansTo common code 0 i := by
  obtain ⟨m, rfl⟩ | ⟨s, hs⟩ := start_or_pushData code i
  · obtain hto | ⟨t, -, hskipped, heq⟩ := scansTo_or_skipped common code m
    · exact hto
    · obtain ⟨immediate, hget, hvalid⟩ := hskipped.valid
      have hdest := h.1
      rw [heq, hget] at hdest
      have hrange := immediate_range hvalid
      rw [Option.some.inj hdest] at hrange
      exact absurd hrange (by decide)
  · exact absurd hs (h.2 s)

/-- The valid jumps, with EIP-8024 or without it. -/
theorem jumps_iff (common : Common) (code : Bytes) (i : Nat) :
    (getValidJumpDestinations common code).jumps[i]? = some 1 ↔ IsJumpDest code i := by
  have hscanned := getValidJumpDestinations_scanned common code
  constructor
  · intro hone
    by_contra hnot
    have hkept : ¬ (ScansTo common code 0 i ∧ code.getD i 0 = 0x5b) := by
      rintro ⟨hto, hdest⟩
      obtain ⟨m, rfl⟩ := hto.start
      refine hnot ⟨?_, fun s => not_pushDataOf_start code s m⟩
      rw [List.getD_eq_getElem?_getD] at hdest
      cases hget : code[instructionStart code m]? with
      | none =>
        rw [hget] at hdest
        exact absurd hdest (by decide)
      | some b =>
        rw [hget] at hdest
        exact congrArg some hdest
    rw [hscanned.jumps_kept i hkept, List.getElem?_replicate] at hone
    split at hone
    · exact absurd hone (by decide)
    · cases hone
  · intro hdest
    exact hscanned.jumps i (List.getElem?_eq_some_iff.mp hdest.1).1 (hdest.scansTo common)
      (getD_of_getElem? hdest.1)

end Destinations

section Direct

/-- The big-endian value of bytes of a code, which is zero behind its end. -/
def pushValue (code : Bytes) (position n : Nat) : Nat :=
  bytesToBigInt ((List.range n).map fun k => code.getD (position + k) 0)

open Classical in
noncomputable def directJump (code : Bytes) (dest : Nat) : Except Halt Nat :=
  if IsJumpDest code dest then .ok dest else .error .invalidJump

def directPush (code : Bytes) (opcode : UInt8) (programCounter : Nat) : Option Nat × Nat :=
  (some (pushValue code programCounter (opcode.toNat - 0x5f)),
    programCounter + (opcode.toNat - 0x5f))

/-- An instruction as the bytes of the code give it. -/
noncomputable def directStep (common : Common) (code : Bytes) (programCounter : Nat)
    (operand : Option Nat) : Except Halt (List (Option Nat) × Nat) :=
  if programCounter < code.length then
    if (lookupOpInfo common (code.getD programCounter 0)).isInvalid then .error .invalidOpcode
    else handler common code (directJump code) (directPush code) (code.getD programCounter 0)
      (programCounter + 1) operand
  else .error .codeEnd

noncomputable def directRun (common : Common) (code : Bytes) :
    List (Option Nat) → Nat → Except Halt (List (Option Nat) × Nat)
  | [], programCounter => .ok ([], programCounter)
  | operand :: operands, programCounter => do
    let (pushed, programCounter) ← directStep common code programCounter operand
    let (later, programCounter) ← directRun common code operands programCounter
    .ok (pushed ++ later, programCounter)

variable {opcode : UInt8} {operand : Option Nat} {pc pc' n : Nat} {pushed : List (Option Nat)}

theorem pushBytes_eq (code : Bytes) (position n : Nat) :
    pushBytes code position n = (List.range n).map fun k => code.getD (position + k) 0 := by
  have hpadded : pushBytes code position n = setLengthRight ((code.drop position).take n) n := by
    unfold pushBytes
    dsimp only
    split
    · rfl
    · next hfull =>
      unfold setLengthRight
      rw [Nat.sub_eq_zero_of_le (not_lt.mp hfull)]
      exact (List.append_nil _).symm
  rw [hpadded, setLengthRight]
  refine List.ext_getElem ?_ fun k hk hk' => ?_
  · simp only [List.length_append, List.length_take, List.length_drop, List.length_replicate,
      List.length_map, List.length_range]
    omega
  · rw [List.getElem_map, List.getElem_range, List.getElem_append]
    split
    · next hin =>
      rw [List.getElem_take, List.getElem_drop]
      exact List.getElem_eq_getD 0
    · next hout =>
      rw [List.length_map, List.length_range] at hk'
      rw [List.length_take, List.length_drop] at hout
      rw [List.getElem_replicate, List.getD_eq_getElem?_getD, List.getElem?_eq_none (by omega)]
      rfl

theorem code_of_valid {common : Common} (h : (lookupOpInfo common opcode).isInvalid = false) :
    (lookupOpInfo common opcode).code = opcode := by
  unfold lookupOpInfo at h ⊢
  split
  · rfl
  · next hnot =>
    rw [if_neg hnot] at h
    exact absurd h (by decide)

/-- A handler needs what a jump does for jumps and what a push does for pushes only. -/
theorem handler_congr {jump jump' : Nat → Except Halt Nat}
    {push push' : UInt8 → Nat → Option Nat × Nat}
    (hjump : opcode = 0x56 ∨ opcode = 0x57 → jump = jump')
    (hpush : 0 < pushDataBytes opcode → push opcode pc = push' opcode pc) :
    handler common code jump push opcode pc operand =
      handler common code jump' push' opcode pc operand := by
  unfold handler
  by_cases hfirst : opcode = 0x56 ∨ opcode = 0x57
  · rw [hjump hfirst]
    obtain rfl | rfl := hfirst <;> rfl
  · rw [not_or] at hfirst
    simp only [if_neg hfirst.1, if_neg hfirst.2]
    by_cases hpushes : 0x60 ≤ opcode.toNat ∧ opcode.toNat ≤ 0x7f
    · rw [hpush (pushDataBytes_pos_iff.mpr hpushes)]
    · simp only [if_neg hpushes]

theorem jump_eq_directJump (common : Common) (code : Bytes) :
    jump code (some (getValidJumpDestinations common code)) = directJump code := by
  funext dest
  have hiff := jumps_iff common code dest
  unfold jump directJump
  split
  · next hlarge =>
    rw [if_neg]
    intro hdest
    have hlt := (List.getElem?_eq_some_iff.mp hdest.1).1
    omega
  · by_cases hdest : IsJumpDest code dest
    · rw [if_pos hdest]
      exact if_pos (hiff.mpr hdest)
    · rw [if_neg hdest]
      exact if_neg fun hone => hdest (hiff.mp hone)

/-- Where the next instruction is, if it is no jump. -/
theorem nextStart_of_plain (hpush : pushDataBytes (code.getD pc 0) = 0)
    (htakes : takesImmediate (code.getD pc 0) = false) : nextStart common code pc = pc + 1 := by
  rw [nextStart_of_not_skipped, hpush, Nat.add_zero]
  intro h
  rw [h.takes] at htakes
  cases htakes

/-- A run comes to instructions that the scan has visited. -/
theorem handler_scansTo (hto : ScansTo common code 0 pc)
    (h : handler common code (directJump code) (directPush code) (code.getD pc 0) (pc + 1) operand =
      .ok (pushed, pc')) :
    ScansTo common code 0 pc' ∨ code.length ≤ pc' := by
  have hjump : ∀ dest, ((directJump code dest).map fun dest => (([] : List (Option Nat)), dest)) =
      .ok (pushed, pc') → ScansTo common code 0 pc' := by
    intro dest hdest
    unfold directJump at hdest
    split at hdest
    · next hvalid =>
      cases hdest
      exact hvalid.scansTo common
    · cases hdest
  unfold handler at h
  split at h
  · cases h
  · split at h
    · cases h
    · split at h
      · exact .inl (hjump _ h)
      · split at h
        · next hjumpi =>
          cases operand with
          | none =>
            cases h
            left
            rw [← nextStart_of_plain (by rw [hjumpi]; decide) (by rw [hjumpi]; decide)]
            exact hto.next
          | some dest => exact .inl (hjump _ h)
        · split at h
          · next hpush =>
            cases h
            left
            have hnext := hto.next
            rw [nextStart_of_not_skipped fun h => absurd (takesImmediate_high h.takes) (by omega),
              pushDataBytes_of_le hpush.2] at hnext
            exact hnext
          · next hpush =>
            have hnone : pushDataBytes (code.getD pc 0) = 0 :=
              Nat.eq_zero_of_not_pos fun hpos => hpush (pushDataBytes_pos_iff.mp hpos)
            split at h
            · next htakes =>
              split at h
              · cases h
              · next hactive =>
                dsimp only at h
                split at h
                · next hvalid =>
                  cases h
                  rw [Bool.not_eq_true, Bool.not_eq_false'] at hactive
                  cases hget : code[pc + 1]? with
                  | none =>
                    rw [List.getElem?_eq_none_iff] at hget
                    exact .inr (by omega)
                  | some immediate =>
                    left
                    have hskipped : SkippedImmediate common code pc :=
                      ⟨hactive, htakes, immediate, hget, getD_of_getElem? hget ▸ hvalid⟩
                    rw [← hskipped.nextStart]
                    exact hto.next
                · cases h
            · next htakes =>
              cases h
              left
              rw [← nextStart_of_plain hnone (Bool.eq_false_of_not_eq_true htakes)]
              exact hto.next

end Direct

section Agreement

variable {state : RunState} {operand : Option Nat} {operands : List (Option Nat)} {pc : Nat}
  {pushed : List (Option Nat)}

/-- There is no analysis but that of the code. -/
def OwnAnalysis (common : Common) (code : Bytes) (analysis : Option JumpAnalysis) : Prop :=
  analysis = none ∨ analysis = some (getValidJumpDestinations common code)

/-- What a push finds where there is an analysis. -/
theorem pushes_eq (hpc : pc < code.length) (hto : ScansTo common code 0 pc)
    (hpush : 0 < pushDataBytes (code.getD pc 0)) :
    pushHandler code (some (getValidJumpDestinations common code)) (code.getD pc 0) (pc + 1) =
      directPush code (code.getD pc 0) (pc + 1) := by
  have hscanned := getValidJumpDestinations_scanned common code
  unfold pushHandler directPush pushValue
  dsimp only
  rw [hscanned.pushes pc hpc hto hpush, pushBytes_eq,
    pushDataBytes_of_le (pushDataBytes_pos_iff.mp hpush).2]

theorem pushHandler_none (code : Bytes) (opcode : UInt8) (pc : Nat) :
    pushHandler code none opcode pc = directPush code opcode pc := by
  unfold pushHandler directPush pushValue
  dsimp only
  rw [pushBytes_eq]

/-- The entry of an instruction runs it as the bytes of the code say. -/
theorem runStep_eq_directStep {analysis : Option JumpAnalysis} (hpc : pc < code.length)
    (hjump : code.getD pc 0 = 0x56 ∨ code.getD pc 0 = 0x57 →
      analysis = some (getValidJumpDestinations common code))
    (hpush : 0 < pushDataBytes (code.getD pc 0) →
      pushHandler code analysis (code.getD pc 0) (pc + 1) =
        directPush code (code.getD pc 0) (pc + 1)) :
    runStep common code analysis (lookupOpInfo common (code.getD pc 0)) pc operand =
      directStep common code pc operand := by
  unfold runStep directStep
  rw [if_pos hpc]
  split
  · rfl
  · next hvalid =>
    rw [code_of_valid (Bool.eq_false_of_not_eq_true hvalid)]
    refine handler_congr (fun hfirst => ?_) hpush
    rw [hjump hfirst]
    exact jump_eq_directJump common code

/-- One round of the loop, before the analysis or after it. -/
theorem loopStep_eq (hown : OwnAnalysis common code state.analysis)
    (hto : ScansTo common code 0 state.programCounter ∨ code.length ≤ state.programCounter) :
    ∃ analysis, OwnAnalysis common code analysis ∧
      loopStep common code state operand =
        (directStep common code state.programCounter operand).map
          fun result => (result.1, ⟨result.2, analysis⟩) := by
  obtain ⟨pc, analysis⟩ := state
  dsimp only at hown hto ⊢
  by_cases hpc : pc < code.length
  · have hscans : ScansTo common code 0 pc := hto.resolve_right (by omega)
    unfold loopStep
    dsimp only
    rw [if_pos hpc]
    obtain rfl | rfl := hown
    · dsimp only
      by_cases hfirst : code.getD pc 0 = 0x56 ∨ code.getD pc 0 = 0x57 ∨ code.getD pc 0 = 0x5e
      · refine ⟨some (getValidJumpDestinations common code), .inr rfl, ?_⟩
        rw [if_pos hfirst, runStep_eq_directStep hpc (fun _ => rfl)]
        exact pushes_eq hpc hscans
      · refine ⟨none, .inl rfl, ?_⟩
        rw [if_neg hfirst, runStep_eq_directStep hpc
          (fun hjumps => absurd (hjumps.imp_right .inl) hfirst)]
        exact fun _ => pushHandler_none code _ _
    · refine ⟨_, .inr rfl, ?_⟩
      dsimp only
      rw [(getValidJumpDestinations_scanned common code).cached pc hpc hscans]
      dsimp only
      rw [runStep_eq_directStep hpc (fun _ => rfl)]
      exact pushes_eq hpc hscans
  · refine ⟨none, .inl rfl, ?_⟩
    unfold loopStep directStep
    dsimp only
    rw [if_neg hpc, if_neg hpc]
    rfl

theorem directStep_scansTo {pc' : Nat} (hto : ScansTo common code 0 pc ∨ code.length ≤ pc)
    (h : directStep common code pc operand = .ok (pushed, pc')) :
    ScansTo common code 0 pc' ∨ code.length ≤ pc' := by
  unfold directStep at h
  split at h
  · next hpc =>
    split at h
    · cases h
    · exact handler_scansTo (hto.resolve_right (by omega)) h
  · cases h

theorem directRun_scansTo {pc' : Nat} (hto : ScansTo common code 0 pc ∨ code.length ≤ pc)
    (h : directRun common code operands pc = .ok (pushed, pc')) :
    ScansTo common code 0 pc' ∨ code.length ≤ pc' := by
  induction operands generalizing pc pushed with
  | nil =>
    cases h
    exact hto
  | cons operand operands ih =>
    obtain ⟨⟨first, pc₁⟩, hstep, h⟩ := bind_eq_ok.mp h
    obtain ⟨⟨later, pc₂⟩, hrun, h⟩ := bind_eq_ok.mp h
    cases h
    exact ih (directStep_scansTo hto hstep) hrun

/-- The loop runs as the bytes of the code say, whatever its jumps take from the stack. -/
theorem runLoop_eq (hown : OwnAnalysis common code state.analysis)
    (hto : ScansTo common code 0 state.programCounter ∨ code.length ≤ state.programCounter) :
    (runLoop common code operands state).map (fun result => (result.1, result.2.programCounter)) =
      directRun common code operands state.programCounter := by
  induction operands generalizing state with
  | nil => rfl
  | cons operand operands ih =>
    obtain ⟨analysis, hown', hstep⟩ := @loopStep_eq common code state operand hown hto
    unfold runLoop directRun
    rw [hstep]
    cases hdirect : directStep common code state.programCounter operand with
    | error e => rfl
    | ok result =>
      obtain ⟨first, pc'⟩ := result
      have hrest := @ih ⟨pc', analysis⟩ hown' (directStep_scansTo hto hdirect)
      change Except.map _ (runLoop common code operands ⟨pc', analysis⟩ >>= _) =
        (directRun common code operands pc' >>= _)
      rw [← hrest]
      cases runLoop common code operands ⟨pc', analysis⟩ <;> rfl

/-- What the analysis caches of the instructions that a run comes to, the jumps that it finds, and
the runs that use both. -/
theorem cached_decoding (common : Common) (code : Bytes) :
    (∀ operands pushed pc, directRun common code operands 0 = .ok (pushed, pc) →
      pc < code.length →
      (getValidJumpDestinations common code).opcodesCached[pc]? =
          some (some (lookupOpInfo common (code.getD pc 0))) ∧
        ∀ n, 1 ≤ n → n ≤ 32 → (code.getD pc 0).toNat = 0x5f + n →
          (getValidJumpDestinations common code).pushes (pc + 1) =
            some (pushValue code (pc + 1) n)) ∧
    (∀ i, (getValidJumpDestinations common code).jumps[i]? = some 1 ↔
      code[i]? = some 0x5b ∧ ∀ s, ¬ PushDataOf code s i) ∧
    ∀ operands, (runLoop common code operands ⟨0, none⟩).map
        (fun result => (result.1, result.2.programCounter)) =
      directRun common code operands 0 := by
  have hscanned := getValidJumpDestinations_scanned common code
  have hzero : ScansTo common code 0 0 := ⟨0, rfl⟩
  refine ⟨fun operands pushed pc hrun hpc => ?_, jumps_iff common code,
    fun operands => runLoop_eq (.inl rfl) (.inl hzero)⟩
  have hto := (directRun_scansTo (.inl hzero) hrun).resolve_right (by omega)
  refine ⟨hscanned.cached pc hpc hto, fun n hone hn hpush => ?_⟩
  have hbytes : pushDataBytes (code.getD pc 0) = n := by
    rw [pushDataBytes_of_le (by omega)]
    omega
  rw [hscanned.pushes pc hpc hto (by omega), hbytes, pushBytes_eq]
  rfl

/-- `JUMPDEST` and a `PUSH2` with one byte behind it. -/
theorem cached_decoding_sample :
    (getValidJumpDestinations ⟨.london, []⟩ [0x5b, 0x61, 0x01]).opcodesCached[1]? =
      some (some ⟨0x61⟩) ∧
    (getValidJumpDestinations ⟨.london, []⟩ [0x5b, 0x61, 0x01]).pushes 2 = some 256 := by
  have hrun : directRun ⟨.london, []⟩ [0x5b, 0x61, 0x01] [none] 0 = .ok ([], 1) := by rfl
  obtain ⟨hcached, hpushes⟩ :=
    (cached_decoding ⟨.london, []⟩ [0x5b, 0x61, 0x01]).1 [none] [] 1 hrun (by decide)
  exact ⟨hcached, hpushes 2 (by decide) (by decide) (by decide)⟩

end Agreement

end EthereumJS.Evm.Analysis
