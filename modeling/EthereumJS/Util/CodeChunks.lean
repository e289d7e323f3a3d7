import EthereumJS.Util.BinaryTree
import Mathlib.Order.Monotone.Basic

/-! # The chunks of a code

A chunk has in front how many of its first bytes are data of a push instruction that stands in
a chunk before it.
-/

namespace EthereumJS

variable {code data chunk : Bytes} {i k m n p pos s : Nat}

section Instructions

/-- The bytes that follow an opcode. -/
def pushDataBytes (opcode : UInt8) : Nat :=
  if 0x60 ≤ opcode.toNat ∧ opcode.toNat ≤ 0x7f then opcode.toNat - 0x5f else 0

/-- Where the instructions of a code start. Behind its end the code is zero. -/
def instructionStart (code : Bytes) : Nat → Nat
  | 0 => 0
  | m + 1 => instructionStart code m + 1 +
      pushDataBytes (code.getD (instructionStart code m) 0)

/-- The byte at a position is data of the instruction at a start. -/
def PushDataOf (code : Bytes) (s p : Nat) : Prop :=
  (∃ m, s = instructionStart code m) ∧ s < p ∧ p ≤ s + pushDataBytes (code.getD s 0)

theorem instructionStart_succ (code : Bytes) (m : Nat) : instructionStart code (m + 1) =
    instructionStart code m + 1 + pushDataBytes (code.getD (instructionStart code m) 0) := rfl

theorem instructionStart_strictMono (code : Bytes) : StrictMono (instructionStart code) := by
  apply strictMono_nat_of_lt_succ
  intro m
  rw [instructionStart_succ]
  omega

/-- No instruction starts inside of another one. -/
theorem not_pushDataOf_start (code : Bytes) (s m : Nat) :
    ¬ PushDataOf code s (instructionStart code m) := by
  rintro ⟨⟨l, rfl⟩, hlt, hle⟩
  have hnext : instructionStart code (l + 1) ≤ instructionStart code m :=
    (instructionStart_strictMono code).monotone
      ((instructionStart_strictMono code).lt_iff_lt.mp hlt)
  rw [instructionStart_succ] at hnext
  omega

theorem PushDataOf.unique {t : Nat} (h : PushDataOf code s p) (h' : PushDataOf code t p) :
    s = t := by
  obtain ⟨⟨l, rfl⟩, hlt, hle⟩ := h
  obtain ⟨⟨m, rfl⟩, hlt', hle'⟩ := h'
  have hmono := instructionStart_strictMono code
  have hnext := instructionStart_succ code
  obtain hlm | rfl | hml := lt_trichotomy l m
  · have hstart := hmono.monotone (Nat.succ_le_of_lt hlm)
    rw [Nat.succ_eq_add_one, hnext] at hstart
    omega
  · rfl
  · have hstart := hmono.monotone (Nat.succ_le_of_lt hml)
    rw [Nat.succ_eq_add_one, hnext] at hstart
    omega

theorem pushDataBytes_le (opcode : UInt8) : pushDataBytes opcode ≤ 32 := by
  rw [pushDataBytes]
  split <;> omega

end Instructions

section Loop

/-- How much push data is left at a position. -/
def Remaining (code : Bytes) (p r : Nat) : Prop :=
  (∃ s, PushDataOf code s p ∧ r = s + pushDataBytes (code.getD s 0) + 1 - p) ∨
    (∀ s, ¬ PushDataOf code s p) ∧ r = 0

/-- Before an instruction all is told, from it on nothing is. -/
structure ToldBefore (code : Bytes) (pos : Nat) (data : List UInt8) : Prop where
  before : ∀ p < pos, p < data.length → Remaining code p (data.getD p 0).toNat
  after : ∀ p, pos ≤ p → data.getD p 0 = 0

theorem getD_paddedCode (code : Bytes) (p : Nat) : (paddedCode code).getD p 0 = code.getD p 0 := by
  rw [paddedCode, List.getD_eq_getElem?_getD, List.getD_eq_getElem?_getD, List.getElem?_append]
  split
  · rfl
  · next hp =>
    rw [List.getElem?_eq_none (l := code) (by omega), List.getElem?_replicate]
    split <;> rfl

/-- What is written for one instruction. -/
def writePushData (pos k : Nat) (data : List UInt8) : List UInt8 :=
  (List.range k).foldl (fun data x => data.set (pos + 1 + x) (UInt8.ofNat (k - x))) data

theorem getD_writePushData {data : List UInt8} (pos : Nat) (hk : k ≤ 32)
    (hlength : pos + 1 + k ≤ data.length) (p : Nat) :
    (writePushData pos k data).length = data.length ∧
      ((writePushData pos k data).getD p 0).toNat =
        if pos < p ∧ p ≤ pos + k then pos + k + 1 - p else (data.getD p 0).toNat := by
  have hfold : ∀ m ≤ k, ((List.range m).foldl
        (fun data x => data.set (pos + 1 + x) (UInt8.ofNat (k - x))) data).length = data.length ∧
      (((List.range m).foldl
        (fun data x => data.set (pos + 1 + x) (UInt8.ofNat (k - x))) data).getD p 0).toNat =
        if pos < p ∧ p ≤ pos + m then pos + k + 1 - p else (data.getD p 0).toNat := by
    intro m hm
    induction m with
    | zero => exact ⟨rfl, (if_neg (by omega)).symm⟩
    | succ m ih =>
      obtain ⟨hsame, hget⟩ := ih (by omega)
      rw [List.range_succ, List.foldl_append, List.foldl_cons, List.foldl_nil]
      constructor
      · rw [List.length_set, hsame]
      · rw [List.getD_eq_getElem?_getD, List.getElem?_set, hsame]
        by_cases heq : pos + 1 + m = p
        · have hbyte : (UInt8.ofNat (k - m)).toNat = k - m := by
            rw [UInt8.toNat_ofNat']
            omega
          rw [if_pos heq, if_pos (by omega), if_pos (by omega), Option.getD_some, hbyte]
          omega
        · rw [if_neg heq, ← List.getD_eq_getElem?_getD, hget]
          have hiff : (pos < p ∧ p ≤ pos + m) ↔ (pos < p ∧ p ≤ pos + (m + 1)) := by omega
          simp only [hiff]
  exact hfold k le_rfl

theorem ToldBefore.step (h : ToldBefore code (instructionStart code m) data)
    (hlength : instructionStart code m + 33 ≤ data.length) :
    ToldBefore code (instructionStart code (m + 1))
      (writePushData (instructionStart code m)
        (pushDataBytes (code.getD (instructionStart code m) 0)) data) := by
  have hk := pushDataBytes_le (code.getD (instructionStart code m) 0)
  have hget := getD_writePushData (instructionStart code m) hk (by omega : _ ≤ data.length)
  have hself := not_pushDataOf_start code (m := m)
  have hnext := instructionStart_succ code m
  have hdata : ∀ q, PushDataOf code (instructionStart code m) q ↔ instructionStart code m < q ∧
      q ≤ instructionStart code m + pushDataBytes (code.getD (instructionStart code m) 0) :=
    fun q => ⟨fun hq => hq.2, fun hq => ⟨⟨m, rfl⟩, hq⟩⟩
  generalize instructionStart code m = start at *
  generalize hbytes : pushDataBytes (code.getD start 0) = k at *
  constructor
  · intro p hp hlt
    rw [(hget p).1] at hlt
    rw [(hget p).2]
    obtain hbefore | rfl | hafter := lt_trichotomy p start
    · rw [if_neg (by omega)]
      exact h.before p hbefore hlt
    · refine .inr ⟨hself, ?_⟩
      rw [if_neg (by omega), h.after p le_rfl]
      rfl
    · rw [if_pos (by omega)]
      exact .inl ⟨start, (hdata p).mpr (by omega), by rw [hbytes]⟩
  · intro p hp
    apply UInt8.toNat_inj.mp
    rw [(hget p).2, if_neg (by omega), h.after p (by omega)]

theorem pushDataLoop_succ (padded : Bytes) (fuel pos : Nat) (data : List UInt8) :
    pushDataLoop padded (fuel + 1) pos data =
      if pos < padded.length then
        pushDataLoop padded fuel (pos + 1 + pushDataBytes (padded.getD pos 0))
          (writePushData pos (pushDataBytes (padded.getD pos 0)) data)
      else data := rfl

/-- The loop tells the push data of all of the code. -/
theorem remaining_pushDataLoop {fuel : Nat} (h : ToldBefore code (instructionStart code m) data)
    (hlength : data.length = (paddedCode code).length + 32)
    (hfuel : (paddedCode code).length ≤ instructionStart code m + fuel)
    (hp : p < (paddedCode code).length) :
    Remaining code p
      ((pushDataLoop (paddedCode code) fuel (instructionStart code m) data).getD p 0).toNat := by
  induction fuel generalizing m data with
  | zero => exact h.before p (by omega) (by omega)
  | succ fuel ih =>
    rw [pushDataLoop_succ, getD_paddedCode, ← instructionStart_succ]
    split
    · next hlt =>
      have hk := pushDataBytes_le (code.getD (instructionStart code m) 0)
      have hwritten := getD_writePushData (instructionStart code m) hk
        (by omega : _ ≤ data.length) 0
      refine ih (h.step (by omega)) (hwritten.1.trans hlength) ?_
      rw [instructionStart_succ]
      omega
    · exact h.before p (by omega) (by omega)

end Loop

section Chunks

/-- How many bytes at the start of a chunk are push data of instructions before it. -/
structure LeadingPushData (code : Bytes) (i d : Nat) : Prop where
  le : d ≤ 31
  leading : ∀ k < d, ∃ s < 31 * i, PushDataOf code s (31 * i + k)
  next : d < 31 → ∀ s < 31 * i, ¬ PushDataOf code s (31 * i + d)

/-- A chunk of a code: the count of its leading push data and its part of the code, with zeros
behind the end of the code. -/
def IsCodeChunk (code : Bytes) (i : Nat) (chunk : Bytes) : Prop :=
  ∃ d, LeadingPushData code i d ∧
    chunk = UInt8.ofNat d :: (List.range 31).map fun k => code.getD (31 * i + k) 0

theorem Remaining.leading {r : Nat} (h : Remaining code (31 * i) r) :
    LeadingPushData code i (min r 31) := by
  constructor
  · exact Nat.min_le_right _ _
  · intro k hk
    obtain ⟨s, ⟨hstart, hlt, hle⟩, rfl⟩ | ⟨-, rfl⟩ := h
    · exact ⟨s, hlt, hstart, by omega, by omega⟩
    · omega
  · rintro hd s hs hpush
    obtain ⟨t, hdata, rfl⟩ | ⟨hnone, rfl⟩ := h
    · -- the push data ends where the next instruction starts
      obtain ⟨⟨m, rfl⟩, hlt, hle⟩ := hdata
      have hend : 31 * i + min (instructionStart code m +
          pushDataBytes (code.getD (instructionStart code m) 0) + 1 - 31 * i) 31 =
            instructionStart code (m + 1) := by
        rw [instructionStart_succ]
        omega
      rw [hend] at hpush
      exact not_pushDataOf_start code s (m + 1) hpush
    · rw [Nat.zero_min, Nat.add_zero] at hpush
      exact hnone s hpush

theorem LeadingPushData.unique {d d' : Nat} (h : LeadingPushData code i d)
    (h' : LeadingPushData code i d') : d = d' := by
  have hle := h.le
  have hle' := h'.le
  obtain hlt | rfl | hlt := lt_trichotomy d d'
  · obtain ⟨s, hs, hpush⟩ := h'.leading d hlt
    exact absurd hpush (h.next (by omega) s hs)
  · rfl
  · obtain ⟨s, hs, hpush⟩ := h.leading d' hlt
    exact absurd hpush (h'.next (by omega) s hs)

theorem slice_paddedCode (h : 31 * i + 31 ≤ (paddedCode code).length) :
    ((paddedCode code).drop (31 * i)).take 31 =
      (List.range 31).map fun k => code.getD (31 * i + k) 0 := by
  apply List.ext_getElem
  · rw [List.length_take, List.length_drop, List.length_map, List.length_range]
    omega
  · intro k hk hk'
    rw [List.length_map, List.length_range] at hk'
    rw [List.getElem_take, List.getElem_drop, List.getElem_map, List.getElem_range,
      ← getD_paddedCode, List.getD_eq_getElem?_getD, List.getElem?_eq_getElem (by omega),
      Option.getD_some]

/-- Every chunk of a code counts its leading push data. -/
theorem isCodeChunk_of_mem (h : (chunkifyBinaryTreeCode code)[i]? = some chunk) :
    IsCodeChunk code i chunk := by
  obtain ⟨hi, -⟩ := List.getElem?_eq_some_iff.mp h
  rw [length_chunkifyBinaryTreeCode] at hi
  have hlength := length_paddedCode code
  rw [chunkifyBinaryTreeCode, List.getElem?_map] at h
  obtain ⟨j, hj, rfl⟩ := Option.map_eq_some_iff.mp h
  obtain ⟨-, rfl⟩ := List.getElem?_eq_some_iff.mp hj
  rw [List.getElem_range, slice_paddedCode (by omega)]
  refine ⟨_, Remaining.leading ?_, rfl⟩
  refine remaining_pushDataLoop (m := 0) ?_ ?_ (by rw [instructionStart]; omega) (by omega)
  · constructor
    · exact fun p hp => absurd hp (Nat.not_lt_zero p)
    · intro p _
      rw [List.getD_eq_getElem?_getD, List.getElem?_replicate]
      split <;> rfl
  · rw [List.length_replicate]

end Chunks

end EthereumJS
