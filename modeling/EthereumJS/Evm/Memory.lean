import EthereumJS.Evm.CallGas
import EthereumJS.Evm.RefundCounter
import Mathlib.Algebra.Order.Floor.Div

/-! # Memory

`Memory` of `evm/src/memory.ts`, whose array grows by containers on writes and reads, is an array
of zeros without end. The fees for its expansion, charged against the costs so far, add up to the
cost of the words that are used.
-/

namespace EthereumJS.Evm

section Fees

/-- The cost of a number of words. -/
def memoryCost (words : ℕ) : ℕ := 3 * words + words * words / 512

/-- The words up to the last byte of an access; an access without length has none. -/
def accessWords (access : ℕ × ℕ) : ℕ :=
  if access.2 = 0 then 0 else (access.1 + access.2) ⌈/⌉ 32

/-- The words that a frame uses, whatever the order of its accesses. -/
def wordsUsed (accesses : Multiset (ℕ × ℕ)) : ℕ := (accesses.map accessWords).sup

variable (common : Common)

theorem memoryGas_eq : common.param .memoryGas = 3 := by
  obtain ⟨eip, -, heq⟩ := common.exists_chainstart_param .memoryGas rfl
  exact of_decide_eq_true (of_eipParams heq (· = 3) (by decide))

theorem quadCoefficientDivGas_eq : common.param .quadCoefficientDivGas = 512 := by
  obtain ⟨eip, -, heq⟩ := common.exists_chainstart_param .quadCoefficientDivGas rfl
  exact of_decide_eq_true (of_eipParams heq (· = 512) (by decide))

theorem memoryCost_strictMono : StrictMono memoryCost := by
  intro m n h
  have hsquare : m * m / 512 ≤ n * n / 512 := Nat.div_le_div_right (Nat.mul_le_mul h.le h.le)
  rw [memoryCost, memoryCost]
  omega

/-- The memory of a frame that uses so many words. -/
def Memory.ofWords (words : ℕ) : Memory :=
  { memoryWordCount := words, highestMemCost := memoryCost words }

/-- An access is charged what it adds to the cost of the words. -/
theorem memoryExpansion_ofWords (words : ℕ) (access : ℕ × ℕ) :
    memoryExpansion common (.ofWords words) access.1 access.2 =
      (memoryCost (max words (accessWords access)) - memoryCost words,
        .ofWords (max words (accessWords access))) := by
  rw [memoryExpansion, accessWords]
  by_cases hlength : access.2 = 0
  · rw [if_pos hlength, if_pos hlength, Nat.max_zero, Nat.sub_self]
  · have hneeded : (access.1 + access.2) ⌈/⌉ 32 = divCeil (access.1 + access.2) 32 := rfl
    rw [if_neg hlength, if_neg hlength, hneeded, memoryGas_eq, quadCoefficientDivGas_eq]
    generalize divCeil (access.1 + access.2) 32 = needed
    dsimp only
    by_cases hle : needed ≤ words
    · have hcount : needed ≤ (Memory.ofWords words).memoryWordCount := hle
      rw [if_pos hcount, Nat.max_eq_left hle, Nat.sub_self]
    · have hcount : ¬ needed ≤ (Memory.ofWords words).memoryWordCount := hle
      have hlt := Nat.lt_of_not_le hle
      have hcost : needed * 3 + needed * needed / 512 = memoryCost needed := by
        rw [memoryCost, Nat.mul_comm 3]
      rw [if_neg hcount, Nat.max_eq_right hlt.le, hcost]
      exact if_pos (memoryCost_strictMono hlt)

/-- The fees of a frame. -/
def fees (accesses : List (ℕ × ℕ)) : Step (List ℤ) :=
  accesses.mapM fun access => subMemUsage common access.1 access.2

theorem fees_ofWords (accesses : List (ℕ × ℕ)) :
    ∀ (words : ℕ) (s : RunState), s.memory = .ofWords words →
      ∃ charged : List ℤ, fees common accesses s =
          .ok charged { s with memory := .ofWords (max words (wordsUsed accesses)) } ∧
        memoryCost words + charged.sum = memoryCost (max words (wordsUsed accesses)) := by
  induction accesses with
  | nil =>
    intro words s hs
    have hwords : max words (wordsUsed ↑([] : List (ℕ × ℕ))) = words := Nat.max_zero words
    rw [hwords, ← hs]
    exact ⟨[], rfl, Int.add_zero _⟩
  | cons access accesses ih =>
    intro words s hs
    obtain ⟨next, hnext⟩ : ∃ next, next = max words (accessWords access) := ⟨_, rfl⟩
    have hwords : max words (wordsUsed ↑(access :: accesses)) = max next (wordsUsed accesses) := by
      rw [hnext, Nat.max_assoc, wordsUsed, ← Multiset.cons_coe, Multiset.map_cons,
        Multiset.sup_cons]
      rfl
    have hstep : subMemUsage common access.1 access.2 s =
        .ok ((memoryCost next - memoryCost words : ℕ) : ℤ) { s with memory := .ofWords next } := by
      rw [subMemUsage, hs, memoryExpansion_ofWords, hnext]
    obtain ⟨charged, hcharged, hsum⟩ := ih next { s with memory := .ofWords next } rfl
    refine ⟨((memoryCost next - memoryCost words : ℕ) : ℤ) :: charged, ?_, ?_⟩
    · rw [fees] at hcharged ⊢
      rw [List.mapM_cons, hwords]
      simp only [bind, EStateM.bind, hstep, hcharged, pure, EStateM.pure]
    · have hle : memoryCost words ≤ memoryCost next :=
        memoryCost_strictMono.monotone (hnext ▸ Nat.le_max_left _ _)
      rw [hwords, List.sum_cons, ← hsum]
      omega

/-- The fees of a frame, whose memory is empty at first, add up to the cost of the words that it
uses. -/
theorem fees_fresh (accesses : List (ℕ × ℕ)) (s : RunState) :
    ∃ charged : List ℤ, fees common accesses { s with memory := ⟨0, 0⟩ } =
        .ok charged { s with memory := .ofWords (wordsUsed accesses) } ∧
      charged.sum = memoryCost (wordsUsed accesses) := by
  obtain ⟨charged, hcharged, hsum⟩ :=
    fees_ofWords common accesses 0 { s with memory := ⟨0, 0⟩ } rfl
  have hzero : memoryCost 0 = 0 := rfl
  rw [Nat.zero_max] at hcharged hsum
  rw [hzero, Nat.cast_zero, Int.zero_add] at hsum
  exact ⟨charged, hcharged, hsum⟩

end Fees

section Store

def CONTAINER_SIZE : ℕ := 8192

def ceil (value ceiling : ℕ) : ℕ :=
  let r := value % ceiling
  if r = 0 then value else value + ceiling - r

inductive MemoryError
  | invalidValueSize
  | exceedsCapacity
  deriving DecidableEq

def MemoryError.message : MemoryError → String
  | invalidValueSize => "Invalid value size"
  | exceedsCapacity => "Value exceeds memory capacity"

/-- The class `Memory`. -/
structure MemoryStore where
  store : Bytes

namespace MemoryStore

/-- A new `Memory`. -/
def fresh : MemoryStore := { store := List.replicate CONTAINER_SIZE 0 }

def extend (self : MemoryStore) (offset size : ℕ) : MemoryStore :=
  if size = 0 then self
  else
    let newSize := ceil (offset + size) 32
    if newSize > self.store.length then
      let expandBy := (newSize - self.store.length) ⌈/⌉ CONTAINER_SIZE * CONTAINER_SIZE
      { store := self.store ++ List.replicate expandBy 0 }
    else self

/-- The memory is extended also where the value does not have the size. -/
def write (offset size : ℕ) (value : Bytes) : EStateM MemoryError MemoryStore Unit := fun self =>
  if size = 0 then .ok () self
  else
    let extended := self.extend offset size
    if value.length ≠ size then .error .invalidValueSize extended
    else if offset + size > extended.store.length then .error .exceedsCapacity extended
    else
      .ok () { store :=
        extended.store.take offset ++ value ++ extended.store.drop (offset + value.length) }

/-- With `avoidCopy` the bytes are those of the array itself, as far as it goes. -/
def read (offset size : ℕ) (avoidCopy : Bool) : EStateM MemoryError MemoryStore Bytes :=
  fun self =>
    let extended := self.extend offset size
    let loaded := (extended.store.drop offset).take size
    if avoidCopy then .ok loaded extended
    else .ok (loaded ++ List.replicate (size - loaded.length) 0) extended

inductive Op
  | extend (offset size : ℕ)
  | write (offset size : ℕ) (value : Bytes)
  | read (offset size : ℕ) (avoidCopy : Bool)
  deriving DecidableEq

def resultState {ε σ α : Type} : EStateM.Result ε σ α → σ
  | .ok _ s => s
  | .error _ s => s

/-- The memory after an operation, also after one that throws. -/
def step (self : MemoryStore) : Op → MemoryStore
  | .extend offset size => self.extend offset size
  | .write offset size value => resultState (write offset size value self)
  | .read offset size avoidCopy => resultState (read offset size avoidCopy self)

def run (ops : List Op) : MemoryStore := ops.foldl step fresh

/-- The byte at a position of the array without end. -/
def byte (self : MemoryStore) (i : ℕ) : UInt8 := self.store.getD i 0

/-- The byte that an operation writes at a position. -/
def Op.written (i : ℕ) : Op → Option UInt8
  | .write offset size value =>
    if value.length = size ∧ offset ≤ i then value[i - offset]? else none
  | _ => none

/-- The last byte written at a position, or zero. -/
def lastWritten (ops : List Op) (i : ℕ) : UInt8 := (ops.filterMap (Op.written i)).getLast?.getD 0

variable {self : MemoryStore} {offset : ℕ}

theorem le_ceil (value ceiling : ℕ) (h : 0 < ceiling) : value ≤ ceil value ceiling := by
  have hlt := Nat.mod_lt value h
  rw [ceil]
  split
  · exact le_rfl
  · omega

/-- An access of some size is within the extended array. -/
theorem le_length_extend (self : MemoryStore) (offset : ℕ) {size : ℕ} (hsize : size ≠ 0) :
    offset + size ≤ (self.extend offset size).store.length := by
  have hceil := le_ceil (offset + size) 32 (by decide)
  rw [extend, if_neg hsize]
  dsimp only
  split
  · next hgrow =>
    have hexpand : ceil (offset + size) 32 - self.store.length ≤
        CONTAINER_SIZE • ((ceil (offset + size) 32 - self.store.length) ⌈/⌉ CONTAINER_SIZE) :=
      le_smul_ceilDiv (by decide)
    rw [smul_eq_mul, Nat.mul_comm] at hexpand
    rw [List.length_append, List.length_replicate]
    omega
  · next hfits => omega

theorem byte_extend (self : MemoryStore) (offset size i : ℕ) :
    (self.extend offset size).byte i = self.byte i := by
  have hzeros (zeros : ℕ) :
      (self.store ++ List.replicate zeros 0).getD i 0 = self.store.getD i 0 := by
    rw [List.getD_eq_getElem?_getD, List.getD_eq_getElem?_getD]
    by_cases hi : i < self.store.length
    · rw [List.getElem?_append_left hi]
    · rw [List.getElem?_append_right (Nat.not_lt.mp hi), List.getElem?_replicate,
        List.getElem?_eq_none (Nat.not_lt.mp hi)]
      split <;> rfl
  rw [extend]
  dsimp only
  split_ifs
  · rfl
  · exact hzeros _
  · rfl

/-- What is set in the array at an offset. -/
theorem getElem?_set {store value : Bytes} (hfits : offset + value.length ≤ store.length) (i : ℕ) :
    (store.take offset ++ value ++ store.drop (offset + value.length))[i]? =
      if offset ≤ i then value[i - offset]?.or store[i]? else store[i]? := by
  have htake : (store.take offset).length = offset := List.length_take_of_le (by omega)
  by_cases hbefore : i < offset
  · rw [if_neg (Nat.not_le.mpr hbefore), List.append_assoc,
      List.getElem?_append_left (by omega), List.getElem?_take_of_lt hbefore]
  · rw [if_pos (Nat.not_lt.mp hbefore)]
    by_cases hinside : i < offset + value.length
    · rw [List.getElem?_append_left (by rw [List.length_append]; omega),
        List.getElem?_append_right (by omega), htake,
        List.getElem?_eq_getElem (by omega : i - offset < value.length), Option.some_or]
    · rw [List.getElem?_append_right (by rw [List.length_append]; omega), List.length_append, htake,
        List.getElem?_drop, List.getElem?_eq_none (by omega : value.length ≤ i - offset),
        Option.none_or]
      congr 1
      omega

/-- An operation changes the bytes that it writes. -/
theorem byte_step (op : Op) (i : ℕ) :
    (self.step op).byte i = (op.written i).getD (self.byte i) := by
  cases op with
  | extend offset size => exact self.byte_extend offset size i
  | read offset size avoidCopy =>
    have hextend := self.byte_extend offset size i
    rw [step, read]
    split
    · exact hextend
    · exact hextend
  | write offset size value =>
    have hextend := self.byte_extend offset size i
    rw [step, write, Op.written]
    by_cases hsize : size = 0
    · subst hsize
      rw [if_pos rfl]
      split
      · next h =>
        rw [List.eq_nil_of_length_eq_zero h.1]
        rfl
      · rfl
    · rw [if_neg hsize]
      dsimp only
      by_cases hlength : value.length = size
      · subst hlength
        have hfits := self.le_length_extend offset hsize
        rw [if_neg (not_not_intro rfl), if_neg (Nat.not_lt.mpr hfits), resultState, byte,
          List.getD_eq_getElem?_getD, getElem?_set hfits, ← hextend, byte,
          List.getD_eq_getElem?_getD]
        by_cases hbefore : offset ≤ i
        · rw [if_pos hbefore, if_pos ⟨rfl, hbefore⟩]
          cases value[i - offset]? <;> rfl
        · rw [if_neg hbefore, if_neg fun h => hbefore h.2]
          rfl
      · rw [if_pos hlength, if_neg fun h => hlength h.1]
        exact hextend

theorem byte_foldl (ops : List Op) (i : ℕ) :
    ∀ self : MemoryStore, (ops.foldl step self).byte i =
      (ops.filterMap (Op.written i)).getLast?.getD (self.byte i) := by
  induction ops with
  | nil => exact fun self => rfl
  | cons op ops ih =>
    intro self
    rw [List.foldl_cons, ih, byte_step, List.filterMap_cons]
    cases op.written i with
    | none => rfl
    | some written =>
      dsimp only
      rw [List.getLast?_cons]
      rfl

theorem byte_run (ops : List Op) (i : ℕ) : (run ops).byte i = lastWritten ops i := by
  have hfresh : fresh.byte i = 0 := by
    rw [byte, fresh, List.getD_eq_getElem?_getD, List.getElem?_replicate]
    split <;> rfl
  rw [run, byte_foldl, hfresh]
  rfl

/-- A read gives the bytes of the array without end. -/
theorem read_eq (offset size : ℕ) (avoidCopy : Bool) :
    read offset size avoidCopy self =
      .ok ((List.range size).map fun k => self.byte (offset + k)) (self.extend offset size) := by
  have hloaded : ((self.extend offset size).store.drop offset).take size =
      (List.range size).map fun k => self.byte (offset + k) := by
    apply List.ext_getElem?
    intro k
    by_cases hk : k < size
    · have hfits := self.le_length_extend offset (by omega : size ≠ 0)
      have hbyte := self.byte_extend offset size (offset + k)
      have hget := List.getElem?_eq_getElem
        (by omega : offset + k < (self.extend offset size).store.length)
      rw [byte, List.getD_eq_getElem?_getD, hget, Option.getD_some] at hbyte
      rw [List.getElem?_take_of_lt hk, List.getElem?_drop, hget, hbyte, List.getElem?_map,
        List.getElem?_range hk]
      rfl
    · rw [List.getElem?_eq_none, List.getElem?_eq_none]
      · rw [List.length_map, List.length_range]
        omega
      · exact (List.length_take_le _ _).trans (Nat.not_lt.mp hk)
  rw [read, hloaded]
  split
  · rfl
  · rw [List.length_map, List.length_range, Nat.sub_self, List.replicate_zero, List.append_nil]

end MemoryStore

end Store

/-- The fees of a frame are the cost of the words it uses, in whatever order it uses them, and a
read gives at each position the last byte that was written there, or zero. -/
theorem fees_and_contents :
    (∀ (common : Common) (accesses : List (ℕ × ℕ)) (s : RunState), ∃ charged : List ℤ,
      fees common accesses { s with memory := ⟨0, 0⟩ } =
        .ok charged { s with memory := .ofWords (wordsUsed accesses) } ∧
      charged.sum = (3 * wordsUsed accesses + wordsUsed accesses * wordsUsed accesses / 512 : ℕ)) ∧
    ∀ (ops : List MemoryStore.Op) (offset size : ℕ) (avoidCopy : Bool),
      ∃ bytes after, MemoryStore.read offset size avoidCopy (MemoryStore.run ops) =
          .ok bytes after ∧
        bytes = (List.range size).map fun k => MemoryStore.lastWritten ops (offset + k) := by
  refine ⟨fees_fresh, fun ops offset size avoidCopy => ?_⟩
  refine ⟨_, _, MemoryStore.read_eq offset size avoidCopy, List.map_congr_left fun k _ => ?_⟩
  exact MemoryStore.byte_run ops (offset + k)

end EthereumJS.Evm
