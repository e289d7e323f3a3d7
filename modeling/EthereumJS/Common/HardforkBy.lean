import Mathlib.Order.Bounds.Basic
import EthereumJS.Tx.Transaction

/-! # The hardfork at a block and a time

`getHardforkBy` of `common.ts` over the schedule of a chain. A fork is scheduled by a block, by a
timestamp or not at all.
-/

namespace EthereumJS.HardforkSchedule

open Tx

/-- A timestamp as it is written: a number, or a text that spells one. -/
inductive Timestamp
  | number (value : Nat)
  | text (spelling : String) (value : Nat)
  deriving DecidableEq

/-- `BigInt(timestamp)`. -/
def Timestamp.toBigInt : Timestamp → Nat
  | number value => value
  | text _ value => value

structure HardforkTransitionConfig where
  name : String
  block : Option Nat
  timestamp : Option Timestamp
  deriving DecidableEq

structure ChainConfig where
  hardforks : List HardforkTransitionConfig
  /-- The names of `customHardforks`. -/
  customHardforks : List String

/-- `hardforks`; a custom hardfork without an entry is not scheduled. -/
def ChainConfig.transitions (chain : ChainConfig) : List HardforkTransitionConfig :=
  chain.hardforks ++
    (chain.customHardforks.filter fun name =>
      !(chain.hardforks.map HardforkTransitionConfig.name).contains name).map
      fun name => ⟨name, none, none⟩

inductive HardforkByError
  | noForkAtZero
  | timestampLowerThanBlock
  | blockLowerThanTimestamp
  | typeError
  deriving DecidableEq

section Doubles

/-- `Math.max` of doubles, where `none` is infinity. -/
def maxDouble : Option Nat → Option Nat → Option Nat
  | some a, some b => some (max a b)
  | _, _ => none

def minDouble : Option Nat → Option Nat → Option Nat
  | some a, some b => some (min a b)
  | some a, none => some a
  | none, b => b

/-- The greatest `Number(timestamp)` of some forks. -/
def maxTimestamp (hfs : List HardforkTransitionConfig) : Option Nat :=
  hfs.foldl (fun acc hf => maxDouble (toDouble ((hf.timestamp.map Timestamp.toBigInt).getD 0)) acc)
    (some 0)

/-- The least `Number(timestamp)` of some forks and of a given time. -/
def minTimestamp (timestamp : Nat) (hfs : List HardforkTransitionConfig) : Option Nat :=
  hfs.foldl
    (fun acc hf => minDouble (toDouble ((hf.timestamp.map Timestamp.toBigInt).getD timestamp)) acc)
    (toDouble timestamp)

end Doubles

/-- The forks with a block or a timestamp. -/
def applied (hfs : List HardforkTransitionConfig) : List HardforkTransitionConfig :=
  hfs.filter fun hf => hf.block.isSome || hf.timestamp.isSome

/-- What `findIndex` looks for: a fork that is not active yet. -/
def isLater (blockNumber timestamp : Option Nat) (hf : HardforkTransitionConfig) : Bool :=
  (blockNumber.any fun n => hf.block.any fun block => n < block) ||
    timestamp.any fun t => hf.timestamp.any fun time => t < time.toBigInt

/-- The index of the first fork that is not active yet. -/
def firstLater (hfs : List HardforkTransitionConfig) (blockNumber timestamp : Option Nat) :
    Except HardforkByError Nat :=
  match hfs.findIdx? (isLater blockNumber timestamp) with
  | none => .ok hfs.length
  | some 0 => .error .noForkAtZero
  | some (hfIndex + 1) => .ok (hfIndex + 1)

/-- The loop that moves on while the next fork is scheduled for the same point. -/
def samePoint : List HardforkTransitionConfig → Nat
  | hf :: next :: hfs =>
    if hf.block ≠ next.block ∨ hf.timestamp ≠ next.timestamp then 0 else samePoint (next :: hfs) + 1
  | _ => 0

/-- The index at which that loop starts, from the index of the first later fork. Without a
timestamp the forks behind the last one with a block are stepped over; `none` is an index below
zero. -/
def startIndex (hfs : List HardforkTransitionConfig) (timestamp : Option Nat) (hfIndex : Nat) :
    Option Nat :=
  match timestamp with
  | some _ => if hfIndex = 0 then none else some (hfIndex - 1)
  | none =>
    match (hfs.take hfIndex).reverse.findIdx? fun hf => hf.block.isSome with
    | some stepBack => some (hfIndex - stepBack - 1)
    | none => some hfIndex

/-- The comparisons of the given time with the forks before and behind the chosen one. -/
def checkTimestamp (hfs : List HardforkTransitionConfig) (timestamp : Option Nat)
    (hfStartIndex hfIndex : Nat) : Except HardforkByError Unit :=
  match timestamp with
  | none => .ok ()
  | some timestamp =>
    if (maxTimestamp (hfs.take hfStartIndex)).all fun time => timestamp < time then
      .error .timestampLowerThanBlock
    else if (minTimestamp timestamp (hfs.drop (hfIndex + 1))).any fun time => time < timestamp then
      .error .blockLowerThanTimestamp
    else .ok ()

/-- `getHardforkBy` behind the filter. -/
def hardforkBy (hfs : List HardforkTransitionConfig) (blockNumber timestamp : Option Nat) :
    Except HardforkByError String := do
  let hfIndex ← firstLater hfs blockNumber timestamp
  match startIndex hfs timestamp hfIndex with
  | none => .error .typeError
  | some hfStartIndex =>
    let hfIndex := hfStartIndex + samePoint (hfs.drop hfStartIndex)
    checkTimestamp hfs timestamp hfStartIndex hfIndex
    match hfs[hfIndex]? with
    | none => .error .typeError
    | some hf => .ok hf.name

def getHardforkBy (chain : ChainConfig) (blockNumber timestamp : Option Nat) :
    Except HardforkByError String :=
  hardforkBy (applied chain.transitions) blockNumber timestamp

section Schedule

/-- The order of two scheduled forks: blocks first, then timestamps, neither decreasing. -/
def Before (hf next : HardforkTransitionConfig) : Prop :=
  match hf.block, next.block with
  | some block, some block' => block ≤ block'
  | some _, none => True
  | none, some _ => False
  | none, none => ∀ time ∈ hf.timestamp, ∀ time' ∈ next.timestamp, time.toBigInt ≤ time'.toBigInt

/-- A schedule: a fork at block 0 comes first, and each fork has a block or a timestamp. -/
structure Schedule (hfs : List HardforkTransitionConfig) : Prop where
  first : hfs.head?.bind HardforkTransitionConfig.block = some 0
  single : ∀ hf ∈ hfs, hf.block.isSome → hf.timestamp = none
  ordered : hfs.Pairwise Before

/-- Whether a fork is active at a block and, if there is one, a time. -/
def Active (blockNumber : Nat) (timestamp : Option Nat) (hf : HardforkTransitionConfig) : Prop :=
  (∃ block ∈ hf.block, block ≤ blockNumber) ∨
    ∃ t ∈ timestamp, ∃ time ∈ hf.timestamp, time.toBigInt ≤ t

/-- The fork at an index and every fork before it are active. -/
def ActiveUpTo (hfs : List HardforkTransitionConfig) (blockNumber : Nat) (timestamp : Option Nat)
    (index : Nat) : Prop :=
  index < hfs.length ∧ ∀ hf ∈ hfs.take (index + 1), Active blockNumber timestamp hf

/-- The first forks are active, and the next one is not. -/
structure ActivePrefix (hfs : List HardforkTransitionConfig) (blockNumber : Nat)
    (timestamp : Option Nat) (count : Nat) : Prop where
  pos : 0 < count
  le_length : count ≤ hfs.length
  active : ∀ i < count, ∀ hf ∈ hfs[i]?, Active blockNumber timestamp hf
  inactive : ∀ hf ∈ hfs[count]?, ¬ Active blockNumber timestamp hf

end Schedule

section Selection

variable {hfs : List HardforkTransitionConfig} {hf next : HardforkTransitionConfig}
  {blockNumber count : Nat} {timestamp : Option Nat}

theorem Active.mono {blockNumber' : Nat} {timestamp' : Option Nat}
    (h : Active blockNumber timestamp hf) (hblock : blockNumber ≤ blockNumber')
    (htime : ∀ t ∈ timestamp, ∃ t' ∈ timestamp', t ≤ t') : Active blockNumber' timestamp' hf := by
  obtain ⟨block, hmem, hle⟩ | ⟨t, ht, time, hmem, hle⟩ := h
  · left
    exact ⟨block, hmem, hle.trans hblock⟩
  · right
    obtain ⟨t', ht', hle'⟩ := htime t ht
    exact ⟨t', ht', time, hmem, hle.trans hle'⟩

/-- A fork with a point is later than a block and a time, or active. -/
theorem active_of_not_later {t : Nat} (happlied : hf.block.isSome || hf.timestamp.isSome)
    (hlater : isLater (some blockNumber) (some t) hf = false) :
    Active blockNumber (some t) hf := by
  rw [isLater, Bool.or_eq_false_iff, Option.any_some, Option.any_some] at hlater
  obtain ⟨hblock, htime⟩ := hlater
  cases hb : hf.block with
  | some block =>
    rw [hb, Option.any_some, decide_eq_false_iff_not, Nat.not_lt] at hblock
    exact .inl ⟨block, hb, hblock⟩
  | none =>
    cases ht : hf.timestamp with
    | some time =>
      rw [ht, Option.any_some, decide_eq_false_iff_not, Nat.not_lt] at htime
      exact .inr ⟨t, rfl, time, ht, htime⟩
    | none =>
      rw [hb, ht] at happlied
      cases happlied

theorem not_active_of_later (hsingle : hf.block.isSome → hf.timestamp = none)
    (hlater : isLater (some blockNumber) timestamp hf) : ¬ Active blockNumber timestamp hf := by
  rw [isLater, Bool.or_eq_true, Option.any_some] at hlater
  rintro (⟨block, hmem, hle⟩ | ⟨t, ht, time, hmem, hle⟩)
  · have hnone : hf.timestamp = none := hsingle (by rw [hmem]; rfl)
    rw [hmem, hnone, Option.any_some, decide_eq_true_eq] at hlater
    obtain hlt | hlt := hlater
    · exact absurd hle (Nat.not_le.mpr hlt)
    · cases timestamp with
      | none => cases hlt
      | some _ => cases hlt
  · have hblock : hf.block = none := by
      by_contra hsome
      rw [hsingle (Option.isSome_iff_ne_none.mpr hsome)] at hmem
      cases hmem
    rw [hblock, ht, hmem, Option.any_some, Option.any_some, decide_eq_true_eq] at hlater
    obtain hlt | hlt := hlater
    · cases hlt
    · exact absurd hle (Nat.not_le.mpr hlt)

/-- The loop over forks for the same point does not move on from the last active fork. -/
theorem samePoint_eq_zero (h : ActivePrefix hfs blockNumber timestamp count) :
    samePoint (hfs.drop (count - 1)) = 0 := by
  have hlt : count - 1 < hfs.length := by
    have := h.pos
    have := h.le_length
    omega
  rw [List.drop_eq_getElem_cons hlt, Nat.sub_add_cancel h.pos]
  cases hrest : hfs.drop count with
  | nil => rfl
  | cons next rest =>
    apply if_pos
    by_contra hsame
    rw [not_or, not_not, not_not] at hsame
    have hnext : next ∈ hfs[count]? := by
      rw [← List.head?_drop, hrest]
      rfl
    have hactive := h.active (count - 1) (Nat.sub_lt h.pos Nat.one_pos) _
      (List.getElem?_eq_getElem hlt)
    apply h.inactive next hnext
    rw [Active, hsame.1, hsame.2] at hactive
    exact hactive

theorem ActivePrefix.isGreatest (h : ActivePrefix hfs blockNumber timestamp count) :
    IsGreatest { index | ActiveUpTo hfs blockNumber timestamp index } (count - 1) := by
  have hpos := h.pos
  have hle := h.le_length
  constructor
  · refine ⟨by omega, ?_⟩
    intro hf hmem
    obtain ⟨i, hi⟩ := List.mem_iff_getElem?.mp hmem
    rw [List.getElem?_take] at hi
    split at hi
    · exact h.active i (by omega) hf hi
    · cases hi
  · rintro index ⟨hlt, hactive⟩
    by_contra hgt
    have hcount : count < hfs.length := by omega
    apply h.inactive hfs[count] (List.getElem?_eq_getElem hcount)
    apply hactive
    rw [List.mem_take_iff_getElem]
    exact ⟨count, by omega, rfl⟩

variable (hs : Schedule hfs)

include hs

theorem Schedule.length_pos : 0 < hfs.length := by
  cases hfs with
  | nil => exact absurd hs.first (by simp)
  | cons hf hfs => exact Nat.succ_pos _

/-- The fork at block 0 is never later. -/
theorem firstLater_spec (blockNumber : Nat) (timestamp : Option Nat) :
    ∃ hfIndex, firstLater hfs (some blockNumber) timestamp = .ok hfIndex ∧ 0 < hfIndex ∧
      hfIndex ≤ hfs.length ∧
      (∀ i < hfIndex, ∀ hf ∈ hfs[i]?, isLater (some blockNumber) timestamp hf = false) ∧
      ∀ hf ∈ hfs[hfIndex]?, isLater (some blockNumber) timestamp hf := by
  rw [firstLater]
  cases hfind : hfs.findIdx? (isLater (some blockNumber) timestamp) with
  | none =>
    refine ⟨hfs.length, rfl, hs.length_pos, Nat.le_refl _, ?_, ?_⟩
    · intro i _ hf hmem
      exact List.findIdx?_eq_none_iff.mp hfind hf (List.mem_of_getElem? hmem)
    · intro hf hmem
      rw [List.getElem?_length] at hmem
      cases hmem
  | some hfIndex =>
    obtain ⟨hlt, hlater, hearlier⟩ := List.findIdx?_eq_some_iff_getElem.mp hfind
    cases hfIndex with
    | zero =>
      have hfirst := hs.first
      rw [List.head?_eq_getElem?, List.getElem?_eq_getElem hlt, Option.bind_some] at hfirst
      have hnone := hs.single _ (List.getElem_mem hlt) (by rw [hfirst]; rfl)
      rw [isLater, hfirst, hnone] at hlater
      cases timestamp with
      | none => simp at hlater
      | some t => simp at hlater
    | succ hfIndex =>
      refine ⟨hfIndex + 1, rfl, Nat.succ_pos _, hlt.le, ?_, ?_⟩
      · intro i hi hf hmem
        obtain ⟨hi', rfl⟩ := List.getElem?_eq_some_iff.mp hmem
        simpa using hearlier i hi
      · intro hf hmem
        obtain ⟨_, rfl⟩ := List.getElem?_eq_some_iff.mp hmem
        exact hlater

omit hs

/-- With a time, the forks before the first later one are active. -/
theorem activePrefix_some {t hfIndex : Nat} (hs : Schedule hfs)
    (happlied : ∀ hf ∈ hfs, hf.block.isSome || hf.timestamp.isSome) (hpos : 0 < hfIndex)
    (hle : hfIndex ≤ hfs.length)
    (hearlier : ∀ i < hfIndex, ∀ hf ∈ hfs[i]?, isLater (some blockNumber) (some t) hf = false)
    (hlater : ∀ hf ∈ hfs[hfIndex]?, isLater (some blockNumber) (some t) hf) :
    startIndex hfs (some t) hfIndex = some (hfIndex - 1) ∧
      ActivePrefix hfs blockNumber (some t) hfIndex := by
  refine ⟨if_neg hpos.ne', hpos, hle, ?_, ?_⟩
  · intro i hi hf hmem
    exact active_of_not_later (happlied hf (List.mem_of_getElem? hmem)) (hearlier i hi hf hmem)
  · intro hf hmem
    exact not_active_of_later (hs.single hf (List.mem_of_getElem? hmem)) (hlater hf hmem)

/-- The element that a search from the end finds, by its index from the front. -/
theorem findIdx?_reverse_take {p : HardforkTransitionConfig → Bool} {hfIndex stepBack : Nat}
    (hle : hfIndex ≤ hfs.length)
    (h : (hfs.take hfIndex).reverse.findIdx? p = some stepBack) :
    stepBack < hfIndex ∧ (∀ hf ∈ hfs[hfIndex - stepBack - 1]?, p hf) ∧
      ∀ i, hfIndex - stepBack ≤ i → i < hfIndex → ∀ hf ∈ hfs[i]?, ¬ p hf := by
  obtain ⟨hlt, hfound, hbehind⟩ := List.findIdx?_eq_some_iff_getElem.mp h
  have hlength : (hfs.take hfIndex).reverse.length = hfIndex := by
    rw [List.length_reverse, List.length_take, Nat.min_eq_left hle]
  have helem (j : Nat) (hj : j < (hfs.take hfIndex).reverse.length) :
      hfs[hfIndex - j - 1]? = some (hfs.take hfIndex).reverse[j] := by
    rw [← List.getElem?_eq_getElem hj, List.getElem?_reverse (by rwa [List.length_reverse] at hj),
      List.length_take, Nat.min_eq_left hle, List.getElem?_take_of_lt (by omega),
      Nat.sub_right_comm]
  rw [hlength] at hlt
  refine ⟨hlt, ?_, ?_⟩
  · intro hf hmem
    rw [helem stepBack (by omega)] at hmem
    obtain rfl := Option.some.inj hmem
    exact hfound
  · intro i hi hlt' hf hmem
    have hindex : i = hfIndex - (hfIndex - 1 - i) - 1 := by omega
    rw [hindex, helem (hfIndex - 1 - i) (by omega)] at hmem
    obtain rfl := Option.some.inj hmem
    exact hbehind _ (by omega)

/-- Without a time, the forks up to the last one with a block before the first later one are. -/
theorem activePrefix_none {hfIndex : Nat} (hs : Schedule hfs) (hpos : 0 < hfIndex)
    (hle : hfIndex ≤ hfs.length)
    (hearlier : ∀ i < hfIndex, ∀ hf ∈ hfs[i]?, isLater (some blockNumber) none hf = false)
    (hlater : ∀ hf ∈ hfs[hfIndex]?, isLater (some blockNumber) none hf) :
    ∃ count, startIndex hfs none hfIndex = some (count - 1) ∧
      ActivePrefix hfs blockNumber none count := by
  rw [startIndex]
  cases hstep : (hfs.take hfIndex).reverse.findIdx? fun hf => hf.block.isSome with
  | none =>
    have hlt : 0 < hfs.length := hs.length_pos
    have hmem : hfs[0] ∈ (hfs.take hfIndex).reverse := by
      rw [List.mem_reverse, List.mem_take_iff_getElem]
      exact ⟨0, by omega, rfl⟩
    have hfirst := hs.first
    rw [List.head?_eq_getElem?, List.getElem?_eq_getElem hlt, Option.bind_some] at hfirst
    have hnone := List.findIdx?_eq_none_iff.mp hstep _ hmem
    rw [hfirst] at hnone
    cases hnone
  | some stepBack =>
    obtain ⟨hlt, hfound, hbehind⟩ := findIdx?_reverse_take hle hstep
    have hlast : hfIndex - stepBack - 1 < hfs.length := by omega
    have hblock := hfound _ (List.getElem?_eq_getElem hlast)
    refine ⟨hfIndex - stepBack, rfl, by omega, by omega, ?_, ?_⟩
    · intro i hi hf hmem
      obtain ⟨hi', rfl⟩ := List.getElem?_eq_some_iff.mp hmem
      have hsome : hfs[i].block.isSome := by
        obtain rfl | hbefore : i = hfIndex - stepBack - 1 ∨ i < hfIndex - stepBack - 1 := by omega
        · exact hblock
        · have horder := List.pairwise_iff_getElem.mp hs.ordered i _ hi' hlast hbefore
          by_contra hnone
          rw [Option.not_isSome_iff_eq_none] at hnone
          obtain ⟨block, hsome⟩ := Option.isSome_iff_exists.mp hblock
          rw [Before, hnone, hsome] at horder
          exact horder
      have hnot := hearlier i (by omega) _ hmem
      obtain ⟨block, hb⟩ := Option.isSome_iff_exists.mp hsome
      left
      refine ⟨block, hb, ?_⟩
      rw [isLater, hb] at hnot
      simpa using hnot
    · intro hf hmem
      obtain hzero | hinner : hfIndex - stepBack = hfIndex ∨ hfIndex - stepBack < hfIndex := by
        omega
      · rw [hzero] at hmem
        exact not_active_of_later (hs.single hf (List.mem_of_getElem? hmem)) (hlater hf hmem)
      · have hnone := hbehind _ (Nat.le_refl _) hinner hf hmem
        rintro (⟨block, hb, -⟩ | ⟨t, ht, -⟩)
        · apply hnone
          rw [hb]
          rfl
        · cases ht

theorem hardforkBy_ok {name : String} (hs : Schedule hfs)
    (happlied : ∀ hf ∈ hfs, hf.block.isSome || hf.timestamp.isSome)
    (h : hardforkBy hfs (some blockNumber) timestamp = .ok name) :
    ∃ index hf, hfs[index]? = some hf ∧ hf.name = name ∧
      IsGreatest { index | ActiveUpTo hfs blockNumber timestamp index } index := by
  obtain ⟨hfIndex, hfirst, hpos, hle, hearlier, hlater⟩ :=
    firstLater_spec hs blockNumber timestamp
  obtain ⟨count, hstart, hprefix⟩ : ∃ count, startIndex hfs timestamp hfIndex = some (count - 1) ∧
      ActivePrefix hfs blockNumber timestamp count := by
    cases timestamp with
    | none => exact activePrefix_none hs hpos hle hearlier hlater
    | some t => exact ⟨hfIndex, activePrefix_some hs happlied hpos hle hearlier hlater⟩
  rw [hardforkBy, hfirst] at h
  obtain ⟨_, hok, h⟩ := bind_eq_ok.mp h
  obtain rfl := Except.ok.inj hok
  rw [hstart] at h
  dsimp only at h
  rw [samePoint_eq_zero hprefix, Nat.add_zero] at h
  obtain ⟨_, -, h⟩ := bind_eq_ok.mp h
  split at h
  · cases h
  · rename_i hf hget
    exact ⟨count - 1, hf, hget, Except.ok.inj h, hprefix.isGreatest⟩

end Selection

/-- What `getHardforkBy` returns is the last fork up to which all scheduled forks are active, and a
later block and time give no earlier fork. -/
theorem getHardforkBy_isGreatest {chain : ChainConfig} {blockNumber : Nat}
    {timestamp : Option Nat} {name : String} (hs : Schedule (applied chain.transitions))
    (h : getHardforkBy chain (some blockNumber) timestamp = .ok name) :
    ∃ index hf, (applied chain.transitions)[index]? = some hf ∧ hf.name = name ∧
      IsGreatest { index | ActiveUpTo (applied chain.transitions) blockNumber timestamp index }
        index ∧
      ∀ blockNumber' timestamp' name', blockNumber ≤ blockNumber' →
        (∀ t ∈ timestamp, ∃ t' ∈ timestamp', t ≤ t') →
        getHardforkBy chain (some blockNumber') timestamp' = .ok name' →
        ∃ index' hf', index ≤ index' ∧ (applied chain.transitions)[index']? = some hf' ∧
          hf'.name = name' ∧ IsGreatest { index |
            ActiveUpTo (applied chain.transitions) blockNumber' timestamp' index } index' := by
  have happlied : ∀ hf ∈ applied chain.transitions, hf.block.isSome || hf.timestamp.isSome :=
    fun hf hmem => (List.mem_filter.mp hmem).2
  obtain ⟨index, hf, hget, hname, hgreatest⟩ := hardforkBy_ok hs happlied h
  refine ⟨index, hf, hget, hname, hgreatest, ?_⟩
  intro blockNumber' timestamp' name' hblock htime h'
  obtain ⟨index', hf', hget', hname', hgreatest'⟩ := hardforkBy_ok hs happlied h'
  refine ⟨index', hf', hgreatest.mono hgreatest' ?_, hget', hname', hgreatest'⟩
  rintro i ⟨hlt, hactive⟩
  exact ⟨hlt, fun hf hmem => (hactive hf hmem).mono hblock htime⟩

/-- Four forks of Sepolia, of which the last is not scheduled, and a custom hardfork. -/
def sepolia : ChainConfig where
  hardforks := [⟨"chainstart", some 0, none⟩, ⟨"mergeNetsplitBlock", some 1735371, none⟩,
    ⟨"shanghai", none, some (.text "1677557088" 1677557088)⟩, ⟨"amsterdam", none, none⟩]
  customHardforks := ["custom"]

theorem schedule_sepolia : Schedule (applied sepolia.transitions) where
  first := rfl
  single := by decide
  ordered := by
    have hforks : applied sepolia.transitions = sepolia.hardforks.take 3 := by decide
    rw [hforks]
    simp [sepolia, Before]

theorem getHardforkBy_isGreatest_sepolia :
    ∃ index hf, (applied sepolia.transitions)[index]? = some hf ∧ hf.name = "shanghai" ∧
      IsGreatest { index | ActiveUpTo (applied sepolia.transitions) 2000000 (some 1677557088)
        index } index ∧
      ∀ blockNumber' timestamp' name', 2000000 ≤ blockNumber' →
        (∀ t ∈ some 1677557088, ∃ t' ∈ timestamp', t ≤ t') →
        getHardforkBy sepolia (some blockNumber') timestamp' = .ok name' →
        ∃ index' hf', index ≤ index' ∧ (applied sepolia.transitions)[index']? = some hf' ∧
          hf'.name = name' ∧ IsGreatest { index |
            ActiveUpTo (applied sepolia.transitions) blockNumber' timestamp' index } index' :=
  getHardforkBy_isGreatest schedule_sepolia (by decide +kernel)

end EthereumJS.HardforkSchedule
