import Mathlib.Data.List.Chain
import EthereumJS.Block.WireForm
import EthereumJS.Ordered.TruncatedSeries

/-! # The fee markets

`calcNextBaseFee` and `calcNextExcessBlobGas` of `header.ts`, `fakeExponential` and
`computeBlobGasPrice` of `helpers.ts`. A division by zero throws.
-/

namespace EthereumJS.Block

open Ordered

section BaseFee

/-- The parameters of EIP-1559. No gas limit that is allowed has the target 0. -/
structure FeeParams where
  minGasLimit : Nat
  elasticityMultiplier : Nat
  baseFeeMaxChangeDenominator : Nat
  elasticity_pos : 0 < elasticityMultiplier
  elasticity_le : elasticityMultiplier ≤ minGasLimit
  denominator_pos : 0 < baseFeeMaxChangeDenominator

def paramsBlock : FeeParams where
  minGasLimit := 5000
  elasticityMultiplier := 2
  baseFeeMaxChangeDenominator := 8
  elasticity_pos := by decide
  elasticity_le := by decide
  denominator_pos := by decide

/-- The division of bigints. -/
def divide (dividend divisor : Nat) : Except String Nat :=
  if divisor = 0 then .error "Division by zero" else .ok (dividend / divisor)

variable (params : FeeParams) (common : Common)

def calcNextBaseFee (header : BlockHeader) : Except String (Option Nat) :=
  if !common.isActivatedEIP 1559 then
    .error "calcNextBaseFee() can only be called with EIP1559 being activated"
  else do
    let elasticity := params.elasticityMultiplier
    let parentGasTarget ← divide header.gasLimit elasticity
    if parentGasTarget = header.gasUsed then .ok header.baseFeePerGas
    else
      match header.baseFeePerGas with
      | none => .error "Cannot mix BigInt and other types, use explicit conversions"
      | some baseFeePerGas =>
        if header.gasUsed > parentGasTarget then
          let gasUsedDelta := header.gasUsed - parentGasTarget
          let perTarget ← divide (baseFeePerGas * gasUsedDelta) parentGasTarget
          let calculatedDelta ← divide perTarget params.baseFeeMaxChangeDenominator
          .ok (some ((if calculatedDelta > 1 then calculatedDelta else 1) + baseFeePerGas))
        else
          let gasUsedDelta := parentGasTarget - header.gasUsed
          let perTarget ← divide (baseFeePerGas * gasUsedDelta) parentGasTarget
          let calculatedDelta ← divide perTarget params.baseFeeMaxChangeDenominator
          .ok (some (baseFeePerGas - calculatedDelta))

variable {params common} {header : BlockHeader} {baseFee target denominator used used' : Nat}

/-- The next base fee as a function of the gas that was used. -/
def nextBaseFee (baseFee target denominator used : Nat) : Nat :=
  if target = used then baseFee
  else if used > target then
    max (baseFee * (used - target) / target / denominator) 1 + baseFee
  else baseFee - baseFee * (target - used) / target / denominator

/-- What a header keeps to. -/
structure WithinLimits (params : FeeParams) (header : BlockHeader) : Prop where
  gasLimit : params.minGasLimit ≤ header.gasLimit
  gasUsed : header.gasUsed ≤ header.gasLimit

theorem WithinLimits.target_pos (h : WithinLimits params header) :
    0 < header.gasLimit / params.elasticityMultiplier :=
  Nat.div_pos (params.elasticity_le.trans h.gasLimit) params.elasticity_pos

theorem calcNextBaseFee_eq (hactive : common.isActivatedEIP 1559 = true)
    (h : WithinLimits params header) (hbaseFee : header.baseFeePerGas = some baseFee) :
    calcNextBaseFee params common header =
      .ok (some (nextBaseFee baseFee (header.gasLimit / params.elasticityMultiplier)
        params.baseFeeMaxChangeDenominator header.gasUsed)) := by
  have hdivide : ∀ dividend divisor, 0 < divisor →
      divide dividend divisor = .ok (dividend / divisor) :=
    fun dividend divisor hpos => if_neg hpos.ne'
  unfold calcNextBaseFee nextBaseFee
  rw [hactive, hbaseFee]
  change (divide header.gasLimit params.elasticityMultiplier >>= _) = _
  rw [hdivide _ _ params.elasticity_pos]
  change (if _ then Except.ok (some baseFee) else _) = _
  split
  · rfl
  · dsimp only
    split
    · rw [hdivide _ _ h.target_pos]
      change (divide _ _ >>= _) = _
      rw [hdivide _ _ params.denominator_pos]
      change Except.ok (some ((if _ then _ else _) + baseFee)) = _
      rw [max_def]
      congr 3
      split
      · next hone => rw [if_neg (by omega)]
      · next hone =>
        split
        · rfl
        · omega
    · rw [hdivide _ _ h.target_pos]
      change (divide _ _ >>= _) = _
      rw [hdivide _ _ params.denominator_pos]
      rfl

theorem nextBaseFee_target : nextBaseFee baseFee target denominator target = baseFee := if_pos rfl

theorem lt_nextBaseFee (h : target < used) :
    baseFee < nextBaseFee baseFee target denominator used := by
  unfold nextBaseFee
  rw [if_neg h.ne, if_pos h]
  have hone := le_max_right (baseFee * (used - target) / target / denominator) 1
  omega

theorem nextBaseFee_le (h : used < target) :
    nextBaseFee baseFee target denominator used ≤ baseFee := by
  unfold nextBaseFee
  rw [if_neg h.ne', if_neg (by omega)]
  exact Nat.sub_le _ _

/-- The fee goes down by a part of `denominator` at most. -/
theorem le_nextBaseFee (h : used < target) :
    baseFee - baseFee / denominator ≤ nextBaseFee baseFee target denominator used := by
  unfold nextBaseFee
  rw [if_neg h.ne', if_neg (by omega)]
  refine Nat.sub_le_sub_left (Nat.div_le_div_right ?_) _
  refine Nat.div_le_of_le_mul ?_
  rw [Nat.mul_comm]
  exact Nat.mul_le_mul_right _ (Nat.sub_le _ _)

theorem nextBaseFee_mono (h : used ≤ used') :
    nextBaseFee baseFee target denominator used ≤ nextBaseFee baseFee target denominator used' := by
  obtain hlt | heq | hgt := lt_trichotomy used' target
  · have hless : used < target := h.trans_lt hlt
    unfold nextBaseFee
    rw [if_neg hless.ne', if_neg (by omega), if_neg hlt.ne', if_neg (by omega)]
    refine Nat.sub_le_sub_left (Nat.div_le_div_right (Nat.div_le_div_right ?_)) _
    exact Nat.mul_le_mul_left _ (Nat.sub_le_sub_left h _)
  · subst heq
    rw [nextBaseFee_target]
    obtain heq | hlt := h.eq_or_lt
    · rw [heq, nextBaseFee_target]
    · exact nextBaseFee_le hlt
  · obtain hlt | heq | hgt' := lt_trichotomy used target
    · exact (nextBaseFee_le hlt).trans (lt_nextBaseFee hgt).le
    · rw [heq, nextBaseFee_target]
      exact (lt_nextBaseFee hgt).le
    · unfold nextBaseFee
      rw [if_neg hgt'.ne, if_pos hgt', if_neg hgt.ne, if_pos hgt]
      refine Nat.add_le_add_right (max_le_max_right _ ?_) _
      refine Nat.div_le_div_right (Nat.div_le_div_right ?_)
      exact Nat.mul_le_mul_left _ (Nat.sub_le_sub_right h _)

/-- A fee that is not below `denominator - 1` never gets there. -/
theorem floor_le_nextBaseFee (h : denominator - 1 ≤ baseFee) :
    denominator - 1 ≤ nextBaseFee baseFee target denominator used := by
  obtain hlt | heq | hgt := lt_trichotomy used target
  · refine le_trans ?_ (le_nextBaseFee hlt)
    obtain hsmall | hlarge := Nat.lt_or_ge baseFee denominator
    · rw [Nat.div_eq_of_lt hsmall]
      exact h
    · obtain hzero | hpos := Nat.eq_zero_or_pos denominator
      · rw [hzero]
        exact Nat.zero_le _
      · -- with `baseFee = denominator * q + r` the fee goes down by `q`
        have hq : 0 < baseFee / denominator := Nat.div_pos hlarge hpos
        have hdivision := Nat.div_add_mod baseFee denominator
        have hstep : denominator - 1 + baseFee / denominator ≤
            denominator * (baseFee / denominator) := by
          obtain ⟨q, hq'⟩ := Nat.exists_eq_add_one_of_ne_zero hq.ne'
          obtain ⟨d, rfl⟩ := Nat.exists_eq_add_one_of_ne_zero hpos.ne'
          rw [hq', Nat.add_sub_cancel, Nat.succ_mul, Nat.mul_succ]
          omega
        omega
  · rw [heq, nextBaseFee_target]
    exact h
  · exact h.trans (lt_nextBaseFee hgt).le

/-- Headers with base fees, each of which is calculated from its parent. -/
def BaseFeeChain (params : FeeParams) (common : Common) (headers : List BlockHeader) : Prop :=
  headers.IsChain (fun parent child =>
    calcNextBaseFee params common parent = .ok child.baseFeePerGas) ∧
  ∀ header ∈ headers, WithinLimits params header

theorem BaseFeeChain.floor (hactive : common.isActivatedEIP 1559 = true)
    {headers : List BlockHeader} (h : BaseFeeChain params common (header :: headers))
    (hbaseFee : header.baseFeePerGas = some baseFee)
    (hfloor : params.baseFeeMaxChangeDenominator - 1 ≤ baseFee) :
    ∀ later ∈ header :: headers, ∃ baseFee, later.baseFeePerGas = some baseFee ∧
      params.baseFeeMaxChangeDenominator - 1 ≤ baseFee := by
  induction headers generalizing header baseFee with
  | nil =>
    intro later hlater
    rw [List.mem_singleton.mp hlater]
    exact ⟨baseFee, hbaseFee, hfloor⟩
  | cons child headers ih =>
    obtain ⟨hchain, hlimits⟩ := h
    rw [List.isChain_cons_cons] at hchain
    rw [List.forall_mem_cons] at hlimits
    rw [calcNextBaseFee_eq hactive hlimits.1 hbaseFee] at hchain
    have hchild := (Except.ok.inj hchain.1).symm
    intro later hlater
    obtain rfl | hlater := List.mem_cons.mp hlater
    · exact ⟨baseFee, hbaseFee, hfloor⟩
    · exact ih ⟨hchain.2, hlimits.2⟩ hchild (floor_le_nextBaseFee hfloor) later hlater

/-- The base fee after a block, and along every chain. -/
theorem baseFee_laws (params : FeeParams) (common : Common)
    (hactive : common.isActivatedEIP 1559 = true) :
    (∀ (header : BlockHeader) (baseFee : Nat), header.baseFeePerGas = some baseFee →
      WithinLimits params header →
      ∃ next, calcNextBaseFee params common header = .ok (some next) ∧
        (∀ used next', header.gasUsed ≤ used → used ≤ header.gasLimit →
          calcNextBaseFee params common { header with gasUsed := used } = .ok (some next') →
          next ≤ next') ∧
        (header.gasUsed = header.gasLimit / params.elasticityMultiplier → next = baseFee) ∧
        (header.gasUsed > header.gasLimit / params.elasticityMultiplier → next > baseFee) ∧
        (header.gasUsed < header.gasLimit / params.elasticityMultiplier →
          baseFee - baseFee / params.baseFeeMaxChangeDenominator ≤ next ∧ next ≤ baseFee)) ∧
    (∀ (genesis : BlockHeader) (headers : List BlockHeader) (baseFee : Nat),
      BaseFeeChain params common (genesis :: headers) → genesis.baseFeePerGas = some baseFee →
      params.baseFeeMaxChangeDenominator - 1 ≤ baseFee →
      ∀ header ∈ genesis :: headers, ∃ baseFee, header.baseFeePerGas = some baseFee ∧
        params.baseFeeMaxChangeDenominator - 1 ≤ baseFee) ∧
    paramsBlock.baseFeeMaxChangeDenominator - 1 = 7 := by
  refine ⟨fun header baseFee hbaseFee h => ?_, fun genesis headers baseFee h hbaseFee hfloor =>
    h.floor hactive hbaseFee hfloor, rfl⟩
  refine ⟨_, calcNextBaseFee_eq hactive h hbaseFee, ?_, ?_, ?_, ?_⟩
  · intro used next' hle hlimit hnext'
    have hother : WithinLimits params { header with gasUsed := used } := ⟨h.gasLimit, hlimit⟩
    rw [calcNextBaseFee_eq hactive hother hbaseFee] at hnext'
    cases hnext'
    exact nextBaseFee_mono hle
  · intro heq
    rw [heq]
    exact nextBaseFee_target
  · exact lt_nextBaseFee
  · exact fun hlt => ⟨le_nextBaseFee hlt, nextBaseFee_le hlt⟩

/-- A chain from London on. -/
def londonCommon : Common where
  hardfork := .london
  algorithm := .ethash
  epoch := 30000
  hardforkBlock := fun _ => none
  initialBaseFee := 1000000000
  maxExtraDataSize := 32

def feeHeader (gasUsed : Nat) : BlockHeader :=
  BlockHeader.ofData londonCommon
    { noData with gasLimit := some 5000, gasUsed := some gasUsed, baseFeePerGas := some 7 }

/-- Half of the target was used, then nothing. -/
theorem baseFee_laws_chain :
    (∃ next, calcNextBaseFee paramsBlock londonCommon (feeHeader 1250) = .ok (some next) ∧
      7 - 7 / 8 ≤ next ∧ next ≤ 7) ∧
    ∀ header ∈ [feeHeader 1250, feeHeader 0], ∃ baseFee, header.baseFeePerGas = some baseFee ∧
      7 ≤ baseFee := by
  obtain ⟨hnext, hchain, -⟩ := baseFee_laws paramsBlock londonCommon (by decide +kernel)
  obtain ⟨next, hok, -, -, -, hbelow⟩ :=
    hnext (feeHeader 1250) 7 rfl ⟨by decide +kernel, by decide +kernel⟩
  refine ⟨⟨next, hok, hbelow (by decide +kernel)⟩, ?_⟩
  refine hchain (feeHeader 1250) [feeHeader 0] 7 ⟨?_, ?_⟩ rfl (by decide)
  · rw [List.isChain_cons_cons]
    exact ⟨by decide +kernel, List.isChain_singleton _⟩
  · rw [List.forall_mem_cons]
    refine ⟨⟨by decide +kernel, by decide +kernel⟩, fun header hmem => ?_⟩
    rw [List.mem_singleton.mp hmem]
    exact ⟨by decide +kernel, by decide +kernel⟩

end BaseFee

section FakeExponential

theorem divide_ok {dividend divisor quotient : Nat} (h : divide dividend divisor = .ok quotient) :
    divisor ≠ 0 ∧ quotient = dividend / divisor := by
  unfold divide at h
  split at h
  · cases h
  · next hdivisor => exact ⟨hdivisor, (Except.ok.inj h).symm⟩

/-- The loop of `fakeExponential`. The body runs as long as the accumulator is positive. -/
def fakeExponentialLoop (numerator denominator i output numeratorAccumulator : Nat) :
    Except String Nat :=
  if _hpos : numeratorAccumulator > 0 then
    match _hnext : divide (numeratorAccumulator * numerator) (denominator * i) with
    | .error e => .error e
    | .ok next =>
      fakeExponentialLoop numerator denominator (i + 1) (output + numeratorAccumulator) next
  else .ok output
termination_by (numerator + 1 - denominator * i, numeratorAccumulator)
decreasing_by
  obtain ⟨hdivisor, rfl⟩ := divide_ok _hnext
  exact nextTerm_decreases _hpos.ne' hdivisor

/-- Approximates `factor * e ^ (numerator / denominator)` by a Taylor expansion. -/
def fakeExponential (factor numerator denominator : Nat) : Except String Nat := do
  let output ← fakeExponentialLoop numerator denominator 1 0 (factor * denominator)
  divide output denominator

variable {factor numerator numerator' denominator i output accumulator : Nat}

theorem fakeExponentialLoop_eq (h : denominator * i ≠ 0) :
    fakeExponentialLoop numerator denominator i output accumulator =
      .ok (output + truncatedSeries numerator denominator i accumulator) := by
  induction i, accumulator using truncatedSeries.induct numerator denominator
    generalizing output with
  | case1 i accumulator hstop =>
    have hzero : accumulator = 0 := hstop.resolve_right h
    rw [hzero, truncatedSeries_zero, fakeExponentialLoop, dif_neg (lt_irrefl 0)]
    rfl
  | case2 i accumulator hgoes ih =>
    rw [not_or] at hgoes
    have hnext : denominator * (i + 1) ≠ 0 := by
      rw [Nat.mul_succ]
      omega
    have hdivide : divide (accumulator * numerator) (denominator * i) =
        .ok (nextTerm numerator denominator i accumulator) := if_neg h
    rw [fakeExponentialLoop, dif_pos (Nat.pos_of_ne_zero hgoes.1), truncatedSeries_pos hgoes.1 h,
      ← Nat.add_assoc, ← ih hnext]
    split
    · next hthrows =>
      rw [hdivide] at hthrows
      cases hthrows
    · next hok =>
      rw [hdivide] at hok
      rw [Except.ok.inj hok]

theorem fakeExponential_eq (hdenominator : 0 < denominator) :
    fakeExponential factor numerator denominator =
      .ok (truncatedSeries numerator denominator 1 (factor * denominator) / denominator) := by
  unfold fakeExponential
  rw [fakeExponentialLoop_eq (by omega), Nat.zero_add]
  exact if_neg hdenominator.ne'

/-- The approximation as a number. -/
def expFloor (factor numerator denominator : Nat) : Nat :=
  truncatedSeries numerator denominator 1 (factor * denominator) / denominator

theorem expFloor_mono (hdenominator : 0 < denominator) (h : numerator ≤ numerator') :
    expFloor factor numerator denominator ≤ expFloor factor numerator' denominator :=
  Nat.div_le_div_right (truncatedSeries_mono h le_rfl (by omega))

theorem le_expFloor (hdenominator : 0 < denominator) :
    factor ≤ expFloor factor numerator denominator :=
  (Nat.le_div_iff_mul_le hdenominator).mpr (le_truncatedSeries (by omega))

end FakeExponential

section BlobGas

/-- The parameters of a chain that the blob fee market reads. -/
structure BlobParams where
  targetBlobGasPerBlock : Nat
  maxBlobGasPerBlock : Nat
  target : Nat
  max : Nat
  blobGasPerBlob : Nat
  blobGasPriceUpdateFraction : Nat
  minBlobGas : Nat
  blobBaseCost : Nat

structure BpoSchedule where
  targetBlobGasPerBlock : Nat
  maxBlobGasPerBlock : Nat
  blobGasPriceUpdateFraction : Nat

def getBlobGasSchedule (common : Common) (params : BlobParams) : BpoSchedule :=
  if common.hardfork.gteHardfork .bpo1 then
    { targetBlobGasPerBlock := params.target * params.blobGasPerBlob
      maxBlobGasPerBlock := params.max * params.blobGasPerBlob
      blobGasPriceUpdateFraction := params.blobGasPriceUpdateFraction }
  else
    { targetBlobGasPerBlock := params.targetBlobGasPerBlock
      maxBlobGasPerBlock := params.maxBlobGasPerBlock
      blobGasPriceUpdateFraction := params.blobGasPriceUpdateFraction }

def computeBlobGasPrice (excessBlobGas : Nat) (params : BlobParams) : Except String Nat :=
  fakeExponential params.minBlobGas excessBlobGas params.blobGasPriceUpdateFraction

/-- The excess is a bigint, so it may be negative. -/
def calcNextExcessBlobGas (header : BlockHeader) (childCommon : Common) (params : BlobParams) :
    Except String Int := do
  let excessBlobGas := header.excessBlobGas.getD 0
  let blobGasUsed := header.blobGasUsed.getD 0
  let schedule := getBlobGasSchedule childCommon params
  let targetPerBlock := schedule.targetBlobGasPerBlock
  let maxPerBlock := schedule.maxBlobGasPerBlock
  if excessBlobGas + blobGasUsed < targetPerBlock then .ok 0
  else if childCommon.isActivatedEIP 7918 then
    let baseFee := header.baseFeePerGas.getD 0
    let blobFee ← computeBlobGasPrice excessBlobGas params
    if params.blobBaseCost * baseFee > params.blobGasPerBlob * blobFee then
      -- the target of a schedule may be above its maximum
      if maxPerBlock = 0 then .error "Division by zero"
      else .ok (excessBlobGas +
        Int.tdiv (blobGasUsed * ((maxPerBlock : Int) - targetPerBlock)) maxPerBlock)
    else .ok ((excessBlobGas : Int) + blobGasUsed - targetPerBlock)
  else .ok ((excessBlobGas : Int) + blobGasUsed - targetPerBlock)

variable {header : BlockHeader} {childCommon : Common} {params : BlobParams}
  {excessBlobGas excessBlobGas' : Nat}

theorem computeBlobGasPrice_eq (hfraction : 0 < params.blobGasPriceUpdateFraction) :
    computeBlobGasPrice excessBlobGas params =
      .ok (expFloor params.minBlobGas excessBlobGas params.blobGasPriceUpdateFraction) :=
  fakeExponential_eq hfraction

/-- The blob fee is below the reserve price of EIP-7918. -/
def ReservePrice (header : BlockHeader) (childCommon : Common) (params : BlobParams) : Prop :=
  childCommon.isActivatedEIP 7918 = true ∧
  ∃ blobFee, computeBlobGasPrice (header.excessBlobGas.getD 0) params = .ok blobFee ∧
    params.blobBaseCost * header.baseFeePerGas.getD 0 > params.blobGasPerBlob * blobFee

/-- A schedule with a target that is not above its maximum. -/
structure ValidSchedule (childCommon : Common) (params : BlobParams) : Prop where
  target_pos : 0 < (getBlobGasSchedule childCommon params).targetBlobGasPerBlock
  target_le : (getBlobGasSchedule childCommon params).targetBlobGasPerBlock ≤
    (getBlobGasSchedule childCommon params).maxBlobGasPerBlock
  fraction_pos : 0 < (getBlobGasSchedule childCommon params).blobGasPriceUpdateFraction

theorem getBlobGasSchedule_fraction :
    (getBlobGasSchedule childCommon params).blobGasPriceUpdateFraction =
      params.blobGasPriceUpdateFraction := by
  unfold getBlobGasSchedule
  split <;> rfl

theorem calcNextExcessBlobGas_early
    (h : header.excessBlobGas.getD 0 + header.blobGasUsed.getD 0 <
      (getBlobGasSchedule childCommon params).targetBlobGasPerBlock) :
    calcNextExcessBlobGas header childCommon params = .ok 0 := by
  unfold calcNextExcessBlobGas
  dsimp only
  rw [if_pos h]

theorem calcNextExcessBlobGas_reserve (hvalid : ValidSchedule childCommon params)
    (h : (getBlobGasSchedule childCommon params).targetBlobGasPerBlock ≤
      header.excessBlobGas.getD 0 + header.blobGasUsed.getD 0)
    (hreserve : ReservePrice header childCommon params) :
    calcNextExcessBlobGas header childCommon params =
      .ok ((header.excessBlobGas.getD 0 + header.blobGasUsed.getD 0 *
        ((getBlobGasSchedule childCommon params).maxBlobGasPerBlock -
          (getBlobGasSchedule childCommon params).targetBlobGasPerBlock) /
        (getBlobGasSchedule childCommon params).maxBlobGasPerBlock : Nat) : Int) := by
  obtain ⟨hactive, blobFee, hfee, hbelow⟩ := hreserve
  have hmax := hvalid.target_pos.trans_le hvalid.target_le
  unfold calcNextExcessBlobGas
  dsimp only
  rw [if_neg (by omega), if_pos hactive, hfee]
  change (if _ then _ else _) = _
  rw [if_pos hbelow, if_neg hmax.ne', ← Nat.cast_sub hvalid.target_le, ← Nat.cast_mul,
    Int.tdiv_eq_ediv_of_nonneg (Nat.cast_nonneg _), ← Int.natCast_ediv, ← Nat.cast_add]

theorem calcNextExcessBlobGas_original (hvalid : ValidSchedule childCommon params)
    (h : (getBlobGasSchedule childCommon params).targetBlobGasPerBlock ≤
      header.excessBlobGas.getD 0 + header.blobGasUsed.getD 0)
    (horiginal : ¬ ReservePrice header childCommon params) :
    calcNextExcessBlobGas header childCommon params =
      .ok ((header.excessBlobGas.getD 0 + header.blobGasUsed.getD 0 -
        (getBlobGasSchedule childCommon params).targetBlobGasPerBlock : Nat) : Int) := by
  have hcast : ((header.excessBlobGas.getD 0 + header.blobGasUsed.getD 0 -
      (getBlobGasSchedule childCommon params).targetBlobGasPerBlock : Nat) : Int) =
      (header.excessBlobGas.getD 0 : Int) + header.blobGasUsed.getD 0 -
        (getBlobGasSchedule childCommon params).targetBlobGasPerBlock := by
    omega
  rw [hcast]
  unfold calcNextExcessBlobGas
  dsimp only
  rw [if_neg (by omega)]
  by_cases hactive : childCommon.isActivatedEIP 7918 = true
  · rw [if_pos hactive,
      computeBlobGasPrice_eq (getBlobGasSchedule_fraction ▸ hvalid.fraction_pos)]
    change (if _ then _ else _) = _
    rw [if_neg fun hbelow => horiginal ⟨hactive, _,
      computeBlobGasPrice_eq (getBlobGasSchedule_fraction ▸ hvalid.fraction_pos), hbelow⟩]
  · rw [if_neg hactive]

/-- The part of the blob gas that is added below the reserve price. -/
theorem increase_le (used target max : Nat) : used * (max - target) / max ≤ used := by
  refine Nat.div_le_of_le_mul ?_
  rw [Nat.mul_comm]
  exact Nat.mul_le_mul_right _ (Nat.sub_le _ _)

/-- Where the next excess is zero. -/
def NextIsZero (header : BlockHeader) (childCommon : Common) (params : BlobParams) : Prop :=
  let excessBlobGas := header.excessBlobGas.getD 0
  let blobGasUsed := header.blobGasUsed.getD 0
  let schedule := getBlobGasSchedule childCommon params
  excessBlobGas + blobGasUsed < schedule.targetBlobGasPerBlock ∨
  (ReservePrice header childCommon params ∧ excessBlobGas = 0 ∧
    blobGasUsed * (schedule.maxBlobGasPerBlock - schedule.targetBlobGasPerBlock) <
      schedule.maxBlobGasPerBlock) ∨
  (¬ ReservePrice header childCommon params ∧
    excessBlobGas + blobGasUsed = schedule.targetBlobGasPerBlock)

theorem calcNextExcessBlobGas_bounds (hvalid : ValidSchedule childCommon params) :
    ∃ next : Int, calcNextExcessBlobGas header childCommon params = .ok next ∧ 0 ≤ next ∧
      next ≤ header.excessBlobGas.getD 0 + header.blobGasUsed.getD 0 ∧
      (next = 0 ↔ NextIsZero header childCommon params) := by
  unfold NextIsZero
  dsimp only
  obtain hearly | hover := Nat.lt_or_ge
    (header.excessBlobGas.getD 0 + header.blobGasUsed.getD 0)
    (getBlobGasSchedule childCommon params).targetBlobGasPerBlock
  · refine ⟨0, calcNextExcessBlobGas_early hearly, le_rfl, by omega, ?_⟩
    exact ⟨fun _ => .inl hearly, fun _ => rfl⟩
  · by_cases hreserve : ReservePrice header childCommon params
    · refine ⟨_, calcNextExcessBlobGas_reserve hvalid hover hreserve, Nat.cast_nonneg _, ?_, ?_⟩
      · exact_mod_cast Nat.add_le_add_left (increase_le _ _ _) _
      · have hmax := hvalid.target_pos.trans_le hvalid.target_le
        rw [Nat.cast_eq_zero, Nat.add_eq_zero_iff, Nat.div_eq_zero_iff_lt hmax]
        constructor
        · exact fun hzero => .inr (.inl ⟨hreserve, hzero⟩)
        · rintro (hless | ⟨-, hzero⟩ | ⟨horiginal, -⟩)
          · omega
          · exact hzero
          · exact absurd hreserve horiginal
    · refine ⟨_, calcNextExcessBlobGas_original hvalid hover hreserve, Nat.cast_nonneg _,
        by omega, ?_⟩
      rw [Nat.cast_eq_zero]
      constructor
      · exact fun hzero => .inr (.inr ⟨hreserve, by omega⟩)
      · rintro (hless | ⟨hbelow, -⟩ | ⟨-, heq⟩)
        · omega
        · exact absurd hbelow hreserve
        · omega

theorem calcNextExcessBlobGas_mono (hvalid : ValidSchedule childCommon params)
    (horiginal : ¬ ReservePrice header childCommon params) {used' : Nat} {next next' : Int}
    (hused : header.blobGasUsed.getD 0 ≤ used')
    (hnext : calcNextExcessBlobGas header childCommon params = .ok next)
    (hnext' : calcNextExcessBlobGas { header with blobGasUsed := some used' } childCommon params =
      .ok next') :
    next ≤ next' := by
  obtain hearly | hover := Nat.lt_or_ge
    (header.excessBlobGas.getD 0 + header.blobGasUsed.getD 0)
    (getBlobGasSchedule childCommon params).targetBlobGasPerBlock
  · rw [calcNextExcessBlobGas_early hearly] at hnext
    cases hnext
    obtain ⟨next'', heq, hnonneg, -⟩ :=
      @calcNextExcessBlobGas_bounds { header with blobGasUsed := some used' } _ _ hvalid
    rw [heq] at hnext'
    exact Except.ok.inj hnext' ▸ hnonneg
  · rw [calcNextExcessBlobGas_original hvalid hover horiginal] at hnext
    -- the reserve price does not depend on the blob gas that was used
    have hother :=
      @calcNextExcessBlobGas_original { header with blobGasUsed := some used' } _ _ hvalid
        (hover.trans (Nat.add_le_add_left hused _)) horiginal
    rw [hother] at hnext'
    cases hnext
    cases hnext'
    dsimp only [Option.getD_some]
    omega

/-- The approximation of the exponential, the blob gas price and the excess after a block. -/
theorem blobFee_laws :
    (∀ factor numerator denominator : Nat, 0 < denominator →
      ∃ output, fakeExponential factor numerator denominator = .ok output ∧ factor ≤ output ∧
        ∀ numerator' output', numerator ≤ numerator' →
          fakeExponential factor numerator' denominator = .ok output' → output ≤ output') ∧
    (∀ (params : BlobParams) (excessBlobGas excessBlobGas' : Nat),
      0 < params.blobGasPriceUpdateFraction → excessBlobGas ≤ excessBlobGas' →
      ∃ price price', computeBlobGasPrice excessBlobGas params = .ok price ∧
        computeBlobGasPrice excessBlobGas' params = .ok price' ∧ price ≤ price') ∧
    (∀ (header : BlockHeader) (childCommon : Common) (params : BlobParams),
      ValidSchedule childCommon params →
      ∃ next : Int, calcNextExcessBlobGas header childCommon params = .ok next ∧ 0 ≤ next ∧
        next ≤ header.excessBlobGas.getD 0 + header.blobGasUsed.getD 0 ∧
        (next = 0 ↔ NextIsZero header childCommon params) ∧
        (¬ ReservePrice header childCommon params →
          ∀ (used' : Nat) (next' : Int), header.blobGasUsed.getD 0 ≤ used' →
            calcNextExcessBlobGas { header with blobGasUsed := some used' } childCommon params =
              .ok next' →
            next ≤ next')) := by
  refine ⟨fun factor numerator denominator hdenominator => ?_,
    fun params excessBlobGas excessBlobGas' hfraction hexcess => ?_,
    fun header childCommon params hvalid => ?_⟩
  · refine ⟨_, fakeExponential_eq hdenominator, le_expFloor hdenominator, ?_⟩
    intro numerator' output' hnumerator houtput'
    rw [fakeExponential_eq hdenominator] at houtput'
    exact Except.ok.inj houtput' ▸ expFloor_mono hdenominator hnumerator
  · exact ⟨_, _, computeBlobGasPrice_eq hfraction, computeBlobGasPrice_eq hfraction,
      expFloor_mono hfraction hexcess⟩
  · obtain ⟨next, hnext, hnonneg, hle, hzero⟩ := calcNextExcessBlobGas_bounds hvalid
    exact ⟨next, hnext, hnonneg, hle, hzero, fun horiginal used' next' hused hnext' =>
      calcNextExcessBlobGas_mono hvalid horiginal hused hnext hnext'⟩

/-- The parameters of EIP-4844. -/
def cancunParams : BlobParams where
  targetBlobGasPerBlock := 393216
  maxBlobGasPerBlock := 786432
  target := 3
  max := 6
  blobGasPerBlob := 131072
  blobGasPriceUpdateFraction := 3338477
  minBlobGas := 1
  blobBaseCost := 8192

/-- Two units of numerator, and the parameters of EIP-4844 with a header without blobs. -/
theorem blobFee_laws_sample :
    (∃ output, fakeExponential 3 2 1 = .ok output ∧ 3 ≤ output) ∧
    (∃ price price', computeBlobGasPrice 0 cancunParams = .ok price ∧
      computeBlobGasPrice 1 cancunParams = .ok price' ∧ price ≤ price') ∧
    ∃ next : Int, calcNextExcessBlobGas (feeHeader 0) londonCommon cancunParams = .ok next ∧
      0 ≤ next ∧ next ≤ 0 := by
  obtain ⟨hexponential, hprice, hexcess⟩ := blobFee_laws
  obtain ⟨output, houtput, hfactor, -⟩ := hexponential 3 2 1 (by decide)
  obtain ⟨next, hnext, hnonneg, hle, -⟩ := hexcess (feeHeader 0) londonCommon cancunParams
    ⟨by decide +kernel, by decide +kernel, by decide +kernel⟩
  exact ⟨⟨output, houtput, hfactor⟩, hprice cancunParams 0 1 (by decide) (by decide),
    next, hnext, hnonneg, hle⟩

end BlobGas

end EthereumJS.Block
