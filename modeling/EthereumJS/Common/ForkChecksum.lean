import EthereumJS.Common.ForkHash
import EthereumJS.Util.BinaryTree

/-! # Fork hashes are checksums

What a fork hash should be: the CRC-32 of the genesis hash and the distinct fork points up to the
fork. When that is what `_calcForkHash` computes, and what `setForkHashes` leaves behind.
-/

namespace EthereumJS.ForkId

open RLP Tx HardforkSchedule LittleEndian

section Points

/-- A number in bytes, the highest first. -/
def bigEndian (width n : Nat) : Bytes := (leBytes width n).reverse

/-- The point at which a fork is scheduled; the merge is not counted. -/
def forkPoint (hf : ForkTransition) : Option Nat :=
  if hf.name = paris then none else hf.blockOrTimestamp.map Timestamp.toBigInt

def points (hfs : List ForkTransition) : List Nat := hfs.filterMap forkPoint

/-- The forks up to one. -/
def upTo (hardfork : String) : List ForkTransition → List ForkTransition
  | [] => []
  | hf :: hfs => if hf.name = hardfork then [hf] else hf :: upTo hardfork hfs

/-- The distinct points other than zero. -/
def hashedPoints (points : List Nat) : List Nat := (points.filter (· ≠ 0)).eraseDups

def forkChecksum (genesisHash : Bytes) (points : List Nat) : BitVec 32 :=
  crc32Checksum (genesisHash ++ (hashedPoints points).flatMap (bigEndian 8))

/-- The fork hash behind some points. -/
def checksumBytes (genesisHash : Bytes) (points : List Nat) : Bytes :=
  bigEndian 4 (forkChecksum genesisHash points).toNat

/-- The schedule of a chain: its forks have names of their own and points of eight bytes, which do
not decrease, and a fork without a point has no hash. -/
structure ForkSchedule (hfs : List ForkTransition) : Prop where
  names : (hfs.map fun hf => hf.name).Nodup
  ordered : (points hfs).Pairwise (· ≤ ·)
  eightBytes : ∀ p ∈ points hfs, p < 2 ^ 64
  unscheduled : ∀ hf ∈ hfs, hf.blockOrTimestamp = none → hf.forkHash = none

end Points

section BigEndian

variable {bytes : Bytes} {n : Nat}

@[simp] theorem length_bigEndian (width n : Nat) : (bigEndian width n).length = width := by
  rw [bigEndian, List.length_reverse, length_leBytes]

theorem bytesToNumber_bigEndian {width : Nat} (h : n < 256 ^ width) :
    bytesToNumber (bigEndian width n) = n := by
  rw [← leNumber_reverse, bigEndian, List.reverse_reverse, leNumber_leBytes, Nat.mod_eq_of_lt h]

/-- Bytes are known by their number and how many they are. -/
theorem eq_bigEndian (bytes : Bytes) : bytes = bigEndian bytes.length (bytesToNumber bytes) := by
  have hback := leBytes_leNumber bytes.reverse
  rw [List.length_reverse, leNumber_reverse] at hback
  rw [bigEndian, hback, List.reverse_reverse]

/-- A number in as few bytes as it needs has four of them from `2 ^ 24` on. -/
theorem bigIntToBytes_eq_bigEndian_iff (h : n < 2 ^ 32) :
    bigIntToBytes n = bigEndian 4 n ↔ 2 ^ 24 ≤ n := by
  have hnumber := bytesToNumber_bigIntToBytes n
  constructor
  · intro heq
    by_contra hsmall
    have hlen := (length_bigIntToBytes_le 3 (by omega : n < 256 ^ 3) (by decide)).2
    rw [heq, length_bigEndian] at hlen
    omega
  · intro hlarge
    have hle := (length_bigIntToBytes_le 4 (by omega : n < 256 ^ 4) (by decide)).2
    have hge : 4 ≤ (bigIntToBytes n).length := by
      by_contra hshort
      have hlt := bytesToNumber_lt (bigIntToBytes n)
      rw [hnumber] at hlt
      have hpow : 256 ^ (bigIntToBytes n).length ≤ 256 ^ 3 :=
        Nat.pow_le_pow_right (by decide) (by omega)
      omega
    have hback := eq_bigEndian (bigIntToBytes n)
    rwa [hnumber, Nat.le_antisymm hle hge] at hback

theorem padStart_doubleToHex (n width : Nat) : padStart (doubleToHex (some n)) width =
    (List.replicate (width - (toHexDigits n).length) 0 ++ toHexDigits n).map hexChar := by
  have hzero : hexChar 0 = '0' := by decide
  rw [padStart, doubleToHex, List.length_map, List.map_append, List.map_replicate, hzero]

theorem hexValue_zeros (k : Nat) (digits : Nibbles) :
    hexValue (List.replicate k 0 ++ digits) = hexValue digits := by
  induction k with
  | zero => rfl
  | succ k ih =>
    rw [List.replicate_succ, List.cons_append, ← ih]
    rfl

theorem hexToBytes_hexChars {digits : Nibbles} (heven : digits.length % 2 = 0) :
    hexToBytes ('0' :: 'x' :: digits.map hexChar) =
      .ok (bigEndian (digits.length / 2) (hexValue digits)) := by
  have hback := eq_bigEndian (nibblesTypeToPackedBytes digits)
  have hnumber : bytesToNumber (nibblesTypeToPackedBytes digits) = hexValue digits :=
    foldl_packedBytes digits heven 0
  rw [hnumber, length_packedBytes digits heven] at hback
  rw [hexToBytes, mapM_hexDigit_hexChar]
  dsimp only
  rw [padToEven, if_neg (by omega), ← hback]

/-- A point in its eight bytes. -/
theorem hfBlockBytes_eq (h : n < 2 ^ 64) : hfBlockBytes (some n) = .ok (bigEndian 8 n) := by
  have hlen := (@length_toHexDigits_le n 8 (by norm_num; exact h) (by decide)).2
  have hcount : (List.replicate (16 - (toHexDigits n).length) 0 ++ toHexDigits n).length = 16 := by
    rw [List.length_append, List.length_replicate]
    omega
  rw [hfBlockBytes, padStart_doubleToHex, hexToBytes_hexChars (by rw [hcount]), hcount,
    hexValue_zeros, hexValue_toHexDigits]

end BigEndian

section Loop

variable {hf : ForkTransition} {hfs : List ForkTransition} {hardfork : String} {p prev : Nat}

theorem checksumHex_eq_iff {genesisHash : Bytes} {hashed : List Nat} :
    checksumHex (genesisHash ++ (hashedPoints hashed).flatMap (bigEndian 8)) =
        bytesToHex (checksumBytes genesisHash hashed) ↔
      2 ^ 24 ≤ (forkChecksum genesisHash hashed).toNat := by
  rw [checksumHex, bytesToHex_injective.eq_iff, crc32, crc_eq_checksum]
  exact bigIntToBytes_eq_bigEndian_iff (BitVec.isLt _)

theorem hfStep_none (h : forkPoint hf = none) (hfBytes : Bytes) (prevBlockOrTime : Option Nat) :
    hfStep hf hfBytes prevBlockOrTime = .ok (hfBytes, prevBlockOrTime) := by
  rw [hfStep]
  cases hvalue : hf.blockOrTimestamp with
  | none => rfl
  | some value =>
    have hmerge : hf.name = paris := by
      by_contra hne
      rw [forkPoint, if_neg hne, hvalue] at h
      cases h
    exact if_neg fun hcond => hcond.2.2 hmerge

/-- A point that a double keeps. -/
theorem hfStep_some (h : forkPoint hf = some p) (hexact : toDouble p = some p) (hp : p < 2 ^ 64)
    (hfBytes : Bytes) : hfStep hf hfBytes (some prev) =
      .ok (if p ≠ 0 ∧ p ≠ prev then (hfBytes ++ bigEndian 8 p, some p)
        else (hfBytes, some prev)) := by
  rw [forkPoint] at h
  split at h
  · cases h
  · next hname =>
    obtain ⟨value, hvalue, rfl⟩ := Option.map_eq_some_iff.mp h
    rw [hfStep, hvalue]
    dsimp only
    rw [hexact, hfBlockBytes_eq hp]
    by_cases hfresh : value.toBigInt ≠ 0 ∧ value.toBigInt ≠ prev
    · rw [if_pos hfresh, if_pos ⟨by simpa using hfresh.1, by simpa using hfresh.2, hname⟩]
      rfl
    · rw [if_neg hfresh, if_neg fun hcond =>
        hfresh ⟨by simpa using hcond.1, by simpa using hcond.2.1⟩]

theorem points_cons_none (h : forkPoint hf = none) : points (hf :: hfs) = points hfs :=
  List.filterMap_cons_none h

theorem points_cons_some (h : forkPoint hf = some p) : points (hf :: hfs) = p :: points hfs :=
  List.filterMap_cons_some h

theorem points_append (hfs hfs' : List ForkTransition) :
    points (hfs ++ hfs') = points hfs ++ points hfs' :=
  List.filterMap_append

theorem upTo_sublist (hardfork : String) (hfs : List ForkTransition) :
    (upTo hardfork hfs).Sublist hfs := by
  induction hfs with
  | nil => exact List.Sublist.refl _
  | cons hf hfs ih =>
    rw [upTo]
    split
    · exact List.Sublist.cons_cons hf (List.nil_sublist hfs)
    · exact List.Sublist.cons_cons hf ih

/-- Behind a point, the points that are new are those that differ from it. -/
theorem filter_new (hlt : prev < p) {rest : List Nat} (hrest : ∀ q ∈ rest, p ≤ q) :
    ((rest.filter fun q => q ≠ 0 ∧ q ≠ prev).filter fun q => !q == p) =
      rest.filter fun q => q ≠ 0 ∧ q ≠ p := by
  rw [List.filter_filter]
  apply List.filter_congr
  intro q hq
  have hle := hrest q hq
  by_cases heq : q = p
  · simp [heq]
  · have hzero : q ≠ 0 := by omega
    have hprev : q ≠ prev := by omega
    simp [heq, hzero, hprev]

/-- The loop puts together the distinct points that are not zero. -/
theorem hfBytesLoop_eq (hordered : (points hfs).Pairwise (· ≤ ·))
    (hprev : ∀ q ∈ points hfs, prev ≤ q) (hbytes : ∀ q ∈ points hfs, q < 2 ^ 64)
    (hexact : ∀ q ∈ points (upTo hardfork hfs), toDouble q = some q) (hfBytes : Bytes) :
    hfBytesLoop hardfork hfs hfBytes (some prev) =
      .ok (hfBytes ++ (((points (upTo hardfork hfs)).filter fun q =>
        q ≠ 0 ∧ q ≠ prev).eraseDups.flatMap (bigEndian 8))) := by
  induction hfs generalizing prev hfBytes with
  | nil => simp [hfBytesLoop, upTo, points]
  | cons hf hfs ih =>
    rw [hfBytesLoop]
    cases hpoint : forkPoint hf with
    | none =>
      rw [points_cons_none hpoint] at hordered hprev hbytes
      rw [hfStep_none hpoint]
      by_cases hname : hf.name = hardfork
      · rw [upTo, if_pos hname, points_cons_none hpoint]
        simp [hname, points, Bind.bind, Except.bind]
      · rw [upTo, if_neg hname, points_cons_none hpoint] at hexact ⊢
        rw [← ih hordered hprev hbytes hexact]
        simp [hname, Bind.bind, Except.bind]
    | some p =>
      rw [points_cons_some hpoint] at hordered hprev hbytes
      rw [List.forall_mem_cons] at hprev hbytes
      obtain ⟨hfirst, hrest⟩ := List.pairwise_cons.mp hordered
      have hstep : toDouble p = some p := by
        apply hexact p
        rw [upTo]
        split
        · rw [points_cons_some hpoint]
          exact List.mem_cons_self
        · rw [points_cons_some hpoint]
          exact List.mem_cons_self
      rw [hfStep_some hpoint hstep hbytes.1]
      by_cases hfresh : p ≠ 0 ∧ p ≠ prev
      · rw [if_pos hfresh]
        have hlt : prev < p := lt_of_le_of_ne hprev.1 hfresh.2.symm
        by_cases hname : hf.name = hardfork
        · rw [upTo, if_pos hname, points_cons_some hpoint]
          simp [hname, points, hfresh, List.eraseDups_cons, Bind.bind, Except.bind]
        · rw [upTo, if_neg hname, points_cons_some hpoint] at hexact ⊢
          have hlater : ∀ q ∈ points (upTo hardfork hfs), p ≤ q := fun q hq =>
            hfirst q (((upTo_sublist hardfork hfs).filterMap forkPoint).subset hq)
          have hnext := ih hrest hfirst hbytes.2 (fun q hq => hexact q (List.mem_cons_of_mem p hq))
            (hfBytes ++ bigEndian 8 p)
          rw [List.filter_cons_of_pos (by simpa using hfresh), List.eraseDups_cons,
            filter_new hlt hlater, List.flatMap_cons, ← List.append_assoc, ← hnext]
          simp [hname, Bind.bind, Except.bind]
      · rw [if_neg hfresh]
        by_cases hname : hf.name = hardfork
        · rw [upTo, if_pos hname, points_cons_some hpoint,
            List.filter_cons_of_neg (by simpa using hfresh)]
          simp [hname, points, Bind.bind, Except.bind]
        · rw [upTo, if_neg hname, points_cons_some hpoint] at hexact ⊢
          rw [List.filter_cons_of_neg (by simpa using hfresh),
            ← ih hrest hprev.2 hbytes.2 fun q hq => hexact q (List.mem_cons_of_mem p hq)]
          simp [hname, Bind.bind, Except.bind]

theorem calcForkHash_eq {chain : ForkConfig} (hs : ForkSchedule chain.transitions)
    (hexact : ∀ q ∈ points (upTo hardfork chain.transitions), toDouble q = some q)
    (genesisHash : Bytes) : calcForkHash chain hardfork genesisHash =
      .ok (checksumHex (genesisHash ++
        (hashedPoints (points (upTo hardfork chain.transitions))).flatMap (bigEndian 8))) := by
  have hloop := @hfBytesLoop_eq chain.transitions hardfork 0 hs.ordered (fun q _ => Nat.zero_le q) hs.eightBytes
    hexact []
  rw [calcForkHash, hloop]
  simp only [and_self, List.nil_append, hashedPoints]

end Loop

section Filled

/-- A fork without its hash. -/
def ForkTransition.forget (hf : ForkTransition) : ForkTransition := { hf with forkHash := none }

theorem hfBytesLoop_forget (hardfork : String) (hfs : List ForkTransition) (hfBytes : Bytes)
    (prevBlockOrTime : Option Nat) :
    hfBytesLoop hardfork (hfs.map ForkTransition.forget) hfBytes prevBlockOrTime =
      hfBytesLoop hardfork hfs hfBytes prevBlockOrTime := by
  induction hfs generalizing hfBytes prevBlockOrTime with
  | nil => rfl
  | cons hf hfs ih =>
    rw [List.map_cons, hfBytesLoop, hfBytesLoop]
    change (hfStep hf hfBytes prevBlockOrTime >>= _) = _
    congr 1
    funext state
    change (if hf.name = hardfork then _ else _) = _
    rw [ih]

variable (chain : ForkConfig) (genesisHash : Bytes)

/-- The points up to a fork. -/
def pointsUpTo (hardfork : String) : List Nat := points (upTo hardfork chain.transitions)

/-- Whether `setForkHashes` is to fill in the hash of a fork. -/
def Missing (hf : ForkTransition) : Prop := hf.forkHash = none ∧ hf.blockOrTimestamp ≠ none

instance (hf : ForkTransition) : Decidable (Missing hf) := inferInstanceAs (Decidable (_ ∧ _))

/-- A fork whose hash is filled in. -/
def fill (hf : ForkTransition) : ForkTransition :=
  if Missing hf then
    { hf with forkHash := some (checksumHex (genesisHash ++
      (hashedPoints (pointsUpTo chain hf.name)).flatMap (bigEndian 8))) }
  else hf

def filled : ForkConfig := { chain with hardforks := chain.hardforks.map (fill chain genesisHash) }

/-- `Number` keeps the points that are hashed for a missing fork hash. -/
def Exact : Prop :=
  ∀ hf ∈ chain.transitions, Missing hf → ∀ p ∈ pointsUpTo chain hf.name, toDouble p = some p

@[simp] theorem name_fill (hf : ForkTransition) : (fill chain genesisHash hf).name = hf.name := by
  rw [fill]
  split <;> rfl

@[simp] theorem blockOrTimestamp_fill (hf : ForkTransition) :
    (fill chain genesisHash hf).blockOrTimestamp = hf.blockOrTimestamp := by
  rw [fill]
  split <;> rfl

@[simp] theorem forget_fill (hf : ForkTransition) :
    (fill chain genesisHash hf).forget = hf.forget := by
  rw [fill]
  split <;> rfl

variable {chain genesisHash}

/-- A chain with the same forks, whatever their hashes. -/
theorem forget_transitions {hardforks : List ForkTransition}
    (h : hardforks.map ForkTransition.forget = chain.hardforks.map ForkTransition.forget) :
    ({ chain with hardforks := hardforks } : ForkConfig).transitions.map ForkTransition.forget =
      chain.transitions.map ForkTransition.forget := by
  have hnames : hardforks.map (fun hf => hf.name) = chain.hardforks.map fun hf => hf.name := by
    have hmap := congrArg (List.map fun hf : ForkTransition => hf.name) h
    rwa [List.map_map, List.map_map] at hmap
  rw [ForkConfig.transitions, ForkConfig.transitions, List.map_append, List.map_append, h, hnames]

theorem transitions_filled :
    (filled chain genesisHash).transitions = chain.transitions.map (fill chain genesisHash) := by
  have hnames : (chain.hardforks.map (fill chain genesisHash)).map (fun hf => hf.name) =
      chain.hardforks.map fun hf => hf.name := by
    rw [List.map_map]
    exact List.map_congr_left fun hf _ => name_fill chain genesisHash hf
  rw [filled, ForkConfig.transitions, ForkConfig.transitions, hnames, List.map_append,
    List.map_map (f := fun name => _)]
  rfl

theorem find?_name {hfs : List ForkTransition} {hf : ForkTransition}
    (hnames : (hfs.map fun hf => hf.name).Nodup) (hmem : hf ∈ hfs) :
    (hfs.find? fun hf' => hf'.name = hf.name) = some hf := by
  obtain ⟨before, after, rfl⟩ := List.append_of_mem hmem
  rw [List.map_append, List.nodup_append] at hnames
  rw [List.find?_eq_some_iff_append]
  refine ⟨decide_eq_true rfl, before, after, rfl, ?_⟩
  intro other hother
  have hne := hnames.2.2 other.name (List.mem_map_of_mem hother) hf.name List.mem_cons_self
  simpa using hne

theorem calcForkHash_congr {chain' : ForkConfig}
    (h : chain'.transitions.map ForkTransition.forget =
      chain.transitions.map ForkTransition.forget) (hardfork : String) :
    calcForkHash chain' hardfork genesisHash = calcForkHash chain hardfork genesisHash := by
  rw [calcForkHash, calcForkHash, ← hfBytesLoop_forget, h, hfBytesLoop_forget]

theorem forkHash_missing {hf : ForkTransition} (hfound : getHardfork chain hf.name = some hf)
    (hmissing : Missing hf) :
    forkHash chain hf.name (some genesisHash) = calcForkHash chain hf.name genesisHash := by
  have hpoint : ¬ (hf.block = none ∧ hf.timestamp = none) := by
    rintro ⟨hblock, htime⟩
    apply hmissing.2
    rw [ForkTransition.blockOrTimestamp, hblock, htime]
    rfl
  rw [forkHash, hfound]
  dsimp only
  rw [if_neg hpoint, hmissing.1]

theorem setForkHashesLoop_eq (hs : ForkSchedule chain.transitions) (hexact : Exact chain)
    {before hfs : List ForkTransition} (hsplit : chain.hardforks = before ++ hfs) :
    setForkHashesLoop chain genesisHash (before.map (fill chain genesisHash)) hfs =
      .ok (chain.hardforks.map (fill chain genesisHash)) := by
  induction hfs generalizing before with
  | nil => rw [setForkHashesLoop, hsplit, List.append_nil]
  | cons hf hfs ih =>
    have hnext := @ih (before ++ [hf]) (by rw [hsplit, List.append_assoc]; rfl)
    rw [List.map_append, List.map_singleton] at hnext
    rw [setForkHashesLoop]
    by_cases hmissing : Missing hf
    · let current : ForkConfig :=
        { chain with hardforks := before.map (fill chain genesisHash) ++ hf :: hfs }
      have hforget : current.transitions.map ForkTransition.forget =
          chain.transitions.map ForkTransition.forget := by
        apply forget_transitions
        rw [hsplit, List.map_append, List.map_append, List.map_map]
        congr 1
        exact List.map_congr_left fun hf _ => forget_fill chain genesisHash hf
      have hnames : (current.transitions.map fun hf => hf.name).Nodup := by
        have hsame := congrArg (List.map fun hf : ForkTransition => hf.name) hforget
        rw [List.map_map, List.map_map] at hsame
        exact hsame ▸ hs.names
      have hmem : hf ∈ current.transitions :=
        List.mem_append_left _ (List.mem_append_right _ List.mem_cons_self)
      have hmem' : hf ∈ chain.transitions := by
        rw [ForkConfig.transitions, hsplit]
        exact List.mem_append_left _ (List.mem_append_right _ List.mem_cons_self)
      have hhash := (@forkHash_missing current genesisHash hf (find?_name hnames hmem)
        hmissing).trans ((calcForkHash_congr hforget hf.name).trans
          (calcForkHash_eq hs (hexact hf hmem' hmissing) genesisHash))
      rw [fill, if_pos hmissing] at hnext
      refine (if_pos hmissing).trans ?_
      change (forkHash current hf.name (some genesisHash) >>= _) = _
      rw [hhash]
      exact hnext
    · rw [fill, if_neg hmissing] at hnext
      rw [← hnext]
      exact if_neg hmissing

theorem setForkHashes_eq (hs : ForkSchedule chain.transitions) (hexact : Exact chain) :
    setForkHashes chain genesisHash = .ok (filled chain genesisHash) := by
  have hloop := @setForkHashesLoop_eq chain genesisHash hs hexact [] _
    (List.nil_append _).symm
  rw [List.map_nil] at hloop
  rw [setForkHashes, hloop]
  rfl

/-- The hash that `forkHash` reads once the missing ones are filled in. -/
theorem forkHash_filled (hs : ForkSchedule chain.transitions) {hf : ForkTransition}
    (hmem : hf ∈ chain.transitions) (hpoint : hf.blockOrTimestamp ≠ none) :
    ∃ hash, (fill chain genesisHash hf).forkHash = some hash ∧
      forkHash (filled chain genesisHash) hf.name none = .ok hash := by
  have hsome : ∃ hash, (fill chain genesisHash hf).forkHash = some hash := by
    rw [fill]
    split
    · exact ⟨_, rfl⟩
    · next hgiven =>
      rw [Missing, not_and_or, not_not] at hgiven
      exact Option.ne_none_iff_exists'.mp (hgiven.resolve_right hpoint)
  obtain ⟨hash, hhash⟩ := hsome
  have hnames : ((filled chain genesisHash).transitions.map fun hf => hf.name).Nodup := by
    rw [transitions_filled, List.map_map]
    exact (List.map_congr_left fun hf _ => name_fill chain genesisHash hf) ▸ hs.names
  have hfound : getHardfork (filled chain genesisHash) hf.name =
      some (fill chain genesisHash hf) := by
    rw [← name_fill chain genesisHash hf]
    apply find?_name hnames
    rw [transitions_filled]
    exact List.mem_map_of_mem hmem
  have happlied : ¬ ((fill chain genesisHash hf).block = none ∧
      (fill chain genesisHash hf).timestamp = none) := by
    rintro ⟨hblock, htime⟩
    apply hpoint
    rw [← blockOrTimestamp_fill chain genesisHash, ForkTransition.blockOrTimestamp, hblock, htime]
    rfl
  refine ⟨hash, hhash, ?_⟩
  rw [forkHash, hfound]
  dsimp only
  rw [if_neg happlied, hhash]

end Filled

end EthereumJS.ForkId
