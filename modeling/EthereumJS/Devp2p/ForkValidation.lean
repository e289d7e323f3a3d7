import EthereumJS.Common.ForkLevels
import EthereumJS.Common.ForkPoints

/-! # Fork ID validation

The fork hash that the ETH protocol of `packages/devp2p` sends and how it judges the fork hash and
the next fork point of the other side, and for which schedules that is the judgement by fork
points.
-/

namespace EthereumJS.Devp2p

open RLP HardforkSchedule ForkId ForkPoints

/-- What the ETH protocol keeps for fork IDs, from version 64 on. -/
structure ETH where
  common : ForkConfig
  hardfork : String
  latestBlock : Nat
  forkHash : HexString
  nextForkBlock : Nat

/-- The constructor. -/
def ETH.new (common : ForkConfig) (hardfork : String) : Except ForkIdError ETH := do
  let forkHash ← ForkId.forkHash common hardfork none
  .ok {
    common, hardfork, forkHash
    latestBlock := (hardforkBlock common hardfork).getD 0
    nextForkBlock := (nextHardforkBlockOrTimestamp common hardfork).getD 0 }

/-- `_validateForkId`. -/
def validateForkId (eth : ETH) (forkId : Bytes × Bytes) : Except ForkIdError Unit :=
  let peerForkHash := bytesToHex forkId.1
  let peerNextFork := bytesToBigInt forkId.2
  if eth.forkHash = peerForkHash ∧ peerNextFork > 0 ∧ eth.latestBlock ≥ peerNextFork then
    .error (.thrown "Remote is advertising a future fork that passed locally")
  else
    match hardforkForForkHash eth.common peerForkHash with
    | none => .error (.thrown "Unknown fork hash")
    | some peerFork =>
      if hardforkGteHardfork eth.common peerFork.name eth.hardfork then .ok ()
      else if nextHardforkBlockOrTimestamp eth.common peerFork.name = some peerNextFork then .ok ()
      else .error (.thrown "Outdated fork status, remote needs software update")

section Statement

/-- Fork IDs by fork points: every fork hash is the checksum of the genesis hash and the points up
to the fork, and the fork ID of the other side is judged by the local fork points. -/
def FollowsForkPoints (chain : ForkConfig) (genesisHash : Bytes) : Prop :=
  ∃ filled, setForkHashes chain genesisHash = .ok filled ∧
    (∀ hf ∈ chain.transitions, hf.blockOrTimestamp ≠ none →
      forkHash filled hf.name none =
        .ok (bytesToHex (checksumBytes genesisHash (pointsUpTo chain hf.name)))) ∧
    ∀ hf ∈ chain.transitions, hf.blockOrTimestamp ≠ none → ∀ (head : Nat) (forkId : Bytes × Bytes),
      ∃ eth, ETH.new filled hf.name = .ok eth ∧
        (validateForkId { eth with latestBlock := head } forkId = .ok () ↔
          Accepts { p | p ∈ points chain.transitions } (hashAt genesisHash chain.transitions)
            (level chain.transitions hf) head forkId.1 (bytesToBigInt forkId.2))

/-- Where the merge is the last fork with its hash, the search for the point behind it finds that
of the next fork: the merge is scheduled where the fork before it is, or where the next one is. -/
def MergeInPlace (hfs : List ForkTransition) : Prop :=
  ∀ pre merge mid next rest point, hfs = pre ++ merge :: (mid ++ next :: rest) →
    merge.name = paris → merge.blockOrTimestamp ≠ none →
    (∀ hf ∈ mid, hf.blockOrTimestamp = none) → points pre ≠ [] → forkPoint next = some point →
    point ≠ lastPoint (points pre) →
      ∃ before ∈ pre.getLast?, before.blockOrTimestamp ≠ none ∧
        (merge.blockOrTimestamp = before.blockOrTimestamp ∨
          merge.blockOrTimestamp.map Timestamp.toBigInt = some point)

/-- The schedules for which the source follows the fork points. -/
structure KeepsForkPoints (chain : ForkConfig) (genesisHash : Bytes) : Prop where
  /-- A hash that the schedule gives is right. -/
  given : ∀ hf ∈ chain.transitions, hf.blockOrTimestamp ≠ none → ∀ hash ∈ hf.forkHash,
    hash = bytesToHex (checksumBytes genesisHash (pointsUpTo chain hf.name))
  /-- The checksum of a hash that it does not give needs all of its four bytes. -/
  fourBytes : ∀ hf ∈ chain.transitions, Missing hf →
    2 ^ 24 ≤ (forkChecksum genesisHash (pointsUpTo chain hf.name)).toNat
  exact : Exact chain
  /-- Different points have different checksums. -/
  distinct : Distinct (levels chain.transitions) (hashAt genesisHash chain.transitions)
  merge : MergeInPlace chain.transitions

end Statement

section Hashed

/-- A schedule all of whose hashes are those of its points. -/
structure Hashed (chain : ForkConfig) (genesisHash : Bytes) : Prop where
  schedule : ForkSchedule chain.transitions
  hashed : ∀ hf ∈ chain.transitions, hf.blockOrTimestamp ≠ none →
    hf.forkHash = some (bytesToHex
      (hashAt genesisHash chain.transitions (level chain.transitions hf)))

variable {chain : ForkConfig} {genesisHash : Bytes} (h : Hashed chain genesisHash)
  {hf other : ForkTransition} {remote : Bytes}

include h

theorem Hashed.forkHash_eq_iff (hmem : hf ∈ chain.transitions) :
    hf.forkHash = some (bytesToHex remote) ↔ hf.blockOrTimestamp ≠ none ∧
      remote = hashAt genesisHash chain.transitions (level chain.transitions hf) := by
  by_cases hpoint : hf.blockOrTimestamp = none
  · rw [h.schedule.unscheduled hf hmem hpoint]
    exact iff_of_false (fun heq => by cases heq) fun hand => hand.1 hpoint
  · rw [h.hashed hf hmem hpoint, Option.some_inj, bytesToHex_injective.eq_iff]
    exact ⟨fun heq => ⟨hpoint, heq.symm⟩, fun hand => hand.2.symm⟩

/-- The last fork that has reached a point is found for the hash at it. -/
theorem Hashed.hardforkForForkHash_eq {pre post : List ForkTransition}
    (hdistinct : Distinct (levels chain.transitions) (hashAt genesisHash chain.transitions))
    (hsplit : chain.transitions = pre ++ hf :: post) (hpoint : hf.blockOrTimestamp ≠ none)
    (hpost : ∀ other ∈ post, other.blockOrTimestamp ≠ none →
      level chain.transitions hf < level chain.transitions other) :
    hardforkForForkHash chain
      (bytesToHex (hashAt genesisHash chain.transitions (level chain.transitions hf))) =
        some hf := by
  have hmem : hf ∈ chain.transitions := by
    rw [hsplit]
    exact List.mem_append_right pre List.mem_cons_self
  apply hardforkForForkHash_split hsplit (h.hashed hf hmem hpoint)
  intro other hother
  have hmem' : other ∈ chain.transitions := by
    rw [hsplit]
    exact List.mem_append_right pre (List.mem_cons_of_mem hf hother)
  rw [Ne, h.forkHash_eq_iff hmem']
  rintro ⟨hpoint', heq⟩
  exact (hpost other hother hpoint').ne
    (hdistinct _ ⟨hf, hmem, hpoint, rfl⟩ _ ⟨other, hmem', hpoint', rfl⟩ heq)

end Hashed

section Next

variable {chain : ForkConfig} {pre post mid rest : List ForkTransition}
  {hf other next : ForkTransition}

theorem exists_next (hmem : other ∈ post) (hpoint : other.blockOrTimestamp ≠ none) :
    ∃ mid next rest value, post = mid ++ next :: rest ∧
      (∀ hf ∈ mid, hf.blockOrTimestamp = none) ∧ next.blockOrTimestamp = some value := by
  cases hfind : post.find? fun hf => hf.blockOrTimestamp ≠ none with
  | none =>
    rw [List.find?_eq_none] at hfind
    exact absurd (decide_eq_true hpoint) (hfind other hmem)
  | some next =>
    obtain ⟨hnext, mid, rest, hsplit, hmid⟩ := List.find?_eq_some_iff_append.mp hfind
    obtain ⟨value, hvalue⟩ := Option.ne_none_iff_exists'.mp (of_decide_eq_true hnext)
    exact ⟨mid, next, rest, value, hsplit, fun hf hmem => by simpa using hmid hf hmem, hvalue⟩

theorem forkPoint_of_value {value : Timestamp} (hname : hf.name ≠ paris)
    (hvalue : hf.blockOrTimestamp = some value) : forkPoint hf = some value.toBigInt := by
  rw [forkPoint, if_neg hname, hvalue]
  rfl

theorem value_of_forkPoint {point : Nat} (h : forkPoint hf = some point) :
    ∃ value, hf.blockOrTimestamp = some value ∧ value.toBigInt = point := by
  rw [forkPoint] at h
  split at h
  · cases h
  · exact Option.map_eq_some_iff.mp h

theorem points_eq_nil (hmid : ∀ hf ∈ mid, hf.blockOrTimestamp = none) : points mid = [] := by
  rw [points, List.filterMap_eq_nil_iff]
  intro hf hmem
  rw [forkPoint, hmid hf hmem]
  split <;> rfl

/-- The next scheduled fork, which has reached another point, stands at the next point. -/
theorem next_isLeast {value : Timestamp}
    (hs : ForkSchedule (pre ++ hf :: (mid ++ next :: rest)))
    (hmid : ∀ hf ∈ mid, hf.blockOrTimestamp = none) (hvalue : next.blockOrTimestamp = some value)
    (hlevel : level (pre ++ hf :: (mid ++ next :: rest)) next ≠
      level (pre ++ hf :: (mid ++ next :: rest)) hf) :
    forkPoint next = some value.toBigInt ∧
      IsLeast { q | q ∈ points (pre ++ hf :: (mid ++ next :: rest)) ∧
        level (pre ++ hf :: (mid ++ next :: rest)) hf < q } value.toBigInt := by
  have hsplit : pre ++ hf :: (mid ++ next :: rest) = (pre ++ hf :: mid) ++ next :: rest := by
    rw [List.append_assoc, List.cons_append]
  have hlast : points (pre ++ hf :: mid) = points (pre ++ [hf]) := by
    rw [points_split, points_eq_nil hmid, List.append_nil]
  have hmono := level_mono hs (List.mem_append_right mid (List.mem_cons_self (l := rest)))
  have hpoint : forkPoint next = some value.toBigInt := by
    apply forkPoint_of_value _ hvalue
    intro hmerge
    apply hlevel
    have hnone : forkPoint next = none := if_pos hmerge
    rw [level_split hs, hsplit, level_of_no_point (hsplit ▸ hs) hnone, hlast]
  have hreached : level (pre ++ hf :: (mid ++ next :: rest)) next = value.toBigInt := by
    rw [hsplit]
    exact level_of_point (hsplit ▸ hs) hpoint
  have hlt : level (pre ++ hf :: (mid ++ next :: rest)) hf < value.toBigInt :=
    hreached ▸ lt_of_le_of_ne hmono hlevel.symm
  have hpoints : points (pre ++ hf :: (mid ++ next :: rest)) =
      points (pre ++ [hf]) ++ value.toBigInt :: points rest := by
    rw [hsplit, points_append, hlast, points_cons_some hpoint]
  refine ⟨hpoint, ⟨?_, hlt⟩, ?_⟩
  · rw [hpoints]
    exact List.mem_append_right _ List.mem_cons_self
  · rintro q ⟨hq, hq'⟩
    have hordered := hs.ordered
    rw [hpoints] at hq hordered
    obtain hq | hq := List.mem_append.mp hq
    · exact absurd (le_level hs hq) (Nat.not_le.mpr hq')
    · obtain rfl | hq := List.mem_cons.mp hq
      · exact Nat.le_refl _
      · exact (List.pairwise_cons.mp (List.pairwise_append.mp hordered).2.1).1 q hq

/-- From the next scheduled fork on, all have reached more. -/
theorem level_lt_of_next (hs : ForkSchedule (pre ++ hf :: (mid ++ next :: rest)))
    (hmid : ∀ hf ∈ mid, hf.blockOrTimestamp = none)
    (hlt : level (pre ++ hf :: (mid ++ next :: rest)) hf <
      level (pre ++ hf :: (mid ++ next :: rest)) next)
    (hmem : other ∈ mid ++ next :: rest) (hother : other.blockOrTimestamp ≠ none) :
    level (pre ++ hf :: (mid ++ next :: rest)) hf <
      level (pre ++ hf :: (mid ++ next :: rest)) other := by
  obtain hmem | hmem := List.mem_append.mp hmem
  · exact absurd (hmid other hmem) hother
  · obtain rfl | hmem := List.mem_cons.mp hmem
    · exact hlt
    · refine lt_of_lt_of_le hlt ?_
      have hsplit : pre ++ hf :: (mid ++ next :: rest) = (pre ++ hf :: mid) ++ next :: rest := by
        rw [List.append_assoc, List.cons_append]
      rw [hsplit]
      exact level_mono (hsplit ▸ hs) hmem

theorem ne_merge_of_mem (hs : ForkSchedule (pre ++ hf :: post)) (hname : hf.name = paris)
    (hmem : other ∈ pre) : other.name ≠ paris := by
  have hnames := hs.names
  rw [List.map_append, List.nodup_append] at hnames
  exact hname ▸ hnames.2.2 other.name (List.mem_map_of_mem hmem) hf.name List.mem_cons_self

/-- No fork before the merge is scheduled where the next one is. -/
theorem ne_value_of_mem {value : Timestamp} (hs : ForkSchedule (pre ++ hf :: post))
    (hname : hf.name = paris) (hmem : other ∈ pre)
    (hlt : level (pre ++ hf :: post) hf < value.toBigInt) :
    other.blockOrTimestamp ≠ some value := by
  intro hvalue
  have hpoint : value.toBigInt ∈ points (pre ++ [hf]) :=
    List.mem_filterMap.mpr ⟨other, List.mem_append_left _ hmem,
      forkPoint_of_value (ne_merge_of_mem hs hname hmem) hvalue⟩
  exact absurd (le_level hs hpoint) (Nat.not_le.mpr hlt)

/-- When the search behind the merge finds the point of the next fork. -/
theorem nextHardfork_merge_iff {value : Timestamp} (hs : ForkSchedule chain.transitions)
    (hsplit : chain.transitions = pre ++ hf :: (mid ++ next :: rest)) (hname : hf.name = paris)
    (hpoint : hf.blockOrTimestamp ≠ none) (hmid : ∀ hf ∈ mid, hf.blockOrTimestamp = none)
    (hvalue : next.blockOrTimestamp = some value)
    (hlt : level chain.transitions hf < value.toBigInt) :
    nextHardforkBlockOrTimestamp chain hf.name = some value.toBigInt ↔
      ∃ before ∈ pre.getLast?, before.blockOrTimestamp ≠ none ∧
        (hf.blockOrTimestamp = before.blockOrTimestamp ∨
          hf.blockOrTimestamp.map Timestamp.toBigInt = some value.toBigInt) := by
  obtain ⟨time, htime⟩ := Option.ne_none_iff_exists'.mp hpoint
  obtain rfl | ⟨pre, before, rfl⟩ := pre.eq_nil_or_concat'
  · rw [nextHardfork_merge_first hsplit hname]
    exact iff_of_false (fun heq => by cases heq) fun ⟨before, hbefore, _⟩ => by cases hbefore
  · have hsplit' : chain.transitions = pre ++ before :: hf :: (mid ++ next :: rest) := by
      rw [hsplit, List.append_assoc, List.singleton_append]
    have hne := ne_value_of_mem (hsplit ▸ hs) hname
      (List.mem_append_right pre (List.mem_singleton_self before)) (hsplit ▸ hlt)
    rw [nextHardfork_merge hs.names hsplit' hname htime hmid hvalue hne, List.getLast?_concat]
    cases hcurrent : before.blockOrTimestamp with
    | none => simp [hcurrent]
    | some current =>
      by_cases hsame : time = current
      · simp [hcurrent, htime, hsame]
      · simp [hcurrent, htime, hsame]

theorem nextHardfork_merge_none {value : Timestamp} (hs : ForkSchedule chain.transitions)
    (hsplit : chain.transitions = pre ++ hf :: (mid ++ next :: rest)) (hname : hf.name = paris)
    (hpoint : hf.blockOrTimestamp ≠ none) (hmid : ∀ hf ∈ mid, hf.blockOrTimestamp = none)
    (hvalue : next.blockOrTimestamp = some value)
    (hlt : level chain.transitions hf < value.toBigInt) (hpre : points pre = []) :
    nextHardforkBlockOrTimestamp chain hf.name = none := by
  obtain ⟨time, htime⟩ := Option.ne_none_iff_exists'.mp hpoint
  obtain rfl | ⟨pre, before, rfl⟩ := pre.eq_nil_or_concat'
  · exact nextHardfork_merge_first hsplit hname
  · have hmem := List.mem_append_right pre (List.mem_singleton_self before)
    have hsplit' : chain.transitions = pre ++ before :: hf :: (mid ++ next :: rest) := by
      rw [hsplit, List.append_assoc, List.singleton_append]
    have hne := ne_value_of_mem (hsplit ▸ hs) hname hmem (hsplit ▸ hlt)
    rw [nextHardfork_merge hs.names hsplit' hname htime hmid hvalue hne]
    have hnone : before.blockOrTimestamp = none := by
      rw [points, List.filterMap_eq_nil_iff] at hpre
      by_contra hbefore
      obtain ⟨current, hcurrent⟩ := Option.ne_none_iff_exists'.mp hbefore
      have hpoint := forkPoint_of_value (ne_merge_of_mem (hsplit ▸ hs) hname hmem) hcurrent
      rw [hpre before hmem] at hpoint
      cases hpoint
    rw [hnone]
    rfl

/-- Behind a fork that is followed by one at another point, the search finds the first point behind
the one that the fork has reached, if there is a fork at that one. -/
theorem nextHardfork_iff {n : Nat} (hs : ForkSchedule chain.transitions)
    (hmerge : MergeInPlace chain.transitions) (hsplit : chain.transitions = pre ++ hf :: post)
    (hpoint : hf.blockOrTimestamp ≠ none)
    (hpost : ∀ other ∈ post, other.blockOrTimestamp ≠ none →
      level chain.transitions other ≠ level chain.transitions hf)
    (hmem : other ∈ post) (hother : other.blockOrTimestamp ≠ none) :
    nextHardforkBlockOrTimestamp chain hf.name = some n ↔
      level chain.transitions hf ∈ points chain.transitions ∧
        IsLeast { q | q ∈ points chain.transitions ∧ level chain.transitions hf < q } n := by
  obtain ⟨mid, next, rest, value, rfl, hmid, hvalue⟩ := exists_next hmem hother
  have hlevel := hpost next (List.mem_append_right mid List.mem_cons_self)
    (by rw [hvalue]; exact Option.some_ne_none value)
  obtain ⟨hnext, hleast⟩ := next_isLeast (hsplit ▸ hs) hmid hvalue (hsplit ▸ hlevel)
  rw [← hsplit] at hleast
  have hlt := hleast.1.2
  have hiff (hfound : nextHardforkBlockOrTimestamp chain hf.name = some value.toBigInt)
      (hin : level chain.transitions hf ∈ points chain.transitions) :
      nextHardforkBlockOrTimestamp chain hf.name = some n ↔
        level chain.transitions hf ∈ points chain.transitions ∧
          IsLeast { q | q ∈ points chain.transitions ∧ level chain.transitions hf < q } n := by
    rw [hfound, Option.some_inj]
    exact ⟨fun heq => ⟨hin, heq ▸ hleast⟩, fun hand => hleast.unique hand.2⟩
  by_cases hname : hf.name = paris
  · have hreached : level chain.transitions hf = lastPoint (points pre) := by
      rw [hsplit]
      exact level_of_no_point (hsplit ▸ hs) (if_pos hname)
    by_cases hpre : points pre = []
    · rw [nextHardfork_merge_none hs hsplit hname hpoint hmid hvalue hlt hpre]
      refine iff_of_false (fun heq => by cases heq) ?_
      -- no fork before has a point, and each fork behind has reached another one
      rintro ⟨hin, -⟩
      rw [hsplit, points_append, hpre, List.nil_append, ← hsplit,
        points_cons_none (if_pos hname)] at hin
      obtain ⟨later, hlater, hreach⟩ := List.mem_filterMap.mp hin
      obtain ⟨before, after, hsplit'⟩ :=
        List.append_of_mem (hsplit ▸ List.mem_append_right pre (List.mem_cons_of_mem hf hlater))
      apply hpost later hlater
      · intro hnone
        rw [forkPoint, hnone] at hreach
        split at hreach <;> cases hreach
      · rw [hsplit'] at hs hreach ⊢
        exact level_of_point hs hreach
    · have hin : level chain.transitions hf ∈ points chain.transitions := by
        rw [hreached, hsplit, points_append]
        exact List.mem_append_left _ (lastPoint_mem hpre)
      refine hiff ?_ hin
      rw [nextHardfork_merge_iff hs hsplit hname hpoint hmid hvalue hlt]
      exact hmerge pre hf mid next rest value.toBigInt hsplit hname hpoint hmid hpre hnext
        (hreached ▸ hlt.ne')
  · obtain ⟨current, hcurrent⟩ := Option.ne_none_iff_exists'.mp hpoint
    have hreached : level chain.transitions hf = current.toBigInt := by
      rw [hsplit]
      exact level_of_point (hsplit ▸ hs) (forkPoint_of_value hname hcurrent)
    refine hiff ?_ ?_
    · apply nextHardfork_split hs.names hsplit hname hcurrent hmid hvalue
      rintro rfl
      exact absurd hreached hlt.ne
    · rw [hreached]
      refine List.mem_filterMap.mpr ⟨hf, ?_, forkPoint_of_value hname hcurrent⟩
      rw [hsplit]
      exact List.mem_append_right pre List.mem_cons_self

end Next

section Verdict

variable {chain : ForkConfig} {genesisHash : Bytes} {eth : ETH} {active : ForkTransition}

theorem points_subset_levels (hs : ForkSchedule chain.transitions) :
    { p | p ∈ points chain.transitions } ⊆ levels chain.transitions := by
  intro p hp
  obtain ⟨hf, hmem, hpoint⟩ := List.mem_filterMap.mp hp
  obtain ⟨pre, post, hsplit⟩ := List.append_of_mem hmem
  refine ⟨hf, hmem, ?_, ?_⟩
  · intro hnone
    rw [forkPoint, hnone] at hpoint
    split at hpoint <;> cases hpoint
  · rw [hsplit]
    exact level_of_point (hsplit ▸ hs) hpoint

theorem level_mem_points (hf : ForkTransition) (hpos : level chain.transitions hf ≠ 0) :
    level chain.transitions hf ∈ points chain.transitions := by
  have hne : points (upTo hf.name chain.transitions) ≠ [] := by
    intro hnil
    apply hpos
    rw [level, hnil]
    rfl
  exact ((upTo_sublist hf.name chain.transitions).filterMap forkPoint).subset (lastPoint_mem hne)

/-- The state of a connection at a scheduled fork. -/
structure At (eth : ETH) (chain : ForkConfig) (genesisHash : Bytes) (active : ForkTransition) :
    Prop where
  common : eth.common = chain
  hardfork : eth.hardfork = active.name
  forkHash : eth.forkHash =
    bytesToHex (hashAt genesisHash chain.transitions (level chain.transitions active))
  mem : active ∈ chain.transitions
  scheduled : active.blockOrTimestamp ≠ none

theorem At.forkHash_eq_iff (hat : At eth chain genesisHash active) {remote : Bytes} :
    eth.forkHash = bytesToHex remote ↔
      remote = hashAt genesisHash chain.transitions (level chain.transitions active) := by
  rw [hat.forkHash, bytesToHex_injective.eq_iff, eq_comm]

/-- The verdict on the own hash. -/
theorem validateForkId_same (h : Hashed chain genesisHash) (hat : At eth chain genesisHash active)
    {forkId : Bytes × Bytes}
    (hsame : forkId.1 = hashAt genesisHash chain.transitions (level chain.transitions active)) :
    validateForkId eth forkId = .ok () ↔
      bytesToBigInt forkId.2 = 0 ∨ eth.latestBlock < bytesToBigInt forkId.2 := by
  have hown := hat.forkHash_eq_iff.mpr hsame
  rw [validateForkId]
  by_cases hpassed : bytesToBigInt forkId.2 > 0 ∧ eth.latestBlock ≥ bytesToBigInt forkId.2
  · rw [if_pos ⟨hown, hpassed⟩]
    exact iff_of_false (fun heq => by cases heq) (by omega)
  · rw [if_neg fun hand => hpassed hand.2]
    refine iff_of_true ?_ (by omega)
    have hhas := (h.forkHash_eq_iff hat.mem).mpr ⟨hat.scheduled, hsame⟩
    obtain ⟨-, hnone⟩ | ⟨pre, hf, post, hsplit, -, hpost, hfound⟩ :=
      hardforkForForkHash_cases chain (bytesToHex forkId.1)
    · exact absurd hhas (hnone active hat.mem)
    · rw [hat.common, hat.hardfork, hfound]
      exact if_pos ((hardforkGteHardfork_split h.schedule.names hsplit hat.mem).mpr
        fun hbehind => hpost active hbehind hhas)

/-- The verdict on another hash, of which a fork is found. -/
theorem validateForkId_other (h : Hashed chain genesisHash)
    (hat : At eth chain genesisHash active) {forkId : Bytes × Bytes} {hf : ForkTransition}
    {pre post : List ForkTransition}
    (hother : forkId.1 ≠ hashAt genesisHash chain.transitions (level chain.transitions active))
    (hfound : hardforkForForkHash chain (bytesToHex forkId.1) = some hf)
    (hsplit : chain.transitions = pre ++ hf :: post) :
    validateForkId eth forkId = .ok () ↔
      (active ∈ post →
        nextHardforkBlockOrTimestamp chain hf.name = some (bytesToBigInt forkId.2)) := by
  rw [validateForkId]
  rw [if_neg fun hand => hother (hat.forkHash_eq_iff.mp hand.1), hat.common, hat.hardfork, hfound]
  simp only [hardforkGteHardfork_split h.schedule.names hsplit hat.mem]
  by_cases hbehind : active ∈ post
  · rw [if_neg (not_not_intro hbehind)]
    split
    · next hnext => exact iff_of_true rfl fun _ => hnext
    · next hnext => exact iff_of_false (fun heq => by cases heq) fun himp => hnext (himp hbehind)
  · rw [if_pos hbehind]
    exact iff_of_true rfl fun hin => absurd hin hbehind

/-- The rules on the hash of another point, with the last fork that has reached it. -/
theorem accepts_other (h : Hashed chain genesisHash)
    (hdistinct : Distinct (levels chain.transitions) (hashAt genesisHash chain.transitions))
    (hmerge : MergeInPlace chain.transitions) (hat : At eth chain genesisHash active)
    {hf : ForkTransition} {pre post : List ForkTransition} {next : Nat}
    (hsplit : chain.transitions = pre ++ hf :: post) (hpoint : hf.blockOrTimestamp ≠ none)
    (hne : level chain.transitions hf ≠ level chain.transitions active)
    (hlater : ∀ other ∈ post, other.blockOrTimestamp ≠ none →
      level chain.transitions other ≠ level chain.transitions hf) :
    Accepts { p | p ∈ points chain.transitions } (hashAt genesisHash chain.transitions)
        (level chain.transitions active) eth.latestBlock
        (hashAt genesisHash chain.transitions (level chain.transitions hf)) next ↔
      (active ∈ post → nextHardforkBlockOrTimestamp chain hf.name = some next) := by
  have hmem : hf ∈ chain.transitions := by
    rw [hsplit]
    exact List.mem_append_right pre List.mem_cons_self
  have hactive : level chain.transitions active ∈ levels chain.transitions :=
    ⟨active, hat.mem, hat.scheduled, rfl⟩
  by_cases hbehind : active ∈ post
  · have hlt : level chain.transitions hf < level chain.transitions active := by
      refine lt_of_le_of_ne ?_ hne
      rw [hsplit]
      exact level_mono (hsplit ▸ h.schedule) hbehind
    have hearlier := (@accepts_earlier _ _ _ _ eth.latestBlock next _ _ hdistinct
      (points_subset_levels h.schedule) hactive ⟨hf, hmem, hpoint, rfl⟩ hlt).trans
        (nextHardfork_iff h.schedule hmerge hsplit hpoint hlater hbehind hat.scheduled).symm
    rw [hearlier]
    exact ⟨fun hnext _ => hnext, fun himp => himp hbehind⟩
  · refine iff_of_true ?_ fun hin => absurd hin hbehind
    have hbefore : active ∈ pre := by
      have hin := hsplit ▸ hat.mem
      rw [List.mem_append, List.mem_cons] at hin
      obtain hin | rfl | hin := hin
      · exact hin
      · exact absurd rfl hne
      · exact absurd hin hbehind
    obtain ⟨before, after, rfl⟩ := List.append_of_mem hbefore
    rw [List.append_assoc, List.cons_append] at hsplit
    have hle : level chain.transitions active ≤ level chain.transitions hf := by
      rw [hsplit]
      exact level_mono (hsplit ▸ h.schedule) (List.mem_append_right after List.mem_cons_self)
    have hgt := lt_of_le_of_ne hle hne.symm
    exact accepts_later (level_mem_points hf (Nat.ne_zero_of_lt hgt)) hgt

theorem validateForkId_iff (h : Hashed chain genesisHash)
    (hdistinct : Distinct (levels chain.transitions) (hashAt genesisHash chain.transitions))
    (hmerge : MergeInPlace chain.transitions) (hat : At eth chain genesisHash active)
    (forkId : Bytes × Bytes) :
    validateForkId eth forkId = .ok () ↔
      Accepts { p | p ∈ points chain.transitions } (hashAt genesisHash chain.transitions)
        (level chain.transitions active) eth.latestBlock forkId.1 (bytesToBigInt forkId.2) := by
  have hsub := points_subset_levels h.schedule
  have hactive : level chain.transitions active ∈ levels chain.transitions :=
    ⟨active, hat.mem, hat.scheduled, rfl⟩
  by_cases hsame : forkId.1 =
      hashAt genesisHash chain.transitions (level chain.transitions active)
  · rw [validateForkId_same h hat hsame, hsame]
    exact (accepts_current hdistinct hsub hactive).symm
  · obtain ⟨hfound, hnone⟩ | ⟨pre, hf, post, hsplit, hhash, hpost, hfound⟩ :=
      hardforkForForkHash_cases chain (bytesToHex forkId.1)
    · rw [validateForkId]
      rw [if_neg fun hand => hsame (hat.forkHash_eq_iff.mp hand.1), hat.common, hfound]
      refine iff_of_false (fun heq => by cases heq) (not_accepts_unknown hsub hactive ?_)
      rintro _ ⟨hf, hmem, hpoint, rfl⟩ heq
      exact hnone hf hmem ((h.forkHash_eq_iff hmem).mpr ⟨hpoint, heq⟩)
    · have hmem : hf ∈ chain.transitions := by
        rw [hsplit]
        exact List.mem_append_right pre List.mem_cons_self
      obtain ⟨hpoint, hremote⟩ := (h.forkHash_eq_iff hmem).mp hhash
      rw [validateForkId_other h hat hsame hfound hsplit, hremote]
      refine (accepts_other h hdistinct hmerge hat hsplit hpoint ?_ ?_).symm
      · exact fun heq => hsame (heq ▸ hremote)
      · intro other hother hscheduled heq
        apply hpost other hother
        rw [h.forkHash_eq_iff (hsplit ▸ List.mem_append_right pre (List.mem_cons_of_mem hf hother))]
        exact ⟨hscheduled, heq ▸ hremote⟩

/-- A connection at a scheduled fork. -/
def stateAt (chain : ForkConfig) (genesisHash : Bytes) (active : ForkTransition) (head : Nat) :
    ETH where
  common := chain
  hardfork := active.name
  latestBlock := head
  forkHash := bytesToHex (hashAt genesisHash chain.transitions (level chain.transitions active))
  nextForkBlock := 0

variable (h : Hashed chain genesisHash)
  (hverdict : ∀ eth active forkId, At eth chain genesisHash active →
    (validateForkId eth forkId = .ok () ↔
      Accepts { p | p ∈ points chain.transitions } (hashAt genesisHash chain.transitions)
        (level chain.transitions active) eth.latestBlock forkId.1 (bytesToBigInt forkId.2)))

include hverdict

/-- A hash that an earlier and a later point share is refused, whatever its rule, when the next
point has been passed. -/
theorem hashAt_ne_of_lt {hf hf' : ForkTransition} (hmem : hf ∈ chain.transitions)
    (hpoint : hf.blockOrTimestamp ≠ none)
    (hlt : level chain.transitions hf < level chain.transitions hf') :
    hashAt genesisHash chain.transitions (level chain.transitions hf) ≠
      hashAt genesisHash chain.transitions (level chain.transitions hf') := by
  intro heq
  let forkId :=
    (hashAt genesisHash chain.transitions (level chain.transitions hf'), bigIntToBytes 1)
  have hok := (hverdict (stateAt chain genesisHash hf 1) hf forkId
    ⟨rfl, rfl, rfl, hmem, hpoint⟩).mpr
      (accepts_later (level_mem_points hf' (Nat.ne_zero_of_lt hlt)) hlt)
  have hone : bytesToBigInt (bigIntToBytes 1) = 1 := bytesToNumber_bigIntToBytes 1
  have herror : validateForkId (stateAt chain genesisHash hf 1) forkId =
      .error (.thrown "Remote is advertising a future fork that passed locally") := by
    apply if_pos
    change bytesToHex (hashAt genesisHash chain.transitions (level chain.transitions hf)) = _ ∧ _
    rw [heq, hone]
    exact ⟨rfl, Nat.one_pos, Nat.le_refl 1⟩
  rw [herror] at hok
  cases hok

theorem distinct_of_verdict :
    Distinct (levels chain.transitions) (hashAt genesisHash chain.transitions) := by
  rintro _ ⟨hf, hmem, hpoint, rfl⟩ _ ⟨hf', hmem', hpoint', rfl⟩ heq
  obtain hlt | hsame | hgt := Nat.lt_trichotomy (level chain.transitions hf)
    (level chain.transitions hf')
  · exact absurd heq (hashAt_ne_of_lt hverdict hmem hpoint hlt)
  · exact hsame
  · exact absurd heq.symm (hashAt_ne_of_lt hverdict hmem' hpoint' hgt)

include h

/-- The fork ID of a side that has not passed the merge is accepted from the next fork on. -/
theorem merge_of_verdict : MergeInPlace chain.transitions := by
  have hdistinct := distinct_of_verdict hverdict
  intro pre merge mid next rest point hsplit hname hpoint hmid hpre hnext hne
  have hs := h.schedule
  obtain ⟨value, hvalue, rfl⟩ := value_of_forkPoint hnext
  have hreached : level chain.transitions merge = lastPoint (points pre) := by
    rw [hsplit]
    exact level_of_no_point (hsplit ▸ hs) (if_pos hname)
  have hsplit' : chain.transitions = (pre ++ merge :: mid) ++ next :: rest := by
    rw [hsplit, List.append_assoc, List.cons_append]
  have hlevel : level chain.transitions next = value.toBigInt := by
    rw [hsplit']
    exact level_of_point (hsplit' ▸ hs) hnext
  have hleast := (next_isLeast (hsplit ▸ hs) hmid hvalue
    (by rw [← hsplit, hlevel, hreached]; exact hne)).2
  rw [← hsplit] at hleast
  have hlt := hleast.1.2
  have hscheduled : next.blockOrTimestamp ≠ none := by
    rw [hvalue]
    exact Option.some_ne_none value
  have hmem' : next ∈ chain.transitions := by
    rw [hsplit']
    exact List.mem_append_right _ List.mem_cons_self
  have hin : level chain.transitions merge ∈ points chain.transitions := by
    rw [hreached, hsplit, points_append]
    exact List.mem_append_left _ (lastPoint_mem hpre)
  have hfound := h.hardforkForForkHash_eq hdistinct hsplit hpoint fun other hother hpoint' => by
    rw [hsplit]
    exact level_lt_of_next (hsplit ▸ hs) hmid (hsplit ▸ hlevel ▸ hlt) hother hpoint'
  have hnumber : bytesToBigInt (bigIntToBytes value.toBigInt) = value.toBigInt :=
    bytesToNumber_bigIntToBytes _
  have hok := (hverdict (stateAt chain genesisHash next 0) next
    (hashAt genesisHash chain.transitions (level chain.transitions merge),
      bigIntToBytes value.toBigInt) ⟨rfl, rfl, rfl, hmem', hscheduled⟩).mpr (by
        rw [hnumber]
        exact .inr (.inl ⟨level chain.transitions merge, hin, hlevel ▸ hlt, rfl, hleast⟩))
  have hbehind : hardforkGteHardfork chain merge.name next.name ≠ true := fun hgte =>
    (hardforkGteHardfork_split hs.names hsplit hmem').mp hgte
      (List.mem_append_right mid List.mem_cons_self)
  rw [← nextHardfork_merge_iff hs hsplit hname hpoint hmid hvalue hlt]
  by_contra hnot
  have herror : validateForkId (stateAt chain genesisHash next 0)
      (hashAt genesisHash chain.transitions (level chain.transitions merge),
        bigIntToBytes value.toBigInt) =
      .error (.thrown "Outdated fork status, remote needs software update") := by
    rw [validateForkId, hnumber]
    refine (if_neg fun hand => Nat.not_le_of_gt hand.2.1 hand.2.2).trans ?_
    change (match hardforkForForkHash chain _ with | none => _ | some peerFork => _) = _
    rw [hfound]
    exact (if_neg hbehind).trans (if_neg hnot)
  rw [herror] at hok
  cases hok

end Verdict

end EthereumJS.Devp2p
