import EthereumJS.Devp2p.ForkValidation
import EthereumJS.Tx.Doubles

/-! # Fork IDs follow the fork points

For which schedules the fork hashes that `setForkHashes` fills in and the verdicts of the ETH
protocol are those of the fork points.
-/

namespace EthereumJS.Devp2p

open RLP Tx HardforkSchedule ForkId ForkPoints

section Filled

variable {chain : ForkConfig} {genesisHash : Bytes} {hfs : List ForkTransition}

theorem points_map_fill (hfs : List ForkTransition) :
    points (hfs.map (fill chain genesisHash)) = points hfs := by
  rw [points, points, List.filterMap_map]
  congr 1
  funext hf
  simp [forkPoint]

theorem upTo_map_fill (hardfork : String) (hfs : List ForkTransition) :
    upTo hardfork (hfs.map (fill chain genesisHash)) =
      (upTo hardfork hfs).map (fill chain genesisHash) := by
  induction hfs with
  | nil => rfl
  | cons hf hfs ih =>
    rw [List.map_cons, upTo, upTo, name_fill, ih]
    split <;> rfl

theorem pointsUpTo_filled (hardfork : String) :
    pointsUpTo (filled chain genesisHash) hardfork = pointsUpTo chain hardfork := by
  rw [pointsUpTo, transitions_filled, upTo_map_fill, points_map_fill]
  rfl

theorem level_filled (hf : ForkTransition) :
    level (filled chain genesisHash).transitions (fill chain genesisHash hf) =
      level chain.transitions hf := by
  rw [level, name_fill]
  exact congrArg lastPoint (pointsUpTo_filled hf.name)

theorem points_filled :
    points (filled chain genesisHash).transitions = points chain.transitions := by
  rw [transitions_filled, points_map_fill]

theorem hashAt_filled (p : Nat) :
    hashAt genesisHash (filled chain genesisHash).transitions p =
      hashAt genesisHash chain.transitions p := by
  rw [hashAt, hashAt, points_filled]

theorem levels_filled :
    levels (filled chain genesisHash).transitions = levels chain.transitions := by
  ext p
  constructor
  · rintro ⟨hf, hmem, hpoint, rfl⟩
    rw [transitions_filled] at hmem
    obtain ⟨source, hsource, rfl⟩ := List.mem_map.mp hmem
    rw [blockOrTimestamp_fill] at hpoint
    exact ⟨source, hsource, hpoint, (level_filled source).symm⟩
  · rintro ⟨hf, hmem, hpoint, rfl⟩
    refine ⟨fill chain genesisHash hf, ?_, ?_, level_filled hf⟩
    · rw [transitions_filled]
      exact List.mem_map_of_mem hmem
    · rwa [blockOrTimestamp_fill]

theorem schedule_filled (hs : ForkSchedule chain.transitions) :
    ForkSchedule (filled chain genesisHash).transitions where
  names := by
    rw [transitions_filled, List.map_map]
    exact (List.map_congr_left fun hf _ => name_fill chain genesisHash hf) ▸ hs.names
  ordered := by
    rw [points_filled]
    exact hs.ordered
  eightBytes := by
    rw [points_filled]
    exact hs.eightBytes
  unscheduled := by
    intro hf hmem hnone
    rw [transitions_filled] at hmem
    obtain ⟨source, hsource, rfl⟩ := List.mem_map.mp hmem
    rw [blockOrTimestamp_fill] at hnone
    rw [fill, if_neg fun hmissing => hmissing.2 hnone]
    exact hs.unscheduled source hsource hnone

theorem mergeInPlace_filled :
    MergeInPlace (filled chain genesisHash).transitions ↔ MergeInPlace chain.transitions := by
  have hpoint (hf : ForkTransition) : forkPoint (fill chain genesisHash hf) = forkPoint hf := by
    simp [forkPoint]
  rw [transitions_filled]
  constructor
  · intro h pre merge mid next rest point hsplit hname hscheduled hmid hpre hnext hne
    have hsplit' : chain.transitions.map (fill chain genesisHash) =
        pre.map (fill chain genesisHash) ++ fill chain genesisHash merge ::
          (mid.map (fill chain genesisHash) ++ fill chain genesisHash next ::
            rest.map (fill chain genesisHash)) := by
      rw [hsplit]
      simp
    obtain ⟨before, hbefore, hplace⟩ := h _ _ _ _ _ point hsplit' (by simpa using hname)
      (by simpa using hscheduled) (by simpa using hmid) (by rwa [points_map_fill])
      (by rwa [hpoint]) (by rwa [points_map_fill])
    rw [List.getLast?_map] at hbefore
    obtain ⟨source, hsource, rfl⟩ := Option.map_eq_some_iff.mp hbefore
    simp only [blockOrTimestamp_fill] at hplace
    exact ⟨source, hsource, hplace⟩
  · intro h pre merge mid next rest point hsplit hname hscheduled hmid hpre hnext hne
    obtain ⟨pre, behind, hsource, rfl, hbehind⟩ := List.map_eq_append_iff.mp hsplit
    obtain ⟨merge, later, rfl, rfl, hlater⟩ := List.map_eq_cons_iff.mp hbehind
    obtain ⟨mid, last, rfl, rfl, hlast⟩ := List.map_eq_append_iff.mp hlater
    obtain ⟨next, rest, rfl, rfl, rfl⟩ := List.map_eq_cons_iff.mp hlast
    obtain ⟨before, hbefore, hplace⟩ := h pre merge mid next rest point hsource
      (by simpa using hname) (by simpa using hscheduled) (by simpa using hmid)
      (by rwa [points_map_fill] at hpre) (by rwa [hpoint] at hnext)
      (by rwa [points_map_fill] at hne)
    refine ⟨fill chain genesisHash before, ?_, ?_⟩
    · rw [List.getLast?_map, hbefore]
      rfl
    · simpa only [blockOrTimestamp_fill] using hplace

/-- The hash that stands in the filled schedule is right. -/
theorem forkHash_fill_iff {hf : ForkTransition} (hpoint : hf.blockOrTimestamp ≠ none) :
    (fill chain genesisHash hf).forkHash =
        some (bytesToHex (checksumBytes genesisHash (pointsUpTo chain hf.name))) ↔
      (∀ hash ∈ hf.forkHash,
        hash = bytesToHex (checksumBytes genesisHash (pointsUpTo chain hf.name))) ∧
      (Missing hf → 2 ^ 24 ≤ (forkChecksum genesisHash (pointsUpTo chain hf.name)).toNat) := by
  rw [fill]
  by_cases hmissing : Missing hf
  · rw [if_pos hmissing, hmissing.1]
    dsimp only
    rw [Option.some_inj, checksumHex_eq_iff]
    exact ⟨fun h => ⟨fun hash hhash => (by cases hhash), fun _ => h⟩, fun h => h.2 hmissing⟩
  · rw [if_neg hmissing]
    have hgiven : hf.forkHash ≠ none := fun hnone => hmissing ⟨hnone, hpoint⟩
    obtain ⟨hash, hhash⟩ := Option.ne_none_iff_exists'.mp hgiven
    rw [hhash, Option.some_inj]
    constructor
    · intro heq
      exact ⟨fun other hother => (Option.some.inj hother).symm.trans heq,
        fun h => absurd h hmissing⟩
    · intro h
      exact h.1 hash rfl

/-- The hash at the point that a fork has reached is that of the points up to it. -/
theorem hashAt_filled_level (hs : ForkSchedule chain.transitions) {hf : ForkTransition}
    (hmem : hf ∈ chain.transitions) :
    hashAt genesisHash (filled chain genesisHash).transitions
        (level (filled chain genesisHash).transitions (fill chain genesisHash hf)) =
      checksumBytes genesisHash (pointsUpTo chain hf.name) := by
  obtain ⟨pre, post, hsplit⟩ := List.append_of_mem hmem
  rw [hashAt_filled, level_filled, pointsUpTo, hsplit]
  exact hashAt_level (hsplit ▸ hs) genesisHash

theorem hashed_filled (hs : ForkSchedule chain.transitions)
    (h : ∀ hf ∈ chain.transitions, hf.blockOrTimestamp ≠ none →
      (fill chain genesisHash hf).forkHash =
        some (bytesToHex (checksumBytes genesisHash (pointsUpTo chain hf.name)))) :
    Hashed (filled chain genesisHash) genesisHash where
  schedule := schedule_filled hs
  hashed := by
    intro hf hmem hpoint
    rw [transitions_filled] at hmem
    obtain ⟨source, hsource, rfl⟩ := List.mem_map.mp hmem
    rw [blockOrTimestamp_fill] at hpoint
    rw [hashAt_filled_level hs hsource]
    exact h source hsource hpoint

end Filled

section Connection

variable {chain : ForkConfig} {genesisHash : Bytes}

/-- What `validateForkId` reads of a connection. -/
theorem validateForkId_congr {eth other : ETH} (hcommon : eth.common = other.common)
    (hhardfork : eth.hardfork = other.hardfork) (hhead : eth.latestBlock = other.latestBlock)
    (hhash : eth.forkHash = other.forkHash) (forkId : Bytes × Bytes) :
    validateForkId eth forkId = validateForkId other forkId := by
  rw [validateForkId, validateForkId, hcommon, hhardfork, hhead, hhash]

/-- A connection at a fork of the filled schedule. -/
theorem new_filled (hs : ForkSchedule chain.transitions) {hf : ForkTransition}
    (hmem : hf ∈ chain.transitions) (hpoint : hf.blockOrTimestamp ≠ none)
    (hhash : (fill chain genesisHash hf).forkHash =
      some (bytesToHex (checksumBytes genesisHash (pointsUpTo chain hf.name)))) (head : Nat) :
    ∃ eth, ETH.new (filled chain genesisHash) hf.name = .ok eth ∧
      At { eth with latestBlock := head } (filled chain genesisHash) genesisHash
        (fill chain genesisHash hf) := by
  obtain ⟨hash, hfill, hfilled⟩ := @forkHash_filled chain genesisHash hs hf hmem hpoint
  obtain rfl := Option.some.inj (hfill.symm.trans hhash)
  let connection : ETH := {
    common := filled chain genesisHash
    hardfork := hf.name
    latestBlock := (hardforkBlock (filled chain genesisHash) hf.name).getD 0
    forkHash := bytesToHex (checksumBytes genesisHash (pointsUpTo chain hf.name))
    nextForkBlock := (nextHardforkBlockOrTimestamp (filled chain genesisHash) hf.name).getD 0 }
  refine ⟨connection, ?_, ?_⟩
  · rw [ETH.new, hfilled]
    rfl
  · refine ⟨rfl, (name_fill chain genesisHash hf).symm, ?_, ?_, ?_⟩
    · rw [hashAt_filled_level hs hmem]
    · rw [transitions_filled]
      exact List.mem_map_of_mem hmem
    · rwa [blockOrTimestamp_fill]

/-- A schedule that meets the conditions is followed. -/
theorem follows_of_keeps (hs : ForkSchedule chain.transitions)
    (h : KeepsForkPoints chain genesisHash) : FollowsForkPoints chain genesisHash := by
  have hfill : ∀ hf ∈ chain.transitions, hf.blockOrTimestamp ≠ none →
      (fill chain genesisHash hf).forkHash =
        some (bytesToHex (checksumBytes genesisHash (pointsUpTo chain hf.name))) :=
    fun hf hmem hpoint =>
      (forkHash_fill_iff hpoint).mpr ⟨h.given hf hmem hpoint, h.fourBytes hf hmem⟩
  have hhashed := hashed_filled hs hfill
  refine ⟨filled chain genesisHash, setForkHashes_eq hs h.exact, ?_, ?_⟩
  · intro hf hmem hpoint
    obtain ⟨hash, hhash, hforkHash⟩ := @forkHash_filled chain genesisHash hs hf hmem hpoint
    rw [hforkHash, Option.some.inj (hhash.symm.trans (hfill hf hmem hpoint))]
  · intro hf hmem hpoint head forkId
    obtain ⟨eth, hnew, hat⟩ := new_filled hs hmem hpoint (hfill hf hmem hpoint) head
    refine ⟨eth, hnew, ?_⟩
    have hdistinct : Distinct (levels (filled chain genesisHash).transitions)
        (hashAt genesisHash (filled chain genesisHash).transitions) := by
      rw [levels_filled, funext hashAt_filled]
      exact h.distinct
    have hverdict := validateForkId_iff hhashed hdistinct (mergeInPlace_filled.mpr h.merge) hat
      forkId
    rw [points_filled, funext hashAt_filled, level_filled] at hverdict
    exact hverdict

/-- A schedule that is followed meets the conditions. -/
theorem keeps_of_follows (hs : ForkSchedule chain.transitions) (hexact : Exact chain)
    (h : FollowsForkPoints chain genesisHash) : KeepsForkPoints chain genesisHash := by
  obtain ⟨chain', hset, hhashes, hverdicts⟩ := h
  rw [setForkHashes_eq hs hexact] at hset
  obtain rfl := Except.ok.inj hset
  have hfill : ∀ hf ∈ chain.transitions, hf.blockOrTimestamp ≠ none →
      (fill chain genesisHash hf).forkHash =
        some (bytesToHex (checksumBytes genesisHash (pointsUpTo chain hf.name))) := by
    intro hf hmem hpoint
    obtain ⟨hash, hhash, hforkHash⟩ := @forkHash_filled chain genesisHash hs hf hmem hpoint
    rw [hhash, Except.ok.inj (hforkHash.symm.trans (hhashes hf hmem hpoint))]
  have hhashed := hashed_filled hs hfill
  have hverdict : ∀ eth active forkId, At eth (filled chain genesisHash) genesisHash active →
      (validateForkId eth forkId = .ok () ↔
        Accepts { p | p ∈ points (filled chain genesisHash).transitions }
          (hashAt genesisHash (filled chain genesisHash).transitions)
          (level (filled chain genesisHash).transitions active) eth.latestBlock forkId.1
          (bytesToBigInt forkId.2)) := by
    intro eth active forkId hat
    have hmem := hat.mem
    rw [transitions_filled] at hmem
    obtain ⟨hf, hsource, rfl⟩ := List.mem_map.mp hmem
    have hpoint : hf.blockOrTimestamp ≠ none := by
      have hscheduled := hat.scheduled
      rwa [blockOrTimestamp_fill] at hscheduled
    obtain ⟨new, hnew, hat'⟩ :=
      new_filled hs hsource hpoint (hfill hf hsource hpoint) eth.latestBlock
    obtain ⟨new', hnew', hiff⟩ := hverdicts hf hsource hpoint eth.latestBlock forkId
    obtain rfl := Except.ok.inj (hnew.symm.trans hnew')
    rw [points_filled, funext hashAt_filled, level_filled, ← hiff]
    rw [validateForkId_congr (hat.common.trans hat'.common.symm)
      (hat.hardfork.trans hat'.hardfork.symm) rfl (hat.forkHash.trans hat'.forkHash.symm)]
  have hdistinct := distinct_of_verdict hverdict
  have hmerge := merge_of_verdict hhashed hverdict
  rw [levels_filled, funext hashAt_filled] at hdistinct
  exact {
    given := fun hf hmem hpoint => ((forkHash_fill_iff hpoint).mp (hfill hf hmem hpoint)).1
    fourBytes := fun hf hmem hmissing =>
      ((forkHash_fill_iff hmissing.2).mp (hfill hf hmem hmissing.2)).2 hmissing
    exact := hexact
    distinct := hdistinct
    merge := mergeInPlace_filled.mp hmerge }

end Connection

/-- The source follows the fork points of a schedule that meets the conditions, and of no other one
whose hashed points are exact. -/
theorem followsForkPoints_iff {chain : ForkConfig} {genesisHash : Bytes}
    (hs : ForkSchedule chain.transitions) :
    (KeepsForkPoints chain genesisHash → FollowsForkPoints chain genesisHash) ∧
      (Exact chain → (FollowsForkPoints chain genesisHash ↔ KeepsForkPoints chain genesisHash)) :=
  ⟨follows_of_keeps hs, fun hexact => ⟨keeps_of_follows hs hexact, follows_of_keeps hs⟩⟩

section TwoForks

/-- A genesis and one fork, without hashes. -/
def twoForks : ForkConfig where
  hardforks := [⟨⟨"chainstart", some 0, none⟩, none⟩, ⟨⟨"homestead", some 5, none⟩, none⟩]
  customHardforks := []

theorem schedule_twoForks : ForkSchedule twoForks.transitions where
  names := by decide
  ordered := by decide
  eightBytes := by decide
  unscheduled := by decide

theorem keeps_twoForks : KeepsForkPoints twoForks [1] where
  given := by decide
  fourBytes := by decide +kernel
  exact := by
    intro hf hmem _ p hp
    have hsmall : ∀ hf ∈ twoForks.transitions, ∀ p ∈ pointsUpTo twoForks hf.name, p < 2 ^ 53 := by
      decide
    exact toDouble_of_lt (hsmall hf hmem p hp)
  distinct := by
    rintro _ ⟨hf, hmem, -, rfl⟩ _ ⟨hf', hmem', -, rfl⟩
    have hall : ∀ hf ∈ twoForks.transitions, ∀ hf' ∈ twoForks.transitions,
        hashAt [1] twoForks.transitions (level twoForks.transitions hf) =
          hashAt [1] twoForks.transitions (level twoForks.transitions hf') →
        level twoForks.transitions hf = level twoForks.transitions hf' := by decide +kernel
    exact hall hf hmem hf' hmem'
  merge := by
    intro pre merge mid next rest point hsplit hname
    have hnames : ∀ hf ∈ twoForks.transitions, hf.name ≠ paris := by decide
    refine absurd hname (hnames merge ?_)
    rw [hsplit]
    exact List.mem_append_right pre List.mem_cons_self

theorem followsForkPoints_iff_twoForks : FollowsForkPoints twoForks [1] :=
  (followsForkPoints_iff schedule_twoForks).1 keeps_twoForks

end TwoForks

section Mainnet

/-- A fork at a block, with its hash. -/
def atBlock (name : String) (block : Nat) (forkHash : Bytes) : ForkTransition :=
  ⟨⟨name, some block, none⟩, some (bytesToHex forkHash)⟩

/-- A fork at a time, with its hash. -/
def atTime (name timestamp : String) (value : Nat) (forkHash : Bytes) : ForkTransition :=
  ⟨⟨name, none, some (.text timestamp value)⟩, some (bytesToHex forkHash)⟩

def beforeMerge : List ForkTransition :=
  [atBlock "chainstart" 0 [0xfc, 0x64, 0xec, 0x04],
    atBlock "homestead" 1150000 [0x97, 0xc2, 0xc3, 0x4c],
    atBlock "dao" 1920000 [0x91, 0xd1, 0xf9, 0x48],
    atBlock "tangerineWhistle" 2463000 [0x7a, 0x64, 0xda, 0x13],
    atBlock "spuriousDragon" 2675000 [0x3e, 0xdd, 0x5b, 0x10],
    atBlock "byzantium" 4370000 [0xa0, 0x0b, 0xc3, 0x24],
    atBlock "constantinople" 7280000 [0x66, 0x8d, 0xb0, 0xaf],
    atBlock "petersburg" 7280000 [0x66, 0x8d, 0xb0, 0xaf],
    atBlock "istanbul" 9069000 [0x87, 0x9d, 0x6e, 0x30],
    atBlock "muirGlacier" 9200000 [0xe0, 0x29, 0xe9, 0x91],
    atBlock "berlin" 12244000 [0x0e, 0xb4, 0x40, 0xf6],
    atBlock "london" 12965000 [0xb7, 0x15, 0x07, 0x7d],
    atBlock "arrowGlacier" 13773000 [0x20, 0xc3, 0x27, 0xfc],
    atBlock "grayGlacier" 15050000 [0xf0, 0xaf, 0xd0, 0xe3]]

def merge : ForkTransition := atBlock "paris" 15537394 [0xf0, 0xaf, 0xd0, 0xe3]

def mergeNetsplit : ForkTransition := ⟨⟨"mergeNetsplitBlock", none, none⟩, none⟩

def shanghai : ForkTransition := atTime "shanghai" "1681338455" 1681338455 [0xdc, 0xe9, 0x6c, 0x2d]

def afterShanghai : List ForkTransition :=
  [atTime "cancun" "1710338135" 1710338135 [0x9f, 0x3d, 0x22, 0x54],
    atTime "prague" "1746612311" 1746612311 [0xc3, 0x76, 0xcf, 0x8b],
    atTime "osaka" "1764798551" 1764798551 [0x51, 0x67, 0xe2, 0xa6],
    atTime "bpo1" "1765290071" 1765290071 [0xcb, 0xa2, 0xa1, 0xc0],
    atTime "bpo2" "1767747671" 1767747671 [0x07, 0xc9, 0x46, 0x2e],
    ⟨⟨"amsterdam", none, none⟩, none⟩]

/-- `Mainnet` of `chains.ts`. -/
def mainnet : ForkConfig where
  hardforks := beforeMerge ++ merge :: ([mergeNetsplit] ++ shanghai :: afterShanghai)
  customHardforks := []

theorem schedule_mainnet : ForkSchedule mainnet.transitions where
  names := by decide
  ordered := by decide
  eightBytes := by decide
  unscheduled := by decide

theorem exact_mainnet : Exact mainnet := by
  intro hf hmem hmissing
  have hnone : ∀ hf ∈ mainnet.transitions, ¬ Missing hf := by decide
  exact absurd hmissing (hnone hf hmem)

def mainnetGenesisHash : Bytes :=
  [0xd4, 0xe5, 0x67, 0x40, 0xf8, 0x76, 0xae, 0xf8, 0xc0, 0x10, 0xb8, 0x6a, 0x40, 0xd5, 0xf5, 0x67,
    0x45, 0xa1, 0x18, 0xd0, 0x90, 0x6a, 0x34, 0xe6, 0x9a, 0xec, 0x8c, 0x0d, 0xb1, 0xcb, 0x8f, 0xa3]

/-- The merge has a block of its own and the hash of the fork before it, and a side that stands
there and knows what comes next is refused. -/
theorem not_followsForkPoints_mainnet :
    ¬ FollowsForkPoints mainnet mainnetGenesisHash ∧
      ∃ eth, ETH.new mainnet shanghai.name = .ok eth ∧
        validateForkId eth ([0xf0, 0xaf, 0xd0, 0xe3], bigIntToBytes 1681338455) =
          .error (.thrown "Outdated fork status, remote needs software update") := by
  constructor
  · intro h
    have hmerge := (keeps_of_follows schedule_mainnet exact_mainnet h).merge
    obtain ⟨before, hbefore, -, hplace⟩ := hmerge beforeMerge merge [mergeNetsplit] shanghai
      afterShanghai 1681338455 rfl rfl (by decide) (by decide) (by decide) (by decide) (by decide)
    have hlast : beforeMerge.getLast? =
        some (atBlock "grayGlacier" 15050000 [0xf0, 0xaf, 0xd0, 0xe3]) := rfl
    rw [hlast] at hbefore
    obtain rfl := Option.some.inj hbefore
    exact hplace.elim (by decide) (by decide)
  · exact ⟨_, rfl, by decide +kernel⟩

end Mainnet

end EthereumJS.Devp2p
