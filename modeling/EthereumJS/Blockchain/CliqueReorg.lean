import EthereumJS.Blockchain.CliqueSteps

/-! # Clique snapshots after a reorg

The block signers after a reorg are those of a replay of the new chain exactly when the new branch
fills the list, or there was no old branch, or the old branch filled the list and there is nothing
below it. The signer states are the same when no state before the current one is in the history of
one of the two only.
-/

namespace EthereumJS.CliqueConsensus

/-- `newBlock` for the blocks of a branch, one after the other, each on the one before it. -/
def newBlocks (config : CliqueConfig) (chain : List CliqueHeader) :
    CliqueHeader → List CliqueHeader → CliqueConsensus → Except String CliqueConsensus
  | _, [], self => .ok self
  | parent, header :: headers, self => do
    let self ← self.newBlock config chain header (some parent)
    newBlocks config chain header headers self

/-- A fresh consensus object that has been fed a chain. -/
def fed (config : CliqueConfig) (genesis : CliqueHeader) (chain : List CliqueHeader) :
    Except String CliqueConsensus := do
  let self ← create.genesisInit config genesis
  newBlocks config chain genesis chain self

/-- The block `head` takes over with its branch from the common ancestor, and others follow. -/
def reorg (config : CliqueConfig) (chain : List CliqueHeader) (ancestor head : CliqueHeader)
    (later : List CliqueHeader) (self : CliqueConsensus) : Except String CliqueConsensus := do
  let self ← self.newBlock config chain head (some ancestor)
  newBlocks config chain head later self

/-- The snapshots are those of a replay, and have no entry of a block outside the chain. -/
structure Replays (config : CliqueConfig) (chain : List CliqueHeader)
    (reorged fresh : CliqueConsensus) : Prop where
  blockSigners : reorged.blockSigners = fresh.blockSigners
  signerStates : reorged.signerStates = fresh.signerStates
  recentlySigned : ∀ header, reorged.cliqueCheckRecentlySigned config header =
    fresh.cliqueCheckRecentlySigned config header
  noStale : ∀ signer ∈ reorged.blockSigners, ∃ header ∈ chain, signer = blockSigner config header

/-- The block signers are not cut too short and keep nothing of the old branch. -/
def Refilled (limit : Nat) (base olds news : List CliqueHeader) : Prop :=
  olds = [] ∨ limit ≤ news.length ∨ base = [] ∧ limit < olds.length

/-- The states before the current one have the same fate in the histories of two blocks. -/
def SameHistory (states : List CliqueSignerState) (number number' : Nat) : Prop :=
  ∀ state ∈ states.dropLast,
    (state.blockNumber : Int) ≥ number - CLIQUE_SIGNER_HISTORY_BLOCK_LIMIT ↔
      (state.blockNumber : Int) ≥ number' - CLIQUE_SIGNER_HISTORY_BLOCK_LIMIT

variable {config : CliqueConfig} {self : CliqueConsensus} {init : List CliqueSignerState}
  {last : CliqueSignerState} {tip number : Nat}

theorem newBlocks_eq_feed {chain headers : List CliqueHeader} {parent : CliqueHeader}
    (hlinked : Linked parent.number headers)
    (hcanonical : ∀ header ∈ headers, getCanonicalHeader chain header.number = .ok header) :
    newBlocks config chain parent headers self = feed config parent.number headers self := by
  induction headers generalizing parent self with
  | nil => rfl
  | cons header headers ih =>
    rw [newBlocks, feed, newBlock_eq_extend hlinked.1 (hcanonical header List.mem_cons_self)]
    congr 1
    funext after
    rw [← hlinked.1]
    apply ih
    · exact hlinked.1 ▸ hlinked.2
    · exact fun block hblock => hcanonical block (List.mem_cons_of_mem _ hblock)

theorem genesisInit_atTip {genesis : CliqueHeader}
    (hok : create.genesisInit config genesis = .ok self) :
    ∃ signers, cliqueEpochTransitionSigners config genesis = .ok signers ∧
      AtTip 0 [] { blockNumber := 0, signers := signers } self := by
  cases hsigners : cliqueEpochTransitionSigners config genesis with
  | error e =>
    rw [genesisInit, hsigners] at hok
    cases hok
  | ok signers =>
    rw [genesisInit, hsigners] at hok
    cases hok
    refine ⟨signers, rfl, ?_⟩
    constructor
    · rfl
    · exact List.pairwise_singleton _ _
    · exact le_refl 0
    · simp [create, saveVotes, CliqueConsensus.lastBlockNumber]
    · simp [create, saveVotes]
    · simp [create, saveVotes]
    · rfl

theorem fed_eq_feed {genesis : CliqueHeader} {chain : List CliqueHeader}
    (hgenesis : genesis.number = 0) (hlinked : Linked 0 chain) :
    fed config genesis chain = create.genesisInit config genesis >>= feed config 0 chain := by
  have heq : ∀ after : CliqueConsensus,
      newBlocks config chain genesis chain after = feed config 0 chain after := by
    intro after
    rw [newBlocks_eq_feed (hgenesis ▸ hlinked) (getCanonicalHeader_of_linked hlinked), hgenesis]
  simp only [fed, heq]

/-- The block signers that are left of a chain and a branch when the branch is cut off. -/
theorem filter_signersAfterAll {signers : List Address} {headers : List CliqueHeader}
    {blockSigners : List CliqueBlockSigner}
    (hle : ∀ signer ∈ blockSigners, signer.blockNumber ≤ tip) (hlinked : Linked tip headers)
    (hne : headers ≠ []) :
    (signersAfterAll config signers headers blockSigners).filter
        (fun signer => signer.blockNumber ≤ tip + 1) =
      if headers.length ≤ signers.length / 2 + 1 then
        blockSigners.rtake (signers.length / 2 + 1 - headers.length) ++
          (headers.take 1).map (blockSigner config)
      else [] := by
  cases headers with
  | nil => exact absurd rfl hne
  | cons header headers =>
    have hkept : ∀ n, (blockSigners.rtake n).filter (fun signer => signer.blockNumber ≤ tip + 1)
        = blockSigners.rtake n := by
      intro n
      apply List.filter_eq_self.mpr
      intro signer hsigner
      exact decide_eq_true (Nat.le_succ_of_le (hle signer (Window.mem_of_mem_rtake hsigner)))
    have hnone : ∀ l : List CliqueBlockSigner,
        (∀ signer ∈ l, signer ∈ headers.map (blockSigner config)) →
        l.filter (fun signer => signer.blockNumber ≤ tip + 1) = [] := by
      intro l hl
      apply List.filter_eq_nil_iff.mpr
      intro signer hsigner
      obtain ⟨block, hblock, rfl⟩ := List.mem_map.mp (hl signer hsigner)
      have hnumber := hlinked.2.number_gt block hblock
      intro hkeep
      have hle' : block.number ≤ tip + 1 := of_decide_eq_true hkeep
      omega
    rw [signersAfterAll_of_ne_nil hne, Window.rtake_append, List.filter_append, hkept,
      List.length_map]
    split
    next hlength =>
      congr 1
      rw [Window.rtake_of_length_le (by simpa using hlength), List.map_cons,
        List.filter_cons_of_pos, hnone _ fun signer h => h]
      · rfl
      · exact decide_eq_true (le_of_eq hlinked.1)
    next hlength =>
      have hzero : signers.length / 2 + 1 - (header :: headers).length = 0 := by omega
      have hcut : ((header :: headers).map (blockSigner config)).rtake (signers.length / 2 + 1)
          = (headers.map (blockSigner config)).rtake (signers.length / 2 + 1) := by
        rw [List.map_cons, ← List.singleton_append, Window.rtake_append, List.length_map]
        simp only [List.length_cons] at hlength
        rw [show signers.length / 2 + 1 - headers.length = 0 by omega, List.rtake_zero,
          List.nil_append]
      rw [hzero, List.rtake_zero, hcut, hnone _ fun signer h => Window.mem_of_mem_rtake h]
      rfl

theorem recent_eq_iff {states : List CliqueSignerState} {number' : Nat} :
    recent number states = recent number' states ↔ ∀ state ∈ states,
      ((state.blockNumber : Int) ≥ number - CLIQUE_SIGNER_HISTORY_BLOCK_LIMIT ↔
        (state.blockNumber : Int) ≥ number' - CLIQUE_SIGNER_HISTORY_BLOCK_LIMIT) := by
  simp only [recent]
  constructor
  · intro h state hstate
    have hmem : state ∈ states.filter (fun state =>
        (state.blockNumber : Int) ≥ number - CLIQUE_SIGNER_HISTORY_BLOCK_LIMIT) ↔
        state ∈ states.filter (fun state =>
          (state.blockNumber : Int) ≥ number' - CLIQUE_SIGNER_HISTORY_BLOCK_LIMIT) := by
      rw [h]
    simpa [List.mem_filter, hstate] using hmem
  · intro h
    apply List.filter_congr
    intro state hstate
    exact decide_eq_decide.mpr (h state hstate)

/-- When the block signers agree after the new branch. -/
theorem refilled_iff {signers : List Address} {blockSigners : List CliqueBlockSigner}
    {base olds news : List CliqueHeader} (hle : ∀ signer ∈ blockSigners, signer.blockNumber ≤ tip)
    (hnil : blockSigners = [] ↔ base = []) (hlinked : Linked tip olds) (hne : news ≠ []) :
    signersAfterAll config signers news ((signersAfterAll config signers olds blockSigners).filter
        fun signer => signer.blockNumber ≤ tip + 1) =
      signersAfterAll config signers news blockSigners ↔
        Refilled (signers.length / 2 + 1) base olds news := by
  unfold Refilled
  generalize hlimit : signers.length / 2 + 1 = limit
  cases olds with
  | nil =>
    have hkept : blockSigners.filter (fun signer => signer.blockNumber ≤ tip + 1)
        = blockSigners := by
      apply List.filter_eq_self.mpr
      intro signer hsigner
      exact decide_eq_true (Nat.le_succ_of_le (hle signer hsigner))
    simp only [signersAfterAll, List.foldl_nil, hkept, true_or]
  | cons old olds =>
    rw [filter_signersAfterAll hle hlinked (List.cons_ne_nil old olds),
      signersAfterAll_of_ne_nil hne, signersAfterAll_of_ne_nil hne, Window.rtake_append_inj,
      List.length_map, hlimit]
    have hone : limit ≠ 0 := by omega
    by_cases hfull : limit ≤ news.length
    · simp [Nat.sub_eq_zero_of_le hfull, hfull]
    have hrest : limit - news.length ≠ 0 := by omega
    split
    next hshort =>
      -- the first block of the old branch is still there
      have hlong : ¬ limit < (old :: olds).length := by omega
      simp only [List.cons_ne_nil, hfull, hlong, and_false, or_false, iff_false]
      intro heq
      have hlast := congrArg List.getLast? heq
      rw [Window.getLast?_rtake hrest, Window.getLast?_rtake hrest, List.take_succ_cons,
        List.take_zero, List.map_cons, List.map_nil, List.getLast?_append_of_ne_nil _
          (List.cons_ne_nil _ _), List.getLast?_singleton] at hlast
      have hmem := hle _ (List.mem_of_getLast? hlast.symm)
      have hnumber := hlinked.1
      simp only [blockSigner] at hmem
      omega
    next hlong =>
      have hlong' : limit < (old :: olds).length := by omega
      simp only [List.rtake_nil, List.cons_ne_nil, hfull, hlong', and_true, false_or]
      rw [eq_comm, Window.rtake_eq_nil, ← hnil]
      simp only [hrest, false_or]

theorem mem_signersAfterAll {signers : List Address} {headers : List CliqueHeader}
    {blockSigners : List CliqueBlockSigner} {signer : CliqueBlockSigner}
    (h : signer ∈ signersAfterAll config signers headers blockSigners) :
    signer ∈ blockSigners ∨ ∃ header ∈ headers, signer = blockSigner config header := by
  by_cases hne : headers = []
  · subst hne
    exact .inl h
  · rw [signersAfterAll_of_ne_nil hne] at h
    rcases List.mem_append.mp (Window.mem_of_mem_rtake h) with h | h
    · exact .inl h
    · obtain ⟨header, hheader, rfl⟩ := List.mem_map.mp h
      exact .inr ⟨header, hheader, rfl⟩

theorem Linked.number_le {headers : List CliqueHeader} (h : Linked tip headers) :
    ∀ header ∈ headers, header.number ≤ tip + headers.length := by
  induction headers generalizing tip with
  | nil => simp
  | cons first headers ih =>
    rintro header hmem
    simp only [List.length_cons]
    rcases List.mem_cons.mp hmem with rfl | hmem
    · have := h.1
      omega
    · have := ih h.2 header hmem
      omega

/-- What the reorg makes of the snapshots of the old branch. -/
theorem AtTip.takeOver {before : CliqueConsensus} {front : List CliqueHeader} {head : CliqueHeader}
    (h : AtTip number init last before) (hlast : last.blockNumber ≤ tip)
    (hlinked : Linked tip (front ++ [head]))
    (hquiet : ∀ header ∈ front ++ [head], CastsNoVote config header) :
    ∃ after, (before.cliqueDeleteSnapshots config (tip + 1) >>=
        (front ++ [head]).foldlM (cliqueBuildSnapshots config)) = .ok after ∧
      AtTip (tip + (front.length + 1)) (recent number init) last after ∧
      after.blockSigners = signersAfterAll config last.signers (front ++ [head])
        (before.blockSigners.filter fun signer => signer.blockNumber ≤ tip + 1) := by
  obtain ⟨cut, hcut, hstates, hvotes, hsigners⟩ := cliqueDeleteSnapshots_of_last config h.states
    h.ascending (Nat.le_succ_of_le hlast)
  rw [h.lastBlockNumber] at hstates
  have hascending : Ascending (recent number init ++ [last]) :=
    h.ascending.sublist (List.Sublist.append List.filter_sublist (.refl _))
  obtain ⟨after, hafter, hstates', hvotes', hsigners'⟩ :=
    built_quiet hstates hascending hlast hlinked hquiet
  have hhead : head.number = tip + (front.length + 1) := (Linked.append.mp hlinked).2.1
  rw [hsigners] at hsigners'
  refine ⟨after, by rw [hcut]; exact hafter, ?_, hsigners'⟩
  have hsplit : after.blockSigners = signersAfter config head last.signers
      (signersAfterAll config last.signers front
        (before.blockSigners.filter fun signer => signer.blockNumber ≤ tip + 1)) := by
    rw [hsigners', signersAfterAll_append]
    rfl
  constructor
  · exact hstates'
  · exact hascending
  · omega
  · rintro vote hvote
    have hmem := hvotes' vote hvote
    rw [hvotes] at hmem
    have hle := of_decide_eq_true (List.mem_filter.mp (List.mem_of_mem_filter hmem)).2
    omega
  · rintro signer hsigner
    rw [hsigners'] at hsigner
    rcases mem_signersAfterAll hsigner with hmem | ⟨header, hheader, rfl⟩
    · have hle := of_decide_eq_true (List.mem_filter.mp hmem).2
      omega
    · have hle := hlinked.number_le header hheader
      rw [List.length_append, List.length_singleton] at hle
      exact hle
  · have hne : after.blockSigners ≠ [] := by
      rw [hsplit, signersAfter, ne_eq, Window.rtake_eq_nil]
      simp
    simp [hne]
  · rw [lastBlockNumber_signersAfter (by omega) hsplit, Option.getD_some, hhead]

theorem Replays.of_eq {chain : List CliqueHeader} {reorged fresh : CliqueConsensus}
    (hsigners : reorged.blockSigners = fresh.blockSigners)
    (hstates : reorged.signerStates = fresh.signerStates)
    (hfrom : ∀ signer ∈ fresh.blockSigners, ∃ header ∈ chain, signer = blockSigner config header) :
    Replays config chain reorged fresh where
  blockSigners := hsigners
  signerStates := hstates
  recentlySigned header := by
    simp only [cliqueCheckRecentlySigned, cliqueSignerLimit, cliqueActiveSigners, hsigners, hstates]
  noStale := hsigners ▸ hfrom

theorem fed_ok {genesis : CliqueHeader} {chain : List CliqueHeader} (hgenesis : genesis.number = 0)
    (hlinked : Linked 0 chain) (hok : fed config genesis chain = .ok self) :
    (∃ init last, AtTip chain.length init last self) ∧
      ∀ signer ∈ self.blockSigners, ∃ header ∈ chain, signer = blockSigner config header := by
  rw [fed_eq_feed hgenesis hlinked] at hok
  cases hstart : create.genesisInit config genesis with
  | error e =>
    rw [hstart] at hok
    cases hok
  | ok start =>
    rw [hstart] at hok
    obtain ⟨signers, -, hfirst⟩ := genesisInit_atTip hstart
    obtain ⟨htip, hfrom⟩ := hfirst.feed_ok hlinked hok
    rw [Nat.zero_add] at htip
    refine ⟨htip, ?_⟩
    rintro signer hsigner
    have hmem := hfrom signer hsigner
    rw [hfirst.signers_nil.mpr rfl, List.nil_append] at hmem
    obtain ⟨header, hheader, rfl⟩ := List.mem_map.mp hmem
    exact ⟨header, hheader, rfl⟩

theorem fed_append {genesis : CliqueHeader} {base branch : List CliqueHeader}
    (hgenesis : genesis.number = 0) (hlinked : Linked 0 (base ++ branch))
    (hok : fed config genesis base = .ok self) :
    fed config genesis (base ++ branch) = feed config base.length branch self := by
  rw [fed_eq_feed hgenesis (Linked.append.mp hlinked).1] at hok
  rw [fed_eq_feed hgenesis hlinked]
  cases hstart : create.genesisInit config genesis with
  | error e =>
    rw [hstart] at hok
    cases hok
  | ok start =>
    rw [hstart] at hok
    have hfeed : feed config 0 base start = .ok self := hok
    change feed config 0 (base ++ branch) start = _
    rw [feed_append, hfeed, Nat.zero_add]
    rfl

theorem number_of_linked {genesis : CliqueHeader} {base : List CliqueHeader}
    (hgenesis : genesis.number = 0) (hlinked : Linked 0 base) :
    (base.getLast?.getD genesis).number = base.length := by
  cases base using List.reverseRecOn with
  | nil => exact hgenesis
  | append_singleton base header =>
    have hnumber := (Linked.append.mp hlinked).2.1
    rw [List.getLast?_append_of_ne_nil _ (List.cons_ne_nil _ _), List.getLast?_singleton,
      Option.getD_some, hnumber, List.length_append, List.length_singleton, Nat.zero_add]

/-- The states before the current one after the old branch, the reorg and the blocks that follow. -/
theorem recentAfter_reorg (olds front later : List CliqueHeader) :
    recentAfter (tip + (front.length + 1)) later
        (recent (tip + olds.length) (recentAfter tip olds init)) =
      recent (max (tip + olds.length)
        (if later = [] then 0 else tip + front.length + later.length)) init := by
  have hold : recent (tip + olds.length) (recentAfter tip olds init)
      = recent (tip + olds.length) init := by
    by_cases hne : olds = []
    · rw [hne, recentAfter]
    · rw [recentAfter_of_ne_nil hne, recent_recent]
      congr 1
      omega
  rw [hold]
  split
  next hlater => rw [hlater, recentAfter, max_eq_left (Nat.zero_le _)]
  next hlater =>
    rw [recentAfter_of_ne_nil hlater, recent_recent]
    congr 2
    omega

/-- After a reorg between branches without votes the snapshots are those of a replay of the new
chain if and only if the block signers are refilled and the histories agree. -/
theorem reorg_replays_iff {genesis head : CliqueHeader} {base olds front later : List CliqueHeader}
    {atAncestor : CliqueConsensus} (hgenesis : genesis.number = 0)
    (hold : Linked 0 (base ++ olds)) (hnew : Linked 0 (base ++ (front ++ [head] ++ later)))
    (hquiet : ∀ header ∈ olds ++ (front ++ [head] ++ later), CastsNoVote config header)
    (hbase : fed config genesis base = .ok atAncestor) :
    ∃ before reorged fresh limit, fed config genesis (base ++ olds) = .ok before ∧
      reorg config (base ++ (front ++ [head] ++ later)) (base.getLast?.getD genesis) head later
        before = .ok reorged ∧
      fed config genesis (base ++ (front ++ [head] ++ later)) = .ok fresh ∧
      atAncestor.cliqueSignerLimit (base.length + 1) = .ok limit ∧
      (Replays config (base ++ (front ++ [head] ++ later)) reorged fresh ↔
        Refilled limit base olds (front ++ [head] ++ later) ∧
        SameHistory atAncestor.signerStates
          (max (base.length + olds.length)
            (if later = [] then 0 else base.length + front.length + later.length))
          (base.length + front.length + later.length)) := by
  have hbaseLinked : Linked 0 base := (Linked.append.mp hold).1
  have holds : Linked base.length olds := by
    simpa using (Linked.append.mp hold).2
  have hnews : Linked base.length (front ++ [head] ++ later) := by
    simpa using (Linked.append.mp hnew).2
  have htaking := (Linked.append.mp hnews).1
  have hlater := (Linked.append.mp hnews).2
  rw [List.length_append, List.length_singleton] at hlater
  have hquietNews : ∀ header ∈ front ++ [head] ++ later, CastsNoVote config header :=
    fun header h => hquiet header (List.mem_append_right _ h)
  obtain ⟨⟨init, last, hatAncestor⟩, -⟩ := fed_ok hgenesis hbaseLinked hbase
  -- the old branch, the block that takes over, and the blocks that follow
  obtain ⟨before, hbefore, hbeforeTip, hbeforeSigners⟩ := hatAncestor.feed_quiet holds
    fun header h => hquiet header (List.mem_append_left _ h)
  obtain ⟨taken, htaken, htakenTip, htakenSigners⟩ := hbeforeTip.takeOver hatAncestor.last_le
    htaking fun header h => hquietNews header (List.mem_append_left _ h)
  obtain ⟨reorged, hreorged, hreorgedTip, hreorgedSigners⟩ := htakenTip.feed_quiet hlater
    fun header h => hquietNews header (List.mem_append_right _ h)
  obtain ⟨fresh, hfresh, hfreshTip, hfreshSigners⟩ := hatAncestor.feed_quiet hnews hquietNews
  have hfreshFed := (fed_append hgenesis hnew hbase).trans hfresh
  have hancestor := number_of_linked hgenesis hbaseLinked
  have hcanonical := getCanonicalHeader_of_linked hnew
  have hhead : head.number = base.length + (front.length + 1) := (Linked.append.mp htaking).2.1
  have hreorg : reorg config (base ++ (front ++ [head] ++ later)) (base.getLast?.getD genesis) head
      later before = .ok reorged := by
    rw [reorg, newBlock_eq_foldlM front (hancestor.symm ▸ htaking), hancestor, htaken]
    · change newBlocks config _ head later taken = _
      rw [newBlocks_eq_feed (hhead.symm ▸ hlater), hhead, hreorged]
      exact fun header h => hcanonical header
        (List.mem_append_right _ (List.mem_append_right _ h))
    · exact fun header h => hcanonical header
        (List.mem_append_right _ (List.mem_append_left _ h))
  have hlimit := cliqueSignerLimit_of_last hatAncestor.states
    (Nat.lt_succ_of_le hatAncestor.last_le)
  refine ⟨before, reorged, fresh, _, (fed_append hgenesis hold hbase).trans hbefore, hreorg,
    hfreshFed, hlimit, ?_⟩
  have hsigners : reorged.blockSigners = fresh.blockSigners ↔
      Refilled (last.signers.length / 2 + 1) base olds (front ++ [head] ++ later) := by
    have hnil : atAncestor.blockSigners = [] ↔ base = [] := by
      rw [hatAncestor.signers_nil, List.length_eq_zero_iff]
    rw [← refilled_iff hatAncestor.signers_le hnil holds (by simp), hreorgedSigners, htakenSigners,
      hbeforeSigners, hfreshSigners, ← signersAfterAll_append]
  have hstates : reorged.signerStates = fresh.signerStates ↔
      SameHistory atAncestor.signerStates
        (max (base.length + olds.length)
          (if later = [] then 0 else base.length + front.length + later.length))
        (base.length + front.length + later.length) := by
    rw [hreorgedTip.states, hfreshTip.states, List.append_cancel_right_eq, recentAfter_reorg,
      recentAfter_of_ne_nil (by simp), SameHistory, hatAncestor.states, List.dropLast_concat,
      ← recent_eq_iff]
    have hlength : base.length + (front ++ [head] ++ later).length - 1
        = base.length + front.length + later.length := by
      simp only [List.length_append, List.length_singleton]
      omega
    rw [hlength]
  rw [← hsigners, ← hstates]
  constructor
  · rintro h
    exact ⟨h.blockSigners, h.signerStates⟩
  · rintro ⟨hsigners, hstates⟩
    exact .of_eq hsigners hstates (fed_ok hgenesis hnew hfreshFed).2

namespace Sample

/-- The seal of a sample block begins with the address of its signer. -/
def cliqueConfig : CliqueConfig where
  epoch := 30000
  epoch_pos := by decide
  cliqueSigner header := Fin.ofNat _ (header.extraData.getD CLIQUE_EXTRA_VANITY 0).toNat

def block (number : Nat) (signer : UInt8) : CliqueHeader :=
  { number := number, coinbase := 0, nonce := CLIQUE_NONCE_DROP
    extraData := List.replicate 32 0 ++ signer :: List.replicate 64 0 }

/-- A genesis block with the signers 1, 2, 3 and 4. -/
def genesis : CliqueHeader :=
  { number := 0, coinbase := 0, nonce := CLIQUE_NONCE_DROP
    extraData := List.replicate 32 0 ++
      [1, 2, 3, 4].flatMap (fun signer => List.replicate 19 0 ++ [signer]) ++ List.replicate 65 0 }

def start : CliqueConsensus :=
  { signerStates := [{ blockNumber := 0, signers := [1, 2, 3, 4] }], votes := [], blockSigners := []
    db :=
      { signerStates := [{ blockNumber := 0, signers := [1, 2, 3, 4] }], votes := []
        blockSigners := [] } }

theorem fed_start : fed cliqueConfig genesis [] = .ok start := by
  decide +kernel

end Sample

open Sample in
theorem reorg_replays_iff_refilled :
    ∃ before reorged fresh, fed cliqueConfig genesis [block 1 1] = .ok before ∧
      reorg cliqueConfig [block 1 2, block 2 3, block 3 4] genesis (block 2 3) [block 3 4] before
        = .ok reorged ∧
      fed cliqueConfig genesis [block 1 2, block 2 3, block 3 4] = .ok fresh ∧
      Replays cliqueConfig [block 1 2, block 2 3, block 3 4] reorged fresh := by
  have hold : Linked 0 ([] ++ [block 1 1]) := by simp [Linked, block]
  have hnew : Linked 0 ([] ++ ([block 1 2] ++ [block 2 3] ++ [block 3 4])) := by
    simp [Linked, block]
  obtain ⟨before, reorged, fresh, limit, hbefore, hreorged, hfresh, hlimit, hiff⟩ :=
    reorg_replays_iff rfl hold hnew (by simp [CastsNoVote, block]) fed_start
  refine ⟨before, reorged, fresh, hbefore, hreorged, hfresh, hiff.mpr ⟨.inr (.inl ?_), ?_⟩⟩
  · have hthree : start.cliqueSignerLimit 1 = .ok 3 := rfl
    cases hlimit.symm.trans hthree
    exact le_refl 3
  · rintro state hstate
    cases hstate

open Sample in
/-- The entry of the stale block lets a signer of the new chain wait. -/
theorem not_reorg_replays :
    ∃ before reorged fresh, fed cliqueConfig genesis [block 1 1] = .ok before ∧
      reorg cliqueConfig [block 1 2] genesis (block 1 2) [] before = .ok reorged ∧
      fed cliqueConfig genesis [block 1 2] = .ok fresh ∧
      reorged.cliqueCheckRecentlySigned cliqueConfig (block 2 1) = .ok true ∧
      fresh.cliqueCheckRecentlySigned cliqueConfig (block 2 1) = .ok false ∧
      ¬ Replays cliqueConfig [block 1 2] reorged fresh := by
  let after (signers : List CliqueBlockSigner) : CliqueConsensus :=
    { start with blockSigners := signers, db.blockSigners := signers }
  refine ⟨after [⟨1, 1⟩], after [⟨1, 1⟩, ⟨1, 2⟩], after [⟨1, 2⟩], ?_, ?_, ?_, ?_, ?_, ?_⟩
  · decide +kernel
  · decide +kernel
  · decide +kernel
  · decide +kernel
  · decide +kernel
  · rintro h
    exact absurd h.blockSigners (by decide)

end EthereumJS.CliqueConsensus
