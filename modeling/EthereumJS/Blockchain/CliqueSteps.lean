import EthereumJS.Blockchain.Clique
import EthereumJS.Ordered.Window

/-! # What a block does to the Clique snapshots

A consensus object that has been fed a chain up to a tip takes the next block of the chain without
an error. The signers of the last signer state are the active ones, and no step changes that state.
-/

namespace EthereumJS

namespace CliqueConsensus

/-- The states that the history of a block still has. -/
def recent (number : Nat) (states : List CliqueSignerState) : List CliqueSignerState :=
  states.filter fun state => (state.blockNumber : Int) ≥ number - CLIQUE_SIGNER_HISTORY_BLOCK_LIMIT

def Ascending (states : List CliqueSignerState) : Prop :=
  states.Pairwise fun a b => a.blockNumber < b.blockNumber

variable {config : CliqueConfig} {self : CliqueConsensus} {init : List CliqueSignerState}
  {last : CliqueSignerState} {tip number : Nat} {header : CliqueHeader}

theorem Ascending.lt_last (h : Ascending (init ++ [last])) :
    ∀ state ∈ init, state.blockNumber < last.blockNumber := by
  intro state hstate
  exact (List.pairwise_append.mp h).2.2 state hstate last (List.mem_singleton_self last)

theorem Ascending.concat {states : List CliqueSignerState} (h : Ascending states)
    (hlast : ∀ state ∈ states, state.blockNumber < last.blockNumber) :
    Ascending (states ++ [last]) := by
  apply List.pairwise_append.mpr
  refine ⟨h, List.pairwise_singleton _ _, ?_⟩
  rintro state hstate _ hmem
  cases List.mem_singleton.mp hmem
  exact hlast state hstate

theorem cliqueActiveSigners_of_last (hstates : self.signerStates = init ++ [last])
    (hlast : last.blockNumber < number) : self.cliqueActiveSigners number = .ok last.signers := by
  simp [cliqueActiveSigners, hstates, hlast]

theorem cliqueSignerLimit_of_last (hstates : self.signerStates = init ++ [last])
    (hlast : last.blockNumber < number) :
    self.cliqueSignerLimit number = .ok (last.signers.length / 2 + 1) := by
  simp [cliqueSignerLimit, cliqueActiveSigners_of_last hstates hlast, bind, Except.bind, pure,
    Except.pure]

theorem trimSignerStates_of_last (hstates : self.signerStates = init ++ [last])
    (hascending : Ascending (init ++ [last])) :
    self.trimSignerStates = .ok (recent (self.lastBlockNumber.getD 0) init ++ [last]) := by
  unfold trimSignerStates recent
  cases hnumber : self.lastBlockNumber with
  | none =>
    have hall : init.filter (fun state => (state.blockNumber : Int) ≥
        ((none : Option Nat).getD 0 : Nat) - CLIQUE_SIGNER_HISTORY_BLOCK_LIMIT) = init := by
      apply List.filter_eq_self.mpr
      intro state _
      apply decide_eq_true
      simp only [Option.getD_none, CLIQUE_SIGNER_HISTORY_BLOCK_LIMIT]
      omega
    rw [hall, hstates]
  | some n =>
    simp only [Option.getD_some, hstates, List.filter_append]
    by_cases hlast : (last.blockNumber : Int) ≥ n - CLIQUE_SIGNER_HISTORY_BLOCK_LIMIT
    · rw [List.filter_cons_of_pos (by simpa using hlast)]
      simp
    · have hnone : init.filter (fun state =>
          (state.blockNumber : Int) ≥ n - CLIQUE_SIGNER_HISTORY_BLOCK_LIMIT) = [] := by
        apply List.filter_eq_nil_iff.mpr
        intro state hstate
        have := hascending.lt_last state hstate
        simp only [decide_eq_true_eq]
        omega
      rw [hnone, List.filter_cons_of_neg (by simpa using hlast)]
      simp

variable (self) in
theorem saveSignerStates_of_last (hstates : self.signerStates = init ++ [last])
    (hascending : Ascending (init ++ [last])) :
    ∃ db, self.saveSignerStates = .ok { self with
      signerStates := recent (self.lastBlockNumber.getD 0) init ++ [last], db := db } := by
  simp only [saveSignerStates, trimSignerStates_of_last hstates hascending, bind, Except.bind, pure,
    Except.pure]
  exact ⟨_, rfl⟩

/-- The votes that the history of a block still has. -/
def recentVotes (config : CliqueConfig) (number : Nat) (votes : List CliqueVote) :
    List CliqueVote :=
  votes.filter fun vote => (vote.blockNumber : Int) ≥
    config.lastEpochBlockNumber number - CLIQUE_SIGNER_HISTORY_BLOCK_LIMIT

theorem saveVotes_votes :
    (self.saveVotes config).votes =
      recentVotes config (self.lastBlockNumber.getD 0) self.votes := by
  simp only [saveVotes, recentVotes]
  cases self.lastBlockNumber with
  | none =>
    apply (List.filter_eq_self.mpr _).symm
    intro vote _
    apply decide_eq_true
    simp only [Option.getD_none, CliqueConfig.lastEpochBlockNumber,
      CLIQUE_SIGNER_HISTORY_BLOCK_LIMIT]
    omega
  | some n => rfl

variable (config) in
theorem cliqueDeleteSnapshots_of_last (hstates : self.signerStates = init ++ [last])
    (hascending : Ascending (init ++ [last]))
    (hlast : last.blockNumber ≤ number) :
    ∃ after, self.cliqueDeleteSnapshots config number = .ok after ∧
      after.signerStates = recent (self.lastBlockNumber.getD 0) init ++ [last] ∧
      after.votes = recentVotes config (self.lastBlockNumber.getD 0)
        (self.votes.filter fun vote => vote.blockNumber ≤ number) ∧
      after.blockSigners = self.blockSigners.filter fun signer => signer.blockNumber ≤ number := by
  have hkept : self.signerStates.filter (fun state => state.blockNumber ≤ number)
      = self.signerStates := by
    apply List.filter_eq_self.mpr
    intro state hstate
    rw [hstates, List.mem_append, List.mem_singleton] at hstate
    apply decide_eq_true
    rcases hstate with hstate | rfl
    · exact le_trans (le_of_lt (hascending.lt_last state hstate)) hlast
    · exact hlast
  obtain ⟨db, hsaved⟩ := saveSignerStates_of_last self hstates hascending
  simp only [cliqueDeleteSnapshots, cliqueUpdateSignerStates, cliqueUpdateVotes,
    cliqueUpdateLatestBlockSigners, hkept, hsaved, bind, Except.bind]
  exact ⟨_, rfl, rfl, saveVotes_votes, rfl⟩

/-- The entry of a header in the list of block signers. -/
def blockSigner (config : CliqueConfig) (header : CliqueHeader) : CliqueBlockSigner :=
  { blockNumber := header.number, signer := config.cliqueSigner header }

/-- The block signers after a block for which these signers are active. -/
def signersAfter (config : CliqueConfig) (header : CliqueHeader) (signers : List Address)
    (blockSigners : List CliqueBlockSigner) : List CliqueBlockSigner :=
  (blockSigners ++ [blockSigner config header]).rtake (signers.length / 2 + 1)

variable (config) in
theorem cliqueUpdateLatestBlockSigners_of_active {signers : List Address}
    (hactive : self.cliqueActiveSigners header.number = .ok signers) (hnumber : header.number ≠ 0) :
    ∃ after, self.cliqueUpdateLatestBlockSigners config (some header) = .ok after ∧
      after.signerStates = self.signerStates ∧ after.votes = self.votes ∧
      after.blockSigners = signersAfter config header signers self.blockSigners := by
  simp only [cliqueUpdateLatestBlockSigners, hnumber, if_false, cliqueSignerLimit, hactive, bind,
    Except.bind, pure, Except.pure]
  refine ⟨_, rfl, rfl, rfl, ?_⟩
  exact (Window.rtake_eq_ite _ _).symm

/-- A round over the given signers and votes. -/
def poll (config : CliqueConfig) (header : CliqueHeader) (round : Nat) (signers : List Address)
    (votes : List CliqueVote) : VoteRound :=
  let limit := signers.length / 2 + 1
  let state := drop config header round limit (authorize config header round limit
    { activeSigners := signers, votes := votes, consensus := false })
  if round = 1 then { state with votes := state.votes ++ [latestVote config header] } else state

theorem voteRound_of_last {round : Nat} (hstates : self.signerStates = init ++ [last])
    (hlast : last.blockNumber < header.number) :
    voteRound config header round self =
      .ok (poll config header round last.signers self.votes) := by
  simp only [voteRound, cliqueSignerLimit_of_last hstates hlast,
    cliqueActiveSigners_of_last hstates hlast, bind, Except.bind, pure, Except.pure, poll]

/-- The votes after the rounds for a header, and the new signers if there are any. -/
def pollResult (config : CliqueConfig) (header : CliqueHeader) (signers : List Address)
    (votes : List CliqueVote) : List CliqueVote × Option (List Address) :=
  if header.coinbase = 0 then (votes, none)
  else
    let first := poll config header 1 signers votes
    if first.consensus then (first.votes, some first.activeSigners)
    else
      let second := poll config header 2 signers first.votes
      (second.votes, if second.consensus then some second.activeSigners else none)

theorem cliqueUpdateSignerStates_of_last (votes : List CliqueVote) (new : CliqueSignerState)
    (hstates : self.signerStates = init ++ [last]) (hascending : Ascending (init ++ [last]))
    (hlast : last.blockNumber < new.blockNumber) :
    ∃ db, cliqueUpdateSignerStates { self with votes := votes } (some new) = .ok { self with
      votes := votes
      signerStates := recent (self.lastBlockNumber.getD 0) (init ++ [last]) ++ [new]
      db := db } := by
  have hlt : ∀ state ∈ init ++ [last], state.blockNumber < new.blockNumber := by
    intro state hstate
    rw [List.mem_append, List.mem_singleton] at hstate
    rcases hstate with hstate | rfl
    · exact lt_trans (hascending.lt_last state hstate) hlast
    · exact hlast
  have hnew : self.signerStates.any (fun state => state.blockNumber = new.blockNumber) = false := by
    rw [hstates]
    apply List.any_eq_false.mpr
    intro state hstate
    simp only [decide_eq_true_eq]
    exact ne_of_lt (hlt state hstate)
  have hascending' := hascending.concat hlt
  have hsorted : (self.signerStates ++ [new]).insertionSort
      (fun a b => a.blockNumber ≤ b.blockNumber) = self.signerStates ++ [new] := by
    rw [hstates]
    exact List.Pairwise.insertionSort_eq (hascending'.imp fun h => le_of_lt h)
  obtain ⟨db, hsaved⟩ := saveSignerStates_of_last
    { self with votes := votes, signerStates := self.signerStates ++ [new] }
    (by rw [hstates]) hascending'
  simp only [cliqueUpdateSignerStates, hnew, hsorted, hsaved]
  exact ⟨db, rfl⟩

variable (config) in
/-- The outcome of `cliqueUpdateVotes` for a header above the last signer state. -/
theorem cliqueUpdateVotes_of_last (hstates : self.signerStates = init ++ [last])
    (hascending : Ascending (init ++ [last]))
    (hlast : last.blockNumber < header.number) :
    ∃ after, self.cliqueUpdateVotes config (some header) = .ok after ∧
      after.blockSigners = self.blockSigners ∧
      match pollResult config header last.signers self.votes with
      | (votes, some signers) => after.votes = votes ∧
        after.signerStates = recent (self.lastBlockNumber.getD 0) (init ++ [last]) ++
          [{ blockNumber := header.number, signers := signers }]
      | (votes, none) => after.votes = recentVotes config (self.lastBlockNumber.getD 0) votes ∧
        after.signerStates = self.signerStates := by
  unfold cliqueUpdateVotes pollResult
  by_cases hcoinbase : header.coinbase = 0
  · simp only [hcoinbase, if_true]
    exact ⟨_, rfl, rfl, saveVotes_votes, rfl⟩
  simp only [hcoinbase, if_false, voteRounds, voteRound_of_last hstates hlast, bind, Except.bind]
  split
  next hfirst =>
    obtain ⟨db, hupdate⟩ := cliqueUpdateSignerStates_of_last
      (poll config header 1 last.signers self.votes).votes
      { blockNumber := header.number
        signers := (poll config header 1 last.signers self.votes).activeSigners }
      hstates hascending hlast
    rw [hupdate]
    exact ⟨_, rfl, rfl, rfl, rfl⟩
  next hfirst =>
    generalize (poll config header 1 last.signers self.votes).votes = votes
    have hround : voteRound config header 2 { self with votes := votes }
        = .ok (poll config header 2 last.signers votes) := voteRound_of_last hstates hlast
    simp only [hround]
    split
    next hsecond =>
      obtain ⟨db, hupdate⟩ := cliqueUpdateSignerStates_of_last
        (poll config header 2 last.signers votes).votes
        { blockNumber := header.number
          signers := (poll config header 2 last.signers votes).activeSigners }
        hstates hascending hlast
      rw [hupdate]
      exact ⟨_, rfl, rfl, rfl, rfl⟩
    next hsecond => exact ⟨_, rfl, rfl, saveVotes_votes, rfl⟩

/-- A consensus object that has been fed a chain up to the block `tip`. -/
structure AtTip (tip : Nat) (init : List CliqueSignerState) (last : CliqueSignerState)
    (consensus : CliqueConsensus) : Prop where
  states : consensus.signerStates = init ++ [last]
  ascending : Ascending (init ++ [last])
  last_le : last.blockNumber ≤ tip
  votes_le : ∀ vote ∈ consensus.votes, vote.blockNumber ≤ tip
  signers_le : ∀ signer ∈ consensus.blockSigners, signer.blockNumber ≤ tip
  signers_nil : consensus.blockSigners = [] ↔ tip = 0
  lastBlockNumber : consensus.lastBlockNumber.getD 0 = tip

/-- The result of the rounds, which an epoch transition leaves out. -/
def ballotResult (config : CliqueConfig) (header : CliqueHeader) (signers : List Address)
    (votes : List CliqueVote) : List CliqueVote × Option (List Address) :=
  if config.cliqueIsEpochTransition header then (votes, none)
  else pollResult config header signers votes

theorem cliqueActiveSigners_of_new {new : CliqueSignerState}
    (hstates : self.signerStates = init ++ [last] ++ [new]) (hlast : last.blockNumber < number)
    (hnew : number ≤ new.blockNumber) : self.cliqueActiveSigners number = .ok last.signers := by
  have hnew' : ¬ new.blockNumber < number := by omega
  simp [cliqueActiveSigners, hstates, hlast, hnew']

/-- Blocks with the numbers after `number`. -/
def Linked (number : Nat) : List CliqueHeader → Prop
  | [] => True
  | header :: headers => header.number = number + 1 ∧ Linked (number + 1) headers

theorem Linked.append {front back : List CliqueHeader} :
    Linked number (front ++ back) ↔ Linked number front ∧ Linked (number + front.length) back := by
  induction front generalizing number with
  | nil => simp [Linked]
  | cons header front ih =>
    have hlength : number + 1 + front.length = number + (front.length + 1) := by omega
    simp only [List.cons_append, Linked, ih, List.length_cons, hlength, and_assoc]

theorem Linked.number_gt {headers : List CliqueHeader} (h : Linked number headers) :
    ∀ header ∈ headers, number < header.number := by
  induction headers generalizing number with
  | nil => simp
  | cons first headers ih =>
    rintro header hmem
    rcases List.mem_cons.mp hmem with rfl | hmem
    · exact h.1 ▸ Nat.lt_succ_self number
    · exact lt_trans (Nat.lt_succ_self number) (ih h.2 header hmem)

theorem getCanonicalHeader_of_linked {chain : List CliqueHeader} (h : Linked number chain) :
    ∀ header ∈ chain, getCanonicalHeader chain header.number = .ok header := by
  induction chain generalizing number with
  | nil => simp
  | cons first chain ih =>
    rintro header hmem
    rcases List.mem_cons.mp hmem with rfl | hmem
    · simp [getCanonicalHeader]
    · have hne : first.number ≠ header.number := by
        have := h.1
        have := Linked.number_gt h.2 header hmem
        omega
      have hrest := ih h.2 header hmem
      simp only [getCanonicalHeader] at hrest ⊢
      rw [List.find?_cons_of_neg (by simpa using hne)]
      exact hrest

/-- The loop of `newBlock` builds the snapshots for each block. -/
theorem foldlM_build {chain headers : List CliqueHeader} (hlinked : Linked number headers)
    (hcanonical : ∀ header ∈ headers, getCanonicalHeader chain header.number = .ok header) :
    (List.range' (number + 1) headers.length).foldlM
      (fun self number => do
        let canonicalHeader ← getCanonicalHeader chain number
        self.cliqueBuildSnapshots config canonicalHeader) self =
      headers.foldlM (cliqueBuildSnapshots config) self := by
  induction headers generalizing number self with
  | nil => rfl
  | cons header headers ih =>
    have hfirst := hcanonical header List.mem_cons_self
    rw [hlinked.1] at hfirst
    rw [List.length_cons, List.range'_succ, List.foldlM_cons, List.foldlM_cons, hfirst]
    simp only [bind, Except.bind]
    cases self.cliqueBuildSnapshots config header with
    | error e => rfl
    | ok after => exact ih hlinked.2 fun header h => hcanonical header (List.mem_cons_of_mem _ h)

theorem newBlock_eq_foldlM {chain : List CliqueHeader} {ancestor : CliqueHeader}
    (branch : List CliqueHeader) (hlinked : Linked ancestor.number (branch ++ [header]))
    (hcanonical : ∀ block ∈ branch ++ [header],
      getCanonicalHeader chain block.number = .ok block) :
    self.newBlock config chain header (some ancestor) =
      self.cliqueDeleteSnapshots config (ancestor.number + 1) >>=
        (branch ++ [header]).foldlM (cliqueBuildSnapshots config) := by
  have hcount : header.number - ancestor.number = (branch ++ [header]).length := by
    have := (Linked.append.mp hlinked).2.1
    simp only [List.length_append, List.length_singleton]
    omega
  simp only [newBlock, hcount, bind, Except.bind]
  cases self.cliqueDeleteSnapshots config (ancestor.number + 1) with
  | error e => rfl
  | ok before => exact foldlM_build hlinked hcanonical

theorem built_unchanged {before : CliqueConsensus} {votes : List CliqueVote}
    (hstates : before.signerStates = init ++ [last]) (hascending : Ascending (init ++ [last]))
    (hlast : last.blockNumber < header.number)
    (hresult : ballotResult config header last.signers before.votes = (votes, none)) :
    ∃ after, before.cliqueBuildSnapshots config header = .ok after ∧
      after.signerStates = init ++ [last] ∧
      after.votes = (if config.cliqueIsEpochTransition header then votes
        else recentVotes config (before.lastBlockNumber.getD 0) votes) ∧
      after.blockSigners = signersAfter config header last.signers before.blockSigners := by
  unfold ballotResult at hresult
  unfold cliqueBuildSnapshots
  split at hresult
  next hepoch =>
    obtain ⟨after, hafter, hstates', hvotes, hsigners⟩ :=
      cliqueUpdateLatestBlockSigners_of_active config
        (cliqueActiveSigners_of_last hstates hlast) (by omega)
    cases hresult
    simp only [hepoch, if_true, pure, Except.pure, bind, Except.bind, hafter]
    exact ⟨after, rfl, hstates'.trans hstates, hvotes, hsigners⟩
  next hepoch =>
    obtain ⟨voted, hvoted, hsame, hrest⟩ :=
      cliqueUpdateVotes_of_last config hstates hascending hlast
    rw [hresult] at hrest
    obtain ⟨hvotes, hsignerStates⟩ := hrest
    obtain ⟨after, hafter, hstates', hvotes', hsigners⟩ :=
      cliqueUpdateLatestBlockSigners_of_active config
        (cliqueActiveSigners_of_last (hsignerStates.trans hstates) hlast) (by omega)
    simp only [hepoch, hvoted, hafter, bind, Except.bind]
    rw [hsame] at hsigners
    exact ⟨after, rfl, hstates'.trans (hsignerStates.trans hstates), hvotes'.trans hvotes, hsigners⟩

theorem mem_poll {round : Nat} {signers : List Address} {votes : List CliqueVote}
    {vote : CliqueVote} (h : vote ∈ (poll config header round signers votes).votes) :
    vote ∈ votes ∨ vote = latestVote config header := by
  have hauthorize : ∀ limit, ∀ state : VoteRound,
      vote ∈ (authorize config header round limit state).votes → vote ∈ state.votes := by
    intro limit state hvote
    unfold authorize at hvote
    split at hvote
    · exact List.mem_of_mem_filter hvote
    · exact hvote
  have hdrop : ∀ limit, ∀ state : VoteRound,
      vote ∈ (drop config header round limit state).votes → vote ∈ state.votes := by
    intro limit state hvote
    unfold drop at hvote
    split at hvote
    · exact List.mem_of_mem_filter hvote
    · exact hvote
  unfold poll at h
  simp only at h
  split at h
  · rcases List.mem_append.mp h with h | h
    · exact .inl (hauthorize _ _ (hdrop _ _ h))
    · exact .inr (List.mem_singleton.mp h)
  · exact .inl (hauthorize _ _ (hdrop _ _ h))

theorem mem_ballotResult {signers : List Address} {votes : List CliqueVote} {vote : CliqueVote}
    (h : vote ∈ (ballotResult config header signers votes).1) :
    vote ∈ votes ∨ vote = latestVote config header := by
  unfold ballotResult pollResult at h
  split at h
  · exact .inl h
  split at h
  · exact .inl h
  simp only at h
  split at h
  · exact mem_poll h
  · rcases mem_poll h with h | h
    · exact mem_poll h
    · exact .inr h

theorem recent_append (front back : List CliqueSignerState) :
    recent number (front ++ back) = recent number front ++ recent number back :=
  List.filter_append ..

theorem recent_singleton (hrecent : (last.blockNumber : Int) ≥
    number - CLIQUE_SIGNER_HISTORY_BLOCK_LIMIT) : recent number [last] = [last] := by
  simp only [recent]
  rw [List.filter_cons_of_pos (by simpa using hrecent), List.filter_nil]

/-- New signers, as long as the last change is in the history. -/
theorem built_changed {before : CliqueConsensus} {votes : List CliqueVote} {signers : List Address}
    (hstates : before.signerStates = init ++ [last]) (hascending : Ascending (init ++ [last]))
    (hlast : last.blockNumber < header.number)
    (hrecent : (last.blockNumber : Int) ≥
      before.lastBlockNumber.getD 0 - CLIQUE_SIGNER_HISTORY_BLOCK_LIMIT)
    (hresult : ballotResult config header last.signers before.votes = (votes, some signers)) :
    ∃ after, before.cliqueBuildSnapshots config header = .ok after ∧
      after.signerStates = recent (before.lastBlockNumber.getD 0) init ++ [last] ++
        [{ blockNumber := header.number, signers := signers }] ∧
      after.votes = votes ∧
      after.blockSigners = signersAfter config header last.signers before.blockSigners := by
  unfold ballotResult at hresult
  unfold cliqueBuildSnapshots
  split at hresult
  next hepoch => cases hresult
  next hepoch =>
    obtain ⟨voted, hvoted, hsame, hrest⟩ :=
      cliqueUpdateVotes_of_last config hstates hascending hlast
    rw [hresult] at hrest
    obtain ⟨hvotes, hsignerStates⟩ := hrest
    rw [recent_append, recent_singleton hrecent] at hsignerStates
    obtain ⟨after, hafter, hstates', hvotes', hsigners⟩ :=
      cliqueUpdateLatestBlockSigners_of_active config
        (cliqueActiveSigners_of_new hsignerStates hlast (le_refl header.number)) (by omega)
    simp only [hepoch, hvoted, hafter, bind, Except.bind]
    rw [hsame] at hsigners
    exact ⟨after, rfl, hstates'.trans hsignerStates, hvotes'.trans hvotes, hsigners⟩

/-- When the last change is no longer in the history, no signers are found for the block of the
new change. -/
theorem built_throws {before : CliqueConsensus} {votes : List CliqueVote} {signers : List Address}
    (hstates : before.signerStates = init ++ [last]) (hascending : Ascending (init ++ [last]))
    (hlast : last.blockNumber < header.number)
    (hrecent : ¬ (last.blockNumber : Int) ≥
      before.lastBlockNumber.getD 0 - CLIQUE_SIGNER_HISTORY_BLOCK_LIMIT)
    (hresult : ballotResult config header last.signers before.votes = (votes, some signers)) :
    before.cliqueBuildSnapshots config header =
      .error s!"Could not load signers for block {header.number}" := by
  unfold ballotResult at hresult
  unfold cliqueBuildSnapshots
  split at hresult
  next hepoch => cases hresult
  next hepoch =>
    obtain ⟨voted, hvoted, hsame, hrest⟩ :=
      cliqueUpdateVotes_of_last config hstates hascending hlast
    rw [hresult] at hrest
    obtain ⟨hvotes, hsignerStates⟩ := hrest
    have hnone : recent (before.lastBlockNumber.getD 0) (init ++ [last]) = [] := by
      apply List.filter_eq_nil_iff.mpr
      intro state hstate
      rw [List.mem_append, List.mem_singleton] at hstate
      simp only [decide_eq_true_eq]
      rcases hstate with hstate | rfl
      · have := hascending.lt_last state hstate
        omega
      · exact hrecent
    rw [hnone, List.nil_append] at hsignerStates
    have hnumber : header.number ≠ 0 := by omega
    simp [hepoch, hvoted, bind, Except.bind, cliqueUpdateLatestBlockSigners, hnumber,
      cliqueSignerLimit, cliqueActiveSigners, hsignerStates]

theorem lastBlockNumber_signersAfter {signers : List Address}
    {blockSigners : List CliqueBlockSigner} (hnumber : header.number ≠ 0)
    (hsigners : self.blockSigners = signersAfter config header signers blockSigners) :
    self.lastBlockNumber = some header.number := by
  have hlast : self.blockSigners.getLast? = some (blockSigner config header) := by
    rw [hsigners, signersAfter, Window.getLast?_rtake (Nat.succ_ne_zero _),
      List.getLast?_append_of_ne_nil _ (List.cons_ne_nil _ _), List.getLast?_singleton]
  simp only [lastBlockNumber, hlast, blockSigner, hnumber, if_false]

namespace AtTip

variable {chain : List CliqueHeader} {ancestor : CliqueHeader}

theorem cliqueActiveSigners (h : AtTip tip init last self) (hnumber : tip < number) :
    self.cliqueActiveSigners number = .ok last.signers :=
  cliqueActiveSigners_of_last h.states (lt_of_le_of_lt h.last_le hnumber)

variable (config) in
theorem deleted (h : AtTip tip init last self) :
    ∃ before, self.cliqueDeleteSnapshots config (tip + 1) = .ok before ∧
      AtTip tip (recent tip init) last before ∧
      before.votes = recentVotes config tip self.votes ∧
      before.blockSigners = self.blockSigners := by
  obtain ⟨before, hdelete, hstates, hvotes, hsigners⟩ := cliqueDeleteSnapshots_of_last config
    h.states h.ascending (Nat.le_succ_of_le h.last_le)
  have hkept : self.votes.filter (fun vote => vote.blockNumber ≤ tip + 1) = self.votes := by
    apply List.filter_eq_self.mpr
    intro vote hvote
    exact decide_eq_true (Nat.le_succ_of_le (h.votes_le vote hvote))
  have hall : self.blockSigners.filter (fun signer => signer.blockNumber ≤ tip + 1)
      = self.blockSigners := by
    apply List.filter_eq_self.mpr
    intro signer hsigner
    exact decide_eq_true (Nat.le_succ_of_le (h.signers_le signer hsigner))
  rw [hkept, h.lastBlockNumber] at hvotes
  rw [hall] at hsigners
  rw [h.lastBlockNumber] at hstates
  have hlastBlock : before.lastBlockNumber = self.lastBlockNumber := by
    simp only [CliqueConsensus.lastBlockNumber, hsigners]
  refine ⟨before, hdelete, ?_, hvotes, hsigners⟩
  exact
    { states := hstates
      ascending := h.ascending.sublist (List.Sublist.append List.filter_sublist (.refl _))
      last_le := h.last_le
      votes_le := fun vote hvote => h.votes_le vote (List.mem_of_mem_filter (hvotes ▸ hvote))
      signers_le := hsigners ▸ h.signers_le
      signers_nil := hsigners ▸ h.signers_nil
      lastBlockNumber := hlastBlock ▸ h.lastBlockNumber }

/-- The snapshots with the entry of a next block. -/
theorem next {before after : CliqueConsensus} {init' : List CliqueSignerState}
    {last' : CliqueSignerState} {signers : List Address} (h : AtTip tip init last before)
    (hnumber : header.number = tip + 1) (hstates : after.signerStates = init' ++ [last'])
    (hascending : Ascending (init' ++ [last'])) (hlast : last'.blockNumber ≤ tip + 1)
    (hvotes : ∀ vote ∈ after.votes, vote ∈ before.votes ∨ vote = latestVote config header)
    (hsigners : after.blockSigners = signersAfter config header signers before.blockSigners) :
    AtTip (tip + 1) init' last' after where
  states := hstates
  ascending := hascending
  last_le := hlast
  votes_le := by
    rintro vote hvote
    rcases hvotes vote hvote with hvote | rfl
    · exact Nat.le_succ_of_le (h.votes_le vote hvote)
    · exact le_of_eq hnumber
  signers_le := by
    rintro signer hsigner
    rw [hsigners] at hsigner
    rcases List.mem_append.mp (Window.mem_of_mem_rtake hsigner) with hsigner | hsigner
    · exact Nat.le_succ_of_le (h.signers_le signer hsigner)
    · rw [List.mem_singleton.mp hsigner]
      exact le_of_eq hnumber
  signers_nil := by
    have hne : after.blockSigners ≠ [] := by
      rw [hsigners, signersAfter, ne_eq, Window.rtake_eq_nil]
      simp
    simp [hne]
  lastBlockNumber := by
    rw [lastBlockNumber_signersAfter (by omega) hsigners, Option.getD_some, hnumber]

theorem built_none {votes : List CliqueVote} (h : AtTip tip init last self)
    (hnumber : header.number = tip + 1)
    (hresult : ballotResult config header last.signers self.votes = (votes, none)) :
    ∃ after, self.cliqueBuildSnapshots config header = .ok after ∧ AtTip (tip + 1) init last after ∧
      after.votes = (if config.cliqueIsEpochTransition header then votes
        else recentVotes config tip votes) ∧
      after.blockSigners = signersAfter config header last.signers self.blockSigners := by
  have hlast : last.blockNumber < header.number := by
    have := h.last_le
    omega
  obtain ⟨after, hbuilt, hstates, hvotes, hsigners⟩ :=
    built_unchanged h.states h.ascending hlast hresult
  rw [h.lastBlockNumber] at hvotes
  refine ⟨after, hbuilt, ?_, hvotes, hsigners⟩
  apply h.next hnumber hstates h.ascending (Nat.le_succ_of_le h.last_le) _ hsigners
  rintro vote hvote
  have hmem : vote ∈ (ballotResult config header last.signers self.votes).1 := by
    rw [hresult]
    rw [hvotes] at hvote
    split at hvote
    · exact hvote
    · exact List.mem_of_mem_filter hvote
  exact mem_ballotResult hmem

theorem built_some {votes : List CliqueVote} {signers : List Address}
    (h : AtTip tip init last self) (hnumber : header.number = tip + 1)
    (hrecent : (last.blockNumber : Int) ≥ tip - CLIQUE_SIGNER_HISTORY_BLOCK_LIMIT)
    (hresult : ballotResult config header last.signers self.votes = (votes, some signers)) :
    ∃ after, self.cliqueBuildSnapshots config header = .ok after ∧
      AtTip (tip + 1) (recent tip init ++ [last])
        { blockNumber := header.number, signers := signers } after ∧
      after.votes = votes ∧
      after.blockSigners = signersAfter config header last.signers self.blockSigners := by
  have hlast : last.blockNumber < header.number := by
    have := h.last_le
    omega
  rw [← h.lastBlockNumber] at hrecent
  obtain ⟨after, hbuilt, hstates, hvotes, hsigners⟩ :=
    built_changed h.states h.ascending hlast hrecent hresult
  rw [h.lastBlockNumber] at hstates
  refine ⟨after, hbuilt, ?_, hvotes, hsigners⟩
  have hascending : Ascending (recent tip init ++ [last]) :=
    h.ascending.sublist (List.Sublist.append List.filter_sublist (.refl _))
  apply h.next hnumber hstates _ (le_of_eq hnumber) _ hsigners
  · apply hascending.concat
    rintro state hstate
    rcases List.mem_append.mp hstate with hstate | hstate
    · exact lt_trans (hascending.lt_last state hstate) hlast
    · rw [List.mem_singleton.mp hstate]
      exact hlast
  · rintro vote hvote
    have hmem : vote ∈ (ballotResult config header last.signers self.votes).1 := by
      rw [hresult]
      exact hvotes ▸ hvote
    exact mem_ballotResult hmem

theorem built_ok {after : CliqueConsensus} (h : AtTip tip init last self)
    (hnumber : header.number = tip + 1)
    (hok : self.cliqueBuildSnapshots config header = .ok after) :
    ∃ init' last', AtTip (tip + 1) init' last' after ∧
      after.blockSigners = signersAfter config header last.signers self.blockSigners := by
  cases hresult : ballotResult config header last.signers self.votes with
  | mk votes signers =>
    cases signers with
    | none =>
      obtain ⟨after', hbuilt, hafter, -, hsigners⟩ := h.built_none hnumber hresult
      cases hok.symm.trans hbuilt
      exact ⟨_, _, hafter, hsigners⟩
    | some signers =>
      by_cases hrecent : (last.blockNumber : Int) ≥ tip - CLIQUE_SIGNER_HISTORY_BLOCK_LIMIT
      · obtain ⟨after', hbuilt, hafter, -, hsigners⟩ := h.built_some hnumber hrecent hresult
        cases hok.symm.trans hbuilt
        exact ⟨_, _, hafter, hsigners⟩
      · have hlast : last.blockNumber < header.number := by
          have := h.last_le
          omega
        rw [← h.lastBlockNumber] at hrecent
        have hthrows := built_throws h.states h.ascending hlast hrecent hresult
        cases hok.symm.trans hthrows

end AtTip

/-- `newBlock` for a block on the block `tip`, which is the head. -/
def extend (config : CliqueConfig) (tip : Nat) (self : CliqueConsensus) (header : CliqueHeader) :
    Except String CliqueConsensus := do
  let self ← self.cliqueDeleteSnapshots config (tip + 1)
  self.cliqueBuildSnapshots config header

theorem newBlock_eq_extend {chain : List CliqueHeader} {parent : CliqueHeader}
    (hnumber : header.number = parent.number + 1)
    (hcanonical : getCanonicalHeader chain header.number = .ok header) :
    self.newBlock config chain header (some parent) = self.extend config parent.number header := by
  rw [newBlock_eq_foldlM [] ⟨hnumber, trivial⟩ (by simpa using hcanonical)]
  simp only [extend, List.nil_append, List.foldlM_cons, List.foldlM_nil, bind_pure]

/-- `newBlock` for each of the blocks on the block `tip`. -/
def feed (config : CliqueConfig) : Nat → List CliqueHeader → CliqueConsensus →
    Except String CliqueConsensus
  | _, [], self => .ok self
  | tip, header :: headers, self => do
    let self ← self.extend config tip header
    feed config (tip + 1) headers self

theorem feed_append (front back : List CliqueHeader) :
    feed config tip (front ++ back) self =
      feed config tip front self >>= feed config (tip + front.length) back := by
  induction front generalizing tip self with
  | nil => rfl
  | cons header front ih =>
    have hlength : tip + (front.length + 1) = tip + 1 + front.length := by omega
    simp only [List.cons_append, feed, List.length_cons, hlength, bind_assoc]
    congr 1
    funext after
    exact ih

/-- The block signers after blocks for which these signers are active. -/
def signersAfterAll (config : CliqueConfig) (signers : List Address) (headers : List CliqueHeader)
    (blockSigners : List CliqueBlockSigner) : List CliqueBlockSigner :=
  headers.foldl (fun blockSigners header => signersAfter config header signers blockSigners)
    blockSigners

theorem signersAfterAll_append {signers : List Address} (front back : List CliqueHeader)
    (blockSigners : List CliqueBlockSigner) :
    signersAfterAll config signers (front ++ back) blockSigners =
      signersAfterAll config signers back (signersAfterAll config signers front blockSigners) :=
  List.foldl_append

theorem signersAfterAll_of_ne_nil {signers : List Address} {headers : List CliqueHeader}
    (hne : headers ≠ []) (blockSigners : List CliqueBlockSigner) :
    signersAfterAll config signers headers blockSigners =
      (blockSigners ++ headers.map (blockSigner config)).rtake (signers.length / 2 + 1) := by
  induction headers generalizing blockSigners with
  | nil => exact absurd rfl hne
  | cons header headers ih =>
    cases headers with
    | nil => rfl
    | cons second headers =>
      have hrest := ih (List.cons_ne_nil second headers)
        (signersAfter config header signers blockSigners)
      rw [signersAfterAll, List.foldl_cons]
      rw [signersAfterAll] at hrest
      rw [hrest, signersAfter, Window.rtake_rtake_append, List.map_cons (l := second :: headers),
        List.append_assoc, List.singleton_append]

/-- The states before the last one, after the blocks on the block `tip`. -/
def recentAfter : Nat → List CliqueHeader → List CliqueSignerState → List CliqueSignerState
  | _, [], init => init
  | tip, _ :: headers, init => recentAfter (tip + 1) headers (recent tip init)

theorem recent_recent (number number' : Nat) (states : List CliqueSignerState) :
    recent number' (recent number states) = recent (max number number') states := by
  simp only [recent, List.filter_filter]
  apply List.filter_congr
  intro state _
  apply Bool.eq_iff_iff.mpr
  simp only [Bool.and_eq_true, decide_eq_true_eq]
  omega

theorem recentAfter_of_ne_nil {headers : List CliqueHeader} (hne : headers ≠ []) :
    recentAfter tip headers init = recent (tip + headers.length - 1) init := by
  induction headers generalizing tip init with
  | nil => exact absurd rfl hne
  | cons header headers ih =>
    cases headers with
    | nil => rfl
    | cons second headers =>
      rw [recentAfter, ih (List.cons_ne_nil second headers), recent_recent]
      congr 1
      simp only [List.length_cons]
      omega

/-- A block that casts no vote. -/
def CastsNoVote (config : CliqueConfig) (header : CliqueHeader) : Prop :=
  config.cliqueIsEpochTransition header ∨ header.coinbase = 0

theorem CastsNoVote.ballotResult_eq (h : CastsNoVote config header) (signers : List Address)
    (votes : List CliqueVote) : ballotResult config header signers votes = (votes, none) := by
  unfold ballotResult
  split
  · rfl
  · have hcoinbase : header.coinbase = 0 := by
      rcases h with h | h
      · contradiction
      · exact h
    rw [pollResult, if_pos hcoinbase]

/-- Blocks without votes leave the signers alone. -/
theorem built_quiet {headers : List CliqueHeader} (hstates : self.signerStates = init ++ [last])
    (hascending : Ascending (init ++ [last])) (hlast : last.blockNumber ≤ tip)
    (hlinked : Linked tip headers) (hquiet : ∀ header ∈ headers, CastsNoVote config header) :
    ∃ after, headers.foldlM (cliqueBuildSnapshots config) self = .ok after ∧
      after.signerStates = init ++ [last] ∧ (∀ vote ∈ after.votes, vote ∈ self.votes) ∧
      after.blockSigners = signersAfterAll config last.signers headers self.blockSigners := by
  induction headers generalizing tip self with
  | nil => exact ⟨self, rfl, hstates, fun vote h => h, rfl⟩
  | cons header headers ih =>
    have hresult := (hquiet header List.mem_cons_self).ballotResult_eq last.signers self.votes
    obtain ⟨built, hbuilt, hstates', hvotes, hsigners⟩ := built_unchanged hstates hascending
      (hlinked.1 ▸ Nat.lt_succ_of_le hlast) hresult
    obtain ⟨after, hafter, hstates'', hvotes', hsigners'⟩ := ih hstates' (Nat.le_succ_of_le hlast)
      hlinked.2 fun block hblock => hquiet block (List.mem_cons_of_mem _ hblock)
    refine ⟨after, ?_, hstates'', ?_, ?_⟩
    · rw [List.foldlM_cons, hbuilt]
      exact hafter
    · rintro vote hvote
      have hmem := hvotes' vote hvote
      rw [hvotes] at hmem
      split at hmem
      · exact hmem
      · exact List.mem_of_mem_filter hmem
    · rw [hsigners', hsigners]
      rfl

namespace AtTip

theorem feed_ok {headers : List CliqueHeader} {after : CliqueConsensus}
    (h : AtTip tip init last self) (hlinked : Linked tip headers)
    (hok : feed config tip headers self = .ok after) :
    (∃ init' last', AtTip (tip + headers.length) init' last' after) ∧
      ∀ signer ∈ after.blockSigners,
        signer ∈ self.blockSigners ++ headers.map (blockSigner config) := by
  induction headers generalizing tip init last self with
  | nil =>
    cases hok
    exact ⟨⟨init, last, h⟩, by simp⟩
  | cons header headers ih =>
    obtain ⟨before, hdelete, hbefore, -, hsame⟩ := h.deleted config
    simp only [feed, extend, hdelete, bind, Except.bind] at hok
    cases hbuilt : before.cliqueBuildSnapshots config header with
    | error e =>
      rw [hbuilt] at hok
      cases hok
    | ok built =>
      rw [hbuilt] at hok
      obtain ⟨init', last', hnext, hsigners⟩ := hbefore.built_ok hlinked.1 hbuilt
      have hlength : tip + (header :: headers).length = tip + 1 + headers.length := by
        simp only [List.length_cons]
        omega
      obtain ⟨htip, hfrom⟩ := ih hnext hlinked.2 hok
      rw [hlength]
      refine ⟨htip, ?_⟩
      rintro signer hsigner
      rcases List.mem_append.mp (hfrom signer hsigner) with hold | hrest
      · rw [hsigners, signersAfter] at hold
        have hmem := Window.mem_of_mem_rtake hold
        rw [hsame] at hmem
        rw [List.map_cons, List.append_cons]
        exact List.mem_append_left _ hmem
      · rw [List.map_cons, List.append_cons]
        exact List.mem_append_right _ hrest

theorem feed_quiet {headers : List CliqueHeader} (h : AtTip tip init last self)
    (hlinked : Linked tip headers) (hquiet : ∀ header ∈ headers, CastsNoVote config header) :
    ∃ after, feed config tip headers self = .ok after ∧
      AtTip (tip + headers.length) (recentAfter tip headers init) last after ∧
      after.blockSigners = signersAfterAll config last.signers headers self.blockSigners := by
  induction headers generalizing tip init self with
  | nil => exact ⟨self, rfl, h, rfl⟩
  | cons header headers ih =>
    obtain ⟨before, hdelete, hbefore, -, hsame⟩ := h.deleted config
    have hresult := (hquiet header List.mem_cons_self).ballotResult_eq last.signers before.votes
    obtain ⟨built, hbuilt, hnext, -, hsigners⟩ := hbefore.built_none hlinked.1 hresult
    obtain ⟨after, hafter, htip, hsigners'⟩ := ih hnext hlinked.2 fun block hblock =>
      hquiet block (List.mem_cons_of_mem _ hblock)
    have hlength : tip + (header :: headers).length = tip + 1 + headers.length := by
      simp only [List.length_cons]
      omega
    rw [hlength]
    refine ⟨after, ?_, htip, ?_⟩
    · simp only [feed, extend, hdelete, hbuilt, bind, Except.bind]
      exact hafter
    · rw [hsigners', hsigners, hsame]
      rfl

end AtTip

end CliqueConsensus

end EthereumJS
