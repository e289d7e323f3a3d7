import EthereumJS.Blockchain.CliqueReorg
import EthereumJS.Voting.Ballots

/-! # Clique votes against an election

An election counts the latest ballots of the signers since the last epoch transition, or since the
last change of the candidate. The active signers are those of the election as long as no outdated
vote is counted, no majority votes for what is the case already, and no change comes more than 200
blocks after the one before it.
-/

namespace EthereumJS

open Voting

abbrev CliqueBallot := Ballot Address Address Bytes

structure Election where
  signers : List Address
  box : List CliqueBallot

def CliqueVote.ballot (vote : CliqueVote) : CliqueBallot :=
  { voter := vote.signer, candidate := vote.beneficiary, choice := vote.nonce }

namespace Election

variable (config : CliqueConfig)

/-- The vote that changes something for a candidate. -/
def usefulNonce (signers : List Address) (candidate : Address) : Bytes :=
  if candidate ∈ signers then CLIQUE_NONCE_DROP else CLIQUE_NONCE_AUTH

def uselessNonce (signers : List Address) (candidate : Address) : Bytes :=
  if candidate ∈ signers then CLIQUE_NONCE_AUTH else CLIQUE_NONCE_DROP

/-- The box with the ballot of a header. -/
def withBallot (self : Election) (header : CliqueHeader) : List CliqueBallot :=
  self.box ++ [(CliqueConsensus.latestVote config header).ballot]

/-- More than half of the signers want the beneficiary of the header in, or out. -/
def Decides (self : Election) (header : CliqueHeader) : Prop :=
  Majority self.signers (self.withBallot config header) header.coinbase
    (usefulNonce self.signers header.coinbase)

instance (self : Election) (header : CliqueHeader) : Decidable (self.Decides config header) :=
  inferInstanceAs (Decidable (Majority _ _ _ _))

def change (signers : List Address) (candidate : Address) : List Address :=
  if candidate ∈ signers then signers.filter fun signer => signer ≠ candidate
  else signers.orderedInsert (· ≤ ·) candidate

/-- After a change the ballots on the candidate are void, and those of a removed signer. -/
def discard (signers : List Address) (candidate : Address) (box : List CliqueBallot) :
    List CliqueBallot :=
  box.filter fun ballot =>
    ballot.candidate ≠ candidate ∧ (candidate ∈ signers → ballot.voter ≠ candidate)

def step (self : Election) (header : CliqueHeader) : Election :=
  if config.cliqueIsEpochTransition header then { self with box := [] }
  else if header.coinbase = 0 then self
  else if self.Decides config header then
    { signers := change self.signers header.coinbase
      box := discard self.signers header.coinbase (self.withBallot config header) }
  else { self with box := self.withBallot config header }

/-- The election after the blocks of a chain. -/
def after (signers : List Address) (chain : List CliqueHeader) : Election :=
  chain.foldl (step config) { signers := signers, box := [] }

end Election

namespace CliqueConsensus

/-- What keeps a step of the votes right. -/
structure Meets (config : CliqueConfig) (consensus : CliqueConsensus) (election : Election)
    (header : CliqueHeader) : Prop where
  /-- Only the latest standing votes of the others are counted. -/
  counted : ∀ voter ∈ votersFor consensus.votes (config.lastEpochBlockNumber header.number)
      (config.cliqueSigner header) header.coinbase
      (Election.usefulNonce election.signers header.coinbase),
    latest election.box voter header.coinbase =
      some (Election.usefulNonce election.signers header.coinbase)
  /-- No majority votes for what is the case already. -/
  useless : numBeneficiaryVotes config header 2
      (Election.uselessNonce election.signers header.coinbase) consensus.votes ≤
    election.signers.length / 2
  /-- A change comes while the one before it is in the history. -/
  inTime : election.Decides config header → ∃ state ∈ consensus.signerStates,
    header.number ≤ state.blockNumber + CLIQUE_SIGNER_HISTORY_BLOCK_LIMIT + 1

variable {config : CliqueConfig} {self : CliqueConsensus} {header : CliqueHeader}

theorem mem_votersFor {votes : List CliqueVote} {start : Nat} {signer beneficiary voter : Address}
    {nonce : Bytes} :
    voter ∈ votersFor votes start signer beneficiary nonce ↔ ∃ vote ∈ votes,
      vote.blockNumber ≥ start ∧ vote.signer ≠ signer ∧ vote.beneficiary = beneficiary ∧
        vote.nonce = nonce ∧ vote.signer = voter := by
  have hpush : votersFor votes start signer beneficiary nonce =
      (votes.filter fun vote => vote.blockNumber ≥ start ∧ vote.signer ≠ signer ∧
        vote.beneficiary = beneficiary ∧ vote.nonce = nonce).foldl (push CliqueVote.signer) [] :=
    rfl
  rw [hpush, mem_foldl_push]
  simp [and_assoc]

theorem nodup_votersFor (votes : List CliqueVote) (start : Nat) (signer beneficiary : Address)
    (nonce : Bytes) : (votersFor votes start signer beneficiary nonce).Nodup :=
  nodup_foldl_push CliqueVote.signer List.nodup_nil

theorem votersFor_congr {votes votes' : List CliqueVote} {start : Nat}
    {signer beneficiary : Address} {nonce : Bytes}
    (h : votes.filter (fun vote => vote.blockNumber ≥ start ∧ vote.signer ≠ signer ∧
        vote.beneficiary = beneficiary ∧ vote.nonce = nonce) =
      votes'.filter fun vote => vote.blockNumber ≥ start ∧ vote.signer ≠ signer ∧
        vote.beneficiary = beneficiary ∧ vote.nonce = nonce) :
    votersFor votes start signer beneficiary nonce =
      votersFor votes' start signer beneficiary nonce := by
  simp only [votersFor, h]

/-- The votes of the others, and not the vote of the header. -/
theorem votersFor_latestVote (votes : List CliqueVote) (start : Nat) (beneficiary : Address)
    (nonce : Bytes) :
    votersFor (votes ++ [latestVote config header]) start (config.cliqueSigner header) beneficiary
      nonce = votersFor votes start (config.cliqueSigner header) beneficiary nonce := by
  apply votersFor_congr
  simp [List.filter_append, latestVote]

/-- Votes that the history lacks are of earlier epochs. -/
theorem votersFor_recentVotes {number start : Nat} (votes : List CliqueVote)
    (hstart : config.lastEpochBlockNumber number ≤ start) (signer beneficiary : Address)
    (nonce : Bytes) :
    votersFor (recentVotes config number votes) start signer beneficiary nonce =
      votersFor votes start signer beneficiary nonce := by
  apply votersFor_congr
  rw [recentVotes, List.filter_filter]
  apply List.filter_congr
  intro vote _
  apply Bool.eq_iff_iff.mpr
  simp only [Bool.and_eq_true, decide_eq_true_eq]
  constructor
  · rintro ⟨hvote, -⟩
    exact hvote
  · rintro hvote
    refine ⟨hvote, ?_⟩
    have := hvote.1
    omega

/-- The votes that are left after a change. -/
def discardVotes (signers : List Address) (candidate : Address) (votes : List CliqueVote) :
    List CliqueVote :=
  votes.filter fun vote =>
    vote.beneficiary ≠ candidate ∧ (candidate ∈ signers → vote.signer ≠ candidate)

theorem votersFor_discardVotes (signers : List Address) (votes : List CliqueVote) (start : Nat)
    (signer candidate : Address) (nonce : Bytes) :
    votersFor (discardVotes signers candidate votes) start signer candidate nonce = [] := by
  have hnone : (discardVotes signers candidate votes).filter (fun vote =>
      vote.blockNumber ≥ start ∧ vote.signer ≠ signer ∧ vote.beneficiary = candidate ∧
        vote.nonce = nonce) = [] := by
    apply List.filter_eq_nil_iff.mpr
    intro vote hvote
    have hother := (of_decide_eq_true (List.mem_filter.mp hvote).2).1
    intro hcounted
    exact hother (of_decide_eq_true hcounted).2.2.1
  simp only [votersFor, hnone, List.foldl_nil]

theorem insertionSort_concat {signers : List Address} (hascending : signers.Pairwise (· < ·))
    (candidate : Address) :
    (signers ++ [candidate]).insertionSort (· ≤ ·) = signers.orderedInsert (· ≤ ·) candidate := by
  apply List.Perm.eq_of_pairwise' (r := (· ≤ ·))
  · exact List.pairwise_insertionSort _ _
  · exact (hascending.imp le_of_lt).orderedInsert _ _
  · have hfront := (List.perm_insertionSort (· ≤ ·) (signers ++ [candidate])).trans
      (List.perm_append_singleton candidate signers)
    exact hfront.trans (List.perm_orderedInsert _ _ _).symm

variable (config header) in
/-- With its votes discarded a candidate has at most the vote of the header. -/
theorem numBeneficiaryVotes_discardVotes_le (round : Nat) (nonce : Bytes) (signers : List Address)
    (votes : List CliqueVote) :
    numBeneficiaryVotes config header round nonce (discardVotes signers header.coinbase votes) ≤
      numBeneficiaryVotes config header round nonce votes := by
  simp only [numBeneficiaryVotes, votersFor_discardVotes, List.length_nil]
  omega

/-- A round in which only the votes for a change can have a majority. -/
theorem poll_of_useless (round : Nat) {signers : List Address} (votes : List CliqueVote)
    (hascending : signers.Pairwise (· < ·))
    (huseless : numBeneficiaryVotes config header round
      (Election.uselessNonce signers header.coinbase) votes ≤ signers.length / 2) :
    poll config header round signers votes =
      if numBeneficiaryVotes config header round (Election.usefulNonce signers header.coinbase)
          votes ≥ signers.length / 2 + 1 then
        { consensus := true
          activeSigners := Election.change signers header.coinbase
          votes := discardVotes signers header.coinbase votes ++
            if round = 1 then [latestVote config header] else [] }
      else
        { consensus := false
          activeSigners := signers
          votes := votes ++ if round = 1 then [latestVote config header] else [] } := by
  have hround : ∀ state : VoteRound,
      (if round = 1 then { state with votes := state.votes ++ [latestVote config header] }
        else state) = { state with
          votes := state.votes ++ if round = 1 then [latestVote config header] else [] } := by
    intro state
    split
    · rfl
    · rw [List.append_nil]
  have hlimit : ∀ nonce votes',
      numBeneficiaryVotes config header round nonce votes' ≤ signers.length / 2 →
      ¬ numBeneficiaryVotes config header round nonce votes' ≥ signers.length / 2 + 1 := by
    intros
    omega
  simp only [poll, hround]
  by_cases hmem : header.coinbase ∈ signers
  · have huseless' : numBeneficiaryVotes config header round CLIQUE_NONCE_AUTH votes
        ≤ signers.length / 2 := by simpa only [Election.uselessNonce, if_pos hmem] using huseless
    have hdiscard : votes.filter (fun vote =>
          vote.signer ≠ header.coinbase ∧ vote.beneficiary ≠ header.coinbase)
        = discardVotes signers header.coinbase votes := by
      simp [discardVotes, hmem, and_comm]
    simp only [authorize, hlimit _ _ huseless', if_false, drop, Election.usefulNonce, hmem, if_true,
      hdiscard, Election.change]
    split
    · rfl
    · rfl
  · have huseless' : numBeneficiaryVotes config header round CLIQUE_NONCE_DROP votes
        ≤ signers.length / 2 := by simpa only [Election.uselessNonce, if_neg hmem] using huseless
    have hdiscard : votes.filter (fun vote => vote.beneficiary ≠ header.coinbase)
        = discardVotes signers header.coinbase votes := by
      simp [discardVotes, hmem]
    have hdrop := le_trans (numBeneficiaryVotes_discardVotes_le config header round
      CLIQUE_NONCE_DROP signers votes) huseless'
    simp only [authorize, drop, Election.usefulNonce, hmem, if_false, hdiscard, Election.change,
      insertionSort_concat hascending]
    split
    · simp only [hlimit _ _ hdrop, if_false]
    · simp only [hlimit _ _ huseless', if_false]

variable (config header) in
theorem numBeneficiaryVotes_le (round : Nat) (nonce : Bytes) (votes : List CliqueVote) :
    numBeneficiaryVotes config header round nonce votes ≤
      numBeneficiaryVotes config header 2 nonce votes := by
  simp only [numBeneficiaryVotes, true_and]
  split
  next h => simp [h.2]
  next h => exact Nat.add_le_add_left (Nat.zero_le _) _

theorem numBeneficiaryVotes_latestVote (round : Nat) (nonce : Bytes) (votes : List CliqueVote) :
    numBeneficiaryVotes config header round nonce (votes ++ [latestVote config header]) =
      numBeneficiaryVotes config header round nonce votes := by
  simp only [numBeneficiaryVotes, votersFor_latestVote]

theorem discardVotes_latestVote (signers : List Address) (votes : List CliqueVote) :
    discardVotes signers header.coinbase (votes ++ [latestVote config header]) =
      discardVotes signers header.coinbase votes := by
  simp [discardVotes, List.filter_append, latestVote]

theorem pollResult_of_useless {signers : List Address} {votes : List CliqueVote}
    (hcoinbase : header.coinbase ≠ 0) (hascending : signers.Pairwise (· < ·))
    (huseless : numBeneficiaryVotes config header 2
      (Election.uselessNonce signers header.coinbase) votes ≤ signers.length / 2) :
    (numBeneficiaryVotes config header 2 (Election.usefulNonce signers header.coinbase) votes
        ≥ signers.length / 2 + 1 →
      ∃ votes', pollResult config header signers votes =
          (votes', some (Election.change signers header.coinbase)) ∧
        ∀ vote ∈ discardVotes signers header.coinbase votes, vote ∈ votes') ∧
    (¬ numBeneficiaryVotes config header 2 (Election.usefulNonce signers header.coinbase) votes
        ≥ signers.length / 2 + 1 →
      pollResult config header signers votes = (votes ++ [latestVote config header], none)) := by
  have hfirst := poll_of_useless 1 votes hascending
    (le_trans (numBeneficiaryVotes_le config header 1 _ votes) huseless)
  have hsecond := poll_of_useless 2 (votes ++ [latestVote config header]) hascending
    (by rw [numBeneficiaryVotes_latestVote]; exact huseless)
  rw [numBeneficiaryVotes_latestVote, discardVotes_latestVote] at hsecond
  have hle := numBeneficiaryVotes_le config header 1
    (Election.usefulNonce signers header.coinbase) votes
  constructor
  · intro hmajority
    rw [if_pos hmajority] at hsecond
    by_cases hround : numBeneficiaryVotes config header 1
        (Election.usefulNonce signers header.coinbase) votes ≥ signers.length / 2 + 1
    · rw [if_pos hround] at hfirst
      simp only [pollResult, hcoinbase, if_false, hfirst, if_true]
      exact ⟨_, rfl, fun vote hvote => List.mem_append_left _ hvote⟩
    · rw [if_neg hround] at hfirst
      simp only [pollResult, hcoinbase, if_false, hfirst, if_true, hsecond, Bool.false_eq_true]
      exact ⟨_, rfl, fun vote hvote => List.mem_append_left _ hvote⟩
  · intro hmajority
    rw [if_neg hmajority] at hsecond
    rw [if_neg (by omega)] at hfirst
    simp only [pollResult, hcoinbase, if_false, hfirst, if_true, hsecond, Bool.false_eq_true]
    simp

theorem decides_iff {election : Election} {votes : List CliqueVote}
    (hascending : election.signers.Pairwise (· < ·))
    (hsealed : config.cliqueSigner header ∈ election.signers)
    (hvoters : ∀ ballot ∈ election.box, ballot.voter ∈ election.signers)
    (hheld : ∀ ballot ∈ election.box, ∃ vote ∈ votes, vote.ballot = ballot ∧
      config.lastEpochBlockNumber header.number ≤ vote.blockNumber)
    (hcounted : ∀ voter ∈ votersFor votes (config.lastEpochBlockNumber header.number)
        (config.cliqueSigner header) header.coinbase
        (Election.usefulNonce election.signers header.coinbase),
      latest election.box voter header.coinbase =
        some (Election.usefulNonce election.signers header.coinbase)) :
    election.Decides config header ↔
      numBeneficiaryVotes config header 2 (Election.usefulNonce election.signers header.coinbase)
        votes ≥ election.signers.length / 2 + 1 := by
  have hnodup : election.signers.Nodup := hascending.imp ne_of_lt
  have hmem : ∀ voter, voter ∈ votersFor votes (config.lastEpochBlockNumber header.number)
        (config.cliqueSigner header) header.coinbase
        (Election.usefulNonce election.signers header.coinbase) ↔
      voter ≠ config.cliqueSigner header ∧ voter ∈ election.signers ∧
        latest election.box voter header.coinbase =
          some (Election.usefulNonce election.signers header.coinbase) := by
    intro voter
    constructor
    · intro hvoter
      have hlatest := hcounted voter hvoter
      obtain ⟨ballot, hballot, rfl, -⟩ := exists_mem_of_latest hlatest
      obtain ⟨vote, -, -, hother, -, -, hsigner⟩ := mem_votersFor.mp hvoter
      exact ⟨hsigner ▸ hother, hvoters ballot hballot, hlatest⟩
    · rintro ⟨hother, -, hlatest⟩
      obtain ⟨ballot, hballot, rfl, hcandidate, hchoice⟩ := exists_mem_of_latest hlatest
      obtain ⟨vote, hvote, rfl, hstart⟩ := hheld ballot hballot
      exact mem_votersFor.mpr ⟨vote, hvote, hstart, hother, hcandidate, hchoice, rfl⟩
  have hcount := length_supporters_concat (latestVote config header).ballot hnodup
    (nodup_votersFor votes (config.lastEpochBlockNumber header.number) (config.cliqueSigner header)
      header.coinbase (Election.usefulNonce election.signers header.coinbase)) hsealed hmem
  have hnumber : numBeneficiaryVotes config header 2
        (Election.usefulNonce election.signers header.coinbase) votes =
      (supporters election.signers (election.withBallot config header) header.coinbase
        (Election.usefulNonce election.signers header.coinbase)).length := by
    simp only [numBeneficiaryVotes, true_and]
    exact hcount.symm
  rw [hnumber, Election.Decides, Majority]
  omega

/-- The active signers are those of an election, whose ballots are among the votes. -/
structure Agrees (config : CliqueConfig) (tip : Nat) (init : List CliqueSignerState)
    (last : CliqueSignerState) (consensus : CliqueConsensus) (election : Election) : Prop where
  atTip : AtTip tip init last consensus
  signers : last.signers = election.signers
  ascending : election.signers.Pairwise (· < ·)
  voters : ∀ ballot ∈ election.box, ballot.voter ∈ election.signers
  held : ∀ ballot ∈ election.box, ∃ vote ∈ consensus.votes, vote.ballot = ballot ∧
    config.lastEpochBlockNumber tip ≤ vote.blockNumber

theorem lastEpochBlockNumber_succ {number : Nat} (h : (number + 1) % config.epoch ≠ 0) :
    config.lastEpochBlockNumber (number + 1) = config.lastEpochBlockNumber number := by
  have hdiv := Nat.succ_div_of_not_dvd (fun hdvd => h (Nat.mod_eq_zero_of_dvd hdvd))
  have hnext := Nat.div_add_mod (number + 1) config.epoch
  have hthis := Nat.div_add_mod number config.epoch
  simp only [CliqueConfig.lastEpochBlockNumber]
  rw [hdiv] at hnext
  omega

theorem pairwise_change {signers : List Address} (h : signers.Pairwise (· < ·))
    (candidate : Address) : (Election.change signers candidate).Pairwise (· < ·) := by
  unfold Election.change
  split
  next hmem => exact h.filter _
  next hmem =>
    have hsorted := (h.imp le_of_lt).orderedInsert candidate signers
    have hnodup : (signers.orderedInsert (· ≤ ·) candidate).Nodup :=
      (List.perm_orderedInsert _ _ _).nodup_iff.mpr (List.nodup_cons.mpr ⟨hmem, h.imp ne_of_lt⟩)
    exact (hsorted.and hnodup).imp fun hpair => lt_of_le_of_ne hpair.1 hpair.2

theorem change_ne (signers : List Address) (candidate : Address) :
    Election.change signers candidate ≠ signers := by
  unfold Election.change
  split
  next hmem =>
    intro heq
    rw [← heq, List.mem_filter, decide_eq_true_eq] at hmem
    exact hmem.2 rfl
  next hmem =>
    intro heq
    have hlength := congrArg List.length heq
    rw [List.orderedInsert_length] at hlength
    omega

theorem mem_recentVotes {number : Nat} {votes : List CliqueVote} {vote : CliqueVote}
    (hvote : vote ∈ votes) (hstart : config.lastEpochBlockNumber number ≤ vote.blockNumber) :
    vote ∈ recentVotes config number votes := by
  apply List.mem_filter.mpr
  refine ⟨hvote, decide_eq_true ?_⟩
  omega

theorem mem_change {signers : List Address} {candidate voter : Address} (hvoter : voter ∈ signers)
    (hkept : candidate ∈ signers → voter ≠ candidate) :
    voter ∈ Election.change signers candidate := by
  unfold Election.change
  split
  next hmem => exact List.mem_filter.mpr ⟨hvoter, decide_eq_true (hkept hmem)⟩
  next hmem => exact (List.mem_orderedInsert _).mpr (.inr hvoter)

namespace Agrees

variable {tip : Nat} {init : List CliqueSignerState} {last : CliqueSignerState}
  {election : Election}

/-- Every counted ballot is one of the recent votes. -/
theorem held_recent (h : Agrees config tip init last self election) :
    ∀ ballot ∈ election.box, ∃ vote ∈ recentVotes config tip self.votes, vote.ballot = ballot ∧
      config.lastEpochBlockNumber tip ≤ vote.blockNumber := by
  intro ballot hballot
  obtain ⟨vote, hvote, heq, hstart⟩ := h.held ballot hballot
  exact ⟨vote, mem_recentVotes hvote hstart, heq, hstart⟩

theorem extend_none {votes : List CliqueVote} (h : Agrees config tip init last self election)
    (hnumber : header.number = tip + 1)
    (hresult : ballotResult config header last.signers (recentVotes config tip self.votes) =
      (votes, none)) :
    ∃ after, self.extend config tip header = .ok after ∧
      AtTip (tip + 1) (recent tip init) last after ∧
      after.votes = if config.cliqueIsEpochTransition header then votes
        else recentVotes config tip votes := by
  obtain ⟨before, hdelete, hbefore, hvotes, -⟩ := h.atTip.deleted config
  rw [← hvotes] at hresult
  obtain ⟨after, hbuilt, hafter, hvotes', -⟩ := hbefore.built_none hnumber hresult
  refine ⟨after, ?_, hafter, hvotes'⟩
  simp only [CliqueConsensus.extend, hdelete, bind, Except.bind, hbuilt]

theorem extend_some {votes : List CliqueVote} {signers : List Address}
    (h : Agrees config tip init last self election) (hnumber : header.number = tip + 1)
    (hrecent : (last.blockNumber : Int) ≥ tip - CLIQUE_SIGNER_HISTORY_BLOCK_LIMIT)
    (hresult : ballotResult config header last.signers (recentVotes config tip self.votes) =
      (votes, some signers)) :
    ∃ after init', self.extend config tip header = .ok after ∧
      AtTip (tip + 1) init' { blockNumber := header.number, signers := signers } after ∧
      after.votes = votes := by
  obtain ⟨before, hdelete, hbefore, hvotes, -⟩ := h.atTip.deleted config
  rw [← hvotes] at hresult
  obtain ⟨after, hbuilt, hafter, hvotes', -⟩ := hbefore.built_some hnumber hrecent hresult
  refine ⟨after, _, ?_, hafter, hvotes'⟩
  simp only [CliqueConsensus.extend, hdelete, bind, Except.bind, hbuilt]

/-- The votes stay in the list, but the ballots are void. -/
theorem extend_epoch (h : Agrees config tip init last self election)
    (hnumber : header.number = tip + 1) (hepoch : config.cliqueIsEpochTransition header) :
    ∃ after, self.extend config tip header = .ok after ∧
      Agrees config (tip + 1) (recent tip init) last after (election.step config header) := by
  obtain ⟨after, hextend, hafter, -⟩ :=
    h.extend_none hnumber (CastsNoVote.ballotResult_eq (.inl hepoch) _ _)
  refine ⟨after, hextend, hafter, ?_, ?_, ?_, ?_⟩
  all_goals simp only [Election.step, hepoch, if_true]
  · exact h.signers
  · exact h.ascending
  · simp
  · simp

theorem lastEpochBlockNumber_of_not_epoch (hnumber : header.number = tip + 1)
    (hepoch : ¬ config.cliqueIsEpochTransition header) :
    config.lastEpochBlockNumber (tip + 1) = config.lastEpochBlockNumber tip := by
  apply lastEpochBlockNumber_succ
  intro hzero
  exact hepoch (by simpa [CliqueConfig.cliqueIsEpochTransition, hnumber] using hzero)

theorem extend_silent (h : Agrees config tip init last self election)
    (hnumber : header.number = tip + 1) (hepoch : ¬ config.cliqueIsEpochTransition header)
    (hcoinbase : header.coinbase = 0) :
    ∃ after, self.extend config tip header = .ok after ∧
      Agrees config (tip + 1) (recent tip init) last after (election.step config header) := by
  have hstart := lastEpochBlockNumber_of_not_epoch hnumber hepoch
  obtain ⟨after, hextend, hafter, hvotes⟩ :=
    h.extend_none hnumber (CastsNoVote.ballotResult_eq (.inr hcoinbase) _ _)
  rw [if_neg hepoch] at hvotes
  refine ⟨after, hextend, hafter, ?_, ?_, ?_, ?_⟩
  all_goals simp only [Election.step, hepoch, hcoinbase, if_true, Bool.false_eq_true, if_false]
  · exact h.signers
  · exact h.ascending
  · exact h.voters
  · intro ballot hballot
    obtain ⟨vote, hvote, heq, hle⟩ := h.held_recent ballot hballot
    exact ⟨vote, hvotes ▸ mem_recentVotes hvote hle, heq, hstart ▸ hle⟩

/-- The poll goes as the election does. -/
theorem ballotResult_of_meets (h : Agrees config tip init last self election)
    (hnumber : header.number = tip + 1) (hsealed : config.cliqueSigner header ∈ election.signers)
    (hepoch : ¬ config.cliqueIsEpochTransition header) (hcoinbase : header.coinbase ≠ 0)
    (hmeets : Meets config self election header) :
    (election.Decides config header → ∃ votes,
      ballotResult config header last.signers (recentVotes config tip self.votes) =
          (votes, some (Election.change election.signers header.coinbase)) ∧
        ∀ vote ∈ discardVotes election.signers header.coinbase (recentVotes config tip self.votes),
          vote ∈ votes) ∧
    (¬ election.Decides config header →
      ballotResult config header last.signers (recentVotes config tip self.votes) =
        (recentVotes config tip self.votes ++ [latestVote config header], none)) := by
  have hstart :
      config.lastEpochBlockNumber header.number = config.lastEpochBlockNumber tip := by
    rw [hnumber, lastEpochBlockNumber_of_not_epoch hnumber hepoch]
  have hvoters : ∀ nonce, votersFor (recentVotes config tip self.votes)
        (config.lastEpochBlockNumber header.number) (config.cliqueSigner header) header.coinbase
        nonce =
      votersFor self.votes (config.lastEpochBlockNumber header.number)
        (config.cliqueSigner header) header.coinbase nonce :=
    fun nonce => votersFor_recentVotes _ (le_of_eq hstart.symm) _ _ _
  have huseless : numBeneficiaryVotes config header 2
      (Election.uselessNonce election.signers header.coinbase) (recentVotes config tip self.votes)
        ≤ election.signers.length / 2 := by
    have huseless := hmeets.useless
    simp only [numBeneficiaryVotes, hvoters] at huseless ⊢
    exact huseless
  have hdecides := decides_iff h.ascending hsealed h.voters
    (by simpa only [hstart] using h.held_recent) (by simpa only [hvoters] using hmeets.counted)
  rw [ballotResult, if_neg hepoch, h.signers, hdecides]
  exact pollResult_of_useless hcoinbase h.ascending huseless

theorem extend_decides (h : Agrees config tip init last self election)
    (hnumber : header.number = tip + 1) (hsealed : config.cliqueSigner header ∈ election.signers)
    (hepoch : ¬ config.cliqueIsEpochTransition header) (hcoinbase : header.coinbase ≠ 0)
    (hmeets : Meets config self election header) (hdecide : election.Decides config header) :
    ∃ after init' last', self.extend config tip header = .ok after ∧
      Agrees config (tip + 1) init' last' after (election.step config header) := by
  have hstart := lastEpochBlockNumber_of_not_epoch hnumber hepoch
  obtain ⟨votes, hresult, hkept⟩ :=
    (h.ballotResult_of_meets hnumber hsealed hepoch hcoinbase hmeets).1 hdecide
  have hrecent : (last.blockNumber : Int) ≥ tip - CLIQUE_SIGNER_HISTORY_BLOCK_LIMIT := by
    obtain ⟨state, hstate, hle⟩ := hmeets.inTime hdecide
    rw [h.atTip.states, List.mem_append, List.mem_singleton] at hstate
    rcases hstate with hstate | rfl
    · have := h.atTip.ascending.lt_last state hstate
      omega
    · omega
  obtain ⟨after, init', hextend, hafter, hvotes⟩ := h.extend_some hnumber hrecent hresult
  refine ⟨after, init', _, hextend, hafter, ?_, ?_, ?_, ?_⟩
  all_goals simp only [Election.step, hepoch, hcoinbase, hdecide, if_true, Bool.false_eq_true,
    if_false]
  · exact pairwise_change h.ascending header.coinbase
  all_goals
    rintro ballot hballot
    obtain ⟨hmem, hother⟩ := List.mem_filter.mp hballot
    obtain ⟨hcandidate, hremoved⟩ := of_decide_eq_true hother
    have hold : ballot ∈ election.box := by
      rcases List.mem_append.mp hmem with hold | hnew
      · exact hold
      · rw [List.mem_singleton.mp hnew] at hcandidate
        exact absurd rfl hcandidate
  · exact mem_change (h.voters ballot hold) hremoved
  · obtain ⟨vote, hvote, rfl, hle⟩ := h.held_recent ballot hold
    refine ⟨vote, hvotes ▸ hkept vote ?_, rfl, hstart ▸ hle⟩
    exact List.mem_filter.mpr ⟨hvote, hother⟩

theorem extend_undecided (h : Agrees config tip init last self election)
    (hnumber : header.number = tip + 1) (hsealed : config.cliqueSigner header ∈ election.signers)
    (hepoch : ¬ config.cliqueIsEpochTransition header) (hcoinbase : header.coinbase ≠ 0)
    (hmeets : Meets config self election header) (hdecide : ¬ election.Decides config header) :
    ∃ after, self.extend config tip header = .ok after ∧
      Agrees config (tip + 1) (recent tip init) last after (election.step config header) := by
  have hstart := lastEpochBlockNumber_of_not_epoch hnumber hepoch
  have hresult := (h.ballotResult_of_meets hnumber hsealed hepoch hcoinbase hmeets).2 hdecide
  obtain ⟨after, hextend, hafter, hvotes⟩ := h.extend_none hnumber hresult
  rw [if_neg hepoch] at hvotes
  refine ⟨after, hextend, hafter, ?_, ?_, ?_, ?_⟩
  all_goals simp only [Election.step, hepoch, hcoinbase, hdecide, Bool.false_eq_true, if_false]
  · exact h.signers
  · exact h.ascending
  · rintro ballot hballot
    rcases List.mem_append.mp hballot with hold | hnew
    · exact h.voters ballot hold
    · rw [List.mem_singleton.mp hnew]
      exact hsealed
  · rintro ballot hballot
    rcases List.mem_append.mp hballot with hold | hnew
    · obtain ⟨vote, hvote, heq, hle⟩ := h.held_recent ballot hold
      refine ⟨vote, ?_, heq, hstart ▸ hle⟩
      rw [hvotes]
      exact mem_recentVotes (List.mem_append_left _ hvote) hle
    · refine ⟨latestVote config header, ?_, (List.mem_singleton.mp hnew).symm, ?_⟩
      · rw [hvotes]
        apply mem_recentVotes (List.mem_append_right _ (List.mem_singleton_self _))
        simp only [latestVote, CliqueConfig.lastEpochBlockNumber]
        omega
      · simp only [latestVote, hnumber, CliqueConfig.lastEpochBlockNumber]
        omega

theorem extend (h : Agrees config tip init last self election) (hnumber : header.number = tip + 1)
    (hsealed : config.cliqueSigner header ∈ election.signers)
    (hmeets : ¬ CastsNoVote config header → Meets config self election header) :
    ∃ after init' last', self.extend config tip header = .ok after ∧
      Agrees config (tip + 1) init' last' after (election.step config header) := by
  by_cases hepoch : config.cliqueIsEpochTransition header
  · obtain ⟨after, hextend⟩ := h.extend_epoch hnumber hepoch
    exact ⟨after, _, _, hextend⟩
  by_cases hcoinbase : header.coinbase = 0
  · obtain ⟨after, hextend⟩ := h.extend_silent hnumber hepoch hcoinbase
    exact ⟨after, _, _, hextend⟩
  have hmeets := hmeets fun hno => hno.elim hepoch hcoinbase
  by_cases hdecide : election.Decides config header
  · exact h.extend_decides hnumber hsealed hepoch hcoinbase hmeets hdecide
  · obtain ⟨after, hextend⟩ :=
      h.extend_undecided hnumber hsealed hepoch hcoinbase hmeets hdecide
    exact ⟨after, _, _, hextend⟩

end Agrees

/-- Every block is sealed by a signer that is active for it. -/
def Sealed (config : CliqueConfig) (genesis : CliqueHeader) (chain : List CliqueHeader) : Prop :=
  ∀ front header back, chain = front ++ header :: back →
    ∀ before active, fed config genesis front = .ok before →
      before.cliqueActiveSigners header.number = .ok active → config.cliqueSigner header ∈ active

def MeetsRun (config : CliqueConfig) (genesis : CliqueHeader) (signers : List Address)
    (chain : List CliqueHeader) : Prop :=
  ∀ front header back, chain = front ++ header :: back → ¬ CastsNoVote config header →
    ∀ before, fed config genesis front = .ok before →
      Meets config before (Election.after config signers front) header

/-- The signers before and after a block: they stay in order, and change by a majority. -/
structure Follows (config : CliqueConfig) (election : Election) (header : CliqueHeader)
    (active active' : List Address) : Prop where
  signers : active = election.signers
  signers' : active' = (election.step config header).signers
  ascending : active'.Pairwise (· < ·)
  changes_iff : active' ≠ active ↔ ¬ CastsNoVote config header ∧
    Majority active (election.withBallot config header) header.coinbase
      (Election.usefulNonce active header.coinbase)

variable {genesis : CliqueHeader} {signers : List Address} {chain : List CliqueHeader}

theorem step_ne_iff (election : Election) :
    (election.step config header).signers ≠ election.signers ↔
      ¬ CastsNoVote config header ∧ election.Decides config header := by
  unfold Election.step CastsNoVote
  split
  next hepoch => simp [hepoch]
  next hepoch =>
    split
    next hcoinbase => simp [hcoinbase]
    next hcoinbase =>
      split
      next hdecides => simp [hepoch, hcoinbase, hdecides, change_ne]
      next hdecides => simp [hdecides]

theorem agrees_fed (hgenesis : genesis.number = 0) (hlinked : Linked 0 chain)
    (hsigners : cliqueEpochTransitionSigners config genesis = .ok signers)
    (hascending : signers.Pairwise (· < ·)) (hsealed : Sealed config genesis chain)
    (hmeets : MeetsRun config genesis signers chain) (front back : List CliqueHeader)
    (hchain : chain = front ++ back) :
    ∃ before init last, fed config genesis front = .ok before ∧
      Agrees config front.length init last before (Election.after config signers front) := by
  induction front using List.reverseRecOn generalizing back with
  | nil =>
    have hstart : ∃ start, create.genesisInit config genesis = .ok start := by
      rw [genesisInit, hsigners]
      exact ⟨_, rfl⟩
    obtain ⟨start, hstart⟩ := hstart
    obtain ⟨signers', hsigners', htip⟩ := genesisInit_atTip hstart
    cases hsigners.symm.trans hsigners'
    refine ⟨start, [], _, ?_, htip, rfl, hascending, ?_, ?_⟩
    · rw [fed, hstart]
      rfl
    · exact fun ballot hballot => by cases hballot
    · exact fun ballot hballot => by cases hballot
  | append_singleton front header ih =>
    rw [List.append_assoc, List.singleton_append] at hchain
    obtain ⟨before, init, last, hbefore, hagrees⟩ := ih (header :: back) hchain
    have hlinked' : Linked 0 (front ++ [header]) := by
      rw [hchain, ← List.singleton_append, ← List.append_assoc] at hlinked
      exact (Linked.append.mp hlinked).1
    have hnumber : header.number = front.length + 1 := by
      have := (Linked.append.mp hlinked').2.1
      omega
    have hbelow : front.length < header.number := by omega
    have hactive := hagrees.atTip.cliqueActiveSigners hbelow
    have hsealed' := hsealed front header back hchain before _ hbefore hactive
    obtain ⟨after, init', last', hafter, hagrees'⟩ := hagrees.extend hnumber
      (hagrees.signers ▸ hsealed')
      fun hvotes => hmeets front header back hchain hvotes before hbefore
    refine ⟨after, init', last', ?_, ?_⟩
    · rw [fed_append hgenesis hlinked' hbefore]
      simp only [feed, hafter, bind, Except.bind]
    · rw [List.length_append, List.length_singleton, Election.after, List.foldl_append]
      exact hagrees'

/-- As long as the votes of each block are counted right, its signers follow the election. -/
theorem signers_follow (hgenesis : genesis.number = 0) (hlinked : Linked 0 chain)
    (hsigners : cliqueEpochTransitionSigners config genesis = .ok signers)
    (hascending : signers.Pairwise (· < ·)) (hsealed : Sealed config genesis chain)
    (hmeets : MeetsRun config genesis signers chain) (front back : List CliqueHeader)
    (hchain : chain = front ++ header :: back) :
    ∃ before after active active', fed config genesis front = .ok before ∧
      fed config genesis (front ++ [header]) = .ok after ∧
      before.cliqueActiveSigners header.number = .ok active ∧
      after.cliqueActiveSigners (header.number + 1) = .ok active' ∧
      Follows config (Election.after config signers front) header active active' := by
  have hchain' : chain = (front ++ [header]) ++ back := by
    rw [hchain, List.append_assoc, List.singleton_append]
  obtain ⟨before, init, last, hbefore, hagrees⟩ := agrees_fed hgenesis hlinked hsigners hascending
    hsealed hmeets front (header :: back) hchain
  obtain ⟨after, init', last', hafter, hagrees'⟩ := agrees_fed hgenesis hlinked hsigners hascending
    hsealed hmeets (front ++ [header]) back hchain'
  have hnumber : header.number = front.length + 1 := by
    rw [hchain'] at hlinked
    have := (Linked.append.mp (Linked.append.mp hlinked).1).2.1
    omega
  have hstep : Election.after config signers (front ++ [header]) =
      (Election.after config signers front).step config header := by
    rw [Election.after, List.foldl_append]
    rfl
  have hbelow : front.length < header.number := by omega
  have hactive := hagrees.atTip.cliqueActiveSigners hbelow
  have hlength : (front ++ [header]).length < header.number + 1 := by
    rw [hnumber, List.length_append, List.length_singleton]
    exact Nat.lt_succ_self _
  have hactive' := hagrees'.atTip.cliqueActiveSigners hlength
  refine ⟨before, after, _, _, hbefore, hafter, hactive, hactive', hagrees.signers, ?_, ?_, ?_⟩
  · rw [hagrees'.signers, hstep]
  · rw [hagrees'.signers]
    exact hagrees'.ascending
  · rw [hagrees'.signers, hagrees.signers, hstep]
    exact step_ne_iff _

namespace Sample

/-- A block of a signer with a vote. -/
def vote (number : Nat) (signer : UInt8) (beneficiary : Address) (nonce : Bytes) : CliqueHeader :=
  { block number signer with coinbase := beneficiary, nonce := nonce }

/-- A genesis block with these signers. -/
def genesisOf (signers : List UInt8) : CliqueHeader :=
  { block 0 0 with
    extraData := List.replicate 32 0 ++
      signers.flatMap (fun signer => List.replicate 19 0 ++ [signer]) ++ List.replicate 65 0 }

def activeAfter (signers : List UInt8) (chain : List CliqueHeader) :
    Except String (List Address) := do
  let self ← fed cliqueConfig (genesisOf signers) chain
  self.cliqueActiveSigners (chain.length + 1)

end Sample

open Sample in
theorem signers_follow_authorized :
    ∃ before after active active', fed cliqueConfig (genesisOf [1]) [] = .ok before ∧
      fed cliqueConfig (genesisOf [1]) [vote 1 1 5 CLIQUE_NONCE_AUTH] = .ok after ∧
      before.cliqueActiveSigners 1 = .ok active ∧ after.cliqueActiveSigners 2 = .ok active' ∧
      Follows cliqueConfig (Election.after cliqueConfig [1] []) (vote 1 1 5 CLIQUE_NONCE_AUTH)
        active active' := by
  have hsigners : cliqueEpochTransitionSigners cliqueConfig (genesisOf [1]) = .ok [1] := by
    decide +kernel
  have honly : ∀ front header back, [vote 1 1 5 CLIQUE_NONCE_AUTH] = front ++ header :: back →
      front = [] ∧ header = vote 1 1 5 CLIQUE_NONCE_AUTH := by
    intro front header back h
    cases front with
    | nil => exact ⟨rfl, (List.cons.inj h).1.symm⟩
    | cons first front => simp at h
  have hfed : fed cliqueConfig (genesisOf [1]) [] = .ok
      { signerStates := [⟨0, [1]⟩], votes := [], blockSigners := []
        db := ⟨[⟨0, [1]⟩], [], []⟩ } := by
    decide +kernel
  have hlinked : Linked 0 [vote 1 1 5 CLIQUE_NONCE_AUTH] := by simp [Linked, vote, block]
  refine signers_follow rfl hlinked hsigners (by decide) ?_ ?_ [] [] rfl
  · rintro front header back hchain before active hbefore hactive
    obtain ⟨rfl, rfl⟩ := honly front header back hchain
    cases hbefore.symm.trans hfed
    cases hactive
    decide +kernel
  · rintro front header back hchain - before hbefore
    obtain ⟨rfl, rfl⟩ := honly front header back hchain
    cases hbefore.symm.trans hfed
    constructor
    · exact fun voter hvoter => absurd hvoter List.not_mem_nil
    · decide +kernel
    · decide +kernel

open Sample in
/-- A signer that is authorised again is listed twice, and a vote that was taken back still
counts. -/
theorem not_signers_follow :
    (∃ active, activeAfter [1] [vote 1 1 1 CLIQUE_NONCE_AUTH] = .ok active ∧
      ¬ active.Pairwise (· < ·)) ∧
    ∃ chain, chain = [vote 1 1 5 CLIQUE_NONCE_AUTH, block 2 2, vote 3 1 5 CLIQUE_NONCE_DROP] ∧
      activeAfter [1, 2, 3] chain = .ok [1, 2, 3] ∧
      activeAfter [1, 2, 3] (chain ++ [vote 4 2 5 CLIQUE_NONCE_AUTH]) = .ok [1, 2, 3, 5] ∧
      ¬ (Election.after cliqueConfig [1, 2, 3] chain).Decides cliqueConfig
        (vote 4 2 5 CLIQUE_NONCE_AUTH) := by
  refine ⟨⟨[1, 1], ?_, by decide⟩, _, rfl, ?_, ?_, ?_⟩
  · decide +kernel
  · decide +kernel
  · decide +kernel
  · decide +kernel

end CliqueConsensus

end EthereumJS
