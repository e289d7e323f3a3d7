import Mathlib.Data.List.Sort
import EthereumJS.Util.Bytes
import EthereumJS.Vm.World

/-! # Clique snapshots

`CliqueConsensus` of `blockchain/src/consensus/clique.ts`: the lists of signer states, votes and
block signers, and what `newBlock` does to them. The lists in the database are kept decoded. The
address that the seal of a header recovers to is a parameter.
-/

namespace EthereumJS

def CLIQUE_NONCE_AUTH : Bytes := List.replicate 8 0xff

def CLIQUE_NONCE_DROP : Bytes := List.replicate 8 0

def CLIQUE_EXTRA_VANITY : Nat := 32

def CLIQUE_EXTRA_SEAL : Nat := 65

def CLIQUE_SIGNER_HISTORY_BLOCK_LIMIT : Nat := 200

structure CliqueHeader where
  number : Nat
  coinbase : Address
  nonce : Bytes
  extraData : Bytes
  deriving DecidableEq

structure CliqueConfig where
  epoch : Nat
  epoch_pos : 0 < epoch
  cliqueSigner : CliqueHeader → Address

structure CliqueSignerState where
  blockNumber : Nat
  signers : List Address
  deriving DecidableEq

structure CliqueVote where
  blockNumber : Nat
  signer : Address
  beneficiary : Address
  nonce : Bytes
  deriving DecidableEq

structure CliqueBlockSigner where
  blockNumber : Nat
  signer : Address
  deriving DecidableEq

structure CliqueSnapshots where
  signerStates : List CliqueSignerState
  votes : List CliqueVote
  blockSigners : List CliqueBlockSigner
  deriving DecidableEq

structure CliqueConsensus extends CliqueSnapshots where
  db : CliqueSnapshots
  deriving DecidableEq

/-- The first block of the epoch that a block is in. -/
def CliqueConfig.lastEpochBlockNumber (config : CliqueConfig) (number : Nat) : Nat :=
  number - number % config.epoch

def CliqueConfig.cliqueIsEpochTransition (config : CliqueConfig) (header : CliqueHeader) : Bool :=
  header.number % config.epoch = 0

/-- The pieces of 20 bytes; a shorter rest is left out. -/
def signerAddresses (signerBytes : Bytes) : List Address :=
  (List.range (signerBytes.length / 20)).map fun i =>
    Fin.ofNat (2 ^ 160) (bytesToBigInt ((signerBytes.drop (20 * i)).take 20))

def cliqueEpochTransitionSigners (config : CliqueConfig) (header : CliqueHeader) :
    Except String (List Address) :=
  if !config.cliqueIsEpochTransition header then
    .error "Signers are only included in epoch transition blocks (clique)"
  else
    -- a header has the bytes of the vanity and of the seal
    let stop := header.extraData.length - CLIQUE_EXTRA_SEAL
    .ok (signerAddresses ((header.extraData.take stop).drop CLIQUE_EXTRA_VANITY))

/-- The blockchain's `getCanonicalHeader`, for the canonical chain with these headers. -/
def getCanonicalHeader (chain : List CliqueHeader) (number : Nat) : Except String CliqueHeader :=
  match chain.find? fun header => header.number = number with
  | some header => .ok header
  | none => .error s!"header with number {number} not found in canonical chain"

/-- The different signers that voted on a beneficiary with a nonce, the given signer apart. -/
def votersFor (votes : List CliqueVote) (lastEpochBlockNumber : Nat) (signer beneficiary : Address)
    (nonce : Bytes) : List Address :=
  let votes := votes.filter fun vote =>
    vote.blockNumber ≥ lastEpochBlockNumber ∧ vote.signer ≠ signer ∧
      vote.beneficiary = beneficiary ∧ vote.nonce = nonce
  votes.foldl (fun beneficiaryVotes vote =>
    if (beneficiaryVotes.filter fun voteCMP => voteCMP = vote.signer).length = 0 then
      beneficiaryVotes ++ [vote.signer]
    else beneficiaryVotes) []

/-- What a round of `cliqueUpdateVotes` works on. -/
structure VoteRound where
  activeSigners : List Address
  votes : List CliqueVote
  consensus : Bool

namespace CliqueConsensus

def create : CliqueConsensus :=
  { signerStates := [], votes := [], blockSigners := []
    db := { signerStates := [], votes := [], blockSigners := [] } }

def cliqueActiveSigners (self : CliqueConsensus) (blockNum : Nat) : Except String (List Address) :=
  if self.signerStates.length = 0 then .ok []
  else
    match self.signerStates.reverse.find? fun state => state.blockNumber < blockNum with
    | some state => .ok state.signers
    | none => .error s!"Could not load signers for block {blockNum}"

def cliqueSignerLimit (self : CliqueConsensus) (blockNum : Nat) : Except String Nat := do
  let activeSigners ← self.cliqueActiveSigners blockNum
  return activeSigners.length / 2 + 1

/-- The number of the last block signer, when it counts as true. -/
def lastBlockNumber (self : CliqueConsensus) : Option Nat :=
  match self.blockSigners.getLast? with
  | some last => if last.blockNumber = 0 then none else some last.blockNumber
  | none => none

def trimSignerStates (self : CliqueConsensus) : Except String (List CliqueSignerState) :=
  match self.lastBlockNumber with
  | none => .ok self.signerStates
  | some lastBlockNumber =>
    let blockLimit : Int := lastBlockNumber - CLIQUE_SIGNER_HISTORY_BLOCK_LIMIT
    let states := self.signerStates.filter fun state => (state.blockNumber : Int) ≥ blockLimit
    if states.length = 0 then
      -- always keep at least one item on the stack
      match self.signerStates.getLast? with
      | some lastItem => .ok [lastItem]
      | none => .error "Cannot read properties of undefined"
    else .ok states

/-- The end of `cliqueUpdateSignerStates`. -/
def saveSignerStates (self : CliqueConsensus) : Except String CliqueConsensus := do
  let signerStates ← self.trimSignerStates
  return { self with signerStates := signerStates, db.signerStates := signerStates }

def cliqueUpdateSignerStates (self : CliqueConsensus) :
    Option CliqueSignerState → Except String CliqueConsensus
  | none => self.saveSignerStates
  | some signerState =>
    if self.signerStates.any fun state => state.blockNumber = signerState.blockNumber then .ok self
    else
      saveSignerStates { self with
        signerStates := (self.signerStates ++ [signerState]).insertionSort
          fun a b => a.blockNumber ≤ b.blockNumber }

variable (config : CliqueConfig)

/-- The end of `cliqueUpdateVotes`. -/
def saveVotes (self : CliqueConsensus) : CliqueConsensus :=
  let votes :=
    match self.lastBlockNumber with
    | none => self.votes
    | some lastBlockNumber =>
      let lastEpochBlockNumber := config.lastEpochBlockNumber lastBlockNumber
      let blockLimit : Int := lastEpochBlockNumber - CLIQUE_SIGNER_HISTORY_BLOCK_LIMIT
      self.votes.filter fun vote => (vote.blockNumber : Int) ≥ blockLimit
  { self with votes := votes, db.votes := votes }

/-- The votes of the others for a nonce, and in the second round the new vote if it has it. -/
def numBeneficiaryVotes (header : CliqueHeader) (round : Nat) (nonce : Bytes)
    (votes : List CliqueVote) : Nat :=
  let voters := votersFor votes (config.lastEpochBlockNumber header.number)
    (config.cliqueSigner header) header.coinbase nonce
  voters.length + if round = 2 ∧ header.nonce = nonce then 1 else 0

def authorize (header : CliqueHeader) (round limit : Nat) (state : VoteRound) : VoteRound :=
  if numBeneficiaryVotes config header round CLIQUE_NONCE_AUTH state.votes ≥ limit then
    { consensus := true
      activeSigners := (state.activeSigners ++ [header.coinbase]).insertionSort (· ≤ ·)
      votes := state.votes.filter fun vote => vote.beneficiary ≠ header.coinbase }
  else state

def drop (header : CliqueHeader) (round limit : Nat) (state : VoteRound) : VoteRound :=
  if numBeneficiaryVotes config header round CLIQUE_NONCE_DROP state.votes ≥ limit then
    { consensus := true
      activeSigners := state.activeSigners.filter fun signer => signer ≠ header.coinbase
      votes := state.votes.filter fun vote =>
        vote.signer ≠ header.coinbase ∧ vote.beneficiary ≠ header.coinbase }
  else state

def latestVote (header : CliqueHeader) : CliqueVote :=
  { blockNumber := header.number, signer := config.cliqueSigner header
    beneficiary := header.coinbase, nonce := header.nonce }

/-- A round up to the question whether there is a consensus. -/
def voteRound (header : CliqueHeader) (round : Nat) (self : CliqueConsensus) :
    Except String VoteRound := do
  let limit ← self.cliqueSignerLimit header.number
  let activeSigners ← self.cliqueActiveSigners header.number
  let state := drop config header round limit (authorize config header round limit
    { activeSigners := activeSigners, votes := self.votes, consensus := false })
  -- always add the latest vote, no matter if already voted the same vote or not
  return if round = 1 then { state with votes := state.votes ++ [latestVote config header] }
    else state

def voteRounds (header : CliqueHeader) : List Nat → CliqueConsensus → Except String CliqueConsensus
  | [], self => .ok (self.saveVotes config)
  | round :: rounds, self => do
    let state ← voteRound config header round self
    let self := { self with votes := state.votes }
    if state.consensus then
      self.cliqueUpdateSignerStates
        (some { blockNumber := header.number, signers := state.activeSigners })
    else voteRounds header rounds self

def cliqueUpdateVotes (self : CliqueConsensus) : Option CliqueHeader → Except String CliqueConsensus
  | none => .ok (self.saveVotes config)
  | some header =>
    if header.coinbase = 0 then .ok (self.saveVotes config)
    else voteRounds config header [1, 2] self

/-- The end of `cliqueUpdateLatestBlockSigners`. -/
def saveBlockSigners (self : CliqueConsensus) : CliqueConsensus :=
  { self with db.blockSigners := self.blockSigners }

def cliqueUpdateLatestBlockSigners (self : CliqueConsensus) :
    Option CliqueHeader → Except String CliqueConsensus
  | none => .ok self.saveBlockSigners
  | some header =>
    if header.number = 0 then .ok self
    else do
      let blockSigners := self.blockSigners ++
        [{ blockNumber := header.number, signer := config.cliqueSigner header }]
      let limit ← self.cliqueSignerLimit header.number
      let blockSigners :=
        if blockSigners.length > limit then blockSigners.drop (blockSigners.length - limit)
        else blockSigners
      return saveBlockSigners { self with blockSigners := blockSigners }

def cliqueBuildSnapshots (self : CliqueConsensus) (header : CliqueHeader) :
    Except String CliqueConsensus := do
  let self ←
    if config.cliqueIsEpochTransition header then pure self
    else self.cliqueUpdateVotes config (some header)
  self.cliqueUpdateLatestBlockSigners config (some header)

def cliqueDeleteSnapshots (self : CliqueConsensus) (blockNumber : Nat) :
    Except String CliqueConsensus := do
  let self ← cliqueUpdateSignerStates { self with
    signerStates := self.signerStates.filter fun state => state.blockNumber ≤ blockNumber } none
  let self ← cliqueUpdateVotes config { self with
    votes := self.votes.filter fun vote => vote.blockNumber ≤ blockNumber } none
  cliqueUpdateLatestBlockSigners config { self with
    blockSigners := self.blockSigners.filter fun signer => signer.blockNumber ≤ blockNumber } none

def newBlock (chain : List CliqueHeader) (self : CliqueConsensus) (header : CliqueHeader) :
    Option CliqueHeader → Except String CliqueConsensus
  | none => .ok self
  | some commonAncestor => do
    let self ← self.cliqueDeleteSnapshots config (commonAncestor.number + 1)
    (List.range' (commonAncestor.number + 1) (header.number - commonAncestor.number)).foldlM
      (fun self number => do
        let canonicalHeader ← getCanonicalHeader chain number
        self.cliqueBuildSnapshots config canonicalHeader) self

def genesisInit (self : CliqueConsensus) (genesis : CliqueHeader) :
    Except String CliqueConsensus := do
  let signers ← cliqueEpochTransitionSigners config genesis
  let self ← self.cliqueUpdateSignerStates (some { blockNumber := 0, signers := signers })
  self.cliqueUpdateVotes config none

/-- Returns whether the signer of the header has signed too recently. -/
def cliqueCheckRecentlySigned (self : CliqueConsensus) (header : CliqueHeader) :
    Except String Bool :=
  if header.number = 0 ∨ header.number = 1 then .ok false
  else do
    let limit ← self.cliqueSignerLimit header.number
    let signers := self.blockSigners.drop (if self.blockSigners.length < limit then 0 else 1)
    let behind := match signers.getLast? with
      | some last => last.blockNumber != header.number - 1
      | none => false
    if behind then return false
    else
      let signers := signers ++
        [{ blockNumber := header.number, signer := config.cliqueSigner header }]
      return (signers.filter fun s => s.signer = config.cliqueSigner header).length > 1

end CliqueConsensus

end EthereumJS
