import Mathlib.Data.List.Perm.Basic
import EthereumJS.Devp2p.KBucket

/-! # Pings of a full bucket

`_onKBucketPing` of `dpt.ts`: the old peers of a full bucket are pinged, and what the answers and
timeouts decide about the newcomer. Answers are counted apart from timeouts, and only the last of
as many answers as there are old peers decides. The ban of five minutes does not run out before
the pings have settled.
-/

namespace EthereumJS.Devp2p

/-- The keys of the least recently used cache of a ban list, the most recent first. -/
structure BanList where
  recent : List HexString

namespace BanList

def max : Nat := 10000

def set (banlist : BanList) (key : HexString) : BanList :=
  ⟨(key :: banlist.recent.erase key).take max⟩

def add (banlist : BanList) (peer : PeerInfo) : BanList := (KBucket.getKeys peer).foldl set banlist

def has (banlist : BanList) (peer : PeerInfo) : Bool :=
  (KBucket.getKeys peer).any fun key => banlist.recent.contains key

theorem mem_set (banlist : BanList) (key : HexString) : key ∈ (banlist.set key).recent :=
  List.mem_cons_self

theorem has_add (banlist : BanList) (peer : PeerInfo) : (banlist.add peer).has peer := by
  have hlast : ∃ keys key, KBucket.getKeys peer = keys ++ [key] := by
    rw [KBucket.getKeys]
    split
    · exact ⟨[_], _, rfl⟩
    · exact ⟨[], _, rfl⟩
  obtain ⟨keys, key, hkeys⟩ := hlast
  rw [has, add, hkeys, List.foldl_append]
  apply List.any_eq_true.mpr
  refine ⟨key, List.mem_append_right _ List.mem_cons_self, ?_⟩
  rw [List.contains_iff_mem]
  exact mem_set _ key

end BanList

inductive DPTEvent
  | peerAdded (peer : PeerInfo)
  | peerRemoved (peer : PeerInfo)
  deriving DecidableEq

/-- The ban list and the table of a node, with the calls of `_onKBucketPing` that the table asked
for. -/
structure DPT where
  banlist : BanList
  kbucket : KBucket
  pings : List (List PeerInfo × PeerInfo)

inductive PingOutcome
  | answer
  | timeout (err : String)
  deriving DecidableEq

/-- The variables that the handlers of one call share, and the events that they emitted. -/
structure PingRound where
  count : Nat
  err : Option String
  dpt : DPT
  events : List DPTEvent

namespace DPT

variable (dpt : DPT)

def ban (peer : PeerInfo) : DPT := { dpt with banlist := dpt.banlist.add peer }

/-- `_kbucket.add` with the events of its listeners. -/
def addToBucket (fuel : Nat) (peer : PeerInfo) : DPT × List DPTEvent :=
  let (kbucket, event) := dpt.kbucket.add fuel peer
  match event with
  | some .added => ({ dpt with kbucket := kbucket }, [.peerAdded peer])
  | some (.ping oldPeers) =>
    ({ dpt with kbucket := kbucket, pings := dpt.pings ++ [(oldPeers, peer)] }, [])
  | _ => ({ dpt with kbucket := kbucket }, [])

/-- `_kbucket.remove` with the events of its listeners. -/
def removeFromBucket (peer : PeerInfo) : DPT × List DPTEvent :=
  let (kbucket, removed) := dpt.kbucket.remove peer
  ({ dpt with kbucket := kbucket }, (removed.map .peerRemoved).toList)

end DPT

section Round

variable (fuel : Nat) (oldPeers : List PeerInfo) (newPeer : PeerInfo)

/-- The handler of a ping that was answered. -/
def pingAnswered (round : PingRound) : PingRound :=
  let round := { round with count := round.count + 1 }
  if round.count < oldPeers.length then round
  else
    match round.err with
    | none => { round with dpt := round.dpt.ban newPeer }
    | some _ =>
      let (dpt, events) := round.dpt.addToBucket fuel newPeer
      { round with dpt := dpt, events := round.events ++ events }

/-- The handler of a ping that was not. -/
def pingFailed (peer : PeerInfo) (err : String) (round : PingRound) : PingRound :=
  let (dpt, events) := (round.dpt.ban peer).removeFromBucket peer
  { round with dpt := dpt, events := round.events ++ events, err := round.err <|> some err }

def settle (round : PingRound) (arrival : PeerInfo × PingOutcome) : PingRound :=
  match arrival.2 with
  | .answer => pingAnswered fuel oldPeers newPeer round
  | .timeout err => pingFailed arrival.1 err round

/-- A call, with the outcomes of its pings in the order of their arrival. -/
def onKBucketPing (arrivals : List (PeerInfo × PingOutcome)) (dpt : DPT) : PingRound :=
  let round : PingRound := ⟨0, none, dpt, []⟩
  if dpt.banlist.has newPeer then round
  else arrivals.foldl (settle fuel oldPeers newPeer) round

variable {fuel oldPeers newPeer}

/-- Answers alone leave the table as it is, and the last of them bans the newcomer. -/
theorem settle_answered {arrivals : List (PeerInfo × PingOutcome)} {round : PingRound}
    (hanswered : ∀ arrival ∈ arrivals, arrival.2 = .answer) (hne : arrivals ≠ [])
    (hcount : round.count + arrivals.length = oldPeers.length) (herr : round.err = none) :
    arrivals.foldl (settle fuel oldPeers newPeer) round =
      { round with count := oldPeers.length, dpt := round.dpt.ban newPeer } := by
  induction arrivals generalizing round with
  | nil => exact absurd rfl hne
  | cons arrival arrivals ih =>
    have hsettle : settle fuel oldPeers newPeer round arrival =
        pingAnswered fuel oldPeers newPeer round := by
      rw [settle, hanswered arrival List.mem_cons_self]
    rw [List.foldl_cons, hsettle]
    rw [List.length_cons] at hcount
    cases arrivals with
    | nil =>
      have hlast : round.count + 1 = oldPeers.length := hcount
      rw [List.foldl_nil, pingAnswered]
      dsimp only
      rw [if_neg (by omega), herr, hlast]
    | cons next rest =>
      have hearly : round.count + 1 < oldPeers.length := by
        rw [List.length_cons] at hcount
        omega
      have hround : pingAnswered fuel oldPeers newPeer round =
          { round with count := round.count + 1 } := if_pos hearly
      rw [hround]
      refine ih (fun arrival h => hanswered arrival (List.mem_cons_of_mem _ h))
        (List.cons_ne_nil _ _) ?_ herr
      dsimp only
      omega

/-- Where there are fewer answers than old peers, nobody is added. -/
theorem settle_not_added {arrivals : List (PeerInfo × PingOutcome)} {round : PingRound}
    (hcount : round.count + (arrivals.filter fun arrival => arrival.2 = .answer).length <
      oldPeers.length) {peer : PeerInfo} (hnot : .peerAdded peer ∉ round.events) :
    .peerAdded peer ∉ (arrivals.foldl (settle fuel oldPeers newPeer) round).events := by
  induction arrivals generalizing round with
  | nil => exact hnot
  | cons arrival arrivals ih =>
    obtain ⟨old, outcome⟩ := arrival
    rw [List.foldl_cons]
    cases outcome with
    | answer =>
      rw [List.filter_cons_of_pos (by simp), List.length_cons] at hcount
      have hround : settle fuel oldPeers newPeer round (old, .answer) =
          { round with count := round.count + 1 } :=
        if_pos (show round.count + 1 < oldPeers.length by omega)
      rw [hround]
      apply ih
      · dsimp only
        omega
      · exact hnot
    | timeout err =>
      rw [List.filter_cons_of_neg (by simp)] at hcount
      apply ih
      · exact hcount
      · intro hmem
        obtain hmem | hmem := List.mem_append.mp hmem
        · exact hnot hmem
        · rw [Option.mem_toList, Option.map_eq_some_iff] at hmem
          obtain ⟨_, -, hevent⟩ := hmem
          cases hevent

end Round

/-- What one call has to decide: if every old peer answered, the new peer is banned and no peer was
removed, and otherwise those that did not answer are banned and gone and the new peer was added. -/
structure NewcomerDecided (arrivals : List (PeerInfo × PingOutcome)) (newPeer : PeerInfo)
    (round : PingRound) : Prop where
  answered : (∀ arrival ∈ arrivals, arrival.2 = .answer) →
    round.dpt.banlist.has newPeer ∧ ∀ peer, .peerRemoved peer ∉ round.events
  failed : (∃ arrival ∈ arrivals, arrival.2 ≠ .answer) →
    (∀ arrival ∈ arrivals, arrival.2 ≠ .answer → round.dpt.banlist.has arrival.1 ∧
      ∀ peer ∈ round.dpt.kbucket.root.toArray, peer.id ≠ arrival.1.id) ∧
    .peerAdded newPeer ∈ round.events

/-- A call decides about the newcomer if and only if every old peer answered: the handler of an
answer is the only one that decides, and it waits for as many answers as there are old peers. -/
theorem newcomer_decided_iff {fuel : Nat} {oldPeers : List PeerInfo} {newPeer : PeerInfo}
    {arrivals : List (PeerInfo × PingOutcome)} {dpt : DPT} (hne : oldPeers ≠ [])
    (harrivals : (arrivals.map Prod.fst).Perm oldPeers)
    (hfree : dpt.banlist.has newPeer = false) :
    NewcomerDecided arrivals newPeer (onKBucketPing fuel oldPeers newPeer arrivals dpt) ↔
      ∀ arrival ∈ arrivals, arrival.2 = .answer := by
  have hlength : arrivals.length = oldPeers.length := by
    rw [← harrivals.length_eq, List.length_map]
  have hrun : onKBucketPing fuel oldPeers newPeer arrivals dpt =
      arrivals.foldl (settle fuel oldPeers newPeer) ⟨0, none, dpt, []⟩ := by
    rw [onKBucketPing, if_neg (by rw [hfree]; decide)]
  constructor
  · intro hdecided arrival hmem
    by_contra htimeout
    have hfew : (arrivals.filter fun arrival => arrival.2 = .answer).length < arrivals.length := by
      apply List.length_filter_lt_length_iff_exists.mpr
      refine ⟨arrival, hmem, ?_⟩
      simpa using htimeout
    have hadded := (hdecided.failed ⟨arrival, hmem, htimeout⟩).2
    rw [hrun] at hadded
    refine settle_not_added ?_ List.not_mem_nil hadded
    rw [Nat.zero_add, ← hlength]
    exact hfew
  · intro hanswered
    have hsome : arrivals ≠ [] := by
      intro hempty
      rw [hempty, List.length_nil] at hlength
      exact hne (List.length_eq_zero_iff.mp hlength.symm)
    rw [hrun, settle_answered hanswered hsome (by rw [hlength, Nat.zero_add]) rfl]
    constructor
    · intro _
      exact ⟨dpt.banlist.has_add newPeer, fun _ => List.not_mem_nil⟩
    · rintro ⟨arrival, hmem, htimeout⟩
      exact absurd (hanswered arrival hmem) htimeout

/-- A peer at a loopback address, known by the last byte of its id. -/
def loopbackPeer (n : UInt8) : PeerInfo := ⟨[n], some "127.0.0.1", some 30303, none⟩

/-- A table with two peers in a bucket that is not split. -/
def twoPeers : DPT where
  banlist := ⟨[]⟩
  kbucket := {
    peers := fun key =>
      ([1, 2].map loopbackPeer).find? fun peer => (KBucket.getKeys peer).contains key
    localNodeId := [0x80]
    root := .leaf ([1, 2].map loopbackPeer) true }
  pings := []

/-- The first peer times out and the second answers: nothing is decided about the newcomer. -/
theorem not_newcomer_decided_one :
    ¬ NewcomerDecided [(loopbackPeer 1, .timeout "ping"), (loopbackPeer 2, .answer)]
      (loopbackPeer 3) (onKBucketPing 1 ([1, 2].map loopbackPeer) (loopbackPeer 3)
        [(loopbackPeer 1, .timeout "ping"), (loopbackPeer 2, .answer)] twoPeers) := by
  intro h
  have hadded := (h.failed ⟨_, List.mem_cons_self, by decide⟩).2
  exact absurd hadded (by decide)

theorem newcomer_decided_iff_two :
    NewcomerDecided [(loopbackPeer 2, .answer), (loopbackPeer 1, .answer)] (loopbackPeer 3)
      (onKBucketPing 1 ([1, 2].map loopbackPeer) (loopbackPeer 3)
        [(loopbackPeer 2, .answer), (loopbackPeer 1, .answer)] twoPeers) ↔
      ∀ arrival ∈ [(loopbackPeer 2, PingOutcome.answer), (loopbackPeer 1, .answer)],
        arrival.2 = .answer :=
  newcomer_decided_iff (by decide) (by decide) rfl

end EthereumJS.Devp2p
