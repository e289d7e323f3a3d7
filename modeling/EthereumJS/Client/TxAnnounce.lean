import EthereumJS.Client.TxPool

/-! # Announcing transactions

`addToKnownByPeer`, `sendNewTxHashes`, `sendTransactions`, `handleAnnouncedTxs` and
`handleAnnouncedTxHashes` of `client/src/service/txpool.ts`. Times, errors of sends and the logger
are left out, and what is handed to the protocol of a peer counts as sent.
-/

namespace EthereumJS.Client

open RLP Tx Ordered

/-- A peer with the versions of its `eth` protocol, if it has one and they are known. -/
structure TxPeer where
  id : String
  eth : Option (Option (List Nat))

namespace TxPeer

def hasEth68 (peer : TxPeer) : Bool :=
  match peer.eth with
  | some (some versions) => versions.contains 68
  | _ => false

end TxPeer

/-- The connected peers, which a map keeps by their ids. -/
structure PeerPool where
  peers : List TxPeer
  nodup : (peers.map TxPeer.id).Nodup

/-- The lists of types, sizes and hashes. -/
structure Announcement where
  types : List TransactionType
  sizes : List Nat
  hashes : List Bytes

/-- What is sent to a peer. An entry behind the end of a list is `undefined`. -/
inductive TxMessage
  | transactions (txs : List Tx.Transaction)
  | newPooledTransactionHashes68 (types : List (Option TransactionType))
      (sizes : List (Option Nat)) (hashes : List Bytes)
  | newPooledTransactionHashes (hashes : List Bytes)

/-- A transaction that came in, with what `add` finds and the time when it does. -/
structure IncomingTx where
  request : AddRequest
  added : Int

namespace IncomingTx

def tx (incoming : IncomingTx) : Tx.Transaction := incoming.request.tx

end IncomingTx

/-- The pool with the hashes that are requested and those that each peer knows. -/
structure PeerTxPool extends TxPool where
  pending : List Bytes
  knownByPeer : String → List Bytes

def TX_RETRIEVAL_LIMIT : Nat := 256
def NUM_PEERS_REBROADCAST_QUOTIENT : Nat := 4

/-- What a handler did, and what it handed to `sendNewTxHashes` if it came so far. -/
structure Announced where
  pool : PeerTxPool
  sent : List (String × TxMessage)
  handed : Option (Option Announcement)
  outcome : Except String Unit

namespace PeerTxPool

section Send

/-- The hashes that are not known yet. -/
def newHashes : List Bytes → List Bytes → List Bytes
  | _, [] => []
  | known, hash :: txHashes =>
    if hash ∈ known then newHashes known txHashes
    else hash :: newHashes (known ++ [hash]) txHashes

def addToKnownByPeer (self : PeerTxPool) (txHashes : List Bytes) (peer : TxPeer) :
    List Bytes × PeerTxPool :=
  let newHashes := newHashes (self.knownByPeer peer.id) txHashes
  (newHashes, { self with
    knownByPeer := Function.update self.knownByPeer peer.id
      (self.knownByPeer peer.id ++ newHashes) })

/-- The message to a peer with `eth/68`. The slice of three lists keeps them all. -/
def message68 (txs : Announcement) (hashesToSend : List Bytes) : TxMessage :=
  let index := fun hash => txs.hashes.findIdx (· == hash)
  .newPooledTransactionHashes68 (hashesToSend.map fun hash => txs.types[index hash]?)
    (hashesToSend.map fun hash => txs.sizes[index hash]?) hashesToSend

/-- One round of the loop over the peers. -/
def sendToPeer (self : PeerTxPool) (txs : Announcement) (peer : TxPeer) :
    PeerTxPool × List (String × TxMessage) :=
  let (hashesToSend, self) := self.addToKnownByPeer txs.hashes peer
  if hashesToSend.length > 0 ∧ peer.eth.isSome then
    if peer.hasEth68 then (self, [(peer.id, message68 txs hashesToSend)])
    else (self, [(peer.id, .newPooledTransactionHashes (hashesToSend.take 4096))])
  else (self, [])

/-- An array without the three lists has no hashes to walk over. -/
def sendNewTxHashes (self : PeerTxPool) (txs : Option Announcement) :
    List TxPeer → PeerTxPool × List (String × TxMessage) × Except String Unit
  | [] => (self, [], .ok ())
  | peer :: peers =>
    match txs with
    | none => (self, [], .error "txHashes is not iterable")
    | some announcement =>
      let (self, sent) := self.sendToPeer announcement peer
      let (self, later, outcome) := sendNewTxHashes self txs peers
      (self, sent ++ later, outcome)

/-- The transactions come with their hashes. -/
def sendTransactions (self : PeerTxPool) (txs : List (Tx.Transaction × Bytes)) :
    List TxPeer → PeerTxPool × List (String × TxMessage)
  | [] => (self, [])
  | peer :: peers =>
    if txs.length > 0 then
      let (newHashes, self) := self.addToKnownByPeer (txs.map Prod.snd) peer
      let newTxs := (txs.filter fun entry => newHashes.contains entry.2).map Prod.fst
      let sent := if peer.eth.isSome then [(peer.id, TxMessage.transactions newTxs)] else []
      let (self, later) := sendTransactions self txs peers
      (self, sent ++ later)
    else (self, [])

end Send

section Handle

variable (config : PoolConfig)

/-- `push` on each of the three lists, if they are there. -/
def pushTx (newTxHashes : Option Announcement) (tx : Tx.Transaction) : Except String Announcement :=
  match newTxHashes with
  | none => .error "Cannot read properties of undefined (reading 'push')"
  | some txs => do
    let hash ← TxPool.hash config tx
    return ⟨txs.types ++ [tx.type], txs.sizes ++ [tx.serialize.length], txs.hashes ++ [hash]⟩

/-- `add` of a transaction that is not a local one. -/
def addIncoming (self : TxPool) (incoming : IncomingTx) : TxPool × Except String Unit :=
  self.add config { incoming.request with isLocalTransaction := false } incoming.added

/-- The `try` of `handleAnnouncedTxs`, which catches also what `push` throws. -/
def announceTx : TxPool × Option Announcement → IncomingTx → TxPool × Option Announcement
  | (self, newTxHashes), incoming =>
    match addIncoming config self incoming with
    | (self, .error _) => (self, newTxHashes)
    | (self, .ok ()) =>
      match pushTx config newTxHashes incoming.tx with
      | .error _ => (self, newTxHashes)
      | .ok txs => (self, some txs)

/-- The lists of `handleAnnouncedTxs` start as an empty array instead of one with three lists. -/
def handleAnnouncedTxs (self : PeerTxPool) (txs : List IncomingTx) (peer : TxPeer)
    (peerPool : PeerPool) : Announced :=
  if !self.running || txs.length = 0 then ⟨self, [], none, .ok ()⟩
  else
    match txs.mapM fun incoming => TxPool.hash config incoming.tx with
    | .error e => ⟨self, [], none, .error e⟩
    | .ok hashes =>
      let (_, self) := self.addToKnownByPeer hashes peer
      let (pool, newTxHashes) := txs.foldl (announceTx config) (self.toTxPool, none)
      let self := { self with toTxPool := pool }
      let peers := peerPool.peers
      let sendFull := max 1 (peers.length / NUM_PEERS_REBROADCAST_QUOTIENT)
      let (self, full) := self.sendTransactions ((txs.map IncomingTx.tx).zip hashes)
        (peers.take sendFull)
      let (self, sent, outcome) := self.sendNewTxHashes newTxHashes (peers.drop sendFull)
      ⟨self, full ++ sent, some newTxHashes, outcome⟩

/-- The loop of `handleAnnouncedTxHashes`, where the lists grow behind the `try`. -/
def announceAll : TxPool → Announcement → List IncomingTx → TxPool × Except String Announcement
  | self, newTxHashes, [] => (self, .ok newTxHashes)
  | self, newTxHashes, incoming :: txs =>
    let (self, _) := addIncoming config self incoming
    match pushTx config (some newTxHashes) incoming.tx with
    | .error e => (self, .error e)
    | .ok newTxHashes => announceAll self newTxHashes txs

/-- The hashes that are neither pending nor handled. -/
def reqHashes (self : PeerTxPool) (txHashes : List Bytes) : List Bytes :=
  txHashes.filter fun txHash =>
    !(self.pending.contains txHash || (self.handled.get txHash).isSome)

/-- The answer of the peer is `undefined` where its request fails. -/
def handleAnnouncedTxHashes (self : PeerTxPool) (txHashes : List Bytes) (peer : TxPeer)
    (getPooledTransactions : List Bytes → Option (List IncomingTx)) (peerPool : PeerPool) :
    Announced :=
  if !self.running || txHashes.length = 0 then ⟨self, [], none, .ok ()⟩
  else
    let (_, self) := self.addToKnownByPeer txHashes peer
    let reqHashes := self.reqHashes txHashes
    if reqHashes.length = 0 then ⟨self, [], none, .ok ()⟩
    else
      let pending := self.pending ++ reqHashes
      let getPooledTxs := if peer.eth.isSome then
        getPooledTransactions (reqHashes.take TX_RETRIEVAL_LIMIT) else none
      let self := { self with pending := pending.filter fun hash => !reqHashes.contains hash }
      match getPooledTxs with
      | none => ⟨self, [], none, .ok ()⟩
      | some txs =>
        match announceAll config self.toTxPool ⟨[], [], []⟩ txs with
        | (pool, .error e) => ⟨{ self with toTxPool := pool }, [], none, .error e⟩
        | (pool, .ok newTxHashes) =>
          let self := { self with toTxPool := pool }
          let (self, sent, outcome) := self.sendNewTxHashes (some newTxHashes) peerPool.peers
          ⟨self, sent, some (some newTxHashes), outcome⟩

end Handle

section Spec

variable (config : PoolConfig)

/-- The transactions that `add` takes, one after the other. -/
def acceptedTxs : TxPool → List IncomingTx → List Tx.Transaction
  | _, [] => []
  | self, incoming :: txs =>
    match addIncoming config self incoming with
    | (self, .error _) => acceptedTxs self txs
    | (self, .ok ()) => incoming.tx :: acceptedTxs self txs

/-- An announcement lists transactions by type, size and hash. -/
def Lists (txs : List Tx.Transaction) : Option Announcement → Prop
  | none => txs = []
  | some announcement => announcement.types = txs.map Tx.Transaction.type ∧
    announcement.sizes = txs.map (fun tx => tx.serialize.length) ∧
    announcement.hashes.map Except.ok = txs.map (TxPool.hash config)

/-- A handler does not throw, and announces what was accepted. -/
def AnnouncesExactly (before : TxPool) (txs : List IncomingTx) (result : Announced) : Prop :=
  result.outcome = .ok () ∧
    ∀ announcement, result.handed = some announcement →
      Lists config (acceptedTxs config before txs) announcement

/-- An announced transaction. -/
structure Entry where
  type : TransactionType
  size : Nat
  hash : Bytes

def announce (entries : List Entry) : Announcement :=
  ⟨entries.map Entry.type, entries.map Entry.size, entries.map Entry.hash⟩

/-- The announced transactions that are not known, each once. -/
def unknown : List Bytes → List Entry → List Entry
  | _, [] => []
  | known, entry :: entries =>
    if entry.hash ∈ known then unknown known entries
    else entry :: unknown (known ++ [entry.hash]) entries

/-- A chunk of an announcement in the form for a peer. -/
def chunkMessage (peer : TxPeer) (chunk : List Entry) : TxMessage :=
  if peer.hasEth68 then
    .newPooledTransactionHashes68 (chunk.map fun entry => some entry.type)
      (chunk.map fun entry => some entry.size) (chunk.map Entry.hash)
  else .newPooledTransactionHashes (chunk.map Entry.hash)

/-- Each peer gets in chunks what it does not know. -/
def SendsExactly (self : PeerTxPool) (entries : List Entry) (peers : List TxPeer) : Prop :=
  (self.sendNewTxHashes (some (announce entries)) peers).2.2 = .ok () ∧
    ∀ peer ∈ peers, ∃ chunks : List (List Entry),
      ((self.sendNewTxHashes (some (announce entries)) peers).2.1.filter
        (fun message => message.1 = peer.id)).map Prod.snd = chunks.map (chunkMessage peer) ∧
      chunks.flatten = unknown (self.knownByPeer peer.id) entries

end Spec

end PeerTxPool

end EthereumJS.Client
