import EthereumJS.Util.Bytes

/-! # K-buckets

The binary tree of buckets of `ext/kbucket.ts` and the table of `dpt/kbucket.ts` over it, for
peers with an id. The path to a bucket is given by the bits of the id.
-/

namespace EthereumJS.Devp2p

structure PeerInfo where
  id : Bytes
  address : Option String
  udpPort : Option Nat
  tcpPort : Option Nat
  deriving DecidableEq

inductive KBucketNode
  | leaf (contacts : List PeerInfo) (noSplit : Bool)
  | inner (left right : KBucketNode)

/-- What `add` did with a contact. -/
inductive KBucketEvent
  | added
  | updated
  | ping (oldPeers : List PeerInfo)
  deriving DecidableEq

namespace KBucketNode

/-- `_determineNode`: whether the bit of the id leads to the right. -/
def determineRight (id : Bytes) (bitIndex : Nat) : Bool :=
  if id.length ≤ bitIndex / 8 ∧ bitIndex % 8 ≠ 0 then false
  else (id.getD (bitIndex / 8) 0).toNat.testBit (7 - bitIndex % 8)

def toArray : KBucketNode → List PeerInfo
  | leaf contacts _ => contacts
  | inner left right => left.toArray ++ right.toArray

def indexOf (contacts : List PeerInfo) (id : Bytes) : Option Nat :=
  contacts.findIdx? fun contact => contact.id = id

/-- `_split`; the bucket that the local node is not in is not split again. -/
def split (localNodeId : Bytes) (contacts : List PeerInfo) (bitIndex : Nat) : KBucketNode :=
  let localRight := determineRight localNodeId bitIndex
  inner
    (leaf (contacts.filter fun contact => !determineRight contact.id bitIndex) localRight)
    (leaf (contacts.filter fun contact => determineRight contact.id bitIndex) !localRight)

/-- The call of `add` after a split comes back to the node that was split. `none` is a stack that
is too deep. -/
def add (localNodeId : Bytes) (numberOfNodesPerKBucket numberOfNodesToPing : Nat)
    (contact : PeerInfo) : Nat → KBucketNode → Nat → Option (KBucketNode × KBucketEvent)
  | 0, _, _ => none
  | fuel + 1, inner left right, bitIndex =>
    if determineRight contact.id bitIndex then
      (add localNodeId numberOfNodesPerKBucket numberOfNodesToPing contact fuel right
        (bitIndex + 1)).map fun (right, event) => (inner left right, event)
    else
      (add localNodeId numberOfNodesPerKBucket numberOfNodesToPing contact fuel left
        (bitIndex + 1)).map fun (left, event) => (inner left right, event)
  | fuel + 1, leaf contacts noSplit, bitIndex =>
    match indexOf contacts contact.id with
    | some index => some (leaf (contacts.eraseIdx index ++ [contact]) noSplit, .updated)
    | none =>
      if contacts.length < numberOfNodesPerKBucket then
        some (leaf (contacts ++ [contact]) noSplit, .added)
      else if noSplit then
        some (leaf contacts noSplit, .ping (contacts.take numberOfNodesToPing))
      else
        add localNodeId numberOfNodesPerKBucket numberOfNodesToPing contact fuel
          (split localNodeId contacts bitIndex) bitIndex

/-- `remove`, with the contact that it removed. -/
def remove (id : Bytes) : KBucketNode → Nat → KBucketNode × Option PeerInfo
  | leaf contacts noSplit, _ =>
    match indexOf contacts id with
    | some index => (leaf (contacts.eraseIdx index) noSplit, contacts[index]?)
    | none => (leaf contacts noSplit, none)
  | inner left right, bitIndex =>
    if determineRight id bitIndex then
      let (right, contact) := remove id right (bitIndex + 1)
      (inner left right, contact)
    else
      let (left, contact) := remove id left (bitIndex + 1)
      (inner left right, contact)

end KBucketNode

/-- The table of peers by key, and the tree of buckets. -/
structure KBucket where
  peers : HexString → Option PeerInfo
  localNodeId : Bytes
  root : KBucketNode

namespace KBucket

def KBUCKET_SIZE : Nat := 16

def KBUCKET_CONCURRENCY : Nat := 3

/-- The keys of a peer: its id, and its address with a TCP port. -/
def getKeys (peer : PeerInfo) : List HexString :=
  let id := ((bytesToHex peer.id).drop 2)
  match peer.address, peer.tcpPort with
  | some address, some tcpPort => [id, s!"{address}:{tcpPort}".toList]
  | _, _ => [id]

variable (kbucket : KBucket)

/-- The entries of the table that the listeners of `added` and `removed` write. -/
def setKeys (peer : PeerInfo) (entry : Option PeerInfo) : KBucket :=
  { kbucket with
    peers := (getKeys peer).foldl (fun peers key => Function.update peers key entry) kbucket.peers }

/-- The event of a call is `none` where the peer is known or the stack is too deep. -/
def add (fuel : Nat) (peer : PeerInfo) : KBucket × Option KBucketEvent :=
  if (getKeys peer).any fun key => (kbucket.peers key).isSome then (kbucket, none)
  else
    match kbucket.root.add kbucket.localNodeId KBUCKET_SIZE KBUCKET_CONCURRENCY peer fuel 0 with
    | none => (kbucket, none)
    | some (root, .added) =>
      ({ kbucket with root := root }.setKeys peer (some peer), some .added)
    | some (root, event) => ({ kbucket with root := root }, some event)

def get (peer : PeerInfo) : Option PeerInfo := (getKeys peer).findSome? kbucket.peers

/-- The second component is the peer of the event `removed`. -/
def remove (peer : PeerInfo) : KBucket × Option PeerInfo :=
  match kbucket.get peer with
  | none => (kbucket, none)
  | some known =>
    match kbucket.root.remove known.id 0 with
    | (root, none) => ({ kbucket with root := root }, none)
    | (root, some contact) =>
      ({ kbucket with root := root }.setKeys contact none, some contact)

end KBucket

end EthereumJS.Devp2p
