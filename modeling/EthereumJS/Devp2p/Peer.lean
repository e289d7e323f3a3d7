import EthereumJS.Devp2p.Ecies

/-! # RLPx peers

The receiving and sending side of `peer.ts`. Decompression, decoding and the handling of a
message are one parameter: a handler may send messages, learn HELLO, add protocols, close
the peer or throw. Pings and the events are left out.
-/

namespace EthereumJS.Devp2p

open RLP Overlay

inductive PeerState
  | auth
  | ack
  | header
  | body
  deriving DecidableEq

/-- The callbacks that wait for the event loop. -/
inductive Deferred
  | sendAck
  | sendHello
  deriving DecidableEq

structure ProtocolDescriptor where
  offset : Nat
  length : Nat

structure Peer where
  session : ECIES
  state : PeerState
  nextPacketSize : Nat
  socketData : Bytes
  closed : Bool
  /-- `_socket.destroyed`. -/
  destroyed : Bool
  hello : Bool
  protocols : List ProtocolDescriptor
  /-- What was written to the socket. -/
  written : Bytes
  /-- The bodies that `parseBody` has returned. -/
  received : List Bytes
  deferred : List Deferred

abbrev PeerM := EStateM RlpxError Peer

/-- What the handling of a message does to a peer. -/
structure Handling where
  sends : List (Nat × Bytes)
  hello : Bool
  protocols : Option (List ProtocolDescriptor)
  closes : Bool
  error : Option RlpxError

structure PeerConfig where
  crypto : Crypto
  /-- `_EIP8 === true`. -/
  eip8 : Bool
  /-- The encoded payload of HELLO. -/
  helloPayload : Bytes
  handleMessage : Peer → (offset msgCode : Nat) → (payload : Bytes) → Handling

def HELLO : Nat := 0
def DISCONNECT : Nat := 1
def BASE_PROTOCOL_LENGTH : Nat := 16
def PROTOCOL_ERROR : Nat := 2
def SUBPROTOCOL_ERROR : Nat := 16

/-- `RLP.encode` of a number. -/
def encodeCode (code : Nat) : Bytes := encode (.bytes (if code = 0 then [] else numberToBytes code))

/-- A computation on the session of a peer. -/
def onSession {α : Type} (x : EciesM α) : PeerM α := fun peer =>
  match x peer.session with
  | .ok a session => .ok a { peer with session := session }
  | .error e session => .error e { peer with session := session }

variable (cfg : PeerConfig)

namespace Peer

def write (bytes : Bytes) : PeerM Unit :=
  modify fun peer => { peer with written := peer.written ++ bytes }

/-- Whether the message was written. -/
def sendMessage (code : Nat) (data : Bytes) : PeerM Bool := do
  if (← get).closed then return false
  let msg := encodeCode code ++ data
  match ← onSession (ECIES.createBlockHeader cfg.crypto msg.length) with
  | none => return false
  | some header =>
    if (← get).destroyed then return false
    write header
    match ← onSession (ECIES.createBody cfg.crypto msg) with
    | none => return false
    | some body =>
      if (← get).destroyed then return false
      write body
      return true

def sendHello : PeerM Unit := do
  if (← get).closed then return
  let _ ← sendMessage cfg HELLO cfg.helloPayload

/-- `_sendDisconnect`. -/
def disconnect (reason : Nat) : PeerM Unit := do
  if ← sendMessage cfg DISCONNECT (encodeCode reason) then
    modify fun peer => { peer with closed := true }

def sendAuth : PeerM Unit := do
  if (← get).closed then return
  match (← get).session.createAuth cfg.crypto cfg.eip8 with
  | none => return
  | some (auth, session) =>
    modify fun peer => { peer with session := session }
    write auth
    modify fun peer => { peer with state := .ack, nextPacketSize := 210 }

def sendAck : PeerM Unit := do
  if (← get).closed then return
  match ← onSession (ECIES.createAck cfg.crypto) with
  | none => return
  | some ack =>
    write ack
    modify fun peer => { peer with state := .header, nextPacketSize := 32 }
    sendHello cfg

/-- The bytes that a handler reads. -/
def packet (peer : Peer) : Bytes := peer.socketData.take peer.nextPacketSize

def consume (bytesCount : Nat) : PeerM Unit :=
  modify fun peer => { peer with socketData := peer.socketData.drop bytesCount }

def defer (callback : Deferred) : PeerM Unit :=
  modify fun peer => { peer with deferred := peer.deferred ++ [callback] }

/-- The handling of a handshake packet. The `===` of two arrays is false, so no packet counts
as a plain one: the first call reads the size, the next one the packet. -/
def handleHandshake (got : ECIES → Bool) (setGot : ECIES → ECIES) (parse : Bytes → EciesM Unit)
    (callback : Deferred) : PeerM Unit := do
  let peer ← get
  if ¬ got peer.session then
    modify fun peer =>
      { peer with
        session := setGot peer.session
        nextPacketSize := bytesToNumber (peer.socketData.take 2) + 2 }
  else
    onSession (parse peer.packet)
    modify fun peer => { peer with state := .header, nextPacketSize := 32 }
    defer callback
    consume peer.nextPacketSize

def handleAuth : PeerM Unit :=
  handleHandshake ECIES.gotEIP8Auth (fun session => { session with gotEIP8Auth := true })
    (ECIES.parseAuthEIP8 cfg.crypto) .sendAck

def handleAck : PeerM Unit :=
  handleHandshake ECIES.gotEIP8Ack (fun session => { session with gotEIP8Ack := true })
    (ECIES.parseAckEIP8 cfg.crypto) .sendHello

/-- The size of a body with its padding and its MAC. -/
def bodyPacketSize (size : Nat) : Nat :=
  if size % 16 > 0 then size + 16 + (16 - size % 16) else size + 16

def handleHeader : PeerM Unit := do
  let peer ← get
  match ← onSession (ECIES.parseHeader cfg.crypto peer.packet) with
  | none => return
  | some size =>
    modify fun peer => { peer with state := .body, nextPacketSize := bodyPacketSize size }
    consume peer.nextPacketSize

/-- The offset of the protocol that a code belongs to. -/
def getProtocol (peer : Peer) (code : Nat) : Option Nat :=
  if code < BASE_PROTOCOL_LENGTH then some 0
  else
    (peer.protocols.find? fun obj => obj.offset ≤ code ∧ code < obj.offset + obj.length).map
      ProtocolDescriptor.offset

def sendMessages : List (Nat × Bytes) → PeerM Unit
  | [] => pure ()
  | (code, data) :: sends => do
    let _ ← sendMessage cfg code data
    sendMessages sends

/-- The `try` block of `_handleBody`. -/
def handlePayload (offset msgCode : Nat) (payload : Bytes) : PeerM Unit := do
  let handling := cfg.handleMessage (← get) offset msgCode payload
  sendMessages cfg handling.sends
  modify fun peer =>
    { peer with
      hello := peer.hello || handling.hello
      protocols := handling.protocols.getD peer.protocols
      closed := peer.closed || handling.closes }
  if handling.error.isSome then disconnect cfg SUBPROTOCOL_ERROR

/-- The code of a body; the empty string stands for zero. -/
def bodyCode (body : Bytes) : Option Nat :=
  body.head?.map fun b => if b = 0x80 then 0 else b.toNat

/-- What follows once the body is known. The two early returns leave the body in the buffer. -/
def dispatch (bytesCount : Nat) (body : Bytes) : PeerM Unit := do
  let code := bodyCode body
  if code ≠ some HELLO ∧ code ≠ some DISCONNECT ∧ ¬ (← get).hello then
    disconnect cfg PROTOCOL_ERROR
  else
    match code.bind (getProtocol (← get)) with
    | none => disconnect cfg PROTOCOL_ERROR
    | some offset =>
      handlePayload cfg offset (code.getD 0 - offset) (body.drop 1)
      consume bytesCount

def handleBody : PeerM Unit := do
  let peer ← get
  match ← onSession (ECIES.parseBody cfg.crypto peer.packet) with
  | none => return
  | some body =>
    modify fun peer =>
      { peer with state := .header, nextPacketSize := 32, received := peer.received ++ [body] }
    dispatch cfg peer.nextPacketSize body

/-- One iteration of the loop of `_onSocketData`. -/
def handle : PeerM Unit := do
  match (← get).state with
  | .auth => handleAuth cfg
  | .ack => handleAck cfg
  | .header => handleHeader cfg
  | .body => handleBody cfg

/-- The loop with a number of iterations that may run out. -/
def drain : Nat → Peer → Option (EStateM.Result RlpxError Peer Unit)
  | 0, peer => if peer.socketData.length < peer.nextPacketSize then some (.ok () peer) else none
  | fuel + 1, peer =>
    if peer.socketData.length < peer.nextPacketSize then some (.ok () peer)
    else
      match handle cfg peer with
      | .ok _ peer => drain fuel peer
      | .error e peer => some (.error e peer)

def onSocketData (fuel : Nat) (data : Bytes) (peer : Peer) : Option Peer :=
  if peer.closed then some peer
  else
    match drain cfg fuel { peer with socketData := peer.socketData ++ data } with
    | none => none
    | some (.ok _ peer) => some peer
    | some (.error _ peer) => some (endState (disconnect cfg SUBPROTOCOL_ERROR peer))

/-- The constructor. -/
def create (nonce : Bytes) (remoteId : Option Bytes) : Peer :=
  let peer : Peer :=
    { session := ECIES.create nonce remoteId
      state := .auth
      nextPacketSize := 307
      socketData := []
      closed := false
      destroyed := false
      hello := false
      protocols := []
      written := []
      received := []
      deferred := [] }
  if remoteId.isSome then endState (sendAuth cfg peer) else peer

def runDeferred : Deferred → PeerM Unit
  | .sendAck => sendAck cfg
  | .sendHello => sendHello cfg

end Peer

end EthereumJS.Devp2p
