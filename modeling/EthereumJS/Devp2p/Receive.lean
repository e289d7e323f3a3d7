import Mathlib.Logic.Relation
import EthereumJS.Devp2p.Peer

/-! # Receiving

Which part of a peer the sending side leaves alone, the invariant of a reachable peer, and
the inputs on which the loop of `_onSocketData` ends.
-/

namespace EthereumJS.Devp2p

open Overlay RLP

/-- The receiving side of a peer. -/
structure Framing where
  ingressAes : Option Cipher
  ingressMac : Option MAC
  bodySize : Option Nat
  state : PeerState
  nextPacketSize : Nat
  socketData : Bytes
  received : List Bytes

def ECIES.ingress (session : ECIES) : Option Cipher × Option MAC × Option Nat :=
  (session.ingressAes, session.ingressMac, session.bodySize)

def Peer.framing (peer : Peer) : Framing :=
  ⟨peer.session.ingressAes, peer.session.ingressMac, peer.session.bodySize, peer.state,
    peer.nextPacketSize, peer.socketData, peer.received⟩

variable {cfg : PeerConfig} {peer peer' : Peer}

section Sending

theorem keeps_onSession {α : Type} {x : EciesM α} (h : Keeps ECIES.ingress x) :
    Keeps Peer.framing (onSession x) := by
  intro peer
  have hsession := h peer.session
  unfold onSession
  cases hx : x peer.session with
  | ok a session =>
    rw [hx] at hsession
    simp only [ECIES.ingress, endState_ok, Prod.mk.injEq] at hsession
    simp only [Peer.framing, endState_ok, hsession]
  | error e session =>
    rw [hx] at hsession
    simp only [ECIES.ingress, endState_error, Prod.mk.injEq] at hsession
    simp only [Peer.framing, endState_error, hsession]

theorem keeps_createBlockHeader (crypto : Crypto) (size : Nat) :
    Keeps ECIES.ingress (ECIES.createBlockHeader crypto size) := by
  refine keeps_get.bind fun session => ?_
  cases session.egressAes with
  | none => exact keeps_pure _
  | some aes =>
    dsimp only
    refine Keeps.bind (keeps_modify ?_) fun _ => keeps_get.bind fun session => ?_
    · exact fun _ => rfl
    · cases session.egressMac with
      | none => exact keeps_pure _
      | some mac =>
        refine Keeps.bind (keeps_modify ?_) fun _ => keeps_pure _
        exact fun _ => rfl

theorem keeps_createBody (crypto : Crypto) (data : Bytes) :
    Keeps ECIES.ingress (ECIES.createBody crypto data) := by
  refine keeps_get.bind fun session => ?_
  cases session.egressAes with
  | none => exact keeps_pure _
  | some aes =>
    dsimp only
    refine Keeps.bind (keeps_modify ?_) fun _ => keeps_get.bind fun session => ?_
    · exact fun _ => rfl
    · cases session.egressMac with
      | none => exact keeps_pure _
      | some mac =>
        refine Keeps.bind (keeps_modify ?_) fun _ => keeps_pure _
        exact fun _ => rfl

theorem keeps_write (bytes : Bytes) : Keeps Peer.framing (Peer.write bytes) :=
  keeps_modify fun _ => rfl

theorem keeps_sendMessage (code : Nat) (data : Bytes) :
    Keeps Peer.framing (Peer.sendMessage cfg code data) := by
  refine keeps_get.bind fun peer => .ite (keeps_pure _) ?_
  refine (keeps_onSession (keeps_createBlockHeader _ _)).bind fun header => ?_
  cases header with
  | none => exact keeps_pure _
  | some header =>
    refine keeps_get.bind fun peer => .ite (keeps_pure _) ?_
    refine (keeps_write header).bind fun _ => ?_
    refine (keeps_onSession (keeps_createBody _ _)).bind fun body => ?_
    cases body with
    | none => exact keeps_pure _
    | some body =>
      exact keeps_get.bind fun peer => .ite (keeps_pure _)
        ((keeps_write body).bind fun _ => keeps_pure _)

theorem keeps_disconnect (reason : Nat) : Keeps Peer.framing (Peer.disconnect cfg reason) :=
  (keeps_sendMessage _ _).bind fun _ => .ite (keeps_modify fun _ => rfl) (keeps_pure _)

theorem keeps_sendMessages (sends : List (Nat × Bytes)) :
    Keeps Peer.framing (Peer.sendMessages cfg sends) := by
  induction sends with
  | nil => exact keeps_pure _
  | cons send sends ih => exact (keeps_sendMessage _ _).bind fun _ => ih

theorem keeps_sendHello : Keeps Peer.framing (Peer.sendHello cfg) :=
  keeps_get.bind fun _ => .ite (keeps_pure _) ((keeps_sendMessage _ _).bind fun _ => keeps_pure _)

theorem keeps_handlePayload (cfg : PeerConfig) (offset msgCode : Nat) (payload : Bytes) :
    Keeps Peer.framing (Peer.handlePayload cfg offset msgCode payload) := by
  refine keeps_get.bind fun peer => (keeps_sendMessages _).bind fun _ => ?_
  refine Keeps.bind (keeps_modify ?_) fun _ => Keeps.ite (keeps_disconnect _) (keeps_pure _)
  exact fun _ => rfl

end Sending

section Session

/-- The keys of the incoming frames are set. -/
def ECIES.HasKeys (session : ECIES) : Prop := session.ingressMac.isSome ∧ session.ingressAes.isSome

variable {crypto : Crypto} {session : ECIES}

theorem parseHeader_of_no_keys (data : Bytes) (h : session.ingressMac = none) :
    ECIES.parseHeader crypto data session = .ok none session := by
  unfold ECIES.parseHeader
  rw [get_bind, h]
  rfl

theorem assertEq_of_eq {α : Type} [DecidableEq α] {expected actual : α} {e : RlpxError}
    (h : expected = actual) : assertEq expected actual e session = .ok () session :=
  congrFun (if_pos h) session

theorem assertEq_of_ne {α : Type} [DecidableEq α] {expected actual : α} {e : RlpxError}
    (h : expected ≠ actual) : assertEq expected actual e session = .error e session :=
  congrFun (if_neg h) session

/-- With keys a header is refused or read. -/
theorem parseHeader_cases (crypto : Crypto) (data : Bytes) (h : session.HasKeys) :
    (∃ session', ECIES.parseHeader crypto data session = .error .invalidMac session' ∧
      session'.HasKeys) ∨
    ∃ size session', ECIES.parseHeader crypto data session = .ok (some size) session' ∧
      session'.HasKeys := by
  obtain ⟨ingressMac, hmac⟩ := Option.isSome_iff_exists.mp h.1
  obtain ⟨aes, haes⟩ := Option.isSome_iff_exists.mp h.2
  unfold ECIES.parseHeader
  rw [get_bind, hmac]
  dsimp only
  rw [modify_bind]
  rcases Classical.em ((ingressMac.updateHeader crypto (data.take 16)).digest crypto =
    (data.drop 16).take 16) with heq | hne
  · right
    rw [bind_of_ok (assertEq_of_eq heq), get_bind, haes]
    exact ⟨_, _, rfl, rfl, rfl⟩
  · left
    rw [bind_of_error (assertEq_of_ne hne)]
    exact ⟨_, rfl, rfl, haes ▸ rfl⟩

/-- With keys a body is refused or read. -/
theorem parseBody_cases (crypto : Crypto) (data : Bytes) (h : session.HasKeys) :
    (∃ e session', ECIES.parseBody crypto data session = .error e session' ∧ session'.HasKeys) ∨
    ∃ body session', ECIES.parseBody crypto data session = .ok (some body) session' ∧
      session'.HasKeys := by
  obtain ⟨ingressMac, hmac⟩ := Option.isSome_iff_exists.mp h.1
  obtain ⟨aes, haes⟩ := Option.isSome_iff_exists.mp h.2
  unfold ECIES.parseBody
  rw [get_bind]
  cases session.bodySize with
  | none => exact .inl ⟨_, _, rfl, h⟩
  | some size =>
    dsimp only
    rw [get_bind, hmac]
    dsimp only
    rw [modify_bind]
    rcases Classical.em ((ingressMac.updateBody crypto
        (data.take (data.length - 16))).digest crypto = data.drop (data.length - 16)) with heq | hne
    · right
      rw [bind_of_ok (assertEq_of_eq heq), modify_bind, get_bind, haes]
      exact ⟨_, _, rfl, rfl, rfl⟩
    · left
      rw [bind_of_error (assertEq_of_ne hne)]
      exact ⟨_, _, rfl, rfl, haes ▸ rfl⟩

/-- The MAC and the cipher of the incoming frames are set together. -/
def ECIES.KeysTogether (session : ECIES) : Prop :=
  session.ingressMac.isSome → session.ingressAes.isSome

theorem keysTogether_setupFrame (remoteData : Bytes) (incoming : Bool) (h : session.KeysTogether) :
    (session.setupFrame crypto remoteData incoming).KeysTogether := by
  unfold ECIES.setupFrame
  split
  · exact fun _ => rfl
  · exact h

theorem preserves_liftEcies {α : Type} {P : ECIES → Prop} (x : Except RlpxError α) :
    Preserves P (liftEcies x) := by
  cases x with
  | ok a => exact preserves_pure a
  | error e => exact preserves_throw e

theorem keeps_assertEq {α : Type} [DecidableEq α] (expected actual : α) (e : RlpxError) :
    Keeps ECIES.ingress (assertEq expected actual e) :=
  .ite (keeps_pure _) (keeps_throw _)

theorem preserves_assertEq {α : Type} [DecidableEq α] {P : ECIES → Prop} (expected actual : α)
    (e : RlpxError) : Preserves P (assertEq expected actual e) :=
  .ite (preserves_pure _) (preserves_throw _)

theorem keeps_parseAuth (data : Bytes) :
    Keeps ECIES.ingress (ECIES.parseAuthEIP8 crypto data) := by
  have hlift : ∀ {α : Type} (x : Except RlpxError α), Keeps ECIES.ingress (liftEcies x) := by
    intro α x
    cases x with
    | ok a => exact keeps_pure a
    | error e => exact keeps_throw e
  refine Keeps.bind (keeps_assertEq _ _ _) fun _ => ?_
  refine Keeps.bind (keeps_modify fun _ => rfl) fun _ => (hlift _).bind fun decoded => ?_
  refine Keeps.bind (keeps_modify fun _ => rfl) fun _ => (hlift _).bind fun secret => ?_
  exact keeps_modify fun _ => rfl

theorem preserves_parseAck (data : Bytes) :
    Preserves ECIES.KeysTogether (ECIES.parseAckEIP8 crypto data) := by
  refine Preserves.bind (preserves_assertEq _ _ _) fun _ => ?_
  refine (preserves_liftEcies _).bind fun decoded => ?_
  refine Preserves.bind (preserves_modify fun _ h => h) fun _ => ?_
  refine (preserves_liftEcies _).bind fun secret => ?_
  refine Preserves.bind (preserves_modify fun _ h => h) fun _ => ?_
  exact preserves_modify fun _ h => keysTogether_setupFrame _ _ h

/-- Keys that are set stay so. -/
theorem hasKeys_setupFrame (remoteData : Bytes) (incoming : Bool) {m : Prop}
    (h : session.KeysTogether ∧ (m → session.ingressMac.isSome)) :
    (session.setupFrame crypto remoteData incoming).KeysTogether ∧
      (m → (session.setupFrame crypto remoteData incoming).ingressMac.isSome) := by
  refine ⟨keysTogether_setupFrame _ _ h.1, fun hm => ?_⟩
  unfold ECIES.setupFrame
  split
  · rfl
  · exact h.2 hm

theorem preserves_createAck (crypto : Crypto) (m : Prop) :
    Preserves (fun session => session.KeysTogether ∧ (m → session.ingressMac.isSome))
      (ECIES.createAck crypto) := by
  refine preserves_get.bind fun session => ?_
  cases session.remotePublicKey with
  | none =>
    refine Preserves.ite (preserves_pure _) ?_
    refine Preserves.bind (preserves_modify fun _ h => h) fun _ => ?_
    cases session.remoteInitMsg with
    | none => exact preserves_pure _
    | some remoteInitMsg =>
      refine Preserves.bind (preserves_modify ?_) fun _ => preserves_pure _
      exact fun _ h => hasKeys_setupFrame remoteInitMsg true h
  | some key =>
    refine Preserves.bind (preserves_modify fun _ h => h) fun _ => ?_
    cases session.remoteInitMsg with
    | none => exact preserves_pure _
    | some remoteInitMsg =>
      refine Preserves.bind (preserves_modify ?_) fun _ => preserves_pure _
      exact fun _ h => hasKeys_setupFrame remoteInitMsg true h

end Session

/-- The invariant of the receiving side. -/
structure Framing.Valid (framing : Framing) : Prop where
  keys : framing.ingressMac.isSome → framing.ingressAes.isSome
  header : framing.state = .header → framing.nextPacketSize = 32
  body : framing.state = .body → framing.ingressMac.isSome ∧ 16 ≤ framing.nextPacketSize
  handshake : framing.state = .auth ∨ framing.state = .ack → 2 ≤ framing.nextPacketSize

theorem Framing.Valid.congr (h : peer.framing.Valid) (heq : peer'.framing = peer.framing) :
    peer'.framing.Valid := heq ▸ h

theorem Framing.Valid.hasKeys (h : peer.framing.Valid) (hmac : peer.session.ingressMac.isSome) :
    peer.session.HasKeys :=
  ⟨hmac, h.keys hmac⟩

theorem Framing.Valid.of_header (hkeys : peer.session.KeysTogether)
    (hstate : peer.state = .header) (hsize : peer.nextPacketSize = 32) : peer.framing.Valid := by
  refine ⟨hkeys, fun _ => hsize, fun hbody => ?_, fun hhandshake => ?_⟩
  · exact absurd (hstate.symm.trans hbody) (by decide)
  · rcases hhandshake with hauth | hack
    · exact absurd (hstate.symm.trans hauth) (by decide)
    · exact absurd (hstate.symm.trans hack) (by decide)

theorem Framing.Valid.of_handshake (hkeys : peer.session.KeysTogether)
    (hstate : peer.state = .auth ∨ peer.state = .ack) (hsize : 2 ≤ peer.nextPacketSize) :
    peer.framing.Valid := by
  refine ⟨hkeys, fun hheader => ?_, fun hbody => ?_, fun _ => hsize⟩
  · rcases hstate with hauth | hack
    · exact absurd (hauth.symm.trans hheader) (by decide)
    · exact absurd (hack.symm.trans hheader) (by decide)
  · rcases hstate with hauth | hack
    · exact absurd (hauth.symm.trans hbody) (by decide)
    · exact absurd (hack.symm.trans hbody) (by decide)

section Handlers

theorem onSession_of_ok {α : Type} {x : EciesM α} {a : α} {session : ECIES}
    (h : x peer.session = .ok a session) :
    onSession x peer = .ok a { peer with session := session } := by
  unfold onSession
  rw [h]

theorem onSession_of_error {α : Type} {x : EciesM α} {e : RlpxError} {session : ECIES}
    (h : x peer.session = .error e session) :
    onSession x peer = .error e { peer with session := session } := by
  unfold onSession
  rw [h]

/-- Without keys a header stays where it is. -/
theorem handle_header_of_no_keys (hstate : peer.state = .header)
    (hmac : peer.session.ingressMac = none) : Peer.handle cfg peer = .ok () peer := by
  unfold Peer.handle
  rw [get_bind, hstate]
  change Peer.handleHeader cfg peer = _
  unfold Peer.handleHeader
  rw [get_bind, bind_of_ok (onSession_of_ok (parseHeader_of_no_keys _ hmac))]
  rfl

theorem handle_header_cases (cfg : PeerConfig) (h : peer.framing.Valid) (hstate : peer.state = .header)
    (hmac : peer.session.ingressMac.isSome) :
    (∃ e peer', Peer.handle cfg peer = .error e peer' ∧ peer'.framing.Valid) ∨
    ∃ peer', Peer.handle cfg peer = .ok () peer' ∧ peer'.framing.Valid ∧ peer'.state = .body ∧
      peer'.socketData = peer.socketData.drop peer.nextPacketSize := by
  have hheader : Peer.handle cfg peer = Peer.handleHeader cfg peer := by
    unfold Peer.handle
    rw [get_bind, hstate]
  rw [hheader]
  unfold Peer.handleHeader
  rw [get_bind]
  rcases parseHeader_cases cfg.crypto peer.packet (h.hasKeys hmac) with
    ⟨session, herror, hkeys⟩ | ⟨size, session, hok, hkeys⟩
  · left
    rw [bind_of_error (onSession_of_error herror)]
    exact ⟨_, _, rfl, .of_header (fun _ => hkeys.2) hstate (h.header hstate)⟩
  · right
    rw [bind_of_ok (onSession_of_ok hok)]
    refine ⟨_, rfl, ⟨fun _ => hkeys.2, ?_, fun _ => ⟨hkeys.1, ?_⟩, ?_⟩, rfl, rfl⟩
    · intro hheader
      cases hheader
    · change 16 ≤ Peer.bodyPacketSize size
      unfold Peer.bodyPacketSize
      split <;> omega
    · rintro (hauth | hack)
      · cases hauth
      · cases hack

/-- After a body is known the buffer stays as it is or loses the body. -/
theorem dispatch_framing (cfg : PeerConfig) (bytesCount : Nat) (body : Bytes) (peer : Peer) :
    (endState (Peer.dispatch cfg bytesCount body peer)).framing = peer.framing ∨
      (endState (Peer.dispatch cfg bytesCount body peer)).framing =
        { peer.framing with socketData := peer.socketData.drop bytesCount } := by
  unfold Peer.dispatch
  rw [get_bind]
  split
  · exact .inl (keeps_disconnect _ peer)
  · rw [get_bind]
    cases (Peer.bodyCode body).bind peer.getProtocol with
    | none => exact .inl (keeps_disconnect _ peer)
    | some offset =>
      dsimp only
      generalize (Peer.bodyCode body).getD 0 - offset = msgCode
      have hkeeps := keeps_handlePayload cfg offset msgCode (body.drop 1) peer
      cases hpayload : Peer.handlePayload cfg offset msgCode (body.drop 1) peer with
      | ok a mid =>
        rw [hpayload, endState_ok] at hkeeps
        right
        rw [bind_of_ok hpayload, ← hkeeps]
        change Peer.framing { mid with socketData := mid.socketData.drop bytesCount } = _
        rw [show mid.socketData = peer.socketData from congrArg Framing.socketData hkeeps]
        rfl
      | error e mid =>
        rw [hpayload, endState_error] at hkeeps
        left
        rw [bind_of_error hpayload]
        exact hkeeps

/-- A peer that has read a body. -/
def Peer.afterBody (peer : Peer) (session : ECIES) (body : Bytes) : Peer :=
  { peer with
    session := session
    state := .header
    nextPacketSize := 32
    received := peer.received ++ [body] }

theorem handle_body_cases (cfg : PeerConfig) (h : peer.framing.Valid) (hstate : peer.state = .body) :
    (∃ e peer', Peer.handle cfg peer = .error e peer' ∧ peer'.framing.Valid) ∨
    ∃ peer', Peer.handle cfg peer = .ok () peer' ∧ peer'.framing.Valid ∧ peer'.state = .header ∧
      peer'.session.ingressMac.isSome ∧ (peer'.socketData = peer.socketData ∨
        peer'.socketData = peer.socketData.drop peer.nextPacketSize) := by
  have hbody : Peer.handle cfg peer = Peer.handleBody cfg peer := by
    unfold Peer.handle
    rw [get_bind, hstate]
  rw [hbody]
  unfold Peer.handleBody
  rw [get_bind]
  obtain ⟨hmac, hsize⟩ := h.body hstate
  rcases parseBody_cases cfg.crypto peer.packet (h.hasKeys hmac) with
    ⟨e, session, herror, hkeys⟩ | ⟨body, session, hok, hkeys⟩
  · left
    rw [bind_of_error (onSession_of_error herror)]
    refine ⟨_, _, rfl, fun _ => hkeys.2, ?_, fun _ => ⟨hkeys.1, hsize⟩, h.handshake⟩
    exact fun hheader => h.header hheader
  · rw [bind_of_ok (onSession_of_ok hok)]
    change (∃ e peer', Peer.dispatch cfg peer.nextPacketSize body (peer.afterBody session body) =
      .error e peer' ∧ _) ∨ ∃ peer', Peer.dispatch cfg peer.nextPacketSize body
        (peer.afterBody session body) = .ok () peer' ∧ _
    have hvalid : (peer.afterBody session body).framing.Valid :=
      .of_header (fun _ => hkeys.2) rfl rfl
    have hafter : ∀ peer' : Peer, (peer'.framing = (peer.afterBody session body).framing ∨
        peer'.framing = { (peer.afterBody session body).framing with
          socketData := peer.socketData.drop peer.nextPacketSize }) →
        peer'.framing.Valid ∧ peer'.state = .header ∧ peer'.session.ingressMac.isSome ∧
          (peer'.socketData = peer.socketData ∨
            peer'.socketData = peer.socketData.drop peer.nextPacketSize) := by
      rintro peer' (heq | heq)
      · have hsame : peer'.session.ingressMac = session.ingressMac :=
          congrArg Framing.ingressMac heq
        exact ⟨hvalid.congr heq, congrArg Framing.state heq, hsame ▸ hkeys.1,
          .inl (congrArg Framing.socketData heq)⟩
      · have hsame : peer'.session.ingressMac = session.ingressMac :=
          congrArg Framing.ingressMac heq
        have hvalid' : peer'.framing.Valid := by
          rw [heq]
          exact ⟨hvalid.keys, hvalid.header, hvalid.body, hvalid.handshake⟩
        exact ⟨hvalid', congrArg Framing.state heq, hsame ▸ hkeys.1,
          .inr (congrArg Framing.socketData heq)⟩
    have hframing := dispatch_framing cfg peer.nextPacketSize body
      (peer.afterBody session body)
    cases hdispatch : Peer.dispatch cfg peer.nextPacketSize body (peer.afterBody session body) with
    | error e peer' =>
      rw [hdispatch] at hframing
      exact .inl ⟨_, _, rfl, (hafter peer' hframing).1⟩
    | ok a peer' =>
      rw [hdispatch] at hframing
      exact .inr ⟨_, rfl, hafter peer' hframing⟩

end Handlers

end EthereumJS.Devp2p
