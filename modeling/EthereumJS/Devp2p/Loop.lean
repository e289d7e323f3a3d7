import EthereumJS.Devp2p.Receive

/-! # The loop that reads packets

Exactly when the loop of `_onSocketData` ends: unless a handshake packet that sets no keys has
at least the size of a header behind it in the buffer.
-/

namespace EthereumJS.Devp2p

open Overlay RLP

variable (cfg : PeerConfig)

/-- The loop ends after some number of iterations. -/
def Peer.Halts (peer : Peer) : Prop := ∃ fuel, (Peer.drain cfg fuel peer).isSome

/-- Behind a handshake packet that is accepted and sets no keys there are 32 bytes. -/
def Peer.Behind (got : ECIES → Bool) (setGot : ECIES → ECIES) (parse : Bytes → EciesM Unit)
    (peer : Peer) : Prop :=
  let size := if got peer.session then peer.nextPacketSize
    else bytesToNumber (peer.socketData.take 2) + 2
  peer.nextPacketSize ≤ peer.socketData.length ∧ size + 32 ≤ peer.socketData.length ∧
    ∃ session, parse (peer.socketData.take size) (setGot peer.session) = .ok () session ∧
      session.ingressMac = none

/-- The loop comes to a header without keys. -/
def Peer.Stuck (peer : Peer) : Prop :=
  match peer.state with
  | .auth => peer.Behind ECIES.gotEIP8Auth (fun session => { session with gotEIP8Auth := true })
      (ECIES.parseAuthEIP8 cfg.crypto)
  | .ack => peer.Behind ECIES.gotEIP8Ack (fun session => { session with gotEIP8Ack := true })
      (ECIES.parseAckEIP8 cfg.crypto)
  | .header => peer.session.ingressMac = none ∧ 32 ≤ peer.socketData.length
  | .body => False

variable {cfg} {peer peer' : Peer}

section Halts

theorem halts_of_short (h : peer.socketData.length < peer.nextPacketSize) : peer.Halts cfg := by
  refine ⟨0, ?_⟩
  rw [Peer.drain, if_pos h]
  rfl

theorem halts_of_error {e : RlpxError} (h : Peer.handle cfg peer = .error e peer') :
    peer.Halts cfg := by
  refine ⟨1, ?_⟩
  rw [Peer.drain, h]
  split <;> rfl

theorem halts_iff_of_ok (hlong : peer.nextPacketSize ≤ peer.socketData.length)
    (h : Peer.handle cfg peer = .ok () peer') : peer.Halts cfg ↔ peer'.Halts cfg := by
  constructor
  · rintro ⟨fuel, hfuel⟩
    cases fuel with
    | zero =>
      rw [Peer.drain, if_neg (Nat.not_lt.mpr hlong)] at hfuel
      cases hfuel
    | succ fuel =>
      rw [Peer.drain, if_neg (Nat.not_lt.mpr hlong), h] at hfuel
      exact ⟨fuel, hfuel⟩
  · rintro ⟨fuel, hfuel⟩
    refine ⟨fuel + 1, ?_⟩
    rw [Peer.drain, if_neg (Nat.not_lt.mpr hlong), h]
    exact hfuel

/-- An iteration that changes nothing is repeated for ever. -/
theorem not_halts_of_self (hlong : peer.nextPacketSize ≤ peer.socketData.length)
    (h : Peer.handle cfg peer = .ok () peer) : ¬ peer.Halts cfg := by
  rintro ⟨fuel, hfuel⟩
  induction fuel with
  | zero =>
    rw [Peer.drain, if_neg (Nat.not_lt.mpr hlong)] at hfuel
    cases hfuel
  | succ fuel ih =>
    rw [Peer.drain, if_neg (Nat.not_lt.mpr hlong), h] at hfuel
    exact ih hfuel

/-- With keys the loop ends: a header consumes bytes or is refused, and a body leads to a
header. -/
theorem halts_of_keys (n : Nat) (peer : Peer) (h : peer.framing.Valid)
    (hmac : peer.session.ingressMac.isSome) :
    (peer.state = .header → peer.socketData.length * 2 ≤ n → peer.Halts cfg) ∧
      (peer.state = .body → peer.socketData.length * 2 + 1 ≤ n → peer.Halts cfg) := by
  induction n using Nat.strongRecOn generalizing peer with
  | ind n ih =>
    rcases Nat.lt_or_ge peer.socketData.length peer.nextPacketSize with hshort | hlong
    · exact ⟨fun _ _ => halts_of_short hshort, fun _ _ => halts_of_short hshort⟩
    constructor
    · intro hstate hn
      have hsize : peer.nextPacketSize = 32 := h.header hstate
      rcases handle_header_cases cfg h hstate hmac with
        ⟨e, peer', herror, -⟩ | ⟨peer', hok, hvalid, hbody, hdata⟩
      · exact halts_of_error herror
      · rw [halts_iff_of_ok hlong hok]
        have hlen : peer'.socketData.length = peer.socketData.length - 32 := by
          rw [hdata, List.length_drop, hsize]
        exact (ih (n - 1) (by omega) peer' hvalid (hvalid.body hbody).1).2 hbody (by omega)
    · intro hstate hn
      have hsize : 16 ≤ peer.nextPacketSize := (h.body hstate).2
      rcases handle_body_cases cfg h hstate with
        ⟨e, peer', herror, -⟩ | ⟨peer', hok, hvalid, hheader, hmac', hdata⟩
      · exact halts_of_error herror
      · rw [halts_iff_of_ok hlong hok]
        have hlen : peer'.socketData.length ≤ peer.socketData.length := by
          rcases hdata with hdata | hdata
          · exact hdata ▸ le_rfl
          · rw [hdata, List.length_drop]
            omega
        exact (ih (n - 1) (by omega) peer' hvalid hmac').1 hheader (by omega)

theorem halts_body (h : peer.framing.Valid) (hstate : peer.state = .body) : peer.Halts cfg :=
  (halts_of_keys _ peer h (h.body hstate).1).2 hstate le_rfl

theorem halts_header_iff (h : peer.framing.Valid) (hstate : peer.state = .header) :
    peer.Halts cfg ↔ ¬ (peer.session.ingressMac = none ∧ 32 ≤ peer.socketData.length) := by
  have hsize : peer.nextPacketSize = 32 := h.header hstate
  constructor
  · rintro hhalts ⟨hmac, hlong⟩
    exact not_halts_of_self (by omega) (handle_header_of_no_keys hstate hmac) hhalts
  · intro hnot
    cases hmac : peer.session.ingressMac with
    | none =>
      refine halts_of_short (Nat.lt_of_not_le fun hlong => hnot ⟨hmac, ?_⟩)
      omega
    | some mac =>
      exact (halts_of_keys _ peer h (hmac ▸ rfl)).1 hstate le_rfl

end Halts

section Handshake

variable {got : ECIES → Bool} {setGot : ECIES → ECIES} {parse : Bytes → EciesM Unit}
  {callback : Deferred}

/-- A packet whose size is known. -/
theorem halts_packet_iff (hkeys : ∀ data session, session.KeysTogether →
      (endState (parse data session)).KeysTogether)
    (hhandle : Peer.handle cfg peer = Peer.handleHandshake got setGot parse callback peer)
    (hgot : got peer.session) (h : peer.framing.Valid) :
    peer.Halts cfg ↔ ¬ (peer.nextPacketSize + 32 ≤ peer.socketData.length ∧
      ∃ session, parse peer.packet peer.session = .ok () session ∧
        session.ingressMac = none) := by
  rcases Nat.lt_or_ge peer.socketData.length peer.nextPacketSize with hshort | hlong
  · refine iff_of_true (halts_of_short hshort) ?_
    rintro ⟨hlong, -⟩
    omega
  have hkeys := hkeys peer.packet peer.session h.keys
  rw [Peer.handleHandshake, get_bind, if_neg (not_not.mpr hgot)] at hhandle
  cases hparse : parse peer.packet peer.session with
  | error e session =>
    rw [bind_of_error (onSession_of_error hparse)] at hhandle
    refine iff_of_true (halts_of_error hhandle) ?_
    rintro ⟨-, session, hok, -⟩
    cases hok
  | ok a session =>
    rw [hparse, endState_ok] at hkeys
    rw [bind_of_ok (onSession_of_ok hparse)] at hhandle
    rw [halts_iff_of_ok hlong hhandle, halts_header_iff (.of_header hkeys rfl rfl) rfl]
    apply not_congr
    change session.ingressMac = none ∧
      32 ≤ (peer.socketData.drop peer.nextPacketSize).length ↔ _
    rw [List.length_drop]
    constructor
    · rintro ⟨hmac, hle⟩
      exact ⟨by omega, session, rfl, hmac⟩
    · rintro ⟨hle, session', hok, hmac⟩
      cases hok
      exact ⟨hmac, by omega⟩

theorem halts_handshake_iff (callback : Deferred) (hkeys : ∀ data session, session.KeysTogether →
      (endState (parse data session)).KeysTogether)
    (hhandle : ∀ peer' : Peer, peer'.state = peer.state →
      Peer.handle cfg peer' = Peer.handleHandshake got setGot parse callback peer')
    (hset : ∀ session, got (setGot session))
    (hsame : ∀ session, got session → setGot session = session)
    (hingress : ∀ session, (setGot session).ingress = session.ingress)
    (hstate : peer.state = .auth ∨ peer.state = .ack) (h : peer.framing.Valid) :
    peer.Halts cfg ↔ ¬ peer.Behind got setGot parse := by
  unfold Peer.Behind
  cases hgot : got peer.session with
  | true =>
    rw [halts_packet_iff hkeys (hhandle peer rfl) hgot h]
    simp only [if_true, hsame _ hgot]
    apply not_congr
    constructor
    · rintro ⟨hle, hparse⟩
      exact ⟨by omega, hle, hparse⟩
    · rintro ⟨-, hle, hparse⟩
      exact ⟨hle, hparse⟩
  | false =>
    rcases Nat.lt_or_ge peer.socketData.length peer.nextPacketSize with hshort | hlong
    · refine iff_of_true (halts_of_short hshort) ?_
      rintro ⟨hle, -⟩
      omega
    have hfirst := hhandle peer rfl
    rw [Peer.handleHandshake, get_bind, if_pos (by rw [hgot]; decide)] at hfirst
    rw [halts_iff_of_ok hlong hfirst]
    have hvalid : (Peer.framing
        { peer with
          session := setGot peer.session
          nextPacketSize := bytesToNumber (peer.socketData.take 2) + 2 }).Valid := by
      have hing := hingress peer.session
      simp only [ECIES.ingress, Prod.mk.injEq] at hing
      refine .of_handshake ?_ hstate (Nat.le_add_left 2 _)
      change (setGot peer.session).KeysTogether
      unfold ECIES.KeysTogether
      rw [hing.1, hing.2.1]
      exact h.keys
    have hsized := hhandle
      { peer with
        session := setGot peer.session
        nextPacketSize := bytesToNumber (peer.socketData.take 2) + 2 } rfl
    refine (halts_packet_iff hkeys hsized (hset peer.session) hvalid).trans ?_
    simp only [Bool.false_eq_true, if_false]
    apply not_congr
    constructor
    · rintro ⟨hle, hparse⟩
      exact ⟨hlong, hle, hparse⟩
    · rintro ⟨-, hle, hparse⟩
      exact ⟨hle, hparse⟩

end Handshake

theorem halts_iff (h : peer.framing.Valid) : peer.Halts cfg ↔ ¬ peer.Stuck cfg := by
  have hhandle : ∀ peer' : Peer, Peer.handle cfg peer' =
      (match peer'.state with
        | .auth => Peer.handleAuth cfg
        | .ack => Peer.handleAck cfg
        | .header => Peer.handleHeader cfg
        | .body => Peer.handleBody cfg) peer' := fun peer' => rfl
  unfold Peer.Stuck
  cases hstate : peer.state with
  | auth =>
    refine halts_handshake_iff .sendAck (fun data session hkeys => ?_)
      (fun peer' heq => ?_) (fun _ => rfl) (fun session hgot => ?_) (fun _ => rfl) (.inl hstate) h
    · exact (keeps_parseAuth data).preserves (Q := fun i => i.2.1.isSome → i.1.isSome) session hkeys
    · rw [hhandle, heq, hstate]
      rfl
    · cases session
      cases hgot
      rfl
  | ack =>
    refine halts_handshake_iff .sendHello (fun data session hkeys => ?_)
      (fun peer' heq => ?_) (fun _ => rfl) (fun session hgot => ?_) (fun _ => rfl) (.inr hstate) h
    · exact preserves_parseAck data session hkeys
    · rw [hhandle, heq, hstate]
      rfl
    · cases session
      cases hgot
      rfl
  | header => exact halts_header_iff h hstate
  | body => exact iff_of_true (halts_body h hstate) id

section Reachable

theorem Framing.Valid.handleHandshake {got : ECIES → Bool} {setGot : ECIES → ECIES}
    {parse : Bytes → EciesM Unit} {callback : Deferred} (h : peer.framing.Valid)
    (hstate : peer.state = .auth ∨ peer.state = .ack)
    (hkeys : ∀ data session, session.KeysTogether → (endState (parse data session)).KeysTogether)
    (hingress : ∀ session, (setGot session).ingress = session.ingress) :
    (endState (Peer.handleHandshake got setGot parse callback peer)).framing.Valid := by
  unfold Peer.handleHandshake
  rw [get_bind]
  split
  · have hing := hingress peer.session
    simp only [ECIES.ingress, Prod.mk.injEq] at hing
    refine .of_handshake ?_ hstate (Nat.le_add_left 2 _)
    change (setGot peer.session).KeysTogether
    unfold ECIES.KeysTogether
    rw [hing.1, hing.2.1]
    exact h.keys
  · have hkeys := hkeys peer.packet peer.session h.keys
    cases hparse : parse peer.packet peer.session with
    | error e session =>
      rw [hparse] at hkeys
      rw [bind_of_error (onSession_of_error hparse)]
      exact .of_handshake hkeys hstate (h.handshake hstate)
    | ok a session =>
      rw [hparse] at hkeys
      rw [bind_of_ok (onSession_of_ok hparse)]
      exact .of_header hkeys rfl rfl

theorem Framing.Valid.handle (cfg : PeerConfig) (h : peer.framing.Valid) :
    (endState (Peer.handle cfg peer)).framing.Valid := by
  cases hstate : peer.state with
  | auth =>
    have hauth : Peer.handle cfg peer = Peer.handleAuth cfg peer := by
      rw [Peer.handle, get_bind, hstate]
    rw [hauth]
    refine h.handleHandshake (.inl hstate) (fun data session hkeys => ?_) fun _ => rfl
    exact (keeps_parseAuth data).preserves (Q := fun i => i.2.1.isSome → i.1.isSome) session hkeys
  | ack =>
    have hack : Peer.handle cfg peer = Peer.handleAck cfg peer := by
      rw [Peer.handle, get_bind, hstate]
    rw [hack]
    exact h.handleHandshake (.inr hstate) preserves_parseAck fun _ => rfl
  | header =>
    cases hmac : peer.session.ingressMac with
    | none =>
      rw [handle_header_of_no_keys hstate hmac]
      exact h
    | some mac =>
      rcases handle_header_cases cfg h hstate (hmac ▸ rfl) with
        ⟨e, peer', herror, hvalid⟩ | ⟨peer', hok, hvalid, -⟩
      · rw [herror]
        exact hvalid
      · rw [hok]
        exact hvalid
  | body =>
    rcases handle_body_cases cfg h hstate with
      ⟨e, peer', herror, hvalid⟩ | ⟨peer', hok, hvalid, -⟩
    · rw [herror]
      exact hvalid
    · rw [hok]
      exact hvalid

theorem Framing.Valid.drain {fuel : Nat} {result : EStateM.Result RlpxError Peer Unit}
    (h : peer.framing.Valid) (hdrain : Peer.drain cfg fuel peer = some result) :
    (endState result).framing.Valid := by
  induction fuel generalizing peer with
  | zero =>
    rw [Peer.drain] at hdrain
    split at hdrain
    · cases hdrain
      exact h
    · cases hdrain
  | succ fuel ih =>
    rw [Peer.drain] at hdrain
    split at hdrain
    · cases hdrain
      exact h
    · have hhandle := h.handle cfg
      split at hdrain
      · rename_i hok
        rw [hok] at hhandle
        exact ih hhandle hdrain
      · rename_i herror
        rw [herror] at hhandle
        cases hdrain
        exact hhandle

theorem Framing.Valid.onSocketData {fuel : Nat} {data : Bytes} (h : peer.framing.Valid)
    (hloop : Peer.onSocketData cfg fuel data peer = some peer') : peer'.framing.Valid := by
  unfold Peer.onSocketData at hloop
  split at hloop
  · cases hloop
    exact h
  · have hvalid : (Peer.framing { peer with socketData := peer.socketData ++ data }).Valid :=
      ⟨h.keys, h.header, h.body, h.handshake⟩
    split at hloop
    · cases hloop
    · rename_i hdrain
      cases hloop
      exact hvalid.drain hdrain
    · rename_i e mid hdrain
      cases hloop
      exact (hvalid.drain hdrain).congr (keeps_disconnect _ mid)

theorem preserves_sendAck : Preserves (fun peer => peer.framing.Valid) (Peer.sendAck cfg) := by
  intro peer h
  unfold Peer.sendAck
  rw [get_bind]
  split
  · exact h
  have hkeys := preserves_createAck cfg.crypto (peer.state = .body) peer.session
    ⟨h.keys, fun hbody => (h.body hbody).1⟩
  cases hack : ECIES.createAck cfg.crypto peer.session with
  | error e session =>
    rw [hack] at hkeys
    rw [bind_of_error (onSession_of_error hack)]
    exact ⟨hkeys.1, h.header, fun hbody => ⟨hkeys.2 hbody, (h.body hbody).2⟩, h.handshake⟩
  | ok ack session =>
    rw [hack] at hkeys
    rw [bind_of_ok (onSession_of_ok hack)]
    cases ack with
    | none => exact ⟨hkeys.1, h.header, fun hbody => ⟨hkeys.2 hbody, (h.body hbody).2⟩, h.handshake⟩
    | some ack =>
      refine Framing.Valid.congr ?_ (keeps_sendHello _)
      exact .of_header hkeys.1 rfl rfl

theorem valid_create (cfg : PeerConfig) (nonce : Bytes) (remoteId : Option Bytes) :
    (Peer.create cfg nonce remoteId).framing.Valid := by
  have hkeys : ∀ {session : ECIES}, session.ingressMac = none → session.KeysTogether := by
    intro session hmac hsome
    rw [hmac] at hsome
    cases hsome
  cases remoteId with
  | none => exact .of_handshake (hkeys rfl) (.inl rfl) (show 2 ≤ 307 by decide)
  | some remoteId => exact .of_handshake (hkeys rfl) (.inr rfl) (show 2 ≤ 210 by decide)

/-- The states of a peer by its construction, the calls of `_onSocketData` that end, the
callbacks in any order, and what else sends or closes. -/
inductive Reachable (cfg : PeerConfig) : Peer → Prop
  | create (nonce : Bytes) (remoteId : Option Bytes) :
    Reachable cfg (Peer.create cfg nonce remoteId)
  | receive {peer peer' : Peer} {fuel : Nat} {data : Bytes} (h : Reachable cfg peer)
    (hloop : Peer.onSocketData cfg fuel data peer = some peer') : Reachable cfg peer'
  | runDeferred {peer : Peer} {callback : Deferred} (h : Reachable cfg peer)
    (hmem : callback ∈ peer.deferred) : Reachable cfg (endState (Peer.runDeferred cfg callback
      { peer with deferred := peer.deferred.erase callback }))
  | sendMessage {peer : Peer} (h : Reachable cfg peer) (code : Nat) (data : Bytes) :
    Reachable cfg (endState (Peer.sendMessage cfg code data peer))
  | disconnect {peer : Peer} (h : Reachable cfg peer) (reason : Nat) :
    Reachable cfg (endState (Peer.disconnect cfg reason peer))
  | close {peer : Peer} (h : Reachable cfg peer) : Reachable cfg { peer with closed := true }
  | destroy {peer : Peer} (h : Reachable cfg peer) : Reachable cfg { peer with destroyed := true }

theorem Reachable.valid (h : Reachable cfg peer) : peer.framing.Valid := by
  induction h with
  | create nonce remoteId => exact valid_create cfg nonce remoteId
  | receive _ hloop ih => exact ih.onSocketData hloop
  | @runDeferred peer callback _ _ ih =>
    have hvalid : (Peer.framing
        { peer with deferred := peer.deferred.erase callback }).Valid := ih
    cases callback with
    | sendAck => exact preserves_sendAck _ hvalid
    | sendHello => exact hvalid.congr (keeps_sendHello _)
  | sendMessage _ code data ih => exact ih.congr (keeps_sendMessage code data _)
  | disconnect _ reason ih => exact ih.congr (keeps_disconnect reason _)
  | close _ ih => exact ih
  | destroy _ ih => exact ih

theorem onSocketData_isSome (hclosed : peer.closed = false) (fuel : Nat) (data : Bytes) :
    (Peer.onSocketData cfg fuel data peer).isSome =
      (Peer.drain cfg fuel { peer with socketData := peer.socketData ++ data }).isSome := by
  rw [Peer.onSocketData, if_neg (by rw [hclosed]; decide)]
  cases Peer.drain cfg fuel { peer with socketData := peer.socketData ++ data } with
  | none => rfl
  | some result => cases result <;> rfl

/-- Whatever a reachable peer receives, the loop ends unless it comes to a header without keys. -/
theorem Reachable.onSocketData_ends_iff (h : Reachable cfg peer) (data : Bytes) :
    (∃ fuel, (Peer.onSocketData cfg fuel data peer).isSome) ↔
      peer.closed ∨ ¬ Peer.Stuck cfg { peer with socketData := peer.socketData ++ data } := by
  have hvalid : (Peer.framing { peer with socketData := peer.socketData ++ data }).Valid :=
    ⟨h.valid.keys, h.valid.header, h.valid.body, h.valid.handshake⟩
  rcases Bool.eq_false_or_eq_true peer.closed with hclosed | hclosed
  · refine iff_of_true ⟨0, ?_⟩ (.inl hclosed)
    rw [Peer.onSocketData, if_pos hclosed]
    rfl
  · rw [← halts_iff hvalid]
    simp only [onSocketData_isSome hclosed, Peer.Halts, hclosed, Bool.false_eq_true, false_or]

end Reachable

/-- Primitives that accept every auth packet. -/
def Sample.crypto : Crypto where
  keccak256 := polynomialHash
  aesBlock _ block := block
  length_aesBlock _ _ := rfl
  keystream _ position := UInt8.ofNat position
  authMessage _ key := key
  ackMessage _ key := key
  openAuth data _ := .ok ⟨data.take 65, data.take 32⟩
  authSecret data _ _ := .ok (data.take 32)
  openAck data _ := .ok ⟨data.take 65, data[0]?.map fun b => [b]⟩
  ackSecret key := .ok key

def Sample.config : PeerConfig where
  crypto := Sample.crypto
  eip8 := true
  helloPayload := []
  handleMessage _ _ _ _ := ⟨[], true, none, false, none⟩

theorem onSocketData_ends_short : ∃ fuel,
    (Peer.onSocketData Sample.config fuel [1, 49] (Peer.create Sample.config [] none)).isSome := by
  refine (Reachable.onSocketData_ends_iff (.create [] none) _).mpr (.inr ?_)
  rintro ⟨hsize, -⟩
  exact absurd hsize (by decide)

/-- A peer sends its auth packet with 32 bytes behind it. -/
theorem not_onSocketData_ends_behind : ¬ ∀ cfg peer, Reachable cfg peer → ∀ data,
    ∃ fuel, (Peer.onSocketData cfg fuel data peer).isSome := by
  intro hends
  obtain ⟨fuel, hfuel⟩ := hends Sample.config _ (.create [] none)
    ([1, 49] ++ List.replicate 305 0 ++ List.replicate 32 0)
  rw [onSocketData_isSome rfl] at hfuel
  have hvalid := valid_create Sample.config [] none
  have hvalid' : (Peer.framing
      { Peer.create Sample.config [] none with
        socketData := (Peer.create Sample.config [] none).socketData ++
          ([1, 49] ++ List.replicate 305 0 ++ List.replicate 32 0) }).Valid :=
    ⟨hvalid.keys, hvalid.header, hvalid.body, hvalid.handshake⟩
  refine (halts_iff hvalid').mp ⟨fuel, hfuel⟩ ⟨by decide +kernel, by decide +kernel, ?_⟩
  unfold ECIES.parseAuthEIP8
  rw [bind_of_ok (assertEq_of_eq (by decide +kernel))]
  exact ⟨_, rfl, rfl⟩

end EthereumJS.Devp2p
