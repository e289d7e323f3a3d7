import EthereumJS.Devp2p.Frames

/-! # Messages over a socket

Messages that one peer sends are read by the other one, whatever the chunks in which their
frames arrive, as long as nothing closes the reading peer.
-/

namespace EthereumJS.Devp2p

open Overlay RLP

variable {cfg : PeerConfig} {peer peer' : Peer}

section Sending

/-- The frames of this peer are sealed with the keys. -/
structure Peer.Sends (peer : Peer) (keys : Keys) : Prop where
  aes : peer.session.egressAes = some keys.aes
  mac : peer.session.egressMac = some keys.mac
  connected : peer.destroyed = false

def Peer.sealed (peer : Peer) (bytes : Bytes) (keys : Keys) : Peer :=
  { peer with session := peer.session.withEgress keys, written := peer.written ++ bytes }

theorem Peer.Sends.sealed {keys : Keys} (h : peer.Sends keys) (bytes : Bytes) (keys' : Keys) :
    (peer.sealed bytes keys').Sends keys' :=
  ⟨rfl, rfl, h.connected⟩

theorem sendMessage_of_closed (h : peer.closed = true) (code : Nat) (data : Bytes) :
    Peer.sendMessage cfg code data peer = .ok false peer := by
  unfold Peer.sendMessage
  rw [get_bind, if_pos h]
  rfl

/-- A message is written as the frames of its code and data. -/
theorem sendMessage_sealed (cfg : PeerConfig) {keys : Keys} (h : peer.Sends keys) (hopen : peer.closed = false)
    (code : Nat) (data : Bytes) :
    Peer.sendMessage cfg code data peer = .ok true (peer.sealed
      (keys.sealFrames cfg.crypto [encodeCode code ++ data]).1
      (keys.sealFrames cfg.crypto [encodeCode code ++ data]).2) := by
  unfold Peer.sendMessage
  rw [get_bind, if_neg (by rw [hopen]; decide),
    bind_of_ok (onSession_of_ok (createBlockHeader_seal h.aes h.mac _))]
  dsimp only
  rw [get_bind, if_neg (by rw [h.connected]; decide), Peer.write, modify_bind,
    bind_of_ok (onSession_of_ok (createBody_seal rfl rfl _))]
  dsimp only
  rw [get_bind, if_neg (by rw [h.connected]; decide), Peer.write, modify_bind]
  simp only [Peer.sealed, Keys.sealFrames, List.append_nil, List.append_assoc]
  rfl

theorem sealFrames_append (crypto : Crypto) (keys : Keys) (msgs msgs' : List Bytes) :
    (keys.sealFrames crypto (msgs ++ msgs')).1 = (keys.sealFrames crypto msgs).1 ++
        ((keys.sealFrames crypto msgs).2.sealFrames crypto msgs').1 ∧
      (keys.sealFrames crypto (msgs ++ msgs')).2 =
        ((keys.sealFrames crypto msgs).2.sealFrames crypto msgs').2 := by
  induction msgs generalizing keys with
  | nil => exact ⟨rfl, rfl⟩
  | cons msg msgs ih =>
    have hrest := ih ((keys.sealHeader crypto msg.length).2.sealBody crypto msg).2
    simp only [List.cons_append, Keys.sealFrames, hrest, List.append_assoc]
    exact ⟨trivial, trivial⟩

/-- What the frames of a message carry. -/
def messageBody (send : Nat × Bytes) : Bytes := encodeCode send.1 ++ send.2

theorem sendMessages_sealed (cfg : PeerConfig) {keys : Keys} (h : peer.Sends keys) (hopen : peer.closed = false)
    (sends : List (Nat × Bytes)) :
    ∃ peer', Peer.sendMessages cfg sends peer = .ok () peer' ∧
      peer'.written = peer.written ++ (keys.sealFrames cfg.crypto (sends.map messageBody)).1 ∧
      peer'.Sends (keys.sealFrames cfg.crypto (sends.map messageBody)).2 ∧
      peer'.closed = false := by
  induction sends generalizing peer keys with
  | nil => exact ⟨peer, rfl, (List.append_nil _).symm, h, hopen⟩
  | cons send sends ih =>
    have hfirst := sendMessage_sealed cfg h hopen send.1 send.2
    obtain ⟨peer', hrest, hwritten, hsends, hopen'⟩ := ih (h.sealed _ _) hopen
    have happend := sealFrames_append cfg.crypto keys [messageBody send] (sends.map messageBody)
    refine ⟨peer', ?_, ?_, ?_, hopen'⟩
    · rw [Peer.sendMessages, bind_of_ok hfirst]
      exact hrest
    · rw [List.map_cons, ← List.singleton_append, happend.1, ← List.append_assoc]
      exact hwritten
    · rw [List.map_cons, ← List.singleton_append, happend.2]
      exact hsends

/-- A closed peer, or one whose messages reach the socket. -/
def Peer.Sendable (peer : Peer) : Prop := peer.closed = true ∨ ∃ keys, peer.Sends keys

theorem sendMessages_sendable (cfg : PeerConfig) (h : peer.Sendable) (sends : List (Nat × Bytes)) :
    ∃ peer', Peer.sendMessages cfg sends peer = .ok () peer' ∧ peer'.Sendable := by
  rcases Bool.eq_false_or_eq_true peer.closed with hclosed | hopen
  · refine ⟨peer, ?_, .inl hclosed⟩
    induction sends with
    | nil => rfl
    | cons send sends ih =>
      rw [Peer.sendMessages, bind_of_ok (sendMessage_of_closed hclosed _ _)]
      exact ih
  · obtain hclosed | ⟨keys, hkeys⟩ := h
    · exact absurd (hopen.symm.trans hclosed) (by decide)
    · obtain ⟨peer', hok, -, hsends, -⟩ := sendMessages_sealed cfg hkeys hopen sends
      exact ⟨peer', hok, .inr ⟨_, hsends⟩⟩

theorem disconnect_closes (cfg : PeerConfig) (h : peer.Sendable) (reason : Nat) :
    ∃ peer', Peer.disconnect cfg reason peer = .ok () peer' ∧ peer'.closed = true := by
  unfold Peer.disconnect
  rcases Bool.eq_false_or_eq_true peer.closed with hclosed | hopen
  · rw [bind_of_ok (sendMessage_of_closed hclosed _ _)]
    exact ⟨peer, rfl, hclosed⟩
  · obtain hclosed | ⟨keys, hkeys⟩ := h
    · exact absurd (hopen.symm.trans hclosed) (by decide)
    · rw [bind_of_ok (sendMessage_sealed cfg hkeys hopen _ _)]
      exact ⟨_, rfl, rfl⟩

theorem handlePayload_sendable (cfg : PeerConfig) (h : peer.Sendable) (offset msgCode : Nat) (payload : Bytes) :
    ∃ peer', Peer.handlePayload cfg offset msgCode payload peer = .ok () peer' ∧
      peer'.Sendable := by
  unfold Peer.handlePayload
  rw [get_bind]
  generalize cfg.handleMessage peer offset msgCode payload = handling
  obtain ⟨mid, hsend, hmid⟩ := sendMessages_sendable cfg h handling.sends
  rw [bind_of_ok hsend, modify_bind]
  have hafter : Peer.Sendable
      { mid with
        hello := mid.hello || handling.hello
        protocols := handling.protocols.getD mid.protocols
        closed := mid.closed || handling.closes } := by
    obtain hclosed | ⟨keys, hkeys⟩ := hmid
    · refine .inl ?_
      change (mid.closed || handling.closes) = true
      rw [hclosed, Bool.true_or]
    · exact .inr ⟨keys, hkeys.aes, hkeys.mac, hkeys.connected⟩
  split
  · obtain ⟨peer', hok, hclosed⟩ := disconnect_closes cfg hafter SUBPROTOCOL_ERROR
    exact ⟨peer', hok, .inl hclosed⟩
  · exact ⟨_, rfl, hafter⟩

end Sending

section Closed

theorem preserves_closed_onSession {α : Type} (x : EciesM α) :
    Preserves (fun peer => peer.closed = true) (onSession x) := by
  intro peer h
  unfold onSession
  split <;> exact h

theorem preserves_closed_sendMessage (code : Nat) (data : Bytes) :
    Preserves (fun peer => peer.closed = true) (Peer.sendMessage cfg code data) := by
  intro peer h
  rw [sendMessage_of_closed h]
  exact h

theorem preserves_closed_sendMessages (sends : List (Nat × Bytes)) :
    Preserves (fun peer => peer.closed = true) (Peer.sendMessages cfg sends) := by
  induction sends with
  | nil => exact preserves_pure _
  | cons send sends ih => exact (preserves_closed_sendMessage _ _).bind fun _ => ih

theorem preserves_closed_disconnect (reason : Nat) :
    Preserves (fun peer => peer.closed = true) (Peer.disconnect cfg reason) :=
  (preserves_closed_sendMessage _ _).bind fun _ =>
    .ite (preserves_modify fun _ _ => rfl) (preserves_pure _)

theorem preserves_closed_handlePayload (offset msgCode : Nat) (payload : Bytes) :
    Preserves (fun peer => peer.closed = true)
      (Peer.handlePayload cfg offset msgCode payload) := by
  refine preserves_get.bind fun peer => (preserves_closed_sendMessages _).bind fun _ => ?_
  refine Preserves.bind (preserves_modify fun peer h => ?_) fun _ =>
    .ite (preserves_closed_disconnect _) (preserves_pure _)
  change (peer.closed || _) = true
  rw [h, Bool.true_or]

theorem preserves_closed_handleHandshake (got : ECIES → Bool) (setGot : ECIES → ECIES)
    (parse : Bytes → EciesM Unit) (callback : Deferred) :
    Preserves (fun peer => peer.closed = true)
      (Peer.handleHandshake got setGot parse callback) := by
  refine preserves_get.bind fun peer => .ite (preserves_modify fun _ h => h) ?_
  refine (preserves_closed_onSession _).bind fun _ => ?_
  refine Preserves.bind (preserves_modify fun _ h => h) fun _ => ?_
  exact Preserves.bind (preserves_modify fun _ h => h) fun _ => preserves_modify fun _ h => h

/-- A closed peer stays closed. -/
theorem preserves_closed_handle (cfg : PeerConfig) :
    Preserves (fun peer => peer.closed = true) (Peer.handle cfg) := by
  refine preserves_get.bind fun peer => ?_
  cases peer.state with
  | auth => exact preserves_closed_handleHandshake _ _ _ _
  | ack => exact preserves_closed_handleHandshake _ _ _ _
  | header =>
    refine preserves_get.bind fun peer => (preserves_closed_onSession _).bind fun size => ?_
    cases size with
    | none => exact preserves_pure _
    | some size =>
      exact Preserves.bind (preserves_modify fun _ h => h) fun _ => preserves_modify fun _ h => h
  | body =>
    refine preserves_get.bind fun peer => (preserves_closed_onSession _).bind fun body => ?_
    cases body with
    | none => exact preserves_pure _
    | some body =>
      refine Preserves.bind (preserves_modify fun _ h => h) fun _ => preserves_get.bind fun _ => ?_
      refine .ite (preserves_closed_disconnect _) (preserves_get.bind fun peer => ?_)
      cases (Peer.bodyCode body).bind peer.getProtocol with
      | none => exact preserves_closed_disconnect _
      | some offset =>
        exact (preserves_closed_handlePayload _ _ _).bind fun _ => preserves_modify fun _ h => h

end Closed

section Awaiting

/-- What is left of the frames of some messages: the bytes in the buffer and the rest. -/
inductive Awaits (crypto : Crypto) (bodies : List Bytes) (final : Keys) (rest : Bytes)
    (framing : Framing) : Prop
  | header (keys : Keys) (msgs : List Bytes)
    (aes : framing.ingressAes = some keys.aes)
    (mac : framing.ingressMac = some keys.mac)
    (state : framing.state = .header)
    (size : framing.nextPacketSize = 32)
    (data : framing.socketData ++ rest = (keys.sealFrames crypto msgs).1)
    (last : (keys.sealFrames crypto msgs).2 = final)
    (received : framing.received ++ msgs = bodies)
    (short : ∀ msg ∈ msgs, msg.length < 2 ^ 24)
  | body (keys : Keys) (msg : Bytes) (msgs : List Bytes)
    (aes : framing.ingressAes = some keys.aes)
    (mac : framing.ingressMac = some keys.mac)
    (bodySize : framing.bodySize = some msg.length)
    (state : framing.state = .body)
    (size : framing.nextPacketSize = Peer.bodyPacketSize msg.length)
    (data : framing.socketData ++ rest =
      (keys.sealBody crypto msg).1 ++ ((keys.sealBody crypto msg).2.sealFrames crypto msgs).1)
    (last : ((keys.sealBody crypto msg).2.sealFrames crypto msgs).2 = final)
    (received : framing.received ++ msg :: msgs = bodies)
    (short : ∀ msg ∈ msgs, msg.length < 2 ^ 24)

variable {crypto : Crypto} {bodies : List Bytes} {final : Keys} {rest : Bytes}

theorem Awaits.valid (h : Awaits crypto bodies final rest peer.framing) :
    peer.framing.Valid ∧ peer.session.ingressMac.isSome ∧
      (peer.state = .header ∨ peer.state = .body) := by
  cases h with
  | header keys msgs aes mac state size =>
    have hmac : peer.session.ingressMac.isSome := Option.isSome_of_eq_some mac
    exact ⟨.of_header (fun _ => Option.isSome_of_eq_some aes) state size, hmac, .inl state⟩
  | body keys msg msgs aes mac bodySize state size =>
    have hmac : peer.session.ingressMac.isSome := Option.isSome_of_eq_some mac
    refine ⟨⟨fun _ => Option.isSome_of_eq_some aes, fun hheader => ?_, fun _ => ⟨hmac, ?_⟩,
      fun hhandshake => ?_⟩, hmac, .inr state⟩
    · exact absurd (state.symm.trans hheader) (by decide)
    · rw [size]
      unfold Peer.bodyPacketSize
      split <;> omega
    · rcases hhandshake with hauth | hack
      · exact absurd (state.symm.trans hauth) (by decide)
      · exact absurd (state.symm.trans hack) (by decide)

/-- More bytes arrive. -/
theorem Awaits.append {chunk : Bytes} (h : Awaits crypto bodies final (chunk ++ rest) peer.framing) :
    Awaits crypto bodies final rest
      (Peer.framing { peer with socketData := peer.socketData ++ chunk }) := by
  cases h with
  | header keys msgs aes mac state size data last received short =>
    refine .header keys msgs aes mac state size ?_ last received short
    exact (List.append_assoc _ _ _).trans data
  | body keys msg msgs aes mac bodySize state size data last received short =>
    refine .body keys msg msgs aes mac bodySize state size ?_ last received short
    exact (List.append_assoc _ _ _).trans data

/-- With no bytes left everything was read, once the loop has ended. -/
theorem Awaits.ended (h : Awaits crypto bodies final [] peer.framing)
    (hshort : peer.socketData.length < peer.nextPacketSize) :
    peer.received = bodies ∧ peer.socketData = [] ∧ peer.state = .header ∧
      peer.nextPacketSize = 32 ∧ peer.session.ingressAes = some final.aes ∧
      peer.session.ingressMac = some final.mac := by
  cases h with
  | header keys msgs aes mac state size data last received short =>
    have hdata : peer.socketData = (keys.sealFrames crypto msgs).1 :=
      (List.append_nil _).symm.trans data
    cases msgs with
    | nil =>
      have hfinal : keys = final := last
      subst hfinal
      exact ⟨(List.append_nil _).symm.trans received, hdata, state, size, aes, mac⟩
    | cons msg msgs =>
      have hlen := congrArg List.length hdata
      have hmsg := short msg List.mem_cons_self
      have hsize : peer.nextPacketSize = 32 := size
      rw [Keys.sealFrames, List.length_append, length_sealHeader _ _ hmsg] at hlen
      omega
  | body keys msg msgs aes mac bodySize state size data last received short =>
    have hlen := congrArg List.length data
    have hsize : peer.nextPacketSize = Peer.bodyPacketSize msg.length := size
    rw [List.append_nil, List.length_append, length_sealBody] at hlen
    change peer.socketData.length = _ at hlen
    omega

theorem split_of_append {a b c d : Bytes} (h : a ++ b = c ++ d) (hle : c.length ≤ a.length) :
    a.take c.length = c ∧ a.drop c.length ++ b = d := by
  have htake := congrArg (List.take c.length) h
  have hdrop := congrArg (List.drop c.length) h
  rw [List.take_append_of_le_length hle, List.take_left] at htake
  rw [List.drop_append_of_le_length hle, List.drop_left] at hdrop
  exact ⟨htake, hdrop⟩

theorem dispatch_sendable (cfg : PeerConfig) (h : peer.Sendable) (bytesCount : Nat) (body : Bytes) :
    ∃ peer', Peer.dispatch cfg bytesCount body peer = .ok () peer' ∧ peer'.Sendable ∧
      (peer'.closed = true ∨ peer'.framing =
        { peer.framing with socketData := peer.socketData.drop bytesCount }) := by
  unfold Peer.dispatch
  rw [get_bind]
  split
  · obtain ⟨peer', hok, hclosed⟩ := disconnect_closes cfg h PROTOCOL_ERROR
    exact ⟨peer', hok, .inl hclosed, .inl hclosed⟩
  · rw [get_bind]
    cases (Peer.bodyCode body).bind peer.getProtocol with
    | none =>
      obtain ⟨peer', hok, hclosed⟩ := disconnect_closes cfg h PROTOCOL_ERROR
      exact ⟨peer', hok, .inl hclosed, .inl hclosed⟩
    | some offset =>
      dsimp only
      generalize (Peer.bodyCode body).getD 0 - offset = msgCode
      obtain ⟨mid, hpayload, hmid⟩ :=
        handlePayload_sendable cfg h offset msgCode (body.drop 1)
      have hkeeps := (keeps_handlePayload cfg offset msgCode (body.drop 1)).of_ok hpayload
      rw [bind_of_ok hpayload]
      refine ⟨_, rfl, ?_, .inr ?_⟩
      · obtain hclosed | ⟨keys, hkeys⟩ := hmid
        · exact .inl hclosed
        · exact .inr ⟨keys, hkeys.aes, hkeys.mac, hkeys.connected⟩
      · rw [← hkeeps, ← show mid.socketData = peer.socketData from
          congrArg Framing.socketData hkeeps]
        rfl

/-- One iteration of the loop reads a header or a body, or closes the peer. -/
theorem Awaits.handle (h : Awaits cfg.crypto bodies final rest peer.framing)
    (hsend : peer.Sendable) (hlong : peer.nextPacketSize ≤ peer.socketData.length) :
    ∃ peer', Peer.handle cfg peer = .ok () peer' ∧ peer'.Sendable ∧
      (peer'.closed = true ∨ Awaits cfg.crypto bodies final rest peer'.framing) := by
  cases h with
  | header keys msgs aes mac state size data last received short =>
    have hsize : peer.nextPacketSize = 32 := size
    cases msgs with
    | nil =>
      have hlen := congrArg List.length data
      rw [List.length_append] at hlen
      change peer.socketData.length + _ = 0 at hlen
      omega
    | cons msg msgs =>
      have hmsg := short msg List.mem_cons_self
      have hheader := length_sealHeader cfg.crypto keys hmsg
      have hdata : peer.socketData ++ rest = (keys.sealHeader cfg.crypto msg.length).1 ++
          (((keys.sealHeader cfg.crypto msg.length).2.sealBody cfg.crypto msg).1 ++
            ((((keys.sealHeader cfg.crypto msg.length).2.sealBody cfg.crypto msg).2.sealFrames
              cfg.crypto msgs).1)) := data
      obtain ⟨htake, hdrop⟩ := split_of_append hdata (by rw [hheader]; exact hsize ▸ hlong)
      rw [hheader, ← hsize] at htake hdrop
      unfold Peer.handle
      rw [get_bind, show peer.state = .header from state]
      change ∃ peer', Peer.handleHeader cfg peer = _ ∧ _
      unfold Peer.handleHeader
      rw [get_bind, bind_of_ok (onSession_of_ok (a := some msg.length)
        (by rw [Peer.packet, show peer.socketData.take peer.nextPacketSize = _ from htake]
            exact parseHeader_seal aes mac hmsg))]
      refine ⟨_, rfl, ?_, .inr (.body (keys.sealHeader cfg.crypto msg.length).2 msg msgs
        rfl rfl rfl rfl rfl hdrop last received fun m hm => short m (List.mem_cons_of_mem _ hm))⟩
      obtain hclosed | ⟨egress, hkeys⟩ := hsend
      · exact .inl hclosed
      · exact .inr ⟨egress, hkeys.aes, hkeys.mac, hkeys.connected⟩
  | body keys msg msgs aes mac bodySize state size data last received short =>
    have hsize : peer.nextPacketSize = Peer.bodyPacketSize msg.length := size
    have hbody := length_sealBody cfg.crypto keys msg
    obtain ⟨htake, hdrop⟩ := split_of_append data (by rw [hbody]; exact hsize ▸ hlong)
    rw [hbody, ← hsize] at htake hdrop
    unfold Peer.handle
    rw [get_bind, show peer.state = .body from state]
    change ∃ peer', Peer.handleBody cfg peer = _ ∧ _
    unfold Peer.handleBody
    rw [get_bind, bind_of_ok (onSession_of_ok (a := some msg)
      (by rw [Peer.packet, show peer.socketData.take peer.nextPacketSize = _ from htake]
          exact parseBody_seal aes mac bodySize))]
    change ∃ peer', Peer.dispatch cfg peer.nextPacketSize msg (peer.afterBody
      (peer.session.withIngress (keys.sealBody cfg.crypto msg).2 none) msg) = _ ∧ _
    have hafter : (peer.afterBody
        (peer.session.withIngress (keys.sealBody cfg.crypto msg).2 none) msg).Sendable := by
      obtain hclosed | ⟨egress, hkeys⟩ := hsend
      · exact .inl hclosed
      · exact .inr ⟨egress, hkeys.aes, hkeys.mac, hkeys.connected⟩
    obtain ⟨peer', hok, hsend', hclosed | hframing⟩ :=
      dispatch_sendable cfg hafter peer.nextPacketSize msg
    · exact ⟨peer', hok, hsend', .inl hclosed⟩
    · refine ⟨peer', hok, hsend', .inr ?_⟩
      rw [hframing]
      exact .header (keys.sealBody cfg.crypto msg).2 msgs rfl rfl rfl rfl hdrop last
        ((List.append_assoc _ _ _).trans received) short

/-- A closed peer, or one that awaits the rest of the frames and can send. -/
def Reads (crypto : Crypto) (bodies : List Bytes) (final : Keys) (rest : Bytes) (peer : Peer) :
    Prop :=
  peer.closed = true ∨ Awaits crypto bodies final rest peer.framing ∧ peer.Sendable

theorem Reads.drain {fuel : Nat} {result : EStateM.Result RlpxError Peer Unit}
    (h : Reads cfg.crypto bodies final rest peer) (hdrain : Peer.drain cfg fuel peer = some result) :
    (endState result).closed = true ∨ ∃ peer', result = .ok () peer' ∧
      Awaits cfg.crypto bodies final rest peer'.framing ∧ peer'.Sendable ∧
      peer'.socketData.length < peer'.nextPacketSize := by
  induction fuel generalizing peer with
  | zero =>
    rw [Peer.drain] at hdrain
    split at hdrain
    · rename_i hshort
      cases hdrain
      obtain hclosed | ⟨hawaits, hsend⟩ := h
      · exact .inl hclosed
      · exact .inr ⟨peer, rfl, hawaits, hsend, hshort⟩
    · cases hdrain
  | succ fuel ih =>
    rw [Peer.drain] at hdrain
    split at hdrain
    · rename_i hshort
      cases hdrain
      obtain hclosed | ⟨hawaits, hsend⟩ := h
      · exact .inl hclosed
      · exact .inr ⟨peer, rfl, hawaits, hsend, hshort⟩
    · rename_i hlong
      obtain hclosed | ⟨hawaits, hsend⟩ := h
      · have hhandle := preserves_closed_handle cfg peer hclosed
        split at hdrain
        · rename_i hok
          rw [hok] at hhandle
          exact ih (.inl hhandle) hdrain
        · rename_i herror
          rw [herror] at hhandle
          cases hdrain
          exact .inl hhandle
      · obtain ⟨peer', hok, hsend', hnext⟩ := hawaits.handle hsend (Nat.not_lt.mp hlong)
        rw [hok] at hdrain
        exact ih (hnext.imp_right fun hnext => ⟨hnext, hsend'⟩) hdrain

end Awaiting

section Chunks

variable {crypto : Crypto} {bodies : List Bytes} {final : Keys} {rest chunk : Bytes}

/-- A peer that is closed or whose loop has ended with a part of the frames left. -/
def Rests (crypto : Crypto) (bodies : List Bytes) (final : Keys) (rest : Bytes) (peer : Peer) :
    Prop :=
  peer.closed = true ∨ Awaits crypto bodies final rest peer.framing ∧ peer.Sendable ∧
    peer.socketData.length < peer.nextPacketSize

theorem Rests.onSocketData {fuel : Nat} (h : Rests cfg.crypto bodies final (chunk ++ rest) peer)
    (hloop : Peer.onSocketData cfg fuel chunk peer = some peer') :
    Rests cfg.crypto bodies final rest peer' := by
  unfold Peer.onSocketData at hloop
  split at hloop
  · rename_i hclosed
    cases hloop
    exact .inl hclosed
  · rename_i hopen
    obtain hclosed | ⟨hawaits, hsend, -⟩ := h
    · exact absurd hclosed hopen
    have hreads : Reads cfg.crypto bodies final rest
        { peer with socketData := peer.socketData ++ chunk } := by
      refine .inr ⟨hawaits.append, ?_⟩
      obtain hclosed | ⟨egress, hkeys⟩ := hsend
      · exact .inl hclosed
      · exact .inr ⟨egress, hkeys.aes, hkeys.mac, hkeys.connected⟩
    split at hloop
    · cases hloop
    · rename_i hdrain
      cases hloop
      obtain hclosed | ⟨peer', heq, hawaits, hsend, hshort⟩ := hreads.drain hdrain
      · exact .inl hclosed
      · cases heq
        exact .inr ⟨hawaits, hsend, hshort⟩
    · rename_i e mid hdrain
      cases hloop
      obtain hclosed | ⟨peer', heq, -⟩ := hreads.drain hdrain
      · exact .inl (preserves_closed_disconnect _ mid hclosed)
      · cases heq

theorem Rests.onSocketData_ends (h : Rests cfg.crypto bodies final (chunk ++ rest) peer) :
    ∃ fuel peer', Peer.onSocketData cfg fuel chunk peer = some peer' := by
  rcases Bool.eq_false_or_eq_true peer.closed with hclosed | hopen
  · refine ⟨0, peer, ?_⟩
    rw [Peer.onSocketData, if_pos hclosed]
  · obtain hclosed | ⟨hawaits, -⟩ := h
    · exact absurd (hopen.symm.trans hclosed) (by decide)
    have hhalts : Peer.Halts cfg { peer with socketData := peer.socketData ++ chunk } := by
      obtain ⟨hvalid, hmac, hheader | hbody⟩ := hawaits.append.valid
      · exact (halts_of_keys _ _ hvalid hmac).1 hheader le_rfl
      · exact (halts_of_keys _ _ hvalid hmac).2 hbody le_rfl
    obtain ⟨fuel, hfuel⟩ := hhalts
    rw [← onSocketData_isSome hopen fuel chunk] at hfuel
    exact ⟨fuel, Option.isSome_iff_exists.mp hfuel⟩

/-- A peer receives chunks one after another. -/
inductive Receives (cfg : PeerConfig) : List Bytes → Peer → Peer → Prop
  | nil (peer : Peer) : Receives cfg [] peer peer
  | cons {chunk : Bytes} {chunks : List Bytes} {peer mid peer' : Peer} {fuel : Nat}
    (h : Peer.onSocketData cfg fuel chunk peer = some mid)
    (hrest : Receives cfg chunks mid peer') : Receives cfg (chunk :: chunks) peer peer'

theorem Rests.receives {chunks : List Bytes}
    (h : Rests cfg.crypto bodies final chunks.flatten peer) :
    (∃ peer', Receives cfg chunks peer peer') ∧
      ∀ peer', Receives cfg chunks peer peer' → Rests cfg.crypto bodies final [] peer' := by
  induction chunks generalizing peer with
  | nil =>
    refine ⟨⟨peer, .nil peer⟩, fun peer' hreceives => ?_⟩
    cases hreceives
    exact h
  | cons chunk chunks ih =>
    rw [List.flatten_cons] at h
    obtain ⟨fuel, mid, hloop⟩ := h.onSocketData_ends
    constructor
    · obtain ⟨peer', hrest⟩ := (ih (h.onSocketData hloop)).1
      exact ⟨peer', .cons hloop hrest⟩
    · intro peer' hreceives
      cases hreceives with
      | cons hloop hrest => exact (ih (h.onSocketData hloop)).2 peer' hrest

/-- The frames that a peer is ready to read. -/
structure Peer.ReadsFrom (peer : Peer) (keys : Keys) : Prop where
  aes : peer.session.ingressAes = some keys.aes
  mac : peer.session.ingressMac = some keys.mac
  state : peer.state = .header
  size : peer.nextPacketSize = 32
  empty : peer.socketData = []

/-- Whatever the chunks, the messages that one peer sends are read by the other one, as long as
nothing closes it. -/
theorem receives_sent {sending : PeerConfig} (hcrypto : sending.crypto = cfg.crypto)
    {sender : Peer} {keys replies : Keys} (hsends : sender.Sends keys)
    (hopen : sender.closed = false) (hreads : peer.ReadsFrom keys) (hreplies : peer.Sends replies)
    (sends : List (Nat × Bytes)) (hshort : ∀ send ∈ sends, (messageBody send).length < 2 ^ 24) :
    ∃ sent frames, Peer.sendMessages sending sends sender = .ok () sent ∧
      sent.written = sender.written ++ frames ∧
      ∀ chunks : List Bytes, chunks.flatten = frames →
        (∃ peer', Receives cfg chunks peer peer') ∧
        ∀ peer', Receives cfg chunks peer peer' → peer'.closed = false →
          peer'.received = peer.received ++ sends.map messageBody ∧ peer'.socketData = [] ∧
          peer'.state = .header ∧ peer'.nextPacketSize = 32 ∧
          peer'.session.ingressAes = sent.session.egressAes ∧
          peer'.session.ingressMac = sent.session.egressMac := by
  obtain ⟨sent, hsent, hwritten, hkeys, -⟩ := sendMessages_sealed sending hsends hopen sends
  rw [hcrypto] at hwritten hkeys
  refine ⟨sent, _, hsent, hwritten, fun chunks hflatten => ?_⟩
  have hrests : Rests cfg.crypto (peer.received ++ sends.map messageBody)
      (keys.sealFrames cfg.crypto (sends.map messageBody)).2 chunks.flatten peer := by
    refine .inr ⟨.header keys (sends.map messageBody) hreads.aes hreads.mac hreads.state hreads.size
      ?_ rfl rfl ?_, .inr ⟨replies, hreplies⟩, ?_⟩
    · rw [show peer.framing.socketData = [] from hreads.empty, hflatten]
      rfl
    · intro msg hmem
      obtain ⟨send, hsend, rfl⟩ := List.mem_map.mp hmem
      exact hshort send hsend
    · rw [hreads.empty, hreads.size]
      decide
  refine ⟨hrests.receives.1, fun peer' hreceives hopen' => ?_⟩
  obtain hclosed | ⟨hawaits, -, hdone⟩ := hrests.receives.2 peer' hreceives
  · exact absurd (hopen'.symm.trans hclosed) (by decide)
  · rw [hkeys.aes, hkeys.mac]
    exact hawaits.ended hdone

/-- A peer whose keys are the same in both directions. -/
def Sample.connected : Peer :=
  { Peer.create Sample.config [] none with
    session := ((ECIES.create [] none).withEgress ⟨⟨[], 0⟩, ⟨[], []⟩⟩).withIngress
      ⟨⟨[], 0⟩, ⟨[], []⟩⟩ none
    state := .header
    nextPacketSize := 32
    hello := true }

theorem Sample.connected_sends : Sample.connected.Sends ⟨⟨[], 0⟩, ⟨[], []⟩⟩ := ⟨rfl, rfl, rfl⟩

theorem Sample.connected_reads : Sample.connected.ReadsFrom ⟨⟨[], 0⟩, ⟨[], []⟩⟩ :=
  ⟨rfl, rfl, rfl, rfl, rfl⟩

theorem receives_sent_hello : ∃ sent frames,
    Peer.sendMessages Sample.config [(0, [1, 2, 3]), (1, [])] Sample.connected = .ok () sent ∧
      sent.written = [] ++ frames ∧
      ∀ chunks : List Bytes, chunks.flatten = frames →
        (∃ peer', Receives Sample.config chunks Sample.connected peer') ∧
        ∀ peer', Receives Sample.config chunks Sample.connected peer' → peer'.closed = false →
          peer'.received = [] ++ [[0x80, 1, 2, 3], [1]] ∧ peer'.socketData = [] ∧
          peer'.state = .header ∧ peer'.nextPacketSize = 32 ∧
          peer'.session.ingressAes = sent.session.egressAes ∧
          peer'.session.ingressMac = sent.session.egressMac :=
  receives_sent rfl Sample.connected_sends rfl Sample.connected_reads Sample.connected_sends _
    (by decide)

/-- A message of a code that no protocol has is answered by a disconnect, its body is read again
as a header and the message behind it is lost. -/
theorem not_receives_sent_unknown : ¬ ∀ (cfg : PeerConfig) (sender peer : Peer) (keys replies : Keys),
    (∀ peer offset msgCode payload, (cfg.handleMessage peer offset msgCode payload).closes = false ∧
      (cfg.handleMessage peer offset msgCode payload).error = none) →
    sender.Sends keys → sender.closed = false → peer.ReadsFrom keys → peer.Sends replies →
    ∀ sends : List (Nat × Bytes), (∀ send ∈ sends, send.1 < 128 ∧
      (messageBody send).length < 2 ^ 24) →
    ∀ sent, Peer.sendMessages cfg sends sender = .ok () sent →
    ∀ chunks : List Bytes, sent.written = sender.written ++ chunks.flatten →
    ∀ peer', Receives cfg chunks peer peer' →
      peer'.received = peer.received ++ sends.map messageBody ∧ peer'.socketData = [] := by
  intro hall
  obtain ⟨sent, hsent⟩ : ∃ sent, Peer.sendMessages Sample.config [(32, []), (0, [])]
      Sample.connected = .ok () sent :=
    (sendMessages_sealed Sample.config Sample.connected_sends rfl _).imp fun _ h => h.1
  have hwritten : sent = endState (Peer.sendMessages Sample.config [(32, []), (0, [])]
      Sample.connected) := by
    rw [hsent]
    rfl
  have hread : (Peer.onSocketData Sample.config 4 sent.written Sample.connected).map
      Peer.received = some [[32]] := by
    rw [hwritten]
    decide +kernel
  obtain ⟨peer', hloop, hreceived⟩ := Option.map_eq_some_iff.mp hread
  have hboth := (hall Sample.config _ _ _ _ (fun _ _ _ _ => ⟨rfl, rfl⟩) Sample.connected_sends rfl
    Sample.connected_reads Sample.connected_sends _ (by decide) sent hsent [sent.written]
    (by rw [List.flatten_singleton]; rfl) peer' (.cons hloop (.nil _))).1
  rw [hreceived] at hboth
  exact absurd hboth (by decide)

end Chunks

end EthereumJS.Devp2p
