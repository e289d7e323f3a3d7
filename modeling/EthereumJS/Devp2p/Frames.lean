import EthereumJS.Devp2p.Loop

/-! # Frames in chunks

What the sender of a sequence of messages writes, and what a receiver with the same keys
reads from it, however the bytes are cut into chunks.
-/

namespace EthereumJS.Devp2p

open Overlay RLP

theorem xor_xor {a b : Bytes} (h : a.length ≤ b.length) : xor (xor a b) b = a := by
  induction a generalizing b with
  | nil => rfl
  | cons x a ih =>
    cases b with
    | nil => cases h
    | cons y b =>
      have hrest := ih (Nat.le_of_succ_le_succ h)
      simp only [xor, List.zipWith_cons_cons] at hrest ⊢
      rw [hrest, UInt8.xor_assoc, UInt8.xor_self, UInt8.xor_zero]

theorem length_zfill_right (bytes : Bytes) {size : Nat} (h : bytes.length ≤ size) (left : Bool) :
    (zfill bytes size left).length = size := by
  unfold zfill
  split
  · omega
  · cases left <;> simp <;> omega

theorem take_zfill_right (bytes : Bytes) (size : Nat) :
    (zfill bytes size false).take bytes.length = bytes := by
  unfold zfill
  split
  · exact List.take_length
  · simp

theorem bytesToNumber_replicate (n : Nat) (v : Bytes) :
    bytesToNumber (List.replicate n 0 ++ v) = bytesToNumber v := by
  induction n with
  | zero => rfl
  | succ n ih =>
    rw [← ih]
    simp [bytesToNumber, List.replicate_succ]

theorem length_intToBytes_le {size : Nat} (h : size < 2 ^ 24) : (intToBytes size).length ≤ 3 := by
  rcases Nat.eq_zero_or_pos size with rfl | hpos
  · decide
  · exact length_numberToBytes_le 3 size (by omega) h

theorem headerData_spec {size : Nat} (h : size < 2 ^ 24) :
    (ECIES.headerData size).length = 16 ∧
      bytesToNumber ((ECIES.headerData size).take 3) = size := by
  have hint := length_intToBytes_le h
  have hfill : (zfill (intToBytes size) 3 true).length = 3 := length_zfill_right _ hint _
  have hlist : (encode (.list [.bytes [], .bytes []])).length = 3 := by decide
  unfold ECIES.headerData
  constructor
  · apply length_zfill_right
    rw [List.length_append, hfill, hlist]
    decide
  · have htake := take_zfill_right
      (zfill (intToBytes size) 3 true ++ encode (.list [.bytes [], .bytes []])) 16
    have hle : 3 ≤ (zfill (intToBytes size) 3 true ++
        encode (.list [.bytes [], .bytes []])).length := by
      rw [List.length_append]
      omega
    have hfirst : (zfill (zfill (intToBytes size) 3 true ++
        encode (.list [.bytes [], .bytes []])) 16 false).take 3 =
        zfill (intToBytes size) 3 true := by
      calc
        _ = ((zfill (zfill (intToBytes size) 3 true ++
              encode (.list [.bytes [], .bytes []])) 16 false).take
                (zfill (intToBytes size) 3 true ++
                  encode (.list [.bytes [], .bytes []])).length).take 3 := by
          rw [List.take_take, Nat.min_eq_left hle]
        _ = _ := by rw [htake, List.take_left' hfill]
    rw [hfirst]
    unfold zfill
    split
    · exact bytesToNumber_numberToBytes size
    · simp only [if_true]
      rw [bytesToNumber_replicate]
      exact bytesToNumber_numberToBytes size

theorem bodyData_spec (data : Bytes) :
    (ECIES.bodyData data).length + 16 = Peer.bodyPacketSize data.length ∧
      (ECIES.bodyData data).take data.length = data := by
  refine ⟨?_, take_zfill_right _ _⟩
  unfold ECIES.bodyData Peer.bodyPacketSize
  rw [length_zfill_right _ (by omega)]
  split <;> omega

variable {crypto : Crypto}

theorem length_pad (aes : Cipher) (n : Nat) : (aes.pad crypto n).length = n := by
  simp [Cipher.pad]

theorem length_update (aes : Cipher) (data : Bytes) :
    (aes.update crypto data).length = data.length := by
  simp [Cipher.update, xor, length_pad]

/-- Decryption at the same position gives the data back. -/
theorem update_update (aes : Cipher) (data : Bytes) :
    aes.update crypto (aes.update crypto data) = data := by
  conv_lhs => rw [Cipher.update, length_update]
  exact xor_xor (by rw [length_pad])

/-- The cipher and the MAC of one direction. -/
structure Keys where
  aes : Cipher
  mac : MAC

namespace Keys

variable (crypto) (keys : Keys)

def sealHeader (size : Nat) : Bytes × Keys :=
  let header := keys.aes.update crypto (ECIES.headerData size)
  let mac := keys.mac.updateHeader crypto header
  (header ++ mac.digest crypto, ⟨keys.aes.advance header.length, mac⟩)

def sealBody (data : Bytes) : Bytes × Keys :=
  let encryptedData := keys.aes.update crypto (ECIES.bodyData data)
  let mac := keys.mac.updateBody crypto encryptedData
  (encryptedData ++ mac.digest crypto, ⟨keys.aes.advance encryptedData.length, mac⟩)

/-- The frames of a list of messages. -/
def sealFrames : Keys → List Bytes → Bytes × Keys
  | keys, [] => ([], keys)
  | keys, msg :: msgs =>
    let (header, keys) := keys.sealHeader crypto msg.length
    let (body, keys) := keys.sealBody crypto msg
    let (frames, keys) := sealFrames keys msgs
    (header ++ (body ++ frames), keys)

end Keys

def ECIES.withEgress (session : ECIES) (keys : Keys) : ECIES :=
  { session with egressAes := some keys.aes, egressMac := some keys.mac }

def ECIES.withIngress (session : ECIES) (keys : Keys) (bodySize : Option Nat) : ECIES :=
  { session with
    ingressAes := some keys.aes, ingressMac := some keys.mac, bodySize := bodySize }

section Session

variable {session : ECIES} {keys : Keys}

theorem createBlockHeader_seal (haes : session.egressAes = some keys.aes)
    (hmac : session.egressMac = some keys.mac) (size : Nat) :
    ECIES.createBlockHeader crypto size session =
      .ok (some (keys.sealHeader crypto size).1)
        (session.withEgress (keys.sealHeader crypto size).2) := by
  unfold ECIES.createBlockHeader
  rw [get_bind, haes]
  dsimp only
  rw [modify_bind, get_bind, hmac]
  rfl

theorem createBody_seal (haes : session.egressAes = some keys.aes)
    (hmac : session.egressMac = some keys.mac) (data : Bytes) :
    ECIES.createBody crypto data session =
      .ok (some (keys.sealBody crypto data).1)
        (session.withEgress (keys.sealBody crypto data).2) := by
  unfold ECIES.createBody
  rw [get_bind, haes]
  dsimp only
  rw [modify_bind, get_bind, hmac]
  rfl

theorem length_sealHeader (crypto : Crypto) (keys : Keys) {size : Nat} (h : size < 2 ^ 24) :
    (keys.sealHeader crypto size).1.length = 32 := by
  rw [Keys.sealHeader, List.length_append, length_update, (headerData_spec h).1,
    MAC.length_digest]

theorem length_sealBody (crypto : Crypto) (keys : Keys) (data : Bytes) :
    (keys.sealBody crypto data).1.length = Peer.bodyPacketSize data.length := by
  rw [Keys.sealBody, List.length_append, length_update, MAC.length_digest, (bodyData_spec data).1]

/-- A header is read with the keys it was sealed with. -/
theorem parseHeader_seal (haes : session.ingressAes = some keys.aes)
    (hmac : session.ingressMac = some keys.mac) {size : Nat} (h : size < 2 ^ 24) :
    ECIES.parseHeader crypto (keys.sealHeader crypto size).1 session =
      .ok (some size) (session.withIngress (keys.sealHeader crypto size).2 (some size)) := by
  obtain ⟨hlen, hsize⟩ := headerData_spec h
  have hlen : (keys.aes.update crypto (ECIES.headerData size)).length = 16 := by
    rw [length_update, hlen]
  have hheader : (keys.sealHeader crypto size).1.take 16 =
      keys.aes.update crypto (ECIES.headerData size) := by
    rw [Keys.sealHeader, List.take_append_of_le_length (by rw [hlen]), ← hlen, List.take_length]
  have htag : ((keys.sealHeader crypto size).1.drop 16).take 16 =
      (keys.mac.updateHeader crypto
        (keys.aes.update crypto (ECIES.headerData size))).digest crypto := by
    rw [Keys.sealHeader, ← hlen, List.drop_left, hlen,
      List.take_of_length_le (by rw [MAC.length_digest])]
  unfold ECIES.parseHeader
  rw [get_bind, hmac]
  dsimp only
  rw [modify_bind, hheader, htag, bind_of_ok (assertEq_of_eq rfl), get_bind, haes]
  dsimp only
  rw [update_update, hsize, modify_bind, Keys.sealHeader, length_update]
  rfl

/-- A body is read with the keys it was sealed with. -/
theorem parseBody_seal (haes : session.ingressAes = some keys.aes)
    (hmac : session.ingressMac = some keys.mac) {data : Bytes}
    (hsize : session.bodySize = some data.length) :
    ECIES.parseBody crypto (keys.sealBody crypto data).1 session =
      .ok (some data) (session.withIngress (keys.sealBody crypto data).2 none) := by
  have hlen : (keys.sealBody crypto data).1.length - 16 =
      (keys.aes.update crypto (ECIES.bodyData data)).length := by
    rw [Keys.sealBody, List.length_append, MAC.length_digest, Nat.add_sub_cancel]
  have hbody : (keys.sealBody crypto data).1.take ((keys.sealBody crypto data).1.length - 16) =
      keys.aes.update crypto (ECIES.bodyData data) := by
    rw [hlen, Keys.sealBody, List.take_left]
  have htag : (keys.sealBody crypto data).1.drop ((keys.sealBody crypto data).1.length - 16) =
      (keys.mac.updateBody crypto
        (keys.aes.update crypto (ECIES.bodyData data))).digest crypto := by
    rw [hlen, Keys.sealBody, List.drop_left]
  unfold ECIES.parseBody
  rw [get_bind, hsize]
  dsimp only
  rw [get_bind, hmac]
  dsimp only
  rw [modify_bind, hbody, htag, bind_of_ok (assertEq_of_eq rfl), modify_bind, get_bind, haes]
  dsimp only
  rw [modify_bind, update_update, (bodyData_spec data).2]
  rfl

end Session

end EthereumJS.Devp2p
