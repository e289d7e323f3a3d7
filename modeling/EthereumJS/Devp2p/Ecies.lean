import EthereumJS.Overlay.Frame
import EthereumJS.Mpt.Trie
import EthereumJS.Rlp.RoundTrip

/-! # ECIES sessions

The session of `ecies.ts` with the MAC of `mac.ts`. The primitives are parameters: AES-CTR is
an exclusive or with a keystream, the MAC hashes the bytes that it was fed, and the opening of
a handshake packet (decryption, decoding and key agreement) may answer anything.
-/

namespace EthereumJS.Devp2p

open RLP

inductive RlpxError
  | primitive (n : Nat)
  | packetLength
  | invalidMac
  | headerNotParsed
  deriving DecidableEq

/-- `xor` cuts both to the shorter one. -/
def xor (a b : Bytes) : Bytes := List.zipWith (· ^^^ ·) a b

def zfill (bytes : Bytes) (size : Nat) (leftpad : Bool) : Bytes :=
  if bytes.length ≥ size then bytes
  else
    let pad := List.replicate (size - bytes.length) 0
    if leftpad then pad ++ bytes else bytes ++ pad

/-- Big endian without leading zeros; zero is one byte. -/
def intToBytes (i : Nat) : Bytes := numberToBytes i

/-- The decoded fields of an ack packet; a list that is too short has no nonce. -/
structure AckPacket where
  remoteEphemeralPublicKey : Bytes
  remoteNonce : Option Bytes

structure AuthPacket where
  remotePublicKey : Bytes
  remoteNonce : Bytes

structure Crypto where
  keccak256 : HashKeysFunction
  /-- `aes-256-ecb` on one block. -/
  aesBlock : (key block : Bytes) → Bytes
  length_aesBlock : ∀ key block, (aesBlock key block).length = block.length
  /-- `aes-256-ctr` from the zero counter block. -/
  keystream : (key : Bytes) → (position : Nat) → UInt8
  /-- The packets of `createAuthEIP8`, `createAuthNonEIP8`, `createAckEIP8` and `createAckOld`. -/
  authMessage : (eip8 : Bool) → (remotePublicKey : Bytes) → Bytes
  ackMessage : (eip8 : Bool) → (remotePublicKey : Bytes) → Bytes
  /-- Decryption and decoding of an auth packet up to its nonce. -/
  openAuth : (data sharedMacData : Bytes) → Except RlpxError AuthPacket
  /-- The shared secret from the recovered ephemeral key. -/
  authSecret : (data sharedMacData : Bytes) → AuthPacket → Except RlpxError Bytes
  openAck : (data sharedMacData : Bytes) → Except RlpxError AckPacket
  ackSecret : (remoteEphemeralPublicKey : Bytes) → Except RlpxError Bytes

/-- A stream cipher at a position of its keystream. -/
structure Cipher where
  secret : Bytes
  position : Nat
  deriving DecidableEq

/-- A MAC with all bytes that its hash was fed. -/
structure MAC where
  secret : Bytes
  fed : Bytes
  deriving DecidableEq

variable (crypto : Crypto)

namespace Cipher

/-- The bytes of the keystream from a position on. -/
def pad (cipher : Cipher) (length : Nat) : Bytes :=
  (List.range length).map fun i => crypto.keystream cipher.secret (cipher.position + i)

def update (cipher : Cipher) (data : Bytes) : Bytes := xor data (cipher.pad crypto data.length)

def advance (cipher : Cipher) (length : Nat) : Cipher :=
  { cipher with position := cipher.position + length }

end Cipher

namespace MAC

def update (mac : MAC) (data : Bytes) : MAC := { mac with fed := mac.fed ++ data }

def digest (mac : MAC) : Bytes := (crypto.keccak256.hash mac.fed).take 16

def updateHeader (mac : MAC) (data : Bytes) : MAC :=
  let encrypted := crypto.aesBlock mac.secret (mac.digest crypto)
  mac.update (xor encrypted data)

def updateBody (mac : MAC) (data : Bytes) : MAC :=
  let mac := mac.update data
  let prev := mac.digest crypto
  let encrypted := crypto.aesBlock mac.secret prev
  mac.update (xor encrypted prev)

theorem length_digest (mac : MAC) : (mac.digest crypto).length = 16 := by
  rw [digest, List.length_take, crypto.keccak256.length_hash]
  rfl

end MAC

structure ECIES where
  remotePublicKey : Option Bytes
  nonce : Bytes
  remoteNonce : Option Bytes
  initMsg : Option Bytes
  remoteInitMsg : Option Bytes
  gotEIP8Auth : Bool
  gotEIP8Ack : Bool
  ingressAes : Option Cipher
  egressAes : Option Cipher
  ingressMac : Option MAC
  egressMac : Option MAC
  ephemeralSharedSecret : Option Bytes
  bodySize : Option Nat

abbrev EciesM := EStateM RlpxError ECIES

def liftEcies {α : Type} (x : Except RlpxError α) : EciesM α :=
  match x with
  | .ok a => pure a
  | .error e => throw e

def assertEq {α : Type} [DecidableEq α] (expected actual : α) (error : RlpxError) : EciesM Unit :=
  if expected = actual then pure () else throw error

namespace ECIES

def create (nonce : Bytes) (remoteId : Option Bytes) : ECIES :=
  { remotePublicKey := remoteId.map fun id => 4 :: id
    nonce := nonce
    remoteNonce := none
    initMsg := none
    remoteInitMsg := none
    gotEIP8Auth := false
    gotEIP8Ack := false
    ingressAes := none
    egressAes := none
    ingressMac := none
    egressMac := none
    ephemeralSharedSecret := none
    bodySize := none }

/-- Without the nonce of the other side or a shared secret no keys are set. -/
def setupFrame (remoteData : Bytes) (incoming : Bool) (session : ECIES) : ECIES :=
  match session.remoteNonce, session.ephemeralSharedSecret with
  | some remoteNonce, some ephemeralSharedSecret =>
    let keccak := crypto.keccak256.hash
    let nonceMaterial :=
      if incoming then session.nonce ++ remoteNonce else remoteNonce ++ session.nonce
    let hNonce := keccak nonceMaterial
    let sharedSecret := keccak (ephemeralSharedSecret ++ hNonce)
    let aesSecret := keccak (ephemeralSharedSecret ++ sharedSecret)
    let macSecret := keccak (ephemeralSharedSecret ++ aesSecret)
    let ingressMac := (MAC.mk macSecret []).update (xor macSecret session.nonce ++ remoteData)
    let egressMac :=
      match session.initMsg with
      | none => ⟨macSecret, []⟩
      | some initMsg => (MAC.mk macSecret []).update (xor macSecret remoteNonce ++ initMsg)
    { session with
      ingressAes := some ⟨aesSecret, 0⟩
      egressAes := some ⟨aesSecret, 0⟩
      ingressMac := some ingressMac
      egressMac := some egressMac }
  | _, _ => session

def createAuth (eip8 : Bool) (session : ECIES) : Option (Bytes × ECIES) :=
  session.remotePublicKey.map fun key =>
    let initMsg := crypto.authMessage eip8 key
    (initMsg, { session with initMsg := some initMsg })

/-- `createAckEIP8` or `createAckOld`. -/
def createAck : EciesM (Option Bytes) := do
  let session ← get
  match session.remotePublicKey with
  | none =>
    if session.gotEIP8Auth then return none
    else
      modify fun session => { session with initMsg := none }
      match session.remoteInitMsg with
      | none => return none
      | some remoteInitMsg =>
        modify fun session => session.setupFrame crypto remoteInitMsg true
        return none
  | some key =>
    let initMsg := crypto.ackMessage session.gotEIP8Auth key
    modify fun session => { session with initMsg := some initMsg }
    match session.remoteInitMsg with
    | none => return none
    | some remoteInitMsg =>
      modify fun session => session.setupFrame crypto remoteInitMsg true
      return some initMsg

/-- `parseAuthEIP8`. The first two bytes are the size of the rest. -/
def parseAuthEIP8 (data : Bytes) : EciesM Unit := do
  assertEq data.length (bytesToNumber (data.take 2) + 2) .packetLength
  let sharedMacData := data.take 2
  let packet := data.drop 2
  modify fun session => { session with remoteInitMsg := some (sharedMacData ++ packet) }
  let decoded ← liftEcies (crypto.openAuth packet sharedMacData)
  modify fun session =>
    { session with
      remotePublicKey := some decoded.remotePublicKey
      remoteNonce := some decoded.remoteNonce }
  let secret ← liftEcies (crypto.authSecret packet sharedMacData decoded)
  modify fun session => { session with ephemeralSharedSecret := some secret }

/-- `parseAckEIP8`. -/
def parseAckEIP8 (data : Bytes) : EciesM Unit := do
  assertEq data.length (bytesToNumber (data.take 2) + 2) .packetLength
  let sharedMacData := data.take 2
  let packet := data.drop 2
  let decoded ← liftEcies (crypto.openAck packet sharedMacData)
  modify fun session => { session with remoteNonce := decoded.remoteNonce }
  let secret ← liftEcies (crypto.ackSecret decoded.remoteEphemeralPublicKey)
  modify fun session => { session with ephemeralSharedSecret := some secret }
  modify fun session => session.setupFrame crypto (sharedMacData ++ packet) false

/-- The plain header of a frame. -/
def headerData (size : Nat) : Bytes :=
  zfill (zfill (intToBytes size) 3 true ++ encode (.list [.bytes [], .bytes []])) 16 false

def createBlockHeader (size : Nat) : EciesM (Option Bytes) := do
  match (← get).egressAes with
  | none => return none
  | some aes =>
    let header := aes.update crypto (headerData size)
    modify fun session => { session with egressAes := some (aes.advance header.length) }
    match (← get).egressMac with
    | none => return none
    | some mac =>
      let mac := mac.updateHeader crypto header
      modify fun session => { session with egressMac := some mac }
      return some (header ++ mac.digest crypto)

def parseHeader (data : Bytes) : EciesM (Option Nat) := do
  let header := data.take 16
  let mac := (data.drop 16).take 16
  match (← get).ingressMac with
  | none => return none
  | some ingressMac =>
    let ingressMac := ingressMac.updateHeader crypto header
    modify fun session => { session with ingressMac := some ingressMac }
    assertEq (ingressMac.digest crypto) mac .invalidMac
    match (← get).ingressAes with
    | none => return none
    | some aes =>
      let header := aes.update crypto header
      let bodySize := bytesToNumber (header.take 3)
      modify fun session =>
        { session with ingressAes := some (aes.advance header.length), bodySize := some bodySize }
      return some bodySize

/-- The zeros at the end fill the last block. -/
def bodyData (data : Bytes) : Bytes := zfill data ((data.length + 15) / 16 * 16) false

def createBody (data : Bytes) : EciesM (Option Bytes) := do
  match (← get).egressAes with
  | none => return none
  | some aes =>
    let encryptedData := aes.update crypto (bodyData data)
    modify fun session => { session with egressAes := some (aes.advance encryptedData.length) }
    match (← get).egressMac with
    | none => return none
    | some mac =>
      let mac := mac.updateBody crypto encryptedData
      modify fun session => { session with egressMac := some mac }
      return some (encryptedData ++ mac.digest crypto)

def parseBody (data : Bytes) : EciesM (Option Bytes) := do
  match (← get).bodySize with
  | none => throw .headerNotParsed
  | some size =>
    let body := data.take (data.length - 16)
    let mac := data.drop (data.length - 16)
    match (← get).ingressMac with
    | none => return none
    | some ingressMac =>
      let ingressMac := ingressMac.updateBody crypto body
      modify fun session => { session with ingressMac := some ingressMac }
      assertEq (ingressMac.digest crypto) mac .invalidMac
      modify fun session => { session with bodySize := none }
      match (← get).ingressAes with
      | none => return none
      | some aes =>
        modify fun session => { session with ingressAes := some (aes.advance body.length) }
        return some ((aes.update crypto body).take size)

end ECIES

end EthereumJS.Devp2p
