import EthereumJS.Mpt.Proof
import EthereumJS.Util.Account

/-! # State proofs

`verifyMerkleStateProof` of `statemanager/src/proof/merkle.ts`. Every sub-proof makes a
trie of its own, whose root is the hash of its first node.
-/

namespace EthereumJS

open RLP Patricia Patricia.Tree

structure StorageProof where
  key : HexString
  value : HexString
  proof : List HexString

structure StateProof where
  address : HexString
  balance : HexString
  codeHash : HexString
  nonce : HexString
  storageHash : HexString
  accountProof : List HexString
  storageProof : List StorageProof

inductive StateProofError
  | mpt (error : MPTError)
  | bytes (error : BytesError)
  | account (error : AccountError)
  | notEmpty (reason : String)
  | invalid (reason : String)
  | storageValue (key reported actual : HexString)
  deriving DecidableEq

def StateProofError.message : StateProofError → String
  | mpt error => error.message
  | bytes _ => "invalid bytes"
  | account error => error.message
  | notEmpty reason => "Invalid proof provided: account is not empty (" ++ reason ++ ")"
  | invalid reason => "Invalid proof provided: " ++ reason
  | storageValue key reported actual =>
    "Reported trie value does not match storage, key: " ++ String.ofList key ++ ", reported: " ++
      String.ofList reported ++ ", actual: " ++ String.ofList actual

/-- The options `{ useKeyHashing: true }`. -/
def hashedOpts (H : HashKeysFunction) : MPTOpts := ⟨true, H, false⟩

def requireEqual {α : Type*} [DecidableEq α] (error : StateProofError) (a b : α) :
    Except StateProofError Unit :=
  if a = b then .ok () else .error error

def bytesOf (hex : HexString) : Except StateProofError Bytes := (hexToBytes hex).mapError .bytes

def bigIntOf (hex : HexString) : Except StateProofError Nat := (hexToBigInt hex).mapError .bytes

variable (H : HashKeysFunction)

/-- The account has to be reported as empty, since the trie does not hold it. -/
def verifyEmptyAccount (proof : StateProof) : Except StateProofError Unit := do
  let nonce ← bytesOf proof.nonce
  requireEqual (.notEmpty "nonce is not zero") (unpadBytes nonce) []
  let balance ← bytesOf proof.balance
  requireEqual (.notEmpty "balance is not zero") (unpadBytes balance) []
  let storageHash ← bytesOf proof.storageHash
  requireEqual (.notEmpty "storageHash does not equal KECCAK256_RLP") storageHash (keccakRlp H)
  let codeHash ← bytesOf proof.codeHash
  requireEqual (.notEmpty "codeHash does not equal KECCAK256_NULL") codeHash (keccakNull H)

/-- The account of the trie has to be the reported one. -/
def verifyAccount (proof : StateProof) (value : Item) : Except StateProofError Unit := do
  let account ← (createAccountFromRLP H value).mapError .account
  let nonce ← bigIntOf proof.nonce
  requireEqual (.invalid "nonce does not match") account.nonce nonce
  let balance ← bigIntOf proof.balance
  requireEqual (.invalid "balance does not match") account.balance balance
  let storageHash ← bytesOf proof.storageHash
  requireEqual (.invalid "storageHash does not match") account.storageRoot storageHash
  let codeHash ← bytesOf proof.codeHash
  requireEqual (.invalid "codeHash does not match") account.codeHash codeHash

/-- What a storage trie returned, as 32 bytes. -/
def reportedValue (proofValue : Option Item) : Except StateProofError Bytes :=
  match decodeValue (proofValue.getD (.bytes [])) with
  | .ok (.bytes data) => (setLengthLeft data 32).mapError .bytes
  | .ok (.list _) => .error (.bytes .notBytes)
  | .error e => .error (.bytes e)

def verifyStorageProof (stProof : StorageProof) : Except StateProofError Unit := do
  let storageProof ← stProof.proof.mapM bytesOf
  let value ← bytesOf stProof.value
  let storageValue ← (setLengthLeft value 32).mapError .bytes
  let storageKey ← bytesOf stProof.key
  let proofValue ←
    (verifyMerkleProof storageKey storageProof (hashedOpts H) none).mapError .mpt
  let reported ← reportedValue proofValue
  requireEqual (.storageValue stProof.key (bytesToHex reported) (bytesToHex storageValue))
    reported storageValue

def verifyStorageProofs : List StorageProof → Except StateProofError Unit
  | [] => .ok ()
  | stProof :: storageProof => do
    verifyStorageProof H stProof
    verifyStorageProofs storageProof

def verifyMerkleStateProof (proof : StateProof) : Except StateProofError Bool := do
  let key ← bytesOf proof.address
  let accountProof ← proof.accountProof.mapM bytesOf
  let value ← (verifyMerkleProof key accountProof (hashedOpts H) none).mapError .mpt
  match value with
  | none => verifyEmptyAccount H proof
  | some value => verifyAccount H proof value
  verifyStorageProofs H proof.storageProof
  pure true

theorem requireEqual_eq_ok {α : Type*} [DecidableEq α] {error : StateProofError} {a b : α}
    {u : Unit} : requireEqual error a b = .ok u ↔ a = b := by
  unfold requireEqual
  split
  · rename_i hab
    exact iff_of_true rfl hab
  · rename_i hab
    exact iff_of_false (by rintro ⟨⟩) hab

theorem mapError_eq_ok {ε ε' α : Type} {x : Except ε α} {f : ε → ε'} {a : α} :
    x.mapError f = .ok a ↔ x = .ok a := by
  cases x with
  | error e => exact iff_of_false (by rintro ⟨⟩) (by rintro ⟨⟩)
  | ok a' => simp [Except.mapError]

theorem verifyStorageProofs_eq_ok {storageProof : List StorageProof} {u : Unit} :
    verifyStorageProofs H storageProof = .ok u ↔
      ∀ s ∈ storageProof, verifyStorageProof H s = .ok () := by
  induction storageProof with
  | nil => simp [verifyStorageProofs]
  | cons s storageProof ih =>
    rw [verifyStorageProofs, bind_eq_ok, List.forall_mem_cons, ih]
    exact ⟨fun ⟨_, hs, hrest⟩ => ⟨hs, hrest⟩, fun ⟨hs, hrest⟩ => ⟨(), hs, hrest⟩⟩

theorem verifyStorageProof_of_accept {proof : StateProof}
    (h : verifyMerkleStateProof H proof = .ok true) {s : StorageProof}
    (hs : s ∈ proof.storageProof) : verifyStorageProof H s = .ok () := by
  unfold verifyMerkleStateProof at h
  simp only [bind_eq_ok] at h
  obtain ⟨_, _, _, _, value, _, h⟩ := h
  cases value with
  | none =>
    simp only [bind_eq_ok] at h
    obtain ⟨_, _, _, hrest, _⟩ := h
    exact (verifyStorageProofs_eq_ok H).mp hrest s hs
  | some value =>
    simp only [bind_eq_ok] at h
    obtain ⟨_, _, _, hrest, _⟩ := h
    exact (verifyStorageProofs_eq_ok H).mp hrest s hs

end EthereumJS
