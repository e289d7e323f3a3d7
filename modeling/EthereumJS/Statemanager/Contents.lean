import EthereumJS.Statemanager.LeafStore

/-! # What the state holds

The accounts last written, and how the leaves of the binary tree store them.
-/

namespace EthereumJS.BinaryTreeState

open Binarytree RLP

section Contents

/-- What was last written to an account. -/
structure AccountContents where
  nonce : Nat
  balance : Nat
  version : Nat
  code : Bytes
  storage : Nat → Option Bytes

abbrev Contents := TreeAddress → Option AccountContents

namespace AccountContents

def empty : AccountContents := ⟨0, 0, 0, [], fun _ => none⟩

/-- Hash and size are those of the code. The leaf has no place for a storage root. -/
def account (K : HashKeysFunction) (e : AccountContents) : LeafAccount where
  nonce := e.nonce
  balance := e.balance
  storageRoot := keccakNull K
  codeHash := K.hash e.code
  codeSize := e.code.length
  version := e.version

end AccountContents

namespace Contents

variable (contents : Contents) (address : TreeAddress)

def get : AccountContents := (contents address).getD .empty

def code : Bytes := (contents.get address).code

/-- A slot that was never written is zero, and one of no account is empty. -/
def slot (key : Nat) : Bytes :=
  match contents address with
  | none => []
  | some e => (e.storage key).getD (List.replicate 32 0)

end Contents

namespace StateOp

/-- The empty code of an account that does not exist stays what it is. -/
def apply (contents : Contents) : StateOp → Contents
  | putAccount address account =>
    Function.update contents address (some { contents.get address with
      nonce := account.nonce
      balance := account.balance
      version := account.version })
  | putCode address value =>
    if value = [] ∧ contents address = none then contents
    else Function.update contents address (some { contents.get address with code := value })
  | putStorage address key value =>
    Function.update contents address (some { contents.get address with
      storage := Function.update (contents.get address).storage (bytesToBigInt key) (some value) })

end StateOp

end Contents

section Stored

variable {H K : HashKeysFunction} {E : Set (TreeAddress × Nat)} {contents : Contents}
  {codes : TreeAddress → Bytes} {done : List TreeOp} {a b : TreeAddress} {bytes code value : Bytes}
  {e : AccountContents} {i j k m q : Nat}

/-- The hash of a code is neither that of no code nor the zeros of a deleted one. -/
def CodeApart (K : HashKeysFunction) (code : Bytes) : Prop :=
  code ≠ [] → K.hash code ≠ keccakNull K ∧ K.hash code ≠ List.replicate 32 0

/-- The leaves of accounts, and the chunks of a code for each address. While a code is being put
its chunks are ahead of the header. -/
structure Stored (H K : HashKeysFunction) (E : Set (TreeAddress × Nat)) (contents : Contents)
    (codes : TreeAddress → Bytes) (done : List TreeOp) : Prop where
  named : ∀ a e, contents a = some e → (a, 0) ∈ E
  header : ∀ a e, contents a = some e → ∃ bytes,
    encodeBinaryTreeLeafBasicData (e.account K).basicData = .ok bytes ∧
      cell H done a 0 = some bytes ∧ cell H done a 1 = some (K.hash e.code)
  absent : ∀ a, (a, 0) ∈ E → contents a = none → cell H done a 0 = none
  chunk : ∀ a i, i < chunkCount (codes a).length →
    cell H done a (128 + i) = (chunkifyBinaryTreeCode (codes a))[i]?
  stems : ∀ a, codes a ≠ [] → ∀ j < codeStemCount (chunkCount (codes a).length), (a, j) ∈ E
  small : ∀ a, (codes a).length < 2 ^ 24
  slot : ∀ a k, (a, storagePosition k / 256) ∈ E →
    cell H done a (storagePosition k) = (contents a).bind fun e => e.storage k
  short : ∀ a e k value, contents a = some e → e.storage k = some value → value.length = 32
  apart : ∀ a e, contents a = some e → CodeApart K e.code

theorem stored_empty (H K : HashKeysFunction) (E : Set (TreeAddress × Nat)) :
    Stored H K E (fun _ => none) (fun _ => []) [] where
  named _ _ h := by cases h
  header _ _ h := by cases h
  absent _ _ _ := rfl
  chunk _ _ h := absurd h (Nat.not_lt_zero _)
  stems _ h := absurd rfl h
  small _ := by decide
  slot _ _ _ := rfl
  short _ _ _ _ h := by cases h
  apart _ _ h := by cases h

theorem chunkStem_lt (h : i < m) : (128 + i) / 256 < codeStemCount m := by
  rw [codeStemCount_eq]
  split <;> omega

theorem Stored.chunk_mem (h : Stored H K E contents codes done)
    (hi : i < chunkCount (codes a).length) : (a, (128 + i) / 256) ∈ E := by
  have hcode : codes a ≠ [] := by
    rintro hnil
    rw [hnil] at hi
    exact absurd hi (Nat.not_lt_zero _)
  exact h.stems a hcode _ (chunkStem_lt hi)

theorem update_eq_some {contents : Contents} {b : TreeAddress} {e e' : AccountContents} :
    Function.update contents a (some e) b = some e' ↔
      b = a ∧ e = e' ∨ b ≠ a ∧ contents b = some e' := by
  rw [Function.update_apply, ite_eq_iff, Option.some_inj]

/-- The two leaves of a header. -/
def headerValue (bytes codeHash : Bytes) (position : Nat) : Option Bytes :=
  if position = 0 then some bytes else some codeHash

theorem Stored.writeHeader (h : Stored H K E contents codes done) (hE : StemsApart H E)
    (ha : (a, 0) ∈ E) (hstorage : e.storage = (contents.get a).storage)
    (hbytes : encodeBinaryTreeLeafBasicData (e.account K).basicData = .ok bytes)
    (hapart : CodeApart K e.code) :
    Stored H K E (Function.update contents a (some e)) codes
      (done ++ [write H a 0 [0, 1] (headerValue bytes (K.hash e.code))]) := by
  have hcell : ∀ b q, (b, q / 256) ∈ E →
      cell H (done ++ [write H a 0 [0, 1] (headerValue bytes (K.hash e.code))]) b q =
        if b = a ∧ q ∈ [0, 1] then headerValue bytes (K.hash e.code) q else cell H done b q :=
    fun b q hb => cell_write hE ha hb (by decide) _
  have hlater : ∀ b q, (b, q / 256) ∈ E → 1 < q →
      cell H (done ++ [write H a 0 [0, 1] (headerValue bytes (K.hash e.code))]) b q =
        cell H done b q := by
    intro b q hb hq
    rw [hcell b q hb, if_neg]
    simp
    omega
  have hother : ∀ b, b ≠ a → Function.update contents a (some e) b = contents b := fun b hb =>
    Function.update_of_ne hb _ _
  constructor
  · intro b e' hb
    obtain ⟨rfl, -⟩ | ⟨-, hb⟩ := update_eq_some.mp hb
    · exact ha
    · exact h.named b e' hb
  · intro b e' hb
    obtain ⟨rfl, rfl⟩ | ⟨heq, hb⟩ := update_eq_some.mp hb
    · refine ⟨bytes, hbytes, ?_, ?_⟩
      · rw [hcell b 0 ha, if_pos ⟨rfl, by decide⟩]
        rfl
      · rw [hcell b 1 ha, if_pos ⟨rfl, by decide⟩]
        rfl
    · have hname := h.named b e' hb
      rw [hcell b 0 hname, hcell b 1 hname, if_neg fun hboth => heq hboth.1,
        if_neg fun hboth => heq hboth.1]
      exact h.header b e' hb
  · intro b hb hnone
    have heq : b ≠ a := by
      rintro rfl
      rw [Function.update_self] at hnone
      cases hnone
    rw [hcell b 0 hb, if_neg fun hboth => heq hboth.1]
    exact h.absent b hb (hother b heq ▸ hnone)
  · intro b i hi
    rw [hlater b _ (h.chunk_mem hi) (by omega)]
    exact h.chunk b i hi
  · exact h.stems
  · exact h.small
  · intro b k hb
    have hposition := storagePosition_apart k
    rw [hlater b _ hb (by omega), h.slot b k hb]
    by_cases heq : b = a
    · subst heq
      rw [Function.update_self, Option.bind_some, hstorage, Contents.get]
      cases contents b <;> rfl
    · rw [hother b heq]
  · intro b e' k value hb hvalue
    obtain ⟨rfl, rfl⟩ | ⟨-, hb⟩ := update_eq_some.mp hb
    · rw [hstorage, Contents.get] at hvalue
      cases hold : contents b with
      | none =>
        rw [hold] at hvalue
        cases hvalue
      | some old =>
        rw [hold] at hvalue
        exact h.short b old k value hold hvalue
    · exact h.short b e' k value hb hvalue
  · intro b e' hb
    obtain ⟨rfl, rfl⟩ | ⟨-, hb⟩ := update_eq_some.mp hb
    · exact hapart
    · exact h.apart b e' hb

/-- The chunks of one stem. -/
def chunkWrite (H : HashKeysFunction) (address : TreeAddress) (code : Bytes) (j : Nat) : TreeOp :=
  write H address j (chunkPositions (chunkCount code.length) j) fun p =>
    (chunkifyBinaryTreeCode code)[p - 128]?

/-- The chunks of the first stems. -/
def chunkWrites (H : HashKeysFunction) (address : TreeAddress) (code : Bytes) (count : Nat) :
    List TreeOp :=
  (List.range count).map (chunkWrite H address code)

theorem cell_chunkWrites (hE : StemsApart H E) (hstems : ∀ j < m, (a, j) ∈ E)
    (hb : (b, q / 256) ∈ E) : cell H (done ++ chunkWrites H a code m) b q =
      if b = a ∧ 128 ≤ q ∧ q < 128 + chunkCount code.length ∧ q / 256 < m then
        (chunkifyBinaryTreeCode code)[q - 128]?
      else cell H done b q := by
  induction m with
  | zero =>
    rw [if_neg (by omega)]
    exact congrArg (fun ops => cell H ops b q) (List.append_nil done)
  | succ m ih =>
    have hinit := ih fun j hj => hstems j (by omega)
    rw [chunkWrites, List.range_succ, List.map_append, ← List.append_assoc, List.map_singleton]
    rw [chunkWrites] at hinit
    rw [chunkWrite, cell_write hE (hstems m (by omega)) hb fun p hp =>
      (mem_chunkPositions.mp hp).2.2, hinit]
    simp only [mem_chunkPositions]
    by_cases heq : b = a
    · by_cases hhere : q / 256 = m
      · simp [heq, hhere]
      · have hlt : q / 256 < m + 1 ↔ q / 256 < m := by omega
        simp [heq, hhere, hlt]
    · simp [heq]

theorem Stored.writeChunks (h : Stored H K E contents codes done) (hE : StemsApart H E)
    (hstems : ∀ j < codeStemCount (chunkCount code.length), (a, j) ∈ E)
    (hsmall : code.length < 2 ^ 24) :
    Stored H K E contents (Function.update codes a code)
      (done ++ chunkWrites H a code (codeStemCount (chunkCount code.length))) := by
  have hkeep : ∀ b q, (b, q / 256) ∈ E → q < 128 ∨ 256 ^ 31 ≤ q →
      cell H (done ++ chunkWrites H a code (codeStemCount (chunkCount code.length))) b q =
        cell H done b q := by
    intro b q hb hq
    have hcount : chunkCount code.length < 2 ^ 24 := by
      rw [chunkCount]
      omega
    rw [cell_chunkWrites hE hstems hb, if_neg (by omega)]
  have hother : ∀ b, b ≠ a → Function.update codes a code b = codes b := fun b hb =>
    Function.update_of_ne hb _ _
  constructor
  · exact h.named
  · intro b e' hb
    have hname := h.named b e' hb
    rw [hkeep b 0 hname (by omega), hkeep b 1 hname (by omega)]
    exact h.header b e' hb
  · intro b hb hnone
    rw [hkeep b 0 hb (by omega)]
    exact h.absent b hb hnone
  · intro b i hi
    by_cases heq : b = a
    · subst heq
      rw [Function.update_self] at hi ⊢
      have hstem := chunkStem_lt hi
      rw [cell_chunkWrites hE hstems (hstems _ hstem), if_pos ⟨rfl, by omega, by omega, hstem⟩,
        Nat.add_sub_cancel_left]
    · rw [hother b heq] at hi ⊢
      rw [cell_chunkWrites hE hstems (h.chunk_mem hi), if_neg fun hboth => heq hboth.1]
      exact h.chunk b i hi
  · intro b hb j hj
    by_cases heq : b = a
    · subst heq
      rw [Function.update_self] at hj
      exact hstems j hj
    · rw [hother b heq] at hb hj
      exact h.stems b hb j hj
  · intro b
    by_cases heq : b = a
    · subst heq
      rwa [Function.update_self]
    · rw [hother b heq]
      exact h.small b
  · intro b k hb
    have hposition := storagePosition_apart k
    rw [hkeep b _ hb (by omega)]
    exact h.slot b k hb
  · exact h.short
  · exact h.apart

theorem Stored.writeSlot (h : Stored H K E contents codes done) (hE : StemsApart H E)
    (ha : (a, storagePosition k / 256) ∈ E) (hsome : contents a = some e)
    (hvalue : value.length = 32) :
    Stored H K E
      (Function.update contents a (some { e with
        storage := Function.update e.storage k (some value) })) codes
      (done ++ [write H a (storagePosition k / 256) [storagePosition k] fun _ => some value]) := by
  have hcell : ∀ b q, (b, q / 256) ∈ E →
      cell H (done ++ [write H a (storagePosition k / 256) [storagePosition k]
        fun _ => some value]) b q =
        if b = a ∧ q ∈ [storagePosition k] then some value else cell H done b q :=
    fun b q hb => cell_write hE ha hb (fun p hp => by rw [List.mem_singleton.mp hp]) _
  have hposition := storagePosition_apart k
  have hkeep : ∀ b q, (b, q / 256) ∈ E → q ≠ storagePosition k →
      cell H (done ++ [write H a (storagePosition k / 256) [storagePosition k]
        fun _ => some value]) b q = cell H done b q := by
    intro b q hb hq
    rw [hcell b q hb, if_neg fun hboth => hq (List.mem_singleton.mp hboth.2)]
  have hother : ∀ b, b ≠ a → Function.update contents a (some { e with
      storage := Function.update e.storage k (some value) }) b = contents b := fun b hb =>
    Function.update_of_ne hb _ _
  constructor
  · intro b e' hb
    obtain ⟨rfl, -⟩ | ⟨-, hb⟩ := update_eq_some.mp hb
    · exact h.named b e hsome
    · exact h.named b e' hb
  · intro b e' hb
    obtain ⟨rfl, rfl⟩ | ⟨-, hb⟩ := update_eq_some.mp hb
    · have hname := h.named b e hsome
      rw [hkeep b 0 hname (by omega), hkeep b 1 hname (by omega)]
      exact h.header b e hsome
    · have hname := h.named b e' hb
      rw [hkeep b 0 hname (by omega), hkeep b 1 hname (by omega)]
      exact h.header b e' hb
  · intro b hb hnone
    have heq : b ≠ a := by
      rintro rfl
      rw [Function.update_self] at hnone
      cases hnone
    rw [hkeep b 0 hb (by omega)]
    exact h.absent b hb (hother b heq ▸ hnone)
  · intro b i hi
    have hsmall := h.small b
    rw [chunkCount] at hi
    rw [hkeep b _ (h.chunk_mem hi) (by omega)]
    exact h.chunk b i hi
  · exact h.stems
  · exact h.small
  · intro b l hb
    rw [hcell b _ hb]
    by_cases heq : b = a
    · subst heq
      rw [Function.update_self, Option.bind_some]
      dsimp only
      rw [Function.update_apply]
      by_cases hsame : l = k
      · rw [if_pos ⟨rfl, by rw [hsame]; exact List.mem_singleton_self _⟩, if_pos hsame]
      · rw [if_neg fun hboth => hsame (storagePosition_inj (List.mem_singleton.mp hboth.2)),
          if_neg hsame, h.slot b l hb, hsome, Option.bind_some]
    · rw [if_neg fun hboth => heq hboth.1, hother b heq]
      exact h.slot b l hb
  · intro b e' l v hb hv
    obtain ⟨rfl, rfl⟩ | ⟨-, hb⟩ := update_eq_some.mp hb
    · dsimp only at hv
      rw [Function.update_apply] at hv
      split at hv
      · cases hv
        exact hvalue
      · exact h.short b e l v hsome hv
    · exact h.short b e' l v hb hv
  · intro b e' hb
    obtain ⟨rfl, rfl⟩ | ⟨-, hb⟩ := update_eq_some.mp hb
    · exact h.apart b e hsome
    · exact h.apart b e' hb

end Stored

end EthereumJS.BinaryTreeState
