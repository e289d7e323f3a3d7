import EthereumJS.Blockchain.Batch

/-! # Putting an item

The walk of `_rebuildCanonical` as a relation, and the outcomes of `_putBlockOrHeader`: the
item becomes the head of the chain, or it is put aside, or nothing is written.
-/

namespace EthereumJS

open Overlay

/-- `_rebuildCanonical` walks from a header over a path of new headers, the highest first, to
an ancestor that the index has. -/
inductive Rebuilds (db : ChainDB) : Nat → BlockHeader → List BlockHeader → BlockHeader → Prop
  | canonical {n : Nat} {header : BlockHeader} (h : db.numberToHash n = some header.hash) :
    Rebuilds db n header [] header
  | genesis {n : Nat} {header : BlockHeader} (h : header.number = 0) : Rebuilds db n header [] header
  | parent {n : Nat} {header parent ancestor : BlockHeader} {path : List BlockHeader}
    (hstale : db.numberToHash (n + 1) ≠ some header.hash) (hnumber : header.number ≠ 0)
    (hparent : db.header n header.parentHash = some parent)
    (hpath : Rebuilds db n parent path ancestor) :
    Rebuilds db (n + 1) header (header :: path) ancestor

/-- The lookups that a path saves. -/
def pathLookups (path : List BlockHeader) : List DBOp :=
  path.flatMap fun header => DBSaveLookups header.hash header.number

/-- The hashes that a path makes stale. -/
def pathStale (db : ChainDB) (path : List BlockHeader) : List Hash :=
  path.flatMap fun header => (db.numberToHash header.number).toList

variable {db : ChainDB}

theorem rebuildLoop_ok {n : Nat} {header : BlockHeader} {lookups : List DBOp}
    {staleHashes : List Hash} {hash : Hash} (hnumber : header.number = n)
    (h : BlockchainM.rebuildLoop db n header = .ok (lookups, staleHashes, hash)) :
    ∃ path ancestor, Rebuilds db n header path ancestor ∧ lookups = pathLookups path ∧
      staleHashes = pathStale db path ∧ hash = ancestor.hash := by
  induction n generalizing header lookups staleHashes hash with
  | zero =>
    unfold BlockchainM.rebuildLoop at h
    rw [if_pos hnumber] at h
    have heq : (([] : List DBOp), ([] : List Hash), header.hash) = (lookups, staleHashes, hash) := by
      split at h <;> exact Except.ok.inj h
    cases heq
    exact ⟨[], header, .genesis hnumber, rfl, rfl, rfl⟩
  | succ n ih =>
    unfold BlockchainM.rebuildLoop at h
    split at h
    · rename_i hcanonical
      cases Except.ok.inj h
      exact ⟨[], header, .canonical hcanonical, rfl, rfl, rfl⟩
    · rename_i hstale
      rw [if_neg (by omega)] at h
      dsimp only at h
      cases hparent : db.getHeader header.parentHash n with
      | error e =>
        rw [hparent] at h
        cases h
      | ok parent =>
        rw [hparent] at h
        have hheader : db.header n header.parentHash = some parent := by
          unfold ChainDB.getHeader at hparent
          split at hparent
          · cases hparent
          · rename_i found hfound
            rw [hfound, Except.ok.inj hparent]
        cases hrest : BlockchainM.rebuildLoop db n parent with
        | error e => simp [hrest, bind, Except.bind] at h
        | ok result =>
          obtain ⟨lookups', staleHashes', hash'⟩ := result
          simp only [hrest, bind, Except.bind, Except.ok.injEq, Prod.mk.injEq] at h
          obtain ⟨rfl, rfl, rfl⟩ := h
          obtain ⟨path, ancestor, hpath, rfl, rfl, rfl⟩ :=
            ih (db.header_key _ _ _ hheader).1 hrest
          refine ⟨header :: path, ancestor, .parent hstale (by omega) hheader hpath, ?_, ?_, rfl⟩
          · rfl
          · simp [pathStale, hnumber]

namespace Rebuilds

variable {n : Nat} {header ancestor : BlockHeader} {path : List BlockHeader}

theorem ancestor_le (h : Rebuilds db n header path ancestor) (hnumber : header.number = n) :
    ancestor.number ≤ n := by
  induction h with
  | canonical h => omega
  | genesis h => omega
  | parent hstale hne hparent hpath ih =>
    have := ih (db.header_key _ _ _ hparent).1
    omega

/-- The numbers of a path are those above its ancestor. -/
theorem mem_number (h : Rebuilds db n header path ancestor) (hnumber : header.number = n) (k : Nat) :
    (∃ header' ∈ path, header'.number = k) ↔ ancestor.number < k ∧ k ≤ n := by
  induction h with
  | canonical h =>
    simp
    omega
  | genesis h =>
    simp
    omega
  | parent hstale hne hparent hpath ih =>
    have hparentNumber := (db.header_key _ _ _ hparent).1
    have hle := hpath.ancestor_le hparentNumber
    simp only [List.mem_cons, exists_eq_or_imp, ih hparentNumber]
    omega

theorem number_le (h : Rebuilds db n header path ancestor) (hnumber : header.number = n)
    {header' : BlockHeader} (hmem : header' ∈ path) :
    ancestor.number < header'.number ∧ header'.number ≤ n :=
  (h.mem_number hnumber header'.number).mp ⟨header', hmem, rfl⟩

theorem eq_of_number_eq (h : Rebuilds db n header path ancestor) (hnumber : header.number = n)
    {header₁ header₂ : BlockHeader} (h₁ : header₁ ∈ path) (h₂ : header₂ ∈ path)
    (heq : header₁.number = header₂.number) : header₁ = header₂ := by
  induction h with
  | canonical h => cases h₁
  | genesis h => cases h₁
  | parent hstale hne hparent hpath ih =>
    have hparentNumber := (db.header_key _ _ _ hparent).1
    rcases List.mem_cons.mp h₁ with heq₁ | hmem₁ <;> rcases List.mem_cons.mp h₂ with heq₂ | hmem₂
    · rw [heq₁, heq₂]
    · have := hpath.number_le hparentNumber hmem₂
      rw [heq₁] at heq
      omega
    · have := hpath.number_le hparentNumber hmem₁
      rw [heq₂] at heq
      omega
    · exact ih hparentNumber hmem₁ hmem₂

theorem stale (h : Rebuilds db n header path ancestor) (hnumber : header.number = n)
    {header' : BlockHeader} (hmem : header' ∈ path) :
    db.numberToHash header'.number ≠ some header'.hash := by
  induction h with
  | canonical h => cases hmem
  | genesis h => cases hmem
  | parent hstale hne hparent hpath ih =>
    rcases List.mem_cons.mp hmem with rfl | hmem
    · rw [hnumber]
      exact hstale
    · exact ih (db.header_key _ _ _ hparent).1 hmem

/-- All headers of a path but the first are stored. -/
theorem stored (h : Rebuilds db n header path ancestor) {header' : BlockHeader}
    (hmem : header' ∈ path ∨ header' = ancestor) :
    header' = header ∨ db.header header'.number header'.hash = some header' := by
  induction h with
  | canonical h =>
    rcases hmem with hmem | rfl
    · cases hmem
    · exact .inl rfl
  | genesis h =>
    rcases hmem with hmem | rfl
    · cases hmem
    · exact .inl rfl
  | parent hstale hne hparent hpath ih =>
    have hmem' : header' = _ ∨ (header' ∈ _ ∨ header' = _) :=
      (List.mem_cons.or Iff.rfl).mp hmem |>.elim (·.elim .inl (.inr ∘ .inl)) (.inr ∘ .inr)
    rcases hmem' with rfl | hmem'
    · exact .inl rfl
    · right
      rcases ih hmem' with rfl | hstored
      · obtain ⟨hnumber, hhash⟩ := db.header_key _ _ _ hparent
        rw [hnumber, hhash]
        exact hparent
      · exact hstored

/-- The parent of a header on a path is the next one. -/
theorem parent_mem (h : Rebuilds db n header path ancestor) (hnumber : header.number = n)
    {header' : BlockHeader} (hmem : header' ∈ path) :
    ∃ parent, db.header (header'.number - 1) header'.parentHash = some parent ∧
      (parent ∈ path ∨ parent = ancestor) := by
  induction h with
  | canonical h => cases hmem
  | genesis h => cases hmem
  | @parent n header parent ancestor path hstale hne hparent hpath ih =>
    rcases List.mem_cons.mp hmem with rfl | hmem
    · refine ⟨parent, ?_, ?_⟩
      · rw [hnumber]
        exact hparent
      · cases hpath with
        | canonical h => exact .inr rfl
        | genesis h => exact .inr rfl
        | parent _ _ _ _ => exact .inl (List.mem_cons_of_mem _ List.mem_cons_self)
    · obtain ⟨parent', hparent', hmem'⟩ := ih (db.header_key _ _ _ hparent).1 hmem
      exact ⟨parent', hparent', hmem'.imp (List.mem_cons_of_mem _) id⟩

theorem ancestor_canonical (h : Rebuilds db n header path ancestor) (hnumber : header.number = n) :
    db.numberToHash ancestor.number = some ancestor.hash ∨ ancestor.number = 0 := by
  induction h with
  | canonical h =>
    rw [hnumber]
    exact .inl h
  | genesis h => exact .inr h
  | parent hstale hne hparent hpath ih => exact ih (db.header_key _ _ _ hparent).1

/-- The path is empty exactly where the header is in the index already. -/
theorem eq_nil_or_head (h : Rebuilds db n header path ancestor) :
    (path = [] ∧ ancestor = header) ∨
      (header ∈ path ∧ db.numberToHash n ≠ some header.hash) := by
  cases h with
  | canonical h => exact .inl ⟨rfl, rfl⟩
  | genesis h => exact .inl ⟨rfl, rfl⟩
  | parent hstale hne hparent hpath => exact .inr ⟨List.mem_cons_self, hstale⟩

end Rebuilds

section Writes

variable {path : List BlockHeader}

theorem pathLookups_toNumberToHash (path : List BlockHeader) :
    (pathLookups path).filterMap DBOp.toNumberToHash =
      path.map fun header => (header.number, some header.hash) := by
  induction path with
  | nil => rfl
  | cons header path ih =>
    rw [List.map_cons, ← ih]
    rfl

theorem pathLookups_toHashToNumber (path : List BlockHeader) :
    (pathLookups path).filterMap DBOp.toHashToNumber =
      path.map fun header => (header.hash, some header.number) := by
  induction path with
  | nil => rfl
  | cons header path ih =>
    rw [List.map_cons, ← ih]
    rfl

end Writes

end EthereumJS
