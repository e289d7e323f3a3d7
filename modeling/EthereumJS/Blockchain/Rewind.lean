import EthereumJS.Blockchain.Index

/-! # Resets and deletions

What `resetCanonicalHead` and `delBlock` do over an index from the genesis block to a height.
Both delete entries from the top of the index; `delBlock` deletes the blocks as well.
-/

namespace EthereumJS

open Overlay BlockchainM

/-- The operations that delete a block from its tables. -/
def blockDeletions (entry : Nat × Hash) : List DBOp :=
  [.delHeader entry.1 entry.2, .delBody entry.1 entry.2, .delHashToNumber entry.2,
    .delTD entry.1 entry.2]

/-- The batch that deletes blocks and entries of the index. -/
def deleteOps (blocks entries : List (Nat × Hash)) : List DBOp :=
  blocks.flatMap blockDeletions ++ deletions entries

section Tables

variable {db : ChainDB} {blocks entries : List (Nat × Hash)}

theorem deleteOps_toHeader :
    (deleteOps blocks entries).filterMap DBOp.toHeader = blocks.map fun e => (e, none) := by
  unfold deleteOps
  rw [List.filterMap_append, deletions_filterMap _ fun _ => rfl, List.append_nil]
  induction blocks with
  | nil => rfl
  | cons e blocks ih =>
    rw [List.map_cons, ← ih]
    rfl

theorem deleteOps_toBody :
    (deleteOps blocks entries).filterMap DBOp.toBody = blocks.map fun e => (e, none) := by
  unfold deleteOps
  rw [List.filterMap_append, deletions_filterMap _ fun _ => rfl, List.append_nil]
  induction blocks with
  | nil => rfl
  | cons e blocks ih =>
    rw [List.map_cons, ← ih]
    rfl

theorem deleteOps_toHashToNumber :
    (deleteOps blocks entries).filterMap DBOp.toHashToNumber =
      blocks.map fun e => (e.2, none) := by
  unfold deleteOps
  rw [List.filterMap_append, deletions_filterMap _ fun _ => rfl, List.append_nil]
  induction blocks with
  | nil => rfl
  | cons e blocks ih =>
    rw [List.map_cons, ← ih]
    rfl

theorem deleteOps_toNumberToHash :
    (deleteOps blocks entries).filterMap DBOp.toNumberToHash =
      entries.map fun e => (e.1, none) := by
  unfold deleteOps
  rw [List.filterMap_append, deletions_toNumberToHash]
  have hnil : (blocks.flatMap blockDeletions).filterMap DBOp.toNumberToHash = [] := by
    induction blocks with
    | nil => rfl
    | cons e blocks ih => exact ih
  rw [hnil]
  rfl

/-- A table whose writes all delete. -/
theorem getD_latestWrite_none {κ ν α : Type} [DecidableEq κ] (f : α → κ) (xs : List α) (k : κ)
    (old : Option ν) [Decidable (k ∈ xs.map f)] :
    (latestWrite (xs.map fun x => (f x, (none : Option ν))) k).getD old =
      if k ∈ xs.map f then none else old := by
  split
  · rename_i hmem
    obtain ⟨x, hx, rfl⟩ := List.mem_map.mp hmem
    rw [latestWrite_eq_some (v := none) (List.mem_map.mpr ⟨x, hx, rfl⟩)]
    · rfl
    · intro u hu
      obtain ⟨y, -, hy⟩ := List.mem_map.mp hu
      exact (Prod.mk.inj hy).2.symm
  · rename_i hout
    rw [latestWrite_eq_none_iff.mpr]
    · rfl
    · intro w hw heq
      obtain ⟨x, hx, rfl⟩ := List.mem_map.mp hw
      exact hout (List.mem_map.mpr ⟨x, hx, heq⟩)

theorem deleteOps_header (n : Nat) (hash : Hash) :
    (db.batch (deleteOps blocks entries)).header n hash =
      if (n, hash) ∈ blocks then none else db.header n hash := by
  rw [ChainDB.batch_header, deleteOps_toHeader]
  simpa using getD_latestWrite_none id blocks (n, hash) _

theorem deleteOps_body (n : Nat) (hash : Hash) :
    (db.batch (deleteOps blocks entries)).body n hash =
      if (n, hash) ∈ blocks then none else db.body n hash := by
  rw [ChainDB.batch_body, deleteOps_toBody]
  simpa using getD_latestWrite_none id blocks (n, hash) _

theorem deleteOps_hashToNumber (hash : Hash) :
    (db.batch (deleteOps blocks entries)).hashToNumber hash =
      if hash ∈ blocks.map Prod.snd then none else db.hashToNumber hash := by
  rw [ChainDB.batch_hashToNumber, deleteOps_toHashToNumber]
  exact getD_latestWrite_none Prod.snd blocks _ _

theorem deleteOps_numberToHash (n : Nat) :
    (db.batch (deleteOps blocks entries)).numberToHash n =
      if n ∈ entries.map Prod.fst then none else db.numberToHash n := by
  rw [ChainDB.batch_numberToHash, deleteOps_toNumberToHash]
  exact getD_latestWrite_none Prod.fst entries _ _

end Tables

section Delete

variable {headers : Set BlockHeader} {db : ChainDB} {height m : Nat}
  {blocks entries : List (Nat × Hash)}

theorem delete_numberToHash (blocks : List (Nat × Hash))
    (hentries : ∀ k, k ∈ entries.map Prod.fst ↔ m < k ∧ (db.numberToHash k).isSome) (k : Nat) :
    (db.batch (deleteOps blocks entries)).numberToHash k =
      if k ≤ m then db.numberToHash k else none := by
  rw [deleteOps_numberToHash]
  rcases Nat.lt_or_ge m k with hlt | hge
  · rw [if_neg (by omega : ¬ k ≤ m)]
    cases hentry : db.numberToHash k with
    | none => exact ite_self none
    | some hash =>
      refine if_pos ((hentries k).mpr ⟨hlt, ?_⟩)
      rw [hentry]
      rfl
  · rw [if_pos hge, if_neg]
    intro hmem
    have := ((hentries k).mp hmem).1
    omega

/-- The index down to a number after blocks that are not in it have been deleted. -/
theorem Indexed.delete (hdb : Indexed headers db height)
    (hm : m ≤ height)
    (hentries : ∀ k, k ∈ entries.map Prod.fst ↔ m < k ∧ (db.numberToHash k).isSome)
    (hstored : ∀ e ∈ blocks, (db.header e.1 e.2).isSome)
    (hblocks : ∀ k hash, k ≤ m → db.numberToHash k = some hash → (k, hash) ∉ blocks) :
    Indexed headers (db.batch (deleteOps blocks entries)) m := by
  have hindex := delete_numberToHash blocks hentries
  have hheader : ∀ k hash header, (db.batch (deleteOps blocks entries)).header k hash =
      some header → (k, hash) ∉ blocks ∧ db.header k hash = some header := by
    intro k hash header h
    rw [deleteOps_header] at h
    split at h
    · cases h
    · rename_i hout
      exact ⟨hout, h⟩
  constructor
  case stored =>
    intro k hash header h
    obtain ⟨hout, hold⟩ := hheader k hash header h
    obtain ⟨hmem, hlookup⟩ := hdb.stored k hash header hold
    refine ⟨hmem, ?_⟩
    rw [deleteOps_hashToNumber, if_neg]
    · exact hlookup
    · intro hin
      obtain ⟨⟨k', hash'⟩, he, rfl⟩ := List.mem_map.mp hin
      obtain ⟨header', hheader'⟩ := Option.isSome_iff_exists.mp (hstored _ he)
      have hlookup' := (hdb.stored _ _ _ hheader').2
      rw [hlookup] at hlookup'
      rw [Option.some.inj hlookup'] at hout
      exact hout he
  case index =>
    intro k
    rw [hindex]
    split
    · rename_i hle
      rw [hdb.index k]
      omega
    · rename_i hlt
      exact iff_of_false Bool.false_ne_true hlt
  case canonical =>
    intro k hash hk
    rw [hindex] at hk
    split at hk
    · rename_i hle
      rw [deleteOps_header, if_neg (hblocks k hash hle hk)]
      exact hdb.canonical k hash hk
    · cases hk
  case link =>
    intro k hash header hk h
    rw [hindex] at hk
    split at hk
    · rename_i hle
      rw [hindex, if_pos (by omega)]
      exact hdb.link k hash header hk (hheader _ _ _ h).2
    · cases hk
  case genesis =>
    intro hash h
    obtain ⟨header, h⟩ := Option.isSome_iff_exists.mp h
    rw [hindex, if_pos (Nat.zero_le m)]
    apply hdb.genesis
    rw [(hheader _ _ _ h).2]
    rfl

end Delete

variable {cfg : ChainConfig} {env : ChainEnv} {bc bc' : Blockchain}

/-- The index has been cut above a number. -/
structure Cut (n : Nat) (hash : Hash) (bc bc' : Blockchain) : Prop where
  view : bc'.view = bc.view.batch (deletions (above bc.view (n + 1)))
  db : bc'.db = bc.db.batch (deletions (above bc.view (n + 1)))
  saved : bc'.saved = bc'.toSave
  heads : bc'.heads = fun name => (bc.heads name).map (moveHead hash (above bc.view (n + 1)))
  headHeaderHash : bc'.headHeaderHash = moveHead hash (above bc.view (n + 1)) bc.headHeaderHash
  headBlockHash : bc'.headBlockHash = moveHead hash (above bc.view (n + 1)) bc.headBlockHash

/-- A reset that could not read a block that it deletes. -/
structure CutShort (n : Nat) (hash : Hash) (bc bc' : Blockchain) : Prop where
  moved : ∃ before entry after, above bc.view (n + 1) = before ++ entry :: after ∧
    bc' = { bc.mapHeads (moveHead hash before) with deletedBlocks := [] }

/-- A canonical block has been deleted, with its canonical children. -/
structure Removed (header : BlockHeader) (blocks : List (Nat × Hash)) (bc bc' : Blockchain) :
    Prop where
  view : bc'.view = bc.view.batch (deleteOps blocks (above bc.view header.number))
  db : bc'.db = bc.db.batch (deleteOps blocks (above bc.view header.number))
  saved : bc'.saved = bc.saved
  heads : bc'.heads = fun name =>
    (bc.heads name).map (moveHead header.parentHash (above bc.view header.number))
  headHeaderHash : bc'.headHeaderHash = moveHead header.parentHash (above bc.view header.number)
    (moveHead header.parentHash blocks bc.headHeaderHash)
  headBlockHash : bc'.headBlockHash = moveHead header.parentHash (above bc.view header.number)
    (moveHead header.parentHash blocks bc.headBlockHash)

/-- A block outside the index has been deleted. -/
structure RemovedAside (n : Nat) (hash : Hash) (bc bc' : Blockchain) : Prop where
  view : bc'.view = bc.view.batch (deleteOps [(n, hash)] [])
  db : bc'.db = bc.db.batch (deleteOps [(n, hash)] [])
  saved : bc'.saved = bc.saved
  heads : bc'.heads = bc.heads
  headHeaderHash : bc'.headHeaderHash = bc.headHeaderHash
  headBlockHash : bc'.headBlockHash = bc.headBlockHash

namespace BlockchainM

theorem checkAndTransition_keeps (env : ChainEnv) (number timestamp : Nat) (bc : Blockchain) :
    ∃ hardfork, (∃ e, checkAndTransitionHardForkByNumber env number timestamp bc =
        .error e { bc with hardfork := hardfork }) ∨
      checkAndTransitionHardForkByNumber env number timestamp bc =
        .ok () { bc with hardfork := hardfork } := by
  unfold checkAndTransitionHardForkByNumber
  cases hset : env.setHardforkBy number timestamp with
  | error e => exact ⟨bc.hardfork, .inl ⟨e, rfl⟩⟩
  | ok hardfork =>
    refine ⟨hardfork, ?_⟩
    change (∃ e, liftExcept env.consensusSetup { bc with hardfork := hardfork } = _) ∨
      liftExcept env.consensusSetup { bc with hardfork := hardfork } = _
    cases hsetup : env.consensusSetup with
    | error e => exact .inl ⟨e, rfl⟩
    | ok _ => exact .inr rfl

/-- A reset does nothing, stops at a block that it cannot read or cuts the index. -/
theorem resetCanonicalHead_cases (cfg : ChainConfig) (bc : Blockchain) (hbatch : env.batch = .ok ())
    (n : Nat) :
    (∃ e, resetCanonicalHead cfg env n bc = .error e bc) ∨
      ∃ hash, bc.view.numberToHash n = some hash ∧
        ((∃ e bc', resetCanonicalHead cfg env n bc = .error e bc' ∧ CutShort n hash bc bc') ∨
          ∃ bc', Cut n hash bc bc' ∧ ((∃ e, resetCanonicalHead cfg env n bc = .error e bc') ∨
            resetCanonicalHead cfg env n bc = .ok () bc')) := by
  unfold resetCanonicalHead
  rw [get_bind]
  cases hentry : bc.view.numberToHash n with
  | none => exact .inl ⟨_, rfl⟩
  | some hash =>
    dsimp only
    cases hheader : bc.view.getHeader hash n with
    | error e => exact .inl ⟨e, bind_of_error (liftExcept_of_error rfl bc)⟩
    | ok header =>
      right
      refine ⟨hash, rfl, ?_⟩
      rw [bind_of_ok (liftExcept_of_ok rfl bc)]
      cases hblocks : recordedBlocks cfg bc.view (above bc.view (n + 1)) with
      | error e =>
        obtain ⟨before, entry, after, hentries, hdelete⟩ :=
          deleteCanonicalChainReferences_of_error bc hash [] hblocks
        exact .inl ⟨e, _, bind_of_error hdelete, ⟨before, entry, after, hentries, rfl⟩⟩
      | ok blocks =>
        right
        rw [bind_of_ok (deleteCanonicalChainReferences_of_ok bc _ _ hblocks),
          bind_of_ok (batchWithHeads_of_ok hbatch _ _)]
        obtain ⟨hardfork, ⟨e, htransition⟩ | htransition⟩ :=
          checkAndTransition_keeps env n header.timestamp { bc.mapHeads
              (moveHead hash (above bc.view (n + 1))) with
            view := bc.view.batch (deletions (above bc.view (n + 1)))
            db := bc.db.batch (deletions (above bc.view (n + 1)))
            saved := (bc.mapHeads (moveHead hash (above bc.view (n + 1)))).toSave
            deletedBlocks := bc.deletedBlocks ++ blocks }
        · exact ⟨_, ⟨rfl, rfl, rfl, rfl, rfl, rfl⟩, .inl ⟨e, bind_of_error htransition⟩⟩
        · refine ⟨_, ?_, .inr (bind_of_ok htransition)⟩
          exact ⟨rfl, rfl, rfl, rfl, rfl, rfl⟩

/-- The blocks that `delBlock` deletes from a canonical block on. -/
def blocksFrom (db : ChainDB) (n : Nat) : List (Nat × Hash) := db.entries (db.size - n + 1) n

theorem mem_blocksFrom {headers : Set BlockHeader} {db : ChainDB} {height n k : Nat} {hash : Hash}
    (hdb : Indexed headers db height) :
    (k, hash) ∈ blocksFrom db n ↔ n ≤ k ∧ db.numberToHash k = some hash := by
  unfold blocksFrom
  rw [mem_entries]
  constructor
  · rintro ⟨hk, hhash, -⟩
    exact ⟨hk.1, hhash⟩
  · rintro ⟨hk, hhash⟩
    have := lt_size hhash
    refine ⟨⟨hk, by omega⟩, hhash, fun j _ hj => (hdb.index j).mpr ?_⟩
    have := hdb.le_of_some hhash
    omega

/-- The head header and the head block moved off deleted blocks. -/
def movedTo (head : Hash) (blocks : List (Nat × Hash)) (bc : Blockchain) : Blockchain :=
  { bc with
    headHeaderHash := moveHead head blocks bc.headHeaderHash
    headBlockHash := moveHead head blocks bc.headBlockHash }

theorem delChild_none (fuel n : Nat) (hash : Hash) (ops : List DBOp) (bc : Blockchain) :
    delChild none fuel hash n ops bc = .ok (ops ++ blockDeletions (n, hash)) bc := by
  unfold delChild
  rfl

/-- Over a chain whose headers are stored the recursion deletes all canonical children. -/
theorem delChild_some (head : Hash) (fuel n : Nat) (hash : Hash) (ops : List DBOp)
    (bc : Blockchain)
    (hcanonical : ∀ k hash, bc.view.numberToHash k = some hash → (bc.view.header k hash).isSome)
    (hhash : bc.view.numberToHash n = some hash) :
    delChild (some head) fuel hash n ops bc =
      .ok (ops ++ (bc.view.entries (fuel + 1) n).flatMap blockDeletions)
        (movedTo head (bc.view.entries (fuel + 1) n) bc) := by
  induction fuel generalizing n hash ops bc with
  | zero =>
    simp only [ChainDB.entries, hhash]
    unfold delChild
    rfl
  | succ fuel ih =>
    have hentries : bc.view.entries (fuel + 1 + 1) n =
        (n, hash) :: bc.view.entries (fuel + 1) (n + 1) := by
      conv_lhs => rw [ChainDB.entries, hhash]
    have hmoved : movedTo head ((n, hash) :: bc.view.entries (fuel + 1) (n + 1)) bc =
        movedTo head (bc.view.entries (fuel + 1) (n + 1)) (movedTo head [(n, hash)] bc) := rfl
    rw [hentries, hmoved]
    unfold delChild
    dsimp only
    rw [modify_bind, get_bind]
    have hview : (movedTo head [(n, hash)] bc).view = bc.view := rfl
    cases hchild : bc.view.numberToHash (n + 1) with
    | none =>
      have hget : bc.view.getCanonicalHeader (n + 1) = .error .notFoundInCanonicalChain := by
        rw [ChainDB.getCanonicalHeader, hchild]
      have hnil : bc.view.entries (fuel + 1) (n + 1) = [] := by
        rw [ChainDB.entries, hchild]
      rw [hget, hnil]
      rfl
    | some childHash =>
      obtain ⟨child, hstored⟩ :=
        Option.isSome_iff_exists.mp (hcanonical (n + 1) childHash hchild)
      have hget : bc.view.getCanonicalHeader (n + 1) = .ok child := by
        rw [ChainDB.getCanonicalHeader, hchild]
        simp only [ChainDB.getHeader, hstored]
      obtain ⟨hnumber, hhash⟩ := bc.view.header_key _ _ _ hstored
      rw [hget]
      dsimp only
      rw [hnumber, hhash]
      refine (ih (n + 1) childHash _ (movedTo head [(n, hash)] bc) hcanonical hchild).trans ?_
      rw [List.flatMap_cons, ← List.append_assoc]
      rfl

/-- A deletion does nothing, deletes a block outside the index, or cuts the index, unless it
cannot read a block that it deletes. -/
theorem delBlock_cases (cfg : ChainConfig) (hbatch : env.batch = .ok ()) (hash : Hash)
    (hcanonical : ∀ k hash, bc.view.numberToHash k = some hash →
      (bc.view.header k hash).isSome) :
    (∃ e, delBlock cfg env hash bc = .error e bc) ∨
      ∃ header, bc.view.getHeaderByHash hash = .ok header ∧
        ((bc.view.numberToHash header.number ≠ some hash ∧
          ∃ bc', delBlock cfg env hash bc = .ok () bc' ∧
            RemovedAside header.number hash bc bc') ∨
        (bc.view.numberToHash header.number = some hash ∧
          ((∃ e bc', recordedBlocks cfg bc.view (above bc.view header.number) = .error e ∧
            delBlock cfg env hash bc = .error e bc') ∨
          ∃ bc', delBlock cfg env hash bc = .ok () bc' ∧
            Removed header (blocksFrom bc.view header.number) bc bc'))) := by
  unfold delBlock
  rw [get_bind]
  cases hget : bc.view.getHeaderByHash hash with
  | error e => exact .inl ⟨e, bind_of_error (liftExcept_of_error rfl bc)⟩
  | ok header =>
    right
    refine ⟨header, rfl, ?_⟩
    rw [bind_of_ok (liftExcept_of_ok rfl bc)]
    rcases Classical.em (bc.view.numberToHash header.number = some hash) with hin | hout
    · refine .inr ⟨hin, ?_⟩
      simp only [hin, if_true]
      rw [bind_of_ok (delChild_some header.parentHash _ header.number hash [] bc hcanonical hin)]
      cases hblocks : recordedBlocks cfg bc.view (above bc.view header.number) with
      | error e =>
        obtain ⟨before, entry, after, -, hdelete⟩ := deleteCanonicalChainReferences_of_error
          (movedTo header.parentHash (blocksFrom bc.view header.number) bc) header.parentHash
          ([] ++ (blocksFrom bc.view header.number).flatMap blockDeletions) hblocks
        exact .inl ⟨e, _, rfl, bind_of_error hdelete⟩
      | ok blocks =>
        have hdelete := deleteCanonicalChainReferences_of_ok
          (movedTo header.parentHash (blocksFrom bc.view header.number) bc) header.parentHash
          ([] ++ (blocksFrom bc.view header.number).flatMap blockDeletions) hblocks
        right
        refine ⟨_, (bind_of_ok hdelete).trans (bind_of_ok (batch_of_ok hbatch _ _)), ?_⟩
        exact ⟨rfl, rfl, rfl, rfl, rfl, rfl⟩
    · refine .inl ⟨hout, ?_⟩
      simp only [hout, if_false]
      rw [bind_of_ok (delChild_none _ _ _ _ _)]
      refine ⟨_, bind_of_ok (batch_of_ok hbatch _ _), ?_⟩
      exact ⟨rfl, rfl, rfl, rfl, rfl, rfl⟩

theorem resetCanonicalHead_ok {n : Nat} (h : resetCanonicalHead cfg env n bc = .ok () bc') :
    ∃ hash, bc.view.numberToHash n = some hash ∧ Cut n hash bc bc' := by
  have hbatch : env.batch = .ok () := by
    unfold resetCanonicalHead at h
    rw [get_bind] at h
    cases hentry : bc.view.numberToHash n with
    | none =>
      rw [hentry] at h
      cases h
    | some hash =>
      rw [hentry] at h
      obtain ⟨_, _, -, h⟩ := bind_returns h
      obtain ⟨_, _, -, h⟩ := bind_returns h
      obtain ⟨_, _, hbatch, -⟩ := bind_returns h
      exact batchWithHeads_ok hbatch
  rcases resetCanonicalHead_cases cfg bc hbatch n with
    ⟨e, hreset⟩ | ⟨hash, hhash, ⟨e, after, hreset, -⟩ | ⟨after, hcut, ⟨e, hreset⟩ | hreset⟩⟩
  · rw [hreset] at h
    cases h
  · rw [hreset] at h
    cases h
  · rw [hreset] at h
    cases h
  · rw [hreset] at h
    cases h
    exact ⟨hash, hhash, hcut⟩

theorem delBlock_ok {hash : Hash} (h : delBlock cfg env hash bc = .ok () bc')
    (hcanonical : ∀ k hash, bc.view.numberToHash k = some hash →
      (bc.view.header k hash).isSome) :
    ∃ header, bc.view.getHeaderByHash hash = .ok header ∧
      ((bc.view.numberToHash header.number ≠ some hash ∧
        RemovedAside header.number hash bc bc') ∨
      (bc.view.numberToHash header.number = some hash ∧
        Removed header (blocksFrom bc.view header.number) bc bc')) := by
  have hbatch : env.batch = .ok () := by
    unfold delBlock at h
    rw [get_bind] at h
    obtain ⟨_, _, -, h⟩ := bind_returns h
    obtain ⟨_, _, -, h⟩ := bind_returns h
    dsimp only at h
    split at h
    · obtain ⟨_, _, -, h⟩ := bind_returns h
      obtain ⟨_, _, hbatch, -⟩ := bind_returns h
      exact batch_ok hbatch
    · obtain ⟨_, _, -, h⟩ := bind_returns h
      obtain ⟨_, _, hbatch, -⟩ := bind_returns h
      exact batch_ok hbatch
  rcases delBlock_cases cfg hbatch hash hcanonical with
    ⟨e, hdel⟩ | ⟨header, hget, ⟨hout, after, hdel, hremoved⟩ |
      ⟨hin, ⟨e, after, -, hdel⟩ | ⟨after, hdel, hremoved⟩⟩⟩
  · rw [hdel] at h
    cases h
  · rw [hdel] at h
    cases h
    exact ⟨header, hget, .inl ⟨hout, hremoved⟩⟩
  · rw [hdel] at h
    cases h
  · rw [hdel] at h
    cases h
    exact ⟨header, hget, .inr ⟨hin, hremoved⟩⟩

end BlockchainM

end EthereumJS
