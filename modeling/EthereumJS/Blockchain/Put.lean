import EthereumJS.Blockchain.Rebuild

/-! # The outcomes of putting an item

An item becomes the head of the chain, it is put aside, or nothing is written.
-/

namespace EthereumJS

open Overlay

section Entries

variable {db : ChainDB}

theorem mem_entries {fuel n k : Nat} {hash : Hash} : (k, hash) ∈ db.entries fuel n ↔
    (n ≤ k ∧ k < n + fuel) ∧ db.numberToHash k = some hash ∧
      ∀ j, n ≤ j → j ≤ k → (db.numberToHash j).isSome := by
  induction fuel generalizing n with
  | zero =>
    simp only [ChainDB.entries, List.not_mem_nil, false_iff]
    omega
  | succ fuel ih =>
    unfold ChainDB.entries
    cases hentry : db.numberToHash n with
    | none =>
      simp only [List.not_mem_nil, false_iff]
      rintro ⟨hk, -, hall⟩
      have := hall n le_rfl hk.1
      rw [hentry] at this
      cases this
    | some first =>
      rw [List.mem_cons, ih, Prod.mk.injEq]
      constructor
      · rintro (⟨rfl, rfl⟩ | ⟨hk, hhash, hall⟩)
        · refine ⟨by omega, hentry, ?_⟩
          intro j hj hj'
          obtain rfl : j = k := by omega
          rw [hentry]
          rfl
        · refine ⟨by omega, hhash, ?_⟩
          intro j hj hj'
          rcases Classical.em (j = n) with rfl | hne
          · rw [hentry]
            rfl
          · exact hall j (by omega) hj'
      · rintro ⟨hk, hhash, hall⟩
        rcases Classical.em (k = n) with rfl | hne
        · rw [hentry] at hhash
          exact .inl ⟨rfl, (Option.some.inj hhash).symm⟩
        · exact .inr ⟨by omega, hhash, fun j hj hj' => hall j (by omega) hj'⟩

theorem lt_size {k : Nat} {hash : Hash} (h : db.numberToHash k = some hash) : k < db.size := by
  rcases Classical.em (k < db.size) with hlt | hge
  · exact hlt
  · rw [db.numberToHash_size k (by omega)] at h
    cases h

theorem mem_above {n k : Nat} {hash : Hash} : (k, hash) ∈ BlockchainM.above db n ↔
    n ≤ k ∧ db.numberToHash k = some hash ∧ ∀ j, n ≤ j → j ≤ k → (db.numberToHash j).isSome := by
  unfold BlockchainM.above
  rw [mem_entries]
  constructor
  · rintro ⟨hk, hhash, hall⟩
    exact ⟨hk.1, hhash, hall⟩
  · rintro ⟨hk, hhash, hall⟩
    have := lt_size hhash
    exact ⟨⟨hk, by omega⟩, hhash, hall⟩

end Entries

/-- The operations that delete entries of the index. -/
def deletions (entries : List (Nat × Hash)) : List DBOp :=
  entries.map fun e => .delNumberToHash e.1

/-- The batch for an item that becomes the head of the chain. -/
def canonicalOps (db : ChainDB) (item : BlockItem) (path : List BlockHeader) : List DBOp :=
  BlockchainM.itemOps db item ++ deletions (BlockchainM.above db (item.header.number + 1)) ++
    pathLookups path

/-- The batch for an item that is put aside. -/
def asideOps (db : ChainDB) (item : BlockItem) : List DBOp :=
  BlockchainM.itemOps db item ++ [.setHashToNumber item.header.hash item.header.number]

section Writes

variable (db : ChainDB) (item : BlockItem) (path : List BlockHeader)

theorem deletions_toNumberToHash (entries : List (Nat × Hash)) :
    (deletions entries).filterMap DBOp.toNumberToHash = entries.map fun e => (e.1, none) := by
  induction entries with
  | nil => rfl
  | cons e entries ih =>
    rw [List.map_cons, ← ih]
    rfl

theorem deletions_filterMap {α : Type} {toWrite : DBOp → Option α} (entries : List (Nat × Hash))
    (hdel : ∀ n, toWrite (.delNumberToHash n) = none) :
    (deletions entries).filterMap toWrite = [] := by
  rw [List.filterMap_eq_nil_iff]
  intro op hop
  obtain ⟨e, -, rfl⟩ := List.mem_map.mp hop
  exact hdel e.1

theorem pathLookups_filterMap {α : Type} {toWrite : DBOp → Option α}
    (hnumber : ∀ n hash, toWrite (.setNumberToHash n hash) = none)
    (hhash : ∀ hash n, toWrite (.setHashToNumber hash n) = none) :
    (pathLookups path).filterMap toWrite = [] := by
  rw [List.filterMap_eq_nil_iff]
  intro op hop
  obtain ⟨header, -, hop⟩ := List.mem_flatMap.mp hop
  rcases List.mem_pair.mp hop with rfl | rfl
  · exact hnumber _ _
  · exact hhash _ _

theorem canonicalOps_filterMap {α : Type} {toWrite : DBOp → Option α}
    (hdel : ∀ n, toWrite (.delNumberToHash n) = none)
    (hnumber : ∀ n hash, toWrite (.setNumberToHash n hash) = none)
    (hhash : ∀ hash n, toWrite (.setHashToNumber hash n) = none) :
    (canonicalOps db item path).filterMap toWrite =
      (BlockchainM.itemOps db item).filterMap toWrite := by
  unfold canonicalOps
  rw [List.filterMap_append, List.filterMap_append, deletions_filterMap _ hdel,
    pathLookups_filterMap path hnumber hhash, List.append_nil, List.append_nil]

theorem asideOps_filterMap {α : Type} {toWrite : DBOp → Option α}
    (hhash : ∀ hash n, toWrite (.setHashToNumber hash n) = none) :
    (asideOps db item).filterMap toWrite = (BlockchainM.itemOps db item).filterMap toWrite := by
  unfold asideOps
  rw [List.filterMap_append, List.filterMap_cons_none (hhash _ _)]
  exact List.append_nil _

theorem itemOps_toHeader : (BlockchainM.itemOps db item).filterMap DBOp.toHeader =
    [((item.header.number, item.header.hash), some item.header)] := by
  unfold BlockchainM.itemOps DBSetBlockOrHeader
  cases item.body <;> rfl

theorem itemOps_toBody : (BlockchainM.itemOps db item).filterMap DBOp.toBody =
    (item.body.map fun body => ((item.header.number, item.header.hash), some body)).toList := by
  unfold BlockchainM.itemOps DBSetBlockOrHeader
  cases item.body <;> rfl

theorem itemOps_toTD : (BlockchainM.itemOps db item).filterMap DBOp.toTD =
    [((item.header.number, item.header.hash), some (BlockchainM.itemTd db item.header))] := by
  unfold BlockchainM.itemOps DBSetBlockOrHeader
  cases item.body <;> rfl

theorem itemOps_toHashToNumber :
    (BlockchainM.itemOps db item).filterMap DBOp.toHashToNumber = [] := by
  unfold BlockchainM.itemOps DBSetBlockOrHeader
  cases item.body <;> rfl

theorem itemOps_toNumberToHash :
    (BlockchainM.itemOps db item).filterMap DBOp.toNumberToHash = [] := by
  unfold BlockchainM.itemOps DBSetBlockOrHeader
  cases item.body <;> rfl

theorem canonicalOps_toHashToNumber :
    (canonicalOps db item path).filterMap DBOp.toHashToNumber =
      path.map fun header => (header.hash, some header.number) := by
  unfold canonicalOps
  rw [List.filterMap_append, List.filterMap_append, itemOps_toHashToNumber,
    deletions_filterMap _ fun _ => rfl, pathLookups_toHashToNumber]
  rfl

theorem canonicalOps_toNumberToHash :
    (canonicalOps db item path).filterMap DBOp.toNumberToHash =
      (BlockchainM.above db (item.header.number + 1)).map (fun e => (e.1, none)) ++
        path.map fun header => (header.number, some header.hash) := by
  unfold canonicalOps
  rw [List.filterMap_append, List.filterMap_append, itemOps_toNumberToHash,
    deletions_toNumberToHash, pathLookups_toNumberToHash]
  rfl

theorem asideOps_toHashToNumber : (asideOps db item).filterMap DBOp.toHashToNumber =
    [(item.header.hash, some item.header.number)] := by
  unfold asideOps
  rw [List.filterMap_append, itemOps_toHashToNumber]
  rfl

theorem asideOps_toNumberToHash : (asideOps db item).filterMap DBOp.toNumberToHash = [] := by
  unfold asideOps
  rw [List.filterMap_append, itemOps_toNumberToHash]
  rfl

theorem getD_latestWrite_singleton {α : Type} (table : Table α) (number n : Nat) (hash h : Hash)
    (value : Option α) :
    (latestWrite [((number, hash), value)] (n, h)).getD (table n h) =
      table.set number hash value n h := by
  rw [ChainDB.set_apply]
  simp only [latestWrite, Option.none_or]
  split <;> rfl

variable {ops : List DBOp} (base : ChainDB)

/-- Operations that write an item to the tables of headers, bodies and total difficulties. -/
structure ItemWrites (db : ChainDB) (item : BlockItem) (ops : List DBOp) : Prop where
  header : ops.filterMap DBOp.toHeader =
    [((item.header.number, item.header.hash), some item.header)]
  body : ops.filterMap DBOp.toBody =
    (item.body.map fun body => ((item.header.number, item.header.hash), some body)).toList
  td : ops.filterMap DBOp.toTD =
    [((item.header.number, item.header.hash), some (BlockchainM.itemTd db item.header))]

theorem canonicalOps_itemWrites : ItemWrites db item (canonicalOps db item path) := by
  constructor
  · rw [canonicalOps_filterMap _ _ _ (fun _ => rfl) (fun _ _ => rfl) fun _ _ => rfl]
    exact itemOps_toHeader db item
  · rw [canonicalOps_filterMap _ _ _ (fun _ => rfl) (fun _ _ => rfl) fun _ _ => rfl]
    exact itemOps_toBody db item
  · rw [canonicalOps_filterMap _ _ _ (fun _ => rfl) (fun _ _ => rfl) fun _ _ => rfl]
    exact itemOps_toTD db item

theorem asideOps_itemWrites : ItemWrites db item (asideOps db item) := by
  constructor
  · rw [asideOps_filterMap _ _ fun _ _ => rfl]
    exact itemOps_toHeader db item
  · rw [asideOps_filterMap _ _ fun _ _ => rfl]
    exact itemOps_toBody db item
  · rw [asideOps_filterMap _ _ fun _ _ => rfl]
    exact itemOps_toTD db item

/-- The bodies with the body of an item, if it has one. -/
def Table.setBody (table : Table BlockBody) (item : BlockItem) : Table BlockBody :=
  match item.body with
  | none => table
  | some body => table.set item.header.number item.header.hash (some body)

variable {db item}

theorem ItemWrites.batch_header (h : ItemWrites db item ops) : (base.batch ops).header =
    base.header.set item.header.number item.header.hash (some item.header) := by
  funext n x
  rw [ChainDB.batch_header, h.header, getD_latestWrite_singleton]

theorem ItemWrites.batch_td (h : ItemWrites db item ops) : (base.batch ops).td =
    base.td.set item.header.number item.header.hash
      (some (BlockchainM.itemTd db item.header)) := by
  funext n x
  rw [ChainDB.batch_td, h.td, getD_latestWrite_singleton]

theorem ItemWrites.batch_body (h : ItemWrites db item ops) :
    (base.batch ops).body = base.body.setBody item := by
  funext n x
  rw [ChainDB.batch_body, h.body]
  unfold Table.setBody
  cases item.body with
  | none => rfl
  | some body => exact getD_latestWrite_singleton base.body _ n _ x _

end Writes

/-- Where a head goes when an item becomes the head of the chain. -/
def newHead (db : ChainDB) (item : BlockItem) (path : List BlockHeader) (ancestor : BlockHeader)
    (head : Hash) : Hash :=
  renewHead (pathStale db path) ancestor.hash
    (moveHead item.header.hash (BlockchainM.above db (item.header.number + 1)) head)

def Blockchain.toSave (bc : Blockchain) : SavedHeads :=
  ⟨some bc.heads, some bc.headHeaderHash, some bc.headBlockHash⟩

variable {cfg : ChainConfig} {env : ChainEnv} {item : BlockItem} {bc bc' : Blockchain}

/-- Whether an item becomes the head of the chain. -/
def Takes (item : BlockItem) (bc : Blockchain) : Prop :=
  ∃ currentTdHeader, bc.view.getTotalDifficultyByHash bc.headHeaderHash = .ok currentTdHeader ∧
    BlockchainM.takesOver bc.view item currentTdHeader

/-- An item has become the head of the chain. -/
structure TookOver (item : BlockItem) (path : List BlockHeader) (ancestor : BlockHeader)
    (bc bc' : Blockchain) : Prop where
  takes : Takes item bc
  rebuilds : Rebuilds bc.view item.header.number item.header path ancestor
  view : bc'.view = bc.view.batch (canonicalOps bc.view item path)
  db : bc'.db = bc.db.batch (canonicalOps bc.view item path)
  saved : bc'.saved = bc'.toSave
  heads : bc'.heads = fun name => (bc.heads name).map (newHead bc.view item path ancestor)
  headHeaderHash : bc'.headHeaderHash = item.header.hash
  headBlockHash : bc'.headBlockHash =
    newHead bc.view item path ancestor (bc.withTop item).headBlockHash

/-- An item has been put aside, where the head block has this total difficulty. -/
structure PutAside (item : BlockItem) (currentTdBlock : Nat) (bc bc' : Blockchain) : Prop where
  aside : ¬ Takes item bc
  tdBlock : bc.view.getTotalDifficultyByHash bc.headBlockHash = .ok currentTdBlock
  view : bc'.view = bc.view.batch (asideOps bc.view item)
  db : bc'.db = bc.db.batch (asideOps bc.view item)
  saved : bc'.saved = bc'.toSave
  heads : bc'.heads = bc.heads
  headHeaderHash : bc'.headHeaderHash = bc.headHeaderHash
  headBlockHash : bc'.headBlockHash =
    if BlockchainM.itemTd bc.view item.header > currentTdBlock ∧ item.body.isSome then
      item.header.hash
    else bc.headBlockHash

/-- Nothing has been written and the heads are as before. -/
structure Unwritten (bc bc' : Blockchain) : Prop where
  view : bc'.view = bc.view
  db : bc'.db = bc.db
  saved : bc'.saved = bc.saved
  heads : bc'.heads = bc.heads
  headHeaderHash : bc'.headHeaderHash = bc.headHeaderHash
  headBlockHash : bc'.headBlockHash = bc.headBlockHash

/-- The contents of the tables and the saved heads are as before. -/
def SameTables (bc bc' : Blockchain) : Prop :=
  bc'.view = bc.view ∧ bc'.db = bc.db ∧ bc'.saved = bc.saved

namespace BlockchainM

theorem putCanonical_cases (ops : List DBOp) :
    (∃ e mid, putCanonical cfg env item ops bc = .error e mid ∧ SameTables bc mid) ∨
      ∃ path ancestor mid, putCanonical cfg env item ops bc =
          .ok (ops ++ deletions (above bc.view (item.header.number + 1)) ++ pathLookups path) mid ∧
        Rebuilds bc.view item.header.number item.header path ancestor ∧ SameTables bc mid ∧
        mid.heads = (fun name => (bc.heads name).map (newHead bc.view item path ancestor)) ∧
        mid.headHeaderHash = item.header.hash ∧
        mid.headBlockHash =
          newHead bc.view item path ancestor (bc.withTop item).headBlockHash := by
  cases hancestor : findCommonAncestor bc item.header with
  | error e => exact .inl ⟨e, _, putCanonical_of_noAncestor hancestor, rfl, rfl, rfl⟩
  | ok found =>
    cases htransition : (transitioned cfg env item.header bc.hardfork).1 with
    | error e =>
      exact .inl ⟨e, _, putCanonical_of_noTransition hancestor htransition, rfl, rfl, rfl⟩
    | ok _ =>
      cases hblocks : recordedBlocks cfg bc.view (above bc.view (item.header.number + 1)) with
      | error e =>
        obtain ⟨f, hput⟩ := putCanonical_of_unreadable ops hancestor htransition hblocks
        exact .inl ⟨e, _, hput, rfl, rfl, rfl⟩
      | ok blocks =>
        cases hrebuild : rebuildLoop bc.view item.header.number item.header with
        | error e =>
          exact .inl ⟨e, _, putCanonical_of_noRebuild hancestor htransition hblocks hrebuild, rfl,
            rfl, rfl⟩
        | ok result =>
          obtain ⟨lookups, staleHashes, hash⟩ := result
          obtain ⟨path, ancestor, hpath, rfl, rfl, rfl⟩ := rebuildLoop_ok rfl hrebuild
          exact .inr ⟨path, ancestor, _,
            putCanonical_of_ok hancestor htransition hblocks hrebuild, hpath, ⟨rfl, rfl, rfl⟩, rfl,
            rfl, rfl⟩

theorem prepareItem_cases :
    (∃ e mid, prepareItem cfg env item bc = .error e mid ∧ SameTables bc mid) ∨
      (∃ path ancestor mid,
        prepareItem cfg env item bc = .ok (canonicalOps bc.view item path) mid ∧ Takes item bc ∧
        Rebuilds bc.view item.header.number item.header path ancestor ∧ SameTables bc mid ∧
        mid.heads = (fun name => (bc.heads name).map (newHead bc.view item path ancestor)) ∧
        mid.headHeaderHash = item.header.hash ∧
        mid.headBlockHash =
          newHead bc.view item path ancestor (bc.withTop item).headBlockHash) ∨
      ∃ currentTdBlock mid, prepareItem cfg env item bc = .ok (asideOps bc.view item) mid ∧
        ¬ Takes item bc ∧ bc.view.getTotalDifficultyByHash bc.headBlockHash = .ok currentTdBlock ∧
        mid = { bc with
          headBlockHash := if itemTd bc.view item.header > currentTdBlock ∧ item.body.isSome then
            item.header.hash else bc.headBlockHash } := by
  cases hcheck : checkItem cfg env item with
  | error e => exact .inl ⟨e, _, prepareItem_of_unchecked hcheck, rfl, rfl, rfl⟩
  | ok _ =>
    cases hheader : bc.view.getTotalDifficultyByHash bc.headHeaderHash with
    | error e => exact .inl ⟨e, _, prepareItem_of_noTdHeader hcheck hheader, rfl, rfl, rfl⟩
    | ok currentTdHeader =>
      cases hblock : bc.view.getTotalDifficultyByHash bc.headBlockHash with
      | error e => exact .inl ⟨e, _, prepareItem_of_noTdBlock hcheck hheader hblock, rfl, rfl, rfl⟩
      | ok currentTdBlock =>
        rcases Classical.em (takesOver bc.view item currentTdHeader) with htakes | haside
        · rw [prepareItem_of_takesOver hcheck hheader hblock htakes]
          rcases putCanonical_cases (itemOps bc.view item) with herror | hok
          · exact .inl herror
          · obtain ⟨path, ancestor, mid, hput, hok⟩ := hok
            exact .inr (.inl ⟨path, ancestor, mid, hput, ⟨_, hheader, htakes⟩, hok⟩)
        · refine .inr (.inr ⟨currentTdBlock, _, prepareItem_of_side hcheck hheader hblock haside,
            ?_, rfl, rfl⟩)
          rintro ⟨td, htd, htakes⟩
          rw [hheader] at htd
          rw [← Except.ok.inj htd] at htakes
          exact haside htakes

theorem putItem_of_prepared {ops : List DBOp} {mid : Blockchain}
    (h : prepareItem cfg env item bc = .ok ops mid) (hbatch : env.batch = .ok ()) :
    putItem cfg env item bc = liftExcept env.newBlock { mid with
      view := mid.view.batch ops
      db := mid.db.batch ops
      saved := mid.toSave } := by
  unfold putItem
  rw [bind_of_ok h, bind_of_ok (batchWithHeads_of_ok hbatch ops mid)]
  rfl

theorem putItem_of_unprepared {e : BlockchainError} {mid : Blockchain}
    (h : prepareItem cfg env item bc = .error e mid) : putItem cfg env item bc = .error e mid :=
  bind_of_error h

theorem putItem_of_noBatch {e : BlockchainError} {ops : List DBOp} {mid : Blockchain}
    (h : prepareItem cfg env item bc = .ok ops mid) (hbatch : env.batch = .error e) :
    putItem cfg env item bc = .error e { mid with view := mid.db.updateCaches mid.view ops } := by
  unfold putItem
  rw [bind_of_ok h]
  exact bind_of_error (batchWithHeads_of_error hbatch ops mid)

theorem putBlockOrHeader_of_ok {mid : Blockchain}
    (h : putBlockOrGenesis cfg env item bc = .ok () mid) :
    putBlockOrHeader cfg env item bc = .ok () { mid with deletedBlocks := [] } := by
  unfold putBlockOrHeader
  rw [get_bind, bind_of_ok (onError_of_ok h)]
  rfl

theorem putBlockOrHeader_of_error {e : BlockchainError} {mid : Blockchain}
    (h : putBlockOrGenesis cfg env item bc = .error e mid) :
    putBlockOrHeader cfg env item bc = .error e { mid with
      heads := bc.heads
      headHeaderHash := bc.headHeaderHash
      headBlockHash := bc.headBlockHash } := by
  unfold putBlockOrHeader
  rw [get_bind, bind_of_error (onError_of_error h)]

theorem putItem_cases (hbatch : env.batch = .ok ()) (hnewBlock : env.newBlock = .ok ()) :
    (∃ e mid, putItem cfg env item bc = .error e mid ∧ SameTables bc mid) ∨
      ∃ mid, putItem cfg env item bc = .ok () mid ∧
        ((∃ path ancestor, TookOver item path ancestor bc mid) ∨
          ∃ currentTdBlock, PutAside item currentTdBlock bc mid) := by
  rcases prepareItem_cases with ⟨e, mid, hprepare, hsame⟩ |
    ⟨path, ancestor, mid, hprepare, htakes, hpath, ⟨hview, hdb, hsaved⟩, hheads, hheader, hblock⟩ |
    ⟨currentTdBlock, mid, hprepare, haside, htd, hmid⟩
  · exact .inl ⟨e, mid, putItem_of_unprepared hprepare, hsame⟩
  · right
    refine ⟨_, (putItem_of_prepared hprepare hbatch).trans (liftExcept_of_ok hnewBlock _), ?_⟩
    left
    refine ⟨path, ancestor, htakes, hpath, ?_, ?_, rfl, hheads, hheader, hblock⟩
    · exact congrArg (ChainDB.batch · (canonicalOps bc.view item path)) hview
    · exact congrArg (ChainDB.batch · (canonicalOps bc.view item path)) hdb
  · right
    refine ⟨_, (putItem_of_prepared hprepare hbatch).trans (liftExcept_of_ok hnewBlock _), ?_⟩
    right
    rw [hmid]
    exact ⟨currentTdBlock, haside, htd, rfl, rfl, rfl, rfl, rfl, rfl⟩

/-- Where neither the batch nor the hook for new blocks throws, an item is written or nothing
is. -/
theorem putBlockOrHeader_cases (cfg : ChainConfig) (item : BlockItem) (bc : Blockchain)
    (hbatch : env.batch = .ok ()) (hnewBlock : env.newBlock = .ok ()) :
    (∃ e bc', putBlockOrHeader cfg env item bc = .error e bc' ∧ Unwritten bc bc') ∨
      ∃ bc', putBlockOrHeader cfg env item bc = .ok () bc' ∧
        (Unwritten bc bc' ∨ (item.header.number ≠ 0 ∧
          ((∃ path ancestor, TookOver item path ancestor bc bc') ∨
            ∃ currentTdBlock, PutAside item currentTdBlock bc bc'))) := by
  rcases Classical.em (item.header.number = 0) with hgenesis | hnumber
  · have hput : putBlockOrGenesis cfg env item =
        if cfg.genesisBlock.header.hash = item.header.hash then pure ()
        else throw .genesisMismatch := if_pos hgenesis
    rcases Classical.em (cfg.genesisBlock.header.hash = item.header.hash) with hsame | hother
    · rw [if_pos hsame] at hput
      have hok : putBlockOrGenesis cfg env item bc = .ok () bc := by
        rw [hput]
        rfl
      exact .inr ⟨_, putBlockOrHeader_of_ok hok, .inl ⟨rfl, rfl, rfl, rfl, rfl, rfl⟩⟩
    · rw [if_neg hother] at hput
      have herror : putBlockOrGenesis cfg env item bc = .error .genesisMismatch bc := by
        rw [hput]
        rfl
      exact .inl ⟨_, _, putBlockOrHeader_of_error herror, rfl, rfl, rfl, rfl, rfl, rfl⟩
  · have hput : putBlockOrGenesis cfg env item = putItem cfg env item := if_neg hnumber
    rcases putItem_cases hbatch hnewBlock with ⟨e, mid, hitem, hview, hdb, hsaved⟩ |
      ⟨mid, hitem, houtcome⟩
    · left
      rw [← hput] at hitem
      exact ⟨e, _, putBlockOrHeader_of_error hitem, hview, hdb, hsaved, rfl, rfl, rfl⟩
    · right
      rw [← hput] at hitem
      refine ⟨_, putBlockOrHeader_of_ok hitem, .inr ⟨hnumber, ?_⟩⟩
      rcases houtcome with ⟨path, ancestor, h⟩ | ⟨currentTdBlock, h⟩
      · exact .inl ⟨path, ancestor, h.takes, h.rebuilds, h.view, h.db, h.saved, h.heads, h.headHeaderHash,
          h.headBlockHash⟩
      · exact .inr ⟨currentTdBlock, h.aside, h.tdBlock, h.view, h.db, h.saved, h.heads, h.headHeaderHash,
          h.headBlockHash⟩

/-- An item that is put without an error is written, or nothing is. -/
theorem putBlockOrHeader_ok (h : putBlockOrHeader cfg env item bc = .ok () bc') :
    Unwritten bc bc' ∨ (item.header.number ≠ 0 ∧
      ((∃ path ancestor, TookOver item path ancestor bc bc') ∨
        ∃ currentTdBlock, PutAside item currentTdBlock bc bc')) := by
  rcases Classical.em (item.header.number = 0) with hgenesis | hnumber
  · have hput : putBlockOrGenesis cfg env item =
        if cfg.genesisBlock.header.hash = item.header.hash then pure ()
        else throw .genesisMismatch := if_pos hgenesis
    unfold putBlockOrHeader at h
    rw [hput] at h
    split at h
    · cases h
      exact .inl ⟨rfl, rfl, rfl, rfl, rfl, rfl⟩
    · cases h
  · have hanswers : env.batch = .ok () ∧ env.newBlock = .ok () := by
      have hput : putBlockOrGenesis cfg env item = putItem cfg env item := if_neg hnumber
      unfold putBlockOrHeader at h
      rw [hput, get_bind] at h
      obtain ⟨_, mid, hitem, -⟩ := bind_returns h
      cases hresult : putItem cfg env item bc with
      | error e after =>
        rw [onError_of_error hresult] at hitem
        cases hitem
      | ok a after =>
        obtain ⟨_, _, -, hrest⟩ := bind_returns hresult
        obtain ⟨_, after', hbatch, hnewBlock⟩ := bind_returns hrest
        refine ⟨batchWithHeads_ok hbatch, ?_⟩
        cases henv : env.newBlock with
        | ok _ => rfl
        | error e =>
          rw [liftExcept_of_error henv] at hnewBlock
          cases hnewBlock
    rcases putBlockOrHeader_cases cfg item bc hanswers.1 hanswers.2 with
      ⟨e, after, herror, -⟩ | ⟨after, hok, houtcome⟩
    · rw [herror] at h
      cases h
    · rw [hok] at h
      cases h
      exact houtcome

end BlockchainM

/-! A small proof-of-work chain, whose hashes repeat one byte. -/

namespace Sample

def hash (byte : UInt8) : Hash := List.replicate 32 byte

/-- A header with this byte for its hash. -/
def header (byte : UInt8) (number : Nat) (parent : UInt8) (difficulty : Nat) : BlockHeader :=
  ⟨hash byte, number, hash parent, difficulty, number, KECCAK256_RLP, KECCAK256_RLP_ARRAY, none⟩

def block (header : BlockHeader) : BlockItem := ⟨header, some [[], []], 1, false⟩

def genesis : BlockHeader := header 0 0 0 1

def config : ChainConfig := ⟨⟨genesis, [[], []]⟩, rfl, 1, false, false⟩

/-- Answers that never fail. -/
def passing : ChainEnv := ⟨.ok (), fun _ _ => .ok 0, .ok (), .ok (), .ok ()⟩

def chain : Blockchain := Blockchain.create config 0

end Sample

end EthereumJS
