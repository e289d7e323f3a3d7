import EthereumJS.Blockchain.Canonical

/-! # The heads on the disk

Over runs of operations that return: the heads that a blockchain opened over the same database
reads are those in memory, and they name stored headers. `delBlock` moves heads without saving
them and may delete a block that a head names; `setIteratorHead` takes any hash.
-/

namespace EthereumJS

open Overlay BlockchainM

inductive ChainOp
  | index (op : IndexOp)
  | setIteratorHead (tag : String) (headHash : Hash)
  | iterator (name : String) (maxBlocks : Option Nat)

def ChainOp.run (cfg : ChainConfig) (env : ChainEnv) : ChainOp → BlockchainM Unit
  | .index op => op.run cfg env
  | .setIteratorHead tag headHash => BlockchainM.setIteratorHead env tag headHash
  | .iterator name maxBlocks => do
    let _ ← BlockchainM.iterator cfg env name maxBlocks
    pure ()

/-- The blockchain that `createBlockchain` makes over the database of another. -/
def Blockchain.reopen (cfg : ChainConfig) (bc : Blockchain) : Blockchain :=
  { bc with
    view := bc.db
    heads := bc.saved.heads.getD fun _ => none
    headHeaderHash := bc.saved.headHeader.getD cfg.genesisBlock.header.hash
    headBlockHash := bc.saved.headBlock.getD cfg.genesisBlock.header.hash
    deletedBlocks := [] }

def Blockchain.Names (bc : Blockchain) (hash : Hash) : Prop :=
  hash = bc.headHeaderHash ∨ hash = bc.headBlockHash ∨ ∃ name, bc.heads name = some hash

/-- A blockchain opened over the database has the same heads, and they are stored. -/
structure HeadsPersisted (cfg : ChainConfig) (bc : Blockchain) : Prop where
  heads : (bc.reopen cfg).heads = bc.heads
  headHeaderHash : (bc.reopen cfg).headHeaderHash = bc.headHeaderHash
  headBlockHash : (bc.reopen cfg).headBlockHash = bc.headBlockHash
  stored : ∀ hash, bc.Names hash → ∃ header, (bc.reopen cfg).view.getHeaderByHash hash = .ok header

/-- The condition on an operation: a deleted block is outside the index and no head names it,
and an iterator head is set to a stored block. -/
def SavingOp (headers : Set BlockHeader) (bc : Blockchain) : ChainOp → Prop
  | .index (.put item) => item.header ∈ headers
  | .index (.resetCanonicalHead _) => True
  | .index (.delBlock hash) => ∀ header, bc.view.getHeaderByHash hash = .ok header →
    bc.view.numberToHash header.number ≠ some hash ∧ ¬ bc.Names hash
  | .setIteratorHead _ headHash => ∃ header, bc.view.getHeaderByHash headHash = .ok header
  | .iterator _ _ => True

/-- The states of the runs whose steps return and meet the condition. -/
inductive ChainRun (headers : Set BlockHeader) (cfg : ChainConfig) : Blockchain → Prop
  | create (hardfork : Nat) : ChainRun headers cfg (Blockchain.create cfg hardfork)
  | step {bc bc' : Blockchain} {env : ChainEnv} {op : ChainOp} (hbc : ChainRun headers cfg bc)
    (hop : SavingOp headers bc op) (hrun : op.run cfg env bc = .ok () bc') :
    ChainRun headers cfg bc'

/-- The invariant of a run. -/
structure Saving (headers : Set BlockHeader) (cfg : ChainConfig) (bc : Blockchain) : Prop where
  disk : bc.db = bc.view
  indexed : ∃ height, Indexed headers bc.view height
  heads : (bc.reopen cfg).heads = bc.heads
  headHeaderHash : (bc.reopen cfg).headHeaderHash = bc.headHeaderHash
  headBlockHash : (bc.reopen cfg).headBlockHash = bc.headBlockHash
  stored : ∀ hash, bc.Names hash → ∃ n, (bc.view.header n hash).isSome

variable {headers : Set BlockHeader} {cfg : ChainConfig} {env : ChainEnv} {bc bc' : Blockchain}
  {height : Nat} {item : BlockItem}

theorem Indexed.getHeaderByHash {db : ChainDB} (hdb : Indexed headers db height) {n : Nat}
    {hash : Hash} (h : (db.header n hash).isSome) :
    ∃ header, db.getHeaderByHash hash = .ok header := by
  obtain ⟨header, hheader⟩ := Option.isSome_iff_exists.mp h
  have hlookup := (hdb.stored n hash header hheader).2
  refine ⟨header, ?_⟩
  unfold ChainDB.getHeaderByHash ChainDB.getHashToNumber
  rw [hlookup]
  change db.getHeader hash n = _
  simp only [ChainDB.getHeader, hheader]

theorem Saving.toPersisted (h : Saving headers cfg bc) : HeadsPersisted cfg bc := by
  refine ⟨h.heads, h.headHeaderHash, h.headBlockHash, ?_⟩
  intro hash hnames
  obtain ⟨n, hstored⟩ := h.stored hash hnames
  obtain ⟨height, hindexed⟩ := h.indexed
  change ∃ header, bc.db.getHeaderByHash hash = .ok header
  rw [h.disk]
  exact hindexed.getHeaderByHash hstored

/-- An operation that saves the heads it leaves. -/
theorem Saving.of_toSave (hdisk : bc.db = bc.view) (hindexed : Indexed headers bc.view height)
    (hsaved : bc.saved = bc.toSave)
    (hstored : ∀ hash, bc.Names hash → ∃ n, (bc.view.header n hash).isSome) :
    Saving headers cfg bc := by
  refine ⟨hdisk, ⟨height, hindexed⟩, ?_, ?_, ?_, hstored⟩
  · change bc.saved.heads.getD _ = _
    rw [hsaved]
    rfl
  · change bc.saved.headHeader.getD _ = _
    rw [hsaved]
    rfl
  · change bc.saved.headBlock.getD _ = _
    rw [hsaved]
    rfl

/-- An operation that keeps the heads and what is saved. -/
theorem Saving.of_same (h : Saving headers cfg bc) (hdisk : bc'.db = bc'.view)
    (hindexed : ∃ height, Indexed headers bc'.view height) (hsaved : bc'.saved = bc.saved)
    (hheads : bc'.heads = bc.heads) (hheader : bc'.headHeaderHash = bc.headHeaderHash)
    (hblock : bc'.headBlockHash = bc.headBlockHash)
    (hstored : ∀ hash, bc.Names hash → ∃ n, (bc'.view.header n hash).isSome) :
    Saving headers cfg bc' := by
  refine ⟨hdisk, hindexed, ?_, ?_, ?_, ?_⟩
  · change bc'.saved.heads.getD _ = _
    rw [hsaved, hheads]
    exact h.heads
  · change bc'.saved.headHeader.getD _ = _
    rw [hsaved, hheader]
    exact h.headHeaderHash
  · change bc'.saved.headBlock.getD _ = _
    rw [hsaved, hblock]
    exact h.headBlockHash
  · intro hash hnames
    unfold Blockchain.Names at hnames
    rw [hheader, hblock, hheads] at hnames
    exact hstored hash hnames

section Put

variable {path : List BlockHeader} {ancestor : BlockHeader}

theorem newHead_cases (db : ChainDB) (item : BlockItem) (path : List BlockHeader)
    (ancestor : BlockHeader) (head : Hash) :
    newHead db item path ancestor head = head ∨
      newHead db item path ancestor head = item.header.hash ∨
      newHead db item path ancestor head = ancestor.hash := by
  unfold newHead renewHead
  rw [moveHead_eq]
  rcases Classical.em (head ∈ (above db (item.header.number + 1)).map Prod.snd) with hin | hout
  · rw [if_pos hin]
    split
    · exact .inr (.inr rfl)
    · exact .inr (.inl rfl)
  · rw [if_neg hout]
    split
    · exact .inr (.inr rfl)
    · exact .inl rfl

theorem Saving.tookOver (hfree : DistinctHashes headers) (h : Saving headers cfg bc)
    (hitem : item.header ∈ headers) (hnumber : item.header.number ≠ 0)
    (hput : TookOver item path ancestor bc bc') : Saving headers cfg bc' := by
  obtain ⟨height, hindexed⟩ := h.indexed
  have hwrites := canonicalOps_itemWrites bc.view item path
  have htop : (bc'.view.header item.header.number item.header.hash).isSome := by
    rw [hput.view, hwrites.header_item]
    rfl
  have hancestor : (bc'.view.header ancestor.number ancestor.hash).isSome := by
    rcases hput.rebuilds.stored (.inr rfl) with heq | hstored
    · rw [heq]
      exact htop
    · rw [hput.view]
      apply hwrites.isSome_header
      rw [hstored]
      rfl
  have hold : ∀ hash, bc.Names hash → ∃ n, (bc'.view.header n hash).isSome := by
    intro hash hnames
    obtain ⟨n, hstored⟩ := h.stored hash hnames
    rw [hput.view]
    exact ⟨n, hwrites.isSome_header hstored⟩
  have hnew : ∀ head, (∃ n, (bc'.view.header n head).isSome) →
      ∃ n, (bc'.view.header n (newHead bc.view item path ancestor head)).isSome := by
    intro head hhead
    rcases newHead_cases bc.view item path ancestor head with heq | heq | heq
    · rw [heq]
      exact hhead
    · rw [heq]
      exact ⟨_, htop⟩
    · rw [heq]
      exact ⟨_, hancestor⟩
  apply Saving.of_toSave
  · rw [hput.db, hput.view, h.disk]
  · rw [hput.view]
    exact hindexed.takeOver hfree hitem hnumber hput.rebuilds
  · exact hput.saved
  · rintro hash (rfl | rfl | ⟨name, hname⟩)
    · rw [hput.headHeaderHash]
      exact ⟨_, htop⟩
    · rw [hput.headBlockHash]
      apply hnew
      unfold Blockchain.withTop
      dsimp only
      split
      · exact ⟨_, htop⟩
      · exact hold _ (.inr (.inl rfl))
    · rw [hput.heads] at hname
      obtain ⟨old, holdName, rfl⟩ := Option.map_eq_some_iff.mp hname
      exact hnew old (hold old (.inr (.inr ⟨name, holdName⟩)))

theorem Saving.putAside (hfree : DistinctHashes headers) (h : Saving headers cfg bc)
    (hitem : item.header ∈ headers) (hnumber : item.header.number ≠ 0) {currentTdBlock : Nat}
    (hput : PutAside item currentTdBlock bc bc') : Saving headers cfg bc' := by
  obtain ⟨height, hindexed⟩ := h.indexed
  have hwrites := asideOps_itemWrites bc.view item
  have hold : ∀ hash, bc.Names hash → ∃ n, (bc'.view.header n hash).isSome := by
    intro hash hnames
    obtain ⟨n, hstored⟩ := h.stored hash hnames
    rw [hput.view]
    exact ⟨n, hwrites.isSome_header hstored⟩
  apply Saving.of_toSave
  · rw [hput.db, hput.view, h.disk]
  · rw [hput.view]
    exact hindexed.putAside hfree hitem hnumber
  · exact hput.saved
  · rintro hash (rfl | rfl | ⟨name, hname⟩)
    · rw [hput.headHeaderHash]
      exact hold _ (.inl rfl)
    · rw [hput.headBlockHash]
      split
      · refine ⟨item.header.number, ?_⟩
        rw [hput.view, hwrites.header_item]
        rfl
      · exact hold _ (.inr (.inl rfl))
    · rw [hput.heads] at hname
      exact hold hash (.inr (.inr ⟨name, hname⟩))

end Put

section Rewind

variable {number : Nat} {hash : Hash} {header : BlockHeader}

theorem Saving.cut (h : Saving headers cfg bc) (hhash : bc.view.numberToHash number = some hash)
    (hcut : Cut number hash bc bc') : Saving headers cfg bc' := by
  obtain ⟨height, hindexed⟩ := h.indexed
  have hmoved : ∀ head, bc.Names head →
      ∃ n, (bc'.view.header n (moveHead hash (above bc.view (number + 1)) head)).isSome := by
    intro head hnames
    rw [hcut.view, moveHead_eq]
    split
    · refine ⟨number, ?_⟩
      rw [deletions_header]
      exact hindexed.canonical number hash hhash
    · obtain ⟨n, hstored⟩ := h.stored head hnames
      refine ⟨n, ?_⟩
      rw [deletions_header]
      exact hstored
  apply Saving.of_toSave
  · rw [hcut.db, hcut.view, h.disk]
  · rw [hcut.view]
    exact hindexed.truncate (hindexed.le_of_some hhash)
  · exact hcut.saved
  · rintro head (rfl | rfl | ⟨name, hname⟩)
    · rw [hcut.headHeaderHash]
      exact hmoved _ (.inl rfl)
    · rw [hcut.headBlockHash]
      exact hmoved _ (.inr (.inl rfl))
    · rw [hcut.heads] at hname
      obtain ⟨old, hold, rfl⟩ := Option.map_eq_some_iff.mp hname
      exact hmoved old (.inr (.inr ⟨name, hold⟩))

theorem Saving.removedAside (h : Saving headers cfg bc)
    (hget : bc.view.getHeaderByHash hash = .ok header)
    (hout : bc.view.numberToHash header.number ≠ some hash) (hnames : ¬ bc.Names hash)
    (hremoved : RemovedAside header.number hash bc bc') : Saving headers cfg bc' := by
  obtain ⟨height, hindexed⟩ := h.indexed
  refine h.of_same ?_ ?_ hremoved.saved hremoved.heads hremoved.headHeaderHash
    hremoved.headBlockHash ?_
  · rw [hremoved.db, hremoved.view, h.disk]
  · rw [hremoved.view]
    exact ⟨height, hindexed.removeAside hget hout⟩
  · intro head hhead
    obtain ⟨n, hstored⟩ := h.stored head hhead
    refine ⟨n, ?_⟩
    rw [hremoved.view, deleteOps_header, if_neg]
    · exact hstored
    · intro hmem
      obtain ⟨-, rfl⟩ := Prod.mk.inj (List.mem_singleton.mp hmem)
      exact hnames hhead

end Rewind

section Iterator

variable {name : String}

theorem getBlock_ok {db : ChainDB} {n : Nat} {block : Block} (h : db.getBlock n = .ok block) :
    db.numberToHash n = some block.header.hash ∧
      db.header n block.header.hash = some block.header := by
  unfold ChainDB.getBlock at h
  split at h
  · cases h
  · rename_i hash hhash
    unfold ChainDB.getBlockAt ChainDB.getHeader at h
    cases hheader : db.header n hash with
    | none =>
      rw [hheader] at h
      cases h
    | some header =>
      rw [hheader] at h
      have hblock : block.header = header := by
        simp only [bind, Except.bind] at h
        repeat' split at h
        all_goals cases h
        all_goals rfl
      rw [hblock, (db.header_key _ _ _ hheader).2]
      exact ⟨hhash, hheader⟩

theorem nextInLine_ok {lastBlock : Option Block} {n k : Nat} {block : Block}
    (h : nextInLine cfg name lastBlock n bc = .ok (k, block)) :
    bc.view.getBlock k = .ok block := by
  unfold nextInLine at h
  cases hblock : bc.view.getBlock n with
  | error e =>
    rw [hblock] at h
    cases h
  | ok next =>
    rw [hblock] at h
    simp only [bind, Except.bind] at h
    split at h
    · cases hhead : iteratorHeadNumber cfg name bc with
      | error e =>
        rw [hhead] at h
        cases h
      | ok head =>
        rw [hhead] at h
        simp only at h
        cases hnext : bc.view.getBlock (head + 1) with
        | error e =>
          rw [hnext] at h
          cases h
        | ok block' =>
          rw [hnext] at h
          obtain ⟨rfl, rfl⟩ := Prod.mk.inj (Except.ok.inj h)
          exact hnext
    · obtain ⟨rfl, rfl⟩ := Prod.mk.inj (Except.ok.inj h)
      exact hblock

/-- The iterator only sets heads, to blocks that it has read. -/
theorem iteratorLoop_ok {fuel : Nat} {remaining : Option Nat} {lastBlock : Option Block} {n : Nat}
    {blocks result : List Block} (bc : Blockchain)
    (h : iteratorLoop cfg name fuel remaining lastBlock n blocks bc = .ok result bc') :
    ∃ heads, bc' = { bc with heads := heads } ∧ ∀ tag hash, heads tag = some hash →
      bc.heads tag = some hash ∨ ∃ k, bc.view.numberToHash k = some hash ∧
        (bc.view.header k hash).isSome := by
  induction fuel generalizing remaining lastBlock n blocks bc with
  | zero =>
    cases h
    exact ⟨_, rfl, fun _ _ => .inl⟩
  | succ fuel ih =>
    unfold iteratorLoop at h
    split at h
    · cases h
      exact ⟨_, rfl, fun _ _ => .inl⟩
    · rw [get_bind] at h
      cases hnext : nextInLine cfg name lastBlock n bc with
      | error e =>
        rw [hnext] at h
        cases e <;> cases h
        exact ⟨_, rfl, fun _ _ => .inl⟩
      | ok next =>
        obtain ⟨k, block⟩ := next
        rw [hnext] at h
        simp only [modify_bind] at h
        obtain ⟨heads, rfl, hheads⟩ := ih _ h
        refine ⟨heads, rfl, ?_⟩
        intro tag hash htag
        rcases hheads tag hash htag with hold | hread
        · dsimp only at hold
          rw [Function.update_apply] at hold
          split at hold
          · obtain ⟨hcanonical, hheader⟩ := getBlock_ok (nextInLine_ok hnext)
            rw [← Option.some.inj hold]
            refine .inr ⟨k, hcanonical, ?_⟩
            rw [hheader]
            rfl
          · exact .inl hold
        · exact .inr hread

end Iterator

section Run

theorem saving_create (hgenesis : cfg.genesisBlock.header ∈ headers) (hardfork : Nat) :
    Saving headers cfg (Blockchain.create cfg hardfork) := by
  have hindexed := (onIndex_create cfg hardfork hgenesis).indexed
  refine ⟨rfl, ⟨0, hindexed⟩, rfl, rfl, rfl, ?_⟩
  have hstored := hindexed.canonical 0 cfg.genesisBlock.header.hash (by
    rw [create_numberToHash, if_pos rfl])
  rintro hash (rfl | rfl | ⟨name, hname⟩)
  · exact ⟨0, hstored⟩
  · exact ⟨0, hstored⟩
  · cases hname

theorem getHeaderByHash_isSome {db : ChainDB} {hash : Hash} {header : BlockHeader}
    (h : db.getHeaderByHash hash = .ok header) : (db.header header.number hash).isSome := by
  rw [getHeaderByHash_ok h]
  rfl

theorem Saving.setIteratorHead (h : Saving headers cfg bc) {tag : String} {headHash : Hash}
    {header : BlockHeader} (hget : bc.view.getHeaderByHash headHash = .ok header)
    (hrun : BlockchainM.setIteratorHead env tag headHash bc = .ok () bc') :
    Saving headers cfg bc' := by
  obtain ⟨height, hindexed⟩ := h.indexed
  unfold BlockchainM.setIteratorHead at hrun
  rw [modify_bind] at hrun
  rw [batchWithHeads_of_ok (batchWithHeads_ok hrun)] at hrun
  cases hrun
  refine Saving.of_toSave h.disk hindexed rfl ?_
  rintro hash (rfl | rfl | ⟨name, hname⟩)
  · exact h.stored _ (.inl rfl)
  · exact h.stored _ (.inr (.inl rfl))
  · dsimp only at hname
    rw [Function.update_apply] at hname
    split at hname
    · rw [← Option.some.inj hname]
      exact ⟨_, getHeaderByHash_isSome hget⟩
    · exact h.stored hash (.inr (.inr ⟨name, hname⟩))

theorem withFinally_ok {α : Type} {x : BlockchainM α} {y : BlockchainM Unit} {a : α}
    (h : withFinally x y bc = .ok a bc') :
    ∃ mid, x bc = .ok a mid ∧ y mid = .ok () bc' := by
  unfold withFinally at h
  split at h
  · rename_i a' mid hx
    obtain ⟨_, after, hy, hpure⟩ := bind_returns h
    cases hpure
    exact ⟨mid, hx, hy⟩
  · rename_i e mid hx
    obtain ⟨_, after, -, hthrow⟩ := bind_returns h
    cases hthrow

theorem iterator_ok {name : String} {maxBlocks : Option Nat} {blocks : List Block}
    (h : iterator cfg env name maxBlocks bc = .ok blocks bc') :
    ∃ headBlockNumber mid, iteratorHeadNumber cfg name bc = .ok headBlockNumber ∧
      iteratorLoop cfg name (bc.view.size - headBlockNumber) maxBlocks none (headBlockNumber + 1)
        [] bc = .ok blocks mid ∧ bc' = { mid with saved := mid.toSave } := by
  unfold iterator at h
  rw [get_bind] at h
  cases hnumber : iteratorHeadNumber cfg name bc with
  | error e =>
    rw [bind_of_error (liftExcept_of_error hnumber bc)] at h
    cases h
  | ok headBlockNumber =>
    rw [bind_of_ok (liftExcept_of_ok hnumber bc)] at h
    obtain ⟨mid, hloop, hbatch⟩ := withFinally_ok h
    refine ⟨headBlockNumber, mid, rfl, hloop, ?_⟩
    rw [batchWithHeads_of_ok (batchWithHeads_ok hbatch)] at hbatch
    cases hbatch
    rfl

theorem Saving.iterator (h : Saving headers cfg bc) {name : String} {maxBlocks : Option Nat}
    {blocks : List Block} (hrun : BlockchainM.iterator cfg env name maxBlocks bc = .ok blocks bc') :
    Saving headers cfg bc' := by
  obtain ⟨height, hindexed⟩ := h.indexed
  obtain ⟨headBlockNumber, mid, -, hloop, rfl⟩ := iterator_ok hrun
  obtain ⟨heads, rfl, hheads⟩ := iteratorLoop_ok bc hloop
  refine Saving.of_toSave h.disk hindexed rfl ?_
  rintro hash (rfl | rfl | ⟨tag, htag⟩)
  · exact h.stored _ (.inl rfl)
  · exact h.stored _ (.inr (.inl rfl))
  · rcases hheads tag hash htag with hold | ⟨k, -, hstored⟩
    · exact h.stored hash (.inr (.inr ⟨tag, hold⟩))
    · exact ⟨k, hstored⟩

/-- One operation that returns and meets the condition keeps the heads saved. -/
theorem Saving.step (hfree : DistinctHashes headers) (h : Saving headers cfg bc) {op : ChainOp}
    (hop : SavingOp headers bc op) (hrun : op.run cfg env bc = .ok () bc') :
    Saving headers cfg bc' := by
  cases op with
  | index op =>
    cases op with
    | put item =>
      rcases putBlockOrHeader_ok hrun with hsame | ⟨hnumber, ⟨path, ancestor, hput⟩ |
        ⟨currentTdBlock, hput⟩⟩
      · refine h.of_same ?_ ?_ hsame.saved hsame.heads hsame.headHeaderHash hsame.headBlockHash ?_
        · rw [hsame.db, hsame.view]
          exact h.disk
        · rw [hsame.view]
          exact h.indexed
        · rw [hsame.view]
          exact h.stored
      · exact h.tookOver hfree hop hnumber hput
      · exact h.putAside hfree hop hnumber hput
    | resetCanonicalHead number =>
      obtain ⟨hash, hhash, hcut⟩ := resetCanonicalHead_ok hrun
      exact h.cut hhash hcut
    | delBlock hash =>
      obtain ⟨height, hindexed⟩ := h.indexed
      obtain ⟨header, hget, ⟨hout, hremoved⟩ | ⟨hin, -⟩⟩ := delBlock_ok hrun hindexed.canonical
      · exact h.removedAside hget hout (hop header hget).2 hremoved
      · exact absurd hin (hop header hget).1
  | setIteratorHead tag headHash =>
    obtain ⟨header, hget⟩ := hop
    exact h.setIteratorHead hget hrun
  | iterator name maxBlocks =>
    obtain ⟨blocks, mid, hiterator, hpure⟩ := bind_returns hrun
    cases hpure
    exact h.iterator hiterator

/-- Over headers without collisions, in every state of a run whose steps meet the condition the
heads on the disk are those in memory. -/
theorem ChainRun.headsPersisted (hfree : DistinctHashes headers)
    (hgenesis : cfg.genesisBlock.header ∈ headers) (hrun : ChainRun headers cfg bc) :
    HeadsPersisted cfg bc := by
  have hsaving : Saving headers cfg bc := by
    induction hrun with
    | create hardfork => exact saving_create hgenesis hardfork
    | step hbc hop hrun ih => exact ih.step hfree hop hrun
  exact hsaving.toPersisted

theorem headsPersisted_put_iterator : ∃ put iterated,
    ChainOp.run Sample.config Sample.passing
      (.index (.put (Sample.block (Sample.header 1 1 0 1)))) Sample.chain = .ok () put ∧
    ChainOp.run Sample.config Sample.passing (.iterator "vm" none) put = .ok () iterated ∧
    HeadsPersisted Sample.config iterated := by
  have hfree : DistinctHashes {Sample.genesis, Sample.header 1 1 0 1} := by
    rintro _ (rfl | rfl) _ (rfl | rfl) h
    · rfl
    · exact absurd h (by decide)
    · exact absurd h (by decide)
    · rfl
  have hrun : ∀ put iterated,
      ChainOp.run Sample.config Sample.passing
        (.index (.put (Sample.block (Sample.header 1 1 0 1)))) Sample.chain = .ok () put →
      ChainOp.run Sample.config Sample.passing (.iterator "vm" none) put = .ok () iterated →
      HeadsPersisted Sample.config iterated := by
    intro put iterated hput hiterator
    have hitem : SavingOp {Sample.genesis, Sample.header 1 1 0 1} Sample.chain
        (.index (.put (Sample.block (Sample.header 1 1 0 1)))) := Or.inr rfl
    have hany : SavingOp {Sample.genesis, Sample.header 1 1 0 1} put (.iterator "vm" none) :=
      True.intro
    exact ChainRun.headsPersisted hfree (.inl rfl)
      (.step (.step (.create 0) hitem hput) hany hiterator)
  exact ⟨_, _, rfl, rfl, hrun _ _ rfl rfl⟩

/-- A deleted head block is still the head on the disk. -/
theorem not_headsPersisted_deleted : ∃ put deleted,
    ChainOp.run Sample.config Sample.passing
      (.index (.put (Sample.block (Sample.header 1 1 0 1)))) Sample.chain = .ok () put ∧
    ChainOp.run Sample.config Sample.passing (.index (.delBlock (Sample.hash 1))) put =
      .ok () deleted ∧
    ¬ HeadsPersisted Sample.config deleted :=
  ⟨_, _, rfl, rfl, fun h => absurd h.headHeaderHash (by decide)⟩

end Run

end EthereumJS
