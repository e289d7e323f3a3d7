import EthereumJS.Blockchain.Rewind

/-! # The heads stay in the index

Over runs that put items, reset the head and delete blocks: the index goes from the genesis
block to the head header, and the head block and all iterator heads are in it. The head block
is what may be lost: a step that moves it must find a body where it goes.
-/

namespace EthereumJS

open Overlay BlockchainM

/-- An operation that rewrites the index. -/
inductive IndexOp
  | put (item : BlockItem)
  | resetCanonicalHead (number : Nat)
  | delBlock (hash : Hash)

def IndexOp.run (cfg : ChainConfig) (env : ChainEnv) : IndexOp → BlockchainM Unit
  | .put item => putBlockOrHeader cfg env item
  | .resetCanonicalHead number => BlockchainM.resetCanonicalHead cfg env number
  | .delBlock hash => BlockchainM.delBlock cfg env hash

/-- The state that an operation leaves, also where it throws. -/
def stateAfter (x : BlockchainM Unit) (bc : Blockchain) : Blockchain :=
  match x bc with
  | .ok _ bc => bc
  | .error _ bc => bc

/-- The index from the genesis block to the head header, with the other heads in it. -/
structure CanonicalChain (bc : Blockchain) : Prop where
  index : ∃ height, (∀ n, (bc.view.numberToHash n).isSome ↔ n ≤ height) ∧
    bc.view.numberToHash height = some bc.headHeaderHash
  link : ∀ n hash, bc.view.numberToHash (n + 1) = some hash →
    ∃ header, bc.view.header (n + 1) hash = some header ∧
      bc.view.numberToHash n = some header.parentHash
  headBlock : ∃ n, bc.view.numberToHash n = some bc.headBlockHash ∧
    (bc.view.body n bc.headBlockHash).isSome
  heads : ∀ name hash, bc.heads name = some hash → ∃ n, bc.view.numberToHash n = some hash

/-- Where the head block goes when an item is put, there is a body. -/
structure SafePut (item : BlockItem) (bc : Blockchain) : Prop where
  aside : ¬ Takes item bc → item.body.isSome → ∀ currentTdBlock,
    bc.view.getTotalDifficultyByHash bc.headBlockHash = .ok currentTdBlock →
    itemTd bc.view item.header > currentTdBlock →
    bc.view.numberToHash item.header.number = some item.header.hash
  header : Takes item bc → item.body = none → ∀ path ancestor,
    Rebuilds bc.view item.header.number item.header path ancestor →
    ∀ n, bc.view.numberToHash n = some bc.headBlockHash → ancestor.number < n →
      if item.header.number < n then
        (bc.view.body item.header.number item.header.hash).isSome
      else (bc.view.body ancestor.number ancestor.hash).isSome

/-- Where the head block goes when the head is reset, there is a body. -/
def SafeReset (number : Nat) (bc : Blockchain) : Prop :=
  ∀ hash n, bc.view.numberToHash number = some hash →
    bc.view.numberToHash n = some bc.headBlockHash → number < n →
    (bc.view.body number hash).isSome

/-- A canonical block to delete is not the genesis block, can be announced with its children,
and where the head block goes there is a body. -/
def SafeDelete (cfg : ChainConfig) (hash : Hash) (bc : Blockchain) : Prop :=
  ∀ header, bc.view.getHeaderByHash hash = .ok header →
    bc.view.numberToHash header.number = some hash →
    header.number ≠ 0 ∧ (∃ blocks, recordedBlocks cfg bc.view (above bc.view header.number) =
      .ok blocks) ∧
    ∀ n, bc.view.numberToHash n = some bc.headBlockHash → header.number ≤ n →
      (bc.view.body (header.number - 1) header.parentHash).isSome

/-- The condition on an operation: the writes do not fail, and the head block finds a body. -/
structure SafeOp (headers : Set BlockHeader) (cfg : ChainConfig) (env : ChainEnv) (op : IndexOp)
    (bc : Blockchain) : Prop where
  batch : env.batch = .ok ()
  newBlock : env.newBlock = .ok ()
  op : match op with
    | .put item => item.header ∈ headers ∧ SafePut item bc
    | .resetCanonicalHead number => SafeReset number bc
    | .delBlock hash => SafeDelete cfg hash bc

/-- The states of the runs whose steps all meet the condition. -/
inductive IndexRun (headers : Set BlockHeader) (cfg : ChainConfig) : Blockchain → Prop
  | create (hardfork : Nat) : IndexRun headers cfg (Blockchain.create cfg hardfork)
  | step {bc : Blockchain} {env : ChainEnv} {op : IndexOp} (hbc : IndexRun headers cfg bc)
    (hop : SafeOp headers cfg env op bc) : IndexRun headers cfg (stateAfter (op.run cfg env) bc)

/-- The invariant of a run. -/
structure OnIndex (headers : Set BlockHeader) (height : Nat) (bc : Blockchain) : Prop where
  indexed : Indexed headers bc.view height
  headHeader : bc.view.numberToHash height = some bc.headHeaderHash
  headBlock : ∃ n, bc.view.numberToHash n = some bc.headBlockHash ∧
    (bc.view.body n bc.headBlockHash).isSome
  heads : ∀ name hash, bc.heads name = some hash → ∃ n, bc.view.numberToHash n = some hash

variable {headers : Set BlockHeader} {cfg : ChainConfig} {env : ChainEnv} {bc bc' : Blockchain}
  {height : Nat} {item : BlockItem}

theorem OnIndex.toChain (h : OnIndex headers height bc) : CanonicalChain bc := by
  constructor
  · exact ⟨height, h.indexed.index, h.headHeader⟩
  · intro n hash hn
    obtain ⟨header, hheader⟩ :=
      Option.isSome_iff_exists.mp (h.indexed.canonical (n + 1) hash hn)
    exact ⟨header, hheader, h.indexed.link n hash header hn hheader⟩
  · exact h.headBlock
  · exact h.heads

/-- The invariant depends on the tables that are read and on the heads. -/
theorem OnIndex.unwritten (h : OnIndex headers height bc) (hsame : Unwritten bc bc') :
    OnIndex headers height bc' := by
  constructor
  · rw [hsame.view]
    exact h.indexed
  · rw [hsame.view, hsame.headHeaderHash]
    exact h.headHeader
  · rw [hsame.view, hsame.headBlockHash]
    exact h.headBlock
  · rw [hsame.view, hsame.heads]
    exact h.heads

section Put

variable {path : List BlockHeader} {ancestor : BlockHeader}

theorem isSome_setBody {table : Table BlockBody} {n : Nat} {hash : Hash}
    (h : (table n hash).isSome) : (table.setBody item n hash).isSome := by
  unfold Table.setBody
  cases item.body with
  | none => exact h
  | some body =>
    dsimp only
    rw [ChainDB.set_apply]
    split
    · rfl
    · exact h

theorem isSome_setBody_item {table : Table BlockBody} (h : item.body.isSome) :
    (table.setBody item item.header.number item.header.hash).isSome := by
  obtain ⟨body, hbody⟩ := Option.isSome_iff_exists.mp h
  simp only [Table.setBody, hbody]
  rw [ChainDB.set_apply, if_pos rfl]
  rfl

theorem OnIndex.tookOver (hfree : DistinctHashes headers) (h : OnIndex headers height bc)
    (hitem : item.header ∈ headers) (hnumber : item.header.number ≠ 0)
    (hsafe : SafePut item bc) (hput : TookOver item path ancestor bc bc') :
    OnIndex headers item.header.number bc' := by
  have hdb := h.indexed
  have hpath := hput.rebuilds
  have htop := takeOver_item hnumber hpath
  have hancestor : (bc.view.batch (canonicalOps bc.view item path)).numberToHash ancestor.number =
      some ancestor.hash := by
    rw [takeOver_le hpath le_rfl]
    exact hpath.ancestor_index hdb hnumber
  have hbodies := (canonicalOps_itemWrites bc.view item path).batch_body bc.view
  constructor
  · rw [hput.view]
    exact hdb.takeOver hfree hitem hnumber hpath
  · rw [hput.view, hput.headHeaderHash]
    exact htop
  · rw [hput.view, hput.headBlockHash, hbodies]
    cases hbody : item.body with
    | some body =>
      have hblock : (bc.withTop item).headBlockHash = item.header.hash := by
        simp [Blockchain.withTop, hbody]
      rw [hblock, newHead_item hfree hdb hitem hpath]
      refine ⟨item.header.number, htop, isSome_setBody_item ?_⟩
      rw [hbody]
      rfl
    | none =>
      have hblock : (bc.withTop item).headBlockHash = bc.headBlockHash := by
        simp [Blockchain.withTop, hbody]
      obtain ⟨n, hn, hstored⟩ := h.headBlock
      have hbody' := hsafe.header hput.takes hbody path ancestor hpath n hn
      rw [hblock, newHead_index hfree hdb hitem hpath hn]
      split
      · rename_i hlt
        have hle := hpath.ancestor_le rfl
        rw [if_pos hlt] at hbody'
        exact ⟨item.header.number, htop, isSome_setBody (hbody' (by omega))⟩
      · rename_i hge
        rw [if_neg hge] at hbody'
        split
        · rename_i hlt
          exact ⟨ancestor.number, hancestor, isSome_setBody (hbody' hlt)⟩
        · rename_i hle
          refine ⟨n, ?_, isSome_setBody hstored⟩
          rw [takeOver_le hpath (by omega)]
          exact hn
  · intro name hash hname
    rw [hput.heads] at hname
    obtain ⟨old, hold, rfl⟩ := Option.map_eq_some_iff.mp hname
    obtain ⟨n, hn⟩ := h.heads name old hold
    rw [hput.view, newHead_index hfree hdb hitem hpath hn]
    split
    · exact ⟨_, htop⟩
    · split
      · exact ⟨_, hancestor⟩
      · rename_i hle
        refine ⟨n, ?_⟩
        rw [takeOver_le hpath (by omega)]
        exact hn

theorem OnIndex.putAside (hfree : DistinctHashes headers) (h : OnIndex headers height bc)
    (hitem : item.header ∈ headers) (hnumber : item.header.number ≠ 0)
    (hsafe : SafePut item bc) {currentTdBlock : Nat}
    (hput : PutAside item currentTdBlock bc bc') : OnIndex headers height bc' := by
  have hbodies := (asideOps_itemWrites bc.view item).batch_body bc.view
  constructor
  · rw [hput.view]
    exact h.indexed.putAside hfree hitem hnumber
  · rw [hput.view, hput.headHeaderHash, aside_numberToHash]
    exact h.headHeader
  · rw [hput.view, hput.headBlockHash, hbodies]
    split
    · rename_i hhigher
      refine ⟨item.header.number, ?_, isSome_setBody_item hhigher.2⟩
      rw [aside_numberToHash]
      exact hsafe.aside hput.aside hhigher.2 currentTdBlock hput.tdBlock hhigher.1
    · obtain ⟨n, hn, hstored⟩ := h.headBlock
      refine ⟨n, ?_, isSome_setBody hstored⟩
      rw [aside_numberToHash]
      exact hn
  · rw [hput.view, hput.heads]
    intro name hash hname
    obtain ⟨n, hn⟩ := h.heads name hash hname
    refine ⟨n, ?_⟩
    rw [aside_numberToHash]
    exact hn

end Put

section Reset

variable {number : Nat} {hash : Hash}

theorem entries_pairwise (db : ChainDB) (fuel n : Nat) :
    (db.entries fuel n).Pairwise fun a b => a.1 < b.1 := by
  induction fuel generalizing n with
  | zero => exact .nil
  | succ fuel ih =>
    unfold ChainDB.entries
    cases db.numberToHash n with
    | none => exact .nil
    | some hash =>
      refine List.pairwise_cons.mpr ⟨?_, ih (n + 1)⟩
      rintro ⟨k, hash'⟩ hmem
      exact (mem_entries.mp hmem).1.1

/-- The head header is the last one that a reset would move. -/
theorem OnIndex.headHeader_not_mem (h : OnIndex headers height bc) {before : List (Nat × Hash)}
    {entry : Nat × Hash} {after : List (Nat × Hash)}
    (habove : above bc.view number = before ++ entry :: after) :
    bc.headHeaderHash ∉ before.map Prod.snd := by
  intro hmem
  obtain ⟨⟨k, hash⟩, hbefore, heq⟩ := List.mem_map.mp hmem
  dsimp only at heq
  have hsorted := entries_pairwise bc.view (bc.view.size - number) number
  change (above bc.view number).Pairwise _ at hsorted
  rw [habove, List.pairwise_append] at hsorted
  have hlt := hsorted.2.2 _ hbefore entry List.mem_cons_self
  have hk := (mem_above.mp (habove ▸ List.mem_append_left _ hbefore)).2.1
  have hentry : (entry.1, entry.2) ∈ above bc.view number :=
    habove ▸ List.mem_append_right _ List.mem_cons_self
  rw [heq] at hk
  rw [h.indexed.number_eq hk h.headHeader] at hlt
  have := h.indexed.le_of_some (mem_above.mp hentry).2.1
  omega

theorem OnIndex.cutShort (h : OnIndex headers height bc)
    (hhash : bc.view.numberToHash number = some hash) (hsafe : SafeReset number bc)
    (hcut : CutShort number hash bc bc') : OnIndex headers height bc' := by
  obtain ⟨before, entry, after, habove, rfl⟩ := hcut.moved
  have hmem : ∀ head, head ∈ before.map Prod.snd →
      ∃ n, bc.view.numberToHash n = some head ∧ number < n := by
    intro head hhead
    obtain ⟨⟨k, head'⟩, hbefore, rfl⟩ := List.mem_map.mp hhead
    have hk := mem_above.mp (habove ▸ List.mem_append_left _ hbefore)
    exact ⟨k, hk.2.1, hk.1⟩
  constructor
  · exact h.indexed
  · change bc.view.numberToHash height = some (moveHead hash before bc.headHeaderHash)
    rw [moveHead_eq, if_neg (h.headHeader_not_mem habove)]
    exact h.headHeader
  · change ∃ n, bc.view.numberToHash n = some (moveHead hash before bc.headBlockHash) ∧
      (bc.view.body n (moveHead hash before bc.headBlockHash)).isSome
    rw [moveHead_eq]
    split
    · rename_i hin
      obtain ⟨n, hn, hlt⟩ := hmem _ hin
      exact ⟨number, hhash, hsafe hash n hhash hn hlt⟩
    · exact h.headBlock
  · intro name head hname
    obtain ⟨old, hold, rfl⟩ := Option.map_eq_some_iff.mp hname
    rw [moveHead_eq]
    split
    · exact ⟨number, hhash⟩
    · exact h.heads name old hold

theorem OnIndex.cut (h : OnIndex headers height bc)
    (hhash : bc.view.numberToHash number = some hash) (hsafe : SafeReset number bc)
    (hcut : Cut number hash bc bc') : OnIndex headers number bc' := by
  have hdb := h.indexed
  have hle := hdb.le_of_some hhash
  have hindex := truncate_numberToHash hdb number
  have hnumber : (bc.view.batch (deletions (above bc.view (number + 1)))).numberToHash number =
      some hash := by
    rw [hindex, if_pos le_rfl]
    exact hhash
  constructor
  · rw [hcut.view]
    exact hdb.truncate hle
  · rw [hcut.view, hcut.headHeaderHash, hdb.moveHead_above h.headHeader, hnumber]
    split
    · rfl
    · rename_i hge
      have heq : number = height := by omega
      rw [← hhash, heq]
      exact h.headHeader
  · obtain ⟨n, hn, hstored⟩ := h.headBlock
    rw [hcut.view, hcut.headBlockHash, hdb.moveHead_above hn]
    split
    · rename_i hlt
      refine ⟨number, hnumber, ?_⟩
      rw [deletions_body]
      exact hsafe hash n hhash hn hlt
    · rename_i hge
      refine ⟨n, ?_, ?_⟩
      · rw [hindex, if_pos (by omega)]
        exact hn
      · rw [deletions_body]
        exact hstored
  · intro name head hname
    rw [hcut.heads] at hname
    obtain ⟨old, hold, rfl⟩ := Option.map_eq_some_iff.mp hname
    obtain ⟨n, hn⟩ := h.heads name old hold
    rw [hcut.view, hdb.moveHead_above hn]
    split
    · exact ⟨number, hnumber⟩
    · rename_i hge
      refine ⟨n, ?_⟩
      rw [hindex, if_pos (by omega)]
      exact hn

end Reset

section Delete

variable {hash : Hash} {header : BlockHeader}

theorem getHeaderByHash_ok {db : ChainDB} (h : db.getHeaderByHash hash = .ok header) :
    db.header header.number hash = some header := by
  unfold ChainDB.getHeaderByHash ChainDB.getHashToNumber at h
  cases hnumber : db.hashToNumber hash with
  | none =>
    rw [hnumber] at h
    cases h
  | some n =>
    rw [hnumber] at h
    change db.getHeader hash n = .ok header at h
    unfold ChainDB.getHeader at h
    split at h
    · cases h
    · rename_i found hfound
      obtain rfl := Except.ok.inj h
      rw [(db.header_key _ _ _ hfound).1]
      exact hfound

theorem not_mem_of_canonical {db : ChainDB} {n k : Nat} {head : Hash}
    (hout : db.numberToHash n ≠ some hash) (hk : db.numberToHash k = some head) :
    (k, head) ∉ [(n, hash)] := by
  intro hmem
  obtain ⟨rfl, rfl⟩ := Prod.mk.inj (List.mem_singleton.mp hmem)
  exact hout hk

theorem removeAside_numberToHash {db : ChainDB} (n k : Nat) :
    (db.batch (deleteOps [(n, hash)] [])).numberToHash k = db.numberToHash k := by
  rw [deleteOps_numberToHash]
  rfl

/-- Deleting a block outside the index keeps the index. -/
theorem Indexed.removeAside {db : ChainDB} (hdb : Indexed headers db height)
    (hget : db.getHeaderByHash hash = .ok header)
    (hout : db.numberToHash header.number ≠ some hash) :
    Indexed headers (db.batch (deleteOps [(header.number, hash)] [])) height := by
  apply hdb.delete le_rfl
  · intro k
    rw [hdb.index k]
    simp
  · intro e he
    rw [List.mem_singleton.mp he, getHeaderByHash_ok hget]
    rfl
  · exact fun k head _ hk => not_mem_of_canonical hout hk

theorem OnIndex.removedAside (h : OnIndex headers height bc)
    (hget : bc.view.getHeaderByHash hash = .ok header)
    (hout : bc.view.numberToHash header.number ≠ some hash)
    (hremoved : RemovedAside header.number hash bc bc') : OnIndex headers height bc' := by
  constructor
  · rw [hremoved.view]
    exact h.indexed.removeAside hget hout
  · rw [hremoved.view, hremoved.headHeaderHash, removeAside_numberToHash]
    exact h.headHeader
  · obtain ⟨n, hn, hstored⟩ := h.headBlock
    refine ⟨n, ?_, ?_⟩
    · rw [hremoved.view, hremoved.headBlockHash, removeAside_numberToHash]
      exact hn
    · rw [hremoved.view, hremoved.headBlockHash, deleteOps_body,
        if_neg (not_mem_of_canonical hout hn)]
      exact hstored
  · intro name head hname
    rw [hremoved.heads] at hname
    obtain ⟨n, hn⟩ := h.heads name head hname
    refine ⟨n, ?_⟩
    rw [hremoved.view, removeAside_numberToHash]
    exact hn

theorem OnIndex.removed (h : OnIndex headers height bc)
    (hget : bc.view.getHeaderByHash hash = .ok header)
    (hin : bc.view.numberToHash header.number = some hash)
    (hnumber : header.number ≠ 0)
    (hsafe : ∀ n, bc.view.numberToHash n = some bc.headBlockHash → header.number ≤ n →
      (bc.view.body (header.number - 1) header.parentHash).isSome)
    (hremoved : Removed header (blocksFrom bc.view header.number) bc bc') :
    OnIndex headers (header.number - 1) bc' := by
  have hdb := h.indexed
  have hle := hdb.le_of_some hin
  have hentries : ∀ k, k ∈ (above bc.view header.number).map Prod.fst ↔
      header.number - 1 < k ∧ (bc.view.numberToHash k).isSome := by
    intro k
    rw [List.mem_map]
    constructor
    · rintro ⟨⟨k, head⟩, hmem, rfl⟩
      obtain ⟨hk, hhead⟩ := hdb.mem_above_iff.mp hmem
      refine ⟨by dsimp only; omega, ?_⟩
      rw [hhead]
      rfl
    · rintro ⟨hk, hsome⟩
      obtain ⟨head, hhead⟩ := Option.isSome_iff_exists.mp hsome
      exact ⟨(k, head), hdb.mem_above_iff.mpr ⟨by omega, hhead⟩, rfl⟩
  have hindex := delete_numberToHash (blocksFrom bc.view header.number) hentries
  have hblocks : ∀ k head, k ≤ header.number - 1 → bc.view.numberToHash k = some head →
      (k, head) ∉ blocksFrom bc.view header.number := by
    intro k head hk _ hmem
    have := ((mem_blocksFrom hdb).mp hmem).1
    omega
  have hparent : bc.view.numberToHash (header.number - 1) = some header.parentHash := by
    have heq : header.number = header.number - 1 + 1 := by omega
    rw [heq] at hin
    apply hdb.link _ _ _ hin
    rw [← heq]
    exact getHeaderByHash_ok hget
  have hparent' : (bc.view.batch (deleteOps (blocksFrom bc.view header.number)
      (above bc.view header.number))).numberToHash (header.number - 1) =
        some header.parentHash := by
    rw [hindex, if_pos le_rfl]
    exact hparent
  -- the head header and the head block are moved twice, the second time from the new head
  have hmove : ∀ k head, bc.view.numberToHash k = some head →
      moveHead header.parentHash (above bc.view header.number)
        (moveHead header.parentHash (blocksFrom bc.view header.number) head) =
      if header.number ≤ k then header.parentHash else head := by
    intro k head hk
    rw [hdb.moveHead_of_mem (fun _ _ => mem_blocksFrom hdb) hk]
    split
    · exact moveHead_self _ _
    · rename_i hlt
      rw [hdb.moveHead_above hk, if_neg hlt]
  constructor
  · rw [hremoved.view]
    apply hdb.delete (by omega) hentries
    · rintro ⟨k, head⟩ he
      exact hdb.canonical k head ((mem_blocksFrom hdb).mp he).2
    · exact hblocks
  · rw [hremoved.view, hremoved.headHeaderHash, hmove height _ h.headHeader, if_pos hle]
    exact hparent'
  · obtain ⟨n, hn, hstored⟩ := h.headBlock
    rw [hremoved.view, hremoved.headBlockHash, hmove n _ hn]
    split
    · rename_i hlt
      refine ⟨_, hparent', ?_⟩
      rw [deleteOps_body, if_neg (hblocks _ _ le_rfl hparent)]
      exact hsafe n hn hlt
    · rename_i hge
      refine ⟨n, ?_, ?_⟩
      · rw [hindex, if_pos (by omega)]
        exact hn
      · rw [deleteOps_body, if_neg (hblocks _ _ (by omega) hn)]
        exact hstored
  · intro name head hname
    rw [hremoved.heads] at hname
    obtain ⟨old, hold, rfl⟩ := Option.map_eq_some_iff.mp hname
    obtain ⟨n, hn⟩ := h.heads name old hold
    rw [hremoved.view, hdb.moveHead_above hn]
    split
    · exact ⟨_, hparent'⟩
    · rename_i hge
      refine ⟨n, ?_⟩
      rw [hindex, if_pos (by omega)]
      exact hn

end Delete

section Create

variable (cfg : ChainConfig) (hardfork : Nat)

theorem create_header (n : Nat) (hash : Hash) :
    (Blockchain.create cfg hardfork).view.header n hash =
      if (0, cfg.genesisBlock.header.hash) = (n, hash) then some cfg.genesisBlock.header
      else none := by
  rw [← cfg.isGenesis]
  exact ChainDB.set_apply _ _ _ _ _ _

theorem create_numberToHash (n : Nat) : (Blockchain.create cfg hardfork).view.numberToHash n =
    if n = 0 then some cfg.genesisBlock.header.hash else none :=
  Function.update_apply _ _ _ _

theorem create_hashToNumber (hash : Hash) :
    (Blockchain.create cfg hardfork).view.hashToNumber hash =
      if hash = cfg.genesisBlock.header.hash then some 0 else none :=
  Function.update_apply _ _ _ _

theorem onIndex_create (hgenesis : cfg.genesisBlock.header ∈ headers) :
    OnIndex headers 0 (Blockchain.create cfg hardfork) := by
  have hzero : (Blockchain.create cfg hardfork).view.numberToHash 0 =
      some cfg.genesisBlock.header.hash := by
    rw [create_numberToHash, if_pos rfl]
  constructor
  · constructor
    case stored =>
      intro n hash header hheader
      rw [create_header] at hheader
      split at hheader
      · rename_i hkey
        obtain ⟨rfl, rfl⟩ := Prod.mk.inj hkey
        rw [← Option.some.inj hheader, create_hashToNumber, if_pos rfl]
        exact ⟨hgenesis, rfl⟩
      · cases hheader
    case index =>
      intro n
      rw [create_numberToHash]
      split
      · rename_i heq
        simp [heq]
      · rename_i hne
        simp [hne]
    case canonical =>
      intro n hash hn
      rw [create_numberToHash] at hn
      split at hn
      · rename_i heq
        rw [create_header, heq, ← Option.some.inj hn, if_pos rfl]
        rfl
      · cases hn
    case link =>
      intro n hash header hn _
      rw [create_numberToHash, if_neg (Nat.succ_ne_zero n)] at hn
      cases hn
    case genesis =>
      intro hash hheader
      rw [create_header] at hheader
      split at hheader
      · rename_i hkey
        rw [hzero, (Prod.mk.inj hkey).2]
      · cases hheader
  · exact hzero
  · refine ⟨0, hzero, ?_⟩
    have hbody : (Blockchain.create cfg hardfork).view.body 0 cfg.genesisBlock.header.hash =
        some cfg.genesisBlock.body :=
      (ChainDB.set_apply _ _ _ _ _ _).trans (if_pos rfl)
    rw [Blockchain.create] at hbody ⊢
    rw [hbody]
    rfl
  · intro name hash hname
    cases hname

end Create

theorem stateAfter_ok {x : BlockchainM Unit} (h : x bc = .ok () bc') : stateAfter x bc = bc' := by
  unfold stateAfter
  rw [h]

theorem stateAfter_error {x : BlockchainM Unit} {e : BlockchainError} (h : x bc = .error e bc') :
    stateAfter x bc = bc' := by
  unfold stateAfter
  rw [h]

/-- One operation that meets the condition keeps the heads in the index. -/
theorem OnIndex.step (hfree : DistinctHashes headers) (h : OnIndex headers height bc) {op : IndexOp}
    (hop : SafeOp headers cfg env op bc) :
    ∃ height, OnIndex headers height (stateAfter (op.run cfg env) bc) := by
  obtain ⟨hbatch, hnewBlock, hsafe⟩ := hop
  cases op with
  | put item =>
    obtain ⟨hitem, hsafe⟩ := hsafe
    change ∃ height, OnIndex headers height (stateAfter (putBlockOrHeader cfg env item) bc)
    rcases putBlockOrHeader_cases cfg item bc hbatch hnewBlock with
      ⟨e, bc', hput, hsame⟩ | ⟨bc', hput, hsame | ⟨hnumber, ⟨path, ancestor, hput'⟩ |
        ⟨currentTdBlock, hput'⟩⟩⟩
    · rw [stateAfter_error hput]
      exact ⟨height, h.unwritten hsame⟩
    · rw [stateAfter_ok hput]
      exact ⟨height, h.unwritten hsame⟩
    · rw [stateAfter_ok hput]
      exact ⟨_, h.tookOver hfree hitem hnumber hsafe hput'⟩
    · rw [stateAfter_ok hput]
      exact ⟨height, h.putAside hfree hitem hnumber hsafe hput'⟩
  | resetCanonicalHead number =>
    change ∃ height, OnIndex headers height (stateAfter (resetCanonicalHead cfg env number) bc)
    rcases resetCanonicalHead_cases cfg bc hbatch number with
      ⟨e, hreset⟩ | ⟨hash, hhash, ⟨e, bc', hreset, hcut⟩ | ⟨bc', hcut, ⟨e, hreset⟩ | hreset⟩⟩
    · rw [stateAfter_error hreset]
      exact ⟨height, h⟩
    · rw [stateAfter_error hreset]
      exact ⟨height, h.cutShort hhash hsafe hcut⟩
    · rw [stateAfter_error hreset]
      exact ⟨number, h.cut hhash hsafe hcut⟩
    · rw [stateAfter_ok hreset]
      exact ⟨number, h.cut hhash hsafe hcut⟩
  | delBlock hash =>
    change ∃ height, OnIndex headers height (stateAfter (delBlock cfg env hash) bc)
    rcases delBlock_cases cfg hbatch hash h.indexed.canonical with
      ⟨e, hdel⟩ | ⟨header, hget, ⟨hout, bc', hdel, hremoved⟩ |
        ⟨hin, ⟨e, bc', hblocks, hdel⟩ | ⟨bc', hdel, hremoved⟩⟩⟩
    · rw [stateAfter_error hdel]
      exact ⟨height, h⟩
    · rw [stateAfter_ok hdel]
      exact ⟨height, h.removedAside hget hout hremoved⟩
    · obtain ⟨-, ⟨blocks, hok⟩, -⟩ := hsafe header hget hin
      rw [hblocks] at hok
      cases hok
    · obtain ⟨hnumber, -, hbody⟩ := hsafe header hget hin
      rw [stateAfter_ok hdel]
      exact ⟨_, h.removed hget hin hnumber hbody hremoved⟩

/-- Over headers without collisions, every state of a run whose steps meet the condition has all
heads in the index. -/
theorem IndexRun.canonicalChain (hfree : DistinctHashes headers)
    (hgenesis : cfg.genesisBlock.header ∈ headers) (hrun : IndexRun headers cfg bc) :
    CanonicalChain bc := by
  have hindex : ∃ height, OnIndex headers height bc := by
    induction hrun with
    | create hardfork => exact ⟨0, onIndex_create cfg hardfork hgenesis⟩
    | step hbc hop ih =>
      obtain ⟨height, h⟩ := ih
      exact h.step hfree hop
  obtain ⟨height, h⟩ := hindex
  exact h.toChain

theorem CanonicalChain.headBlock_lt_size (h : CanonicalChain bc) :
    ∃ n < bc.view.size, bc.view.numberToHash n = some bc.headBlockHash := by
  obtain ⟨n, hn, -⟩ := h.headBlock
  exact ⟨n, lt_size hn, hn⟩

theorem canonicalChain_put_reset : CanonicalChain
    (stateAfter (IndexOp.run Sample.config Sample.passing (.resetCanonicalHead 0))
      (stateAfter (IndexOp.run Sample.config Sample.passing
        (.put (Sample.block (Sample.header 1 1 0 1)))) Sample.chain)) := by
  have hfree : DistinctHashes {Sample.genesis, Sample.header 1 1 0 1} := by
    rintro _ (rfl | rfl) _ (rfl | rfl) h
    · rfl
    · exact absurd h (by decide)
    · exact absurd h (by decide)
    · rfl
  refine IndexRun.canonicalChain hfree (.inl rfl) (.step (.step (.create 0) ?_) ?_)
  · refine ⟨rfl, rfl, .inr rfl, ?_, ?_⟩
    · intro haside
      exact absurd ⟨1, by decide, by decide⟩ haside
    · intro _ hbody
      cases hbody
  · refine ⟨rfl, rfl, ?_⟩
    intro hash n hhash _ _
    have hzero : some hash = some (Sample.hash 0) := hhash.symm.trans (by decide)
    rw [Option.some.inj hzero]
    decide

/-- A block below the head header takes the head block out of the index. -/
theorem not_canonicalChain_aside : ¬ CanonicalChain
    (stateAfter (IndexOp.run Sample.config Sample.passing
        (.put (Sample.block (Sample.header 2 1 0 5))))
      (stateAfter (IndexOp.run Sample.config Sample.passing
        (.put { Sample.block (Sample.header 1 1 0 10) with body := none })) Sample.chain)) := by
  intro h
  exact absurd h.headBlock_lt_size (by decide)

end EthereumJS
