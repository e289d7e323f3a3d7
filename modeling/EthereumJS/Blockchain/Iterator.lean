import EthereumJS.Blockchain.Persisted

/-! # The iterator

Over runs that put blocks and iterate: which blocks the callback of an iterator has got since
a reorg last made its head stale. They are the canonical blocks above the ancestor of that
reorg, unless a head stood above a new block that became the head of the chain.
-/

namespace EthereumJS

open Overlay BlockchainM

/-- The last block that the index has in two states. -/
structure LastCommon (bc bc' : Blockchain) (number : Nat) (hash : Hash) : Prop where
  old : bc.view.numberToHash number = some hash
  new : bc'.view.numberToHash number = some hash
  last : ∀ k hash, number < k → bc.view.numberToHash k = some hash →
    bc'.view.numberToHash k ≠ some hash

/-- The block of an iterator head is no longer in the index. -/
def Stale (bc' : Blockchain) (head : Option Hash) : Prop :=
  ∃ hash, head = some hash ∧ ∀ k, bc'.view.numberToHash k ≠ some hash

/-- The number from which an iterator counts, and what its callback has got since. A reorg that
makes the head stale lets it count from the last common block. -/
structure Renews (bc bc' : Blockchain) (head : Option Hash) (since since' : Nat × List Block) :
    Prop where
  stale : Stale bc' head → ∃ number hash, LastCommon bc bc' number hash ∧ since' = (number, [])
  kept : ¬ Stale bc' head → since' = since

/-- The condition on a block: no iterator head stands above it when it becomes the head of the
chain, unless it is in the index. -/
structure SafeBlock (headers : Set BlockHeader) (env : ChainEnv) (item : BlockItem)
    (bc : Blockchain) : Prop where
  batch : env.batch = .ok ()
  newBlock : env.newBlock = .ok ()
  header : item.header ∈ headers
  body : item.body.isSome
  heads : Takes item bc → ∀ name hash n, bc.heads name = some hash →
    bc.view.numberToHash n = some hash → item.header.number < n →
    bc.view.numberToHash item.header.number = some item.header.hash

/-- The states of the runs whose blocks all meet the condition, with what the callbacks got. -/
inductive IteratorRun (headers : Set BlockHeader) (cfg : ChainConfig) :
    Blockchain → (String → Nat × List Block) → Prop
  | create (hardfork : Nat) :
    IteratorRun headers cfg (Blockchain.create cfg hardfork) fun _ => (0, [])
  | put {bc : Blockchain} {since since' : String → Nat × List Block} {env : ChainEnv}
    {item : BlockItem} (hrun : IteratorRun headers cfg bc since)
    (hsafe : SafeBlock headers env item bc)
    (hsince : ∀ name, Renews bc (stateAfter (putBlockOrHeader cfg env item) bc) (bc.heads name)
      (since name) (since' name)) :
    IteratorRun headers cfg (stateAfter (putBlockOrHeader cfg env item) bc) since'
  | iterate {bc bc' : Blockchain} {since : String → Nat × List Block} {env : ChainEnv}
    {name : String} {maxBlocks : Option Nat} {blocks : List Block}
    (hrun : IteratorRun headers cfg bc since)
    (hiterate : iterator cfg env name maxBlocks bc = .ok blocks bc') :
    IteratorRun headers cfg bc'
      (Function.update since name ((since name).1, (since name).2 ++ blocks))

/-- The blocks above a number, the lowest first, are those of the index up to its end. -/
def Complete (bc : Blockchain) (number : Nat) (blocks : List Block) : Prop :=
  ∀ i, (blocks[i]?.map fun block => block.header.hash) = bc.view.numberToHash (number + 1 + i)

structure NeverSkips (headers : Set BlockHeader) (cfg : ChainConfig) (bc : Blockchain)
    (since : String → Nat × List Block) : Prop where
  /-- A head that a block makes stale goes to the last common block. -/
  reorg : ∀ env item, SafeBlock headers env item bc → ∀ name,
    Stale (stateAfter (putBlockOrHeader cfg env item) bc) (bc.heads name) →
    ∃ number hash, LastCommon bc (stateAfter (putBlockOrHeader cfg env item) bc) number hash ∧
      (stateAfter (putBlockOrHeader cfg env item) bc).heads name = some hash
  /-- Each head is the last block that its callback has got, or the last common block. -/
  heads : ∀ name, bc.view.numberToHash ((since name).1 + (since name).2.length) =
    some ((bc.heads name).getD cfg.genesisBlock.header.hash)
  /-- The callback has got canonical blocks in their order. -/
  blocks : ∀ name i block, (since name).2[i]? = some block →
    bc.view.numberToHash ((since name).1 + 1 + i) = some block.header.hash
  /-- A call that is not stopped by its limit completes them. -/
  complete : ∀ env name maxBlocks, env.batch = .ok () → ∃ blocks bc',
    iterator cfg env name maxBlocks bc = .ok blocks bc' ∧
      ((∀ n, maxBlocks = some n → blocks.length < n) →
        Complete bc' (since name).1 ((since name).2 ++ blocks))

/-- The invariant of a run. -/
structure InStep (headers : Set BlockHeader) (cfg : ChainConfig) (height : Nat) (bc : Blockchain)
    (since : String → Nat × List Block) : Prop where
  indexed : Indexed headers bc.view height
  body : ∀ n hash, (bc.view.header n hash).isSome → (bc.view.body n hash).isSome
  heads : ∀ name, bc.view.numberToHash ((since name).1 + (since name).2.length) =
    some ((bc.heads name).getD cfg.genesisBlock.header.hash)
  blocks : ∀ name i block, (since name).2[i]? = some block →
    bc.view.numberToHash ((since name).1 + 1 + i) = some block.header.hash
  genesis : bc.view.numberToHash 0 = some cfg.genesisBlock.header.hash

variable {headers : Set BlockHeader} {cfg : ChainConfig} {env : ChainEnv} {bc bc' : Blockchain}
  {height : Nat} {item : BlockItem} {since since' : String → Nat × List Block}

section Put

variable {path : List BlockHeader} {ancestor : BlockHeader} {db : ChainDB} {ops : List DBOp}

theorem lastCommon_takeOver (hdb : Indexed headers bc.view height)
    (hnumber : item.header.number ≠ 0) (hput : TookOver item path ancestor bc bc') :
    LastCommon bc bc' ancestor.number ancestor.hash := by
  have hancestor := hput.rebuilds.ancestor_index hdb hnumber
  refine ⟨hancestor, ?_, ?_⟩
  · rw [hput.view, takeOver_le hput.rebuilds le_rfl]
    exact hancestor
  · intro k hash hlt hold hnew
    rw [hput.view] at hnew
    rcases takeOver_cases hdb hput.rebuilds hnew with ⟨hle, -⟩ | ⟨header, hmem, rfl, rfl⟩
    · omega
    · exact hput.rebuilds.stale rfl hmem hold

theorem LastCommon.unique {n m : Nat} {hash hash' : Hash} (hn : LastCommon bc bc' n hash)
    (hm : LastCommon bc bc' m hash') : n = m := by
  rcases Nat.lt_trichotomy n m with hlt | heq | hgt
  · exact absurd hm.new (hn.last m hash' hlt hm.old)
  · exact heq
  · exact absurd hn.new (hm.last n hash hgt hn.old)

/-- A head above the ancestor is stale after a takeover. -/
theorem stale_takeOver (hfree : DistinctHashes headers) (hdb : Indexed headers bc.view height)
    (hitem : item.header ∈ headers) (hput : TookOver item path ancestor bc bc') {n : Nat}
    {hash : Hash} (hn : bc.view.numberToHash n = some hash) (hlt : ancestor.number < n) (k : Nat) :
    bc'.view.numberToHash k ≠ some hash := by
  intro hk
  rw [hput.view] at hk
  rcases takeOver_cases hdb hput.rebuilds hk with ⟨hle, hold⟩ | ⟨header, hmem, rfl, rfl⟩
  · have := hdb.number_eq hn hold
    omega
  · obtain ⟨stored, hstored⟩ := Option.isSome_iff_exists.mp (hdb.canonical _ _ hn)
    have heq : stored = header := hfree _ (hdb.stored _ _ _ hstored).1 _
      (hput.rebuilds.mem_headers hdb hitem (.inl hmem)) (bc.view.header_key _ _ _ hstored).2
    have hnum := (bc.view.header_key _ _ _ hstored).1
    rw [heq] at hnum
    rw [← hnum] at hn
    exact hput.rebuilds.stale rfl hmem hn

/-- The blocks of a callback stay in the index as long as the head does. -/
theorem InStep.blocks_le (h : InStep headers cfg height bc since) {name : String} {n : Nat}
    (hle : (since name).1 + (since name).2.length ≤ n)
    (hsame : ∀ k ≤ n, bc'.view.numberToHash k = bc.view.numberToHash k) (i : Nat) (block : Block)
    (hblock : (since name).2[i]? = some block) :
    bc'.view.numberToHash ((since name).1 + 1 + i) = some block.header.hash := by
  have hlt := (List.getElem?_eq_some_iff.mp hblock).1
  rw [hsame _ (by omega)]
  exact h.blocks name i block hblock

/-- What a callback has got does not change where the index keeps the head. -/
theorem InStep.kept (h : InStep headers cfg height bc since) {name : String} {n : Nat}
    (hle : (since name).1 + (since name).2.length ≤ n)
    (hsame : ∀ k ≤ n, bc'.view.numberToHash k = bc.view.numberToHash k)
    (hhead : bc'.heads name = bc.heads name)
    (hsince : Renews bc bc' (bc.heads name) (since name) (since' name)) :
    since' name = since name ∧
      bc'.view.numberToHash ((since name).1 + (since name).2.length) =
        some ((bc'.heads name).getD cfg.genesisBlock.header.hash) := by
  have hcanonical : bc'.view.numberToHash ((since name).1 + (since name).2.length) =
      some ((bc.heads name).getD cfg.genesisBlock.header.hash) := by
    rw [hsame _ hle]
    exact h.heads name
  refine ⟨hsince.kept ?_, by rw [hhead]; exact hcanonical⟩
  rintro ⟨hash, hhash, hnone⟩
  rw [hhash] at hcanonical
  exact hnone _ hcanonical

theorem isSome_body_item (hwrites : ItemWrites db item ops) (hbody : item.body.isSome)
    (h : ∀ n hash, (db.header n hash).isSome → (db.body n hash).isSome)
    (n : Nat) (hash : Hash) (hheader : ((db.batch ops).header n hash).isSome) :
    ((db.batch ops).body n hash).isSome := by
  rw [hwrites.batch_body]
  obtain ⟨header, hheader⟩ := Option.isSome_iff_exists.mp hheader
  rcases hwrites.header_cases hheader with ⟨-, rfl, rfl⟩ | hold
  · exact isSome_setBody_item hbody
  · apply isSome_setBody
    apply h
    rw [hold]
    rfl

/-- A head stays up to the ancestor and goes to it from above. -/
theorem InStep.head_tookOver (hfree : DistinctHashes headers)
    (h : InStep headers cfg height bc since) (hsafe : SafeBlock headers env item bc)
    (hput : TookOver item path ancestor bc bc') (name : String) :
    ((since name).1 + (since name).2.length ≤ ancestor.number ∧ bc'.heads name = bc.heads name) ∨
      (ancestor.number < (since name).1 + (since name).2.length ∧
        (∃ hash, bc.heads name = some hash ∧
          bc.view.numberToHash ((since name).1 + (since name).2.length) = some hash) ∧
        bc'.heads name = some ancestor.hash) := by
  have hdb := h.indexed
  have hpath := hput.rebuilds
  have hancestor := hpath.ancestor_le rfl
  have hcanonical := h.heads name
  cases hhead : bc.heads name with
  | none =>
    rw [hhead] at hcanonical
    left
    refine ⟨?_, by simp only [hput.heads, hhead, Option.map_none]⟩
    rw [hdb.number_eq hcanonical h.genesis]
    exact Nat.zero_le _
  | some hash =>
    rw [hhead] at hcanonical
    have hmoved := newHead_index hfree hdb hsafe.header hpath hcanonical
    have hheads : bc'.heads name = some (newHead bc.view item path ancestor hash) := by
      simp only [hput.heads, hhead, Option.map_some]
    rcases Nat.lt_or_ge ancestor.number ((since name).1 + (since name).2.length) with hlt | hge
    · refine .inr ⟨hlt, ⟨hash, rfl, hcanonical⟩, ?_⟩
      rw [hheads]
      refine congrArg some (hmoved.trans ?_)
      rw [if_pos hlt]
      split
      · rename_i habove
        have hin := hsafe.heads hput.takes name hash _ hhead hcanonical habove
        rcases hpath.eq_nil_or_head with ⟨-, hancestorEq⟩ | ⟨-, hstale⟩
        · rw [hancestorEq]
        · exact absurd hin hstale
      · rfl
    · refine .inl ⟨hge, ?_⟩
      rw [hheads]
      refine congrArg some (hmoved.trans ?_)
      rw [if_neg (by omega), if_neg (by omega)]
      rfl

theorem InStep.tookOver (hfree : DistinctHashes headers) (h : InStep headers cfg height bc since)
    (hsafe : SafeBlock headers env item bc) (hnumber : item.header.number ≠ 0)
    (hput : TookOver item path ancestor bc bc')
    (hsince : ∀ name, Renews bc bc' (bc.heads name) (since name) (since' name)) :
    InStep headers cfg item.header.number bc' since' := by
  have hdb := h.indexed
  have hpath := hput.rebuilds
  have hcommon := lastCommon_takeOver hdb hnumber hput
  have hsame : ∀ k ≤ ancestor.number, bc'.view.numberToHash k = bc.view.numberToHash k := by
    intro k hk
    rw [hput.view]
    exact takeOver_le hpath hk
  -- each head stays, with its blocks, or goes to the ancestor
  have hname : ∀ name, (since' name = since name ∧
        (since name).1 + (since name).2.length ≤ ancestor.number ∧
        bc'.view.numberToHash ((since name).1 + (since name).2.length) =
          some ((bc'.heads name).getD cfg.genesisBlock.header.hash)) ∨
      (since' name = (ancestor.number, []) ∧ bc'.heads name = some ancestor.hash) := by
    intro name
    rcases h.head_tookOver hfree hsafe hput name with ⟨hle, hheads⟩ | ⟨hlt, ⟨hash, hhead, hn⟩, hheads⟩
    · obtain ⟨heq, hcanonical⟩ := h.kept hle hsame hheads (hsince name)
      exact .inl ⟨heq, hle, hcanonical⟩
    · obtain ⟨number, hash', hcommon', heq⟩ := (hsince name).stale
        ⟨hash, hhead, stale_takeOver hfree hdb hsafe.header hput hn hlt⟩
      refine .inr ⟨?_, hheads⟩
      rw [heq, hcommon'.unique hcommon]
  constructor
  · rw [hput.view]
    exact hdb.takeOver hfree hsafe.header hnumber hpath
  · rw [hput.view]
    exact isSome_body_item (canonicalOps_itemWrites bc.view item path) hsafe.body h.body
  · intro name
    rcases hname name with ⟨heq, -, hcanonical⟩ | ⟨heq, hhead⟩
    · rw [heq]
      exact hcanonical
    · rw [heq, hhead]
      exact hcommon.new
  · intro name i block hblock
    rcases hname name with ⟨heq, hle, -⟩ | ⟨heq, -⟩
    · rw [heq] at hblock ⊢
      exact h.blocks_le hle hsame i block hblock
    · rw [heq] at hblock
      cases hblock
  · rw [hsame 0 (Nat.zero_le _)]
    exact h.genesis

/-- Where the index and the heads stay, nothing changes. -/
theorem InStep.unmoved (h : InStep headers cfg height bc since)
    (hdb : Indexed headers bc'.view height)
    (hbody : ∀ n hash, (bc'.view.header n hash).isSome → (bc'.view.body n hash).isSome)
    (hsame : ∀ k, bc'.view.numberToHash k = bc.view.numberToHash k)
    (hheads : bc'.heads = bc.heads)
    (hsince : ∀ name, Renews bc bc' (bc.heads name) (since name) (since' name)) :
    InStep headers cfg height bc' since' := by
  have hname : ∀ name, since' name = since name ∧
      bc'.view.numberToHash ((since name).1 + (since name).2.length) =
        some ((bc'.heads name).getD cfg.genesisBlock.header.hash) := fun name =>
    h.kept le_rfl (fun k _ => hsame k) (congrFun hheads name) (hsince name)
  refine ⟨hdb, hbody, ?_, ?_, ?_⟩
  · intro name
    rw [(hname name).1]
    exact (hname name).2
  · intro name i block hblock
    rw [(hname name).1] at hblock ⊢
    exact h.blocks_le le_rfl (fun k _ => hsame k) i block hblock
  · rw [hsame]
    exact h.genesis

theorem InStep.put (hfree : DistinctHashes headers) (h : InStep headers cfg height bc since)
    (hsafe : SafeBlock headers env item bc)
    (hsince : ∀ name, Renews bc (stateAfter (putBlockOrHeader cfg env item) bc) (bc.heads name)
      (since name) (since' name)) :
    ∃ height, InStep headers cfg height (stateAfter (putBlockOrHeader cfg env item) bc) since' := by
  have hunwritten : ∀ bc', Unwritten bc bc' →
      (∀ name, Renews bc bc' (bc.heads name) (since name) (since' name)) →
      InStep headers cfg height bc' since' := by
    intro bc' hsame hsince
    refine h.unmoved ?_ ?_ ?_ hsame.heads hsince
    · rw [hsame.view]
      exact h.indexed
    · rw [hsame.view]
      exact h.body
    · intro k
      rw [hsame.view]
  rcases putBlockOrHeader_cases cfg item bc hsafe.batch hsafe.newBlock with
    ⟨e, bc', hput, hsame⟩ | ⟨bc', hput, hsame | ⟨hnumber, ⟨path, ancestor, hput'⟩ |
      ⟨currentTdBlock, hput'⟩⟩⟩
  · rw [stateAfter_error hput] at hsince ⊢
    exact ⟨height, hunwritten bc' hsame hsince⟩
  · rw [stateAfter_ok hput] at hsince ⊢
    exact ⟨height, hunwritten bc' hsame hsince⟩
  · rw [stateAfter_ok hput] at hsince ⊢
    exact ⟨_, h.tookOver hfree hsafe hnumber hput' hsince⟩
  · rw [stateAfter_ok hput] at hsince ⊢
    refine ⟨height, h.unmoved ?_ ?_ ?_ hput'.heads hsince⟩
    · rw [hput'.view]
      exact h.indexed.putAside hfree hsafe.header hnumber
    · rw [hput'.view]
      exact isSome_body_item (asideOps_itemWrites bc.view item) hsafe.body h.body
    · intro k
      rw [hput'.view]
      exact aside_numberToHash k

/-- A head in an index that stays is not stale. -/
theorem InStep.not_stale (h : InStep headers cfg height bc since) {name : String}
    (hsame : bc'.view.numberToHash ((since name).1 + (since name).2.length) =
      bc.view.numberToHash ((since name).1 + (since name).2.length)) :
    ¬ Stale bc' (bc.heads name) := by
  rintro ⟨hash, hhead, hnone⟩
  apply hnone ((since name).1 + (since name).2.length)
  rw [hsame, h.heads name, hhead]
  rfl

theorem InStep.reorg (hfree : DistinctHashes headers) (h : InStep headers cfg height bc since)
    (hsafe : SafeBlock headers env item bc) {name : String}
    (hstale : Stale (stateAfter (putBlockOrHeader cfg env item) bc) (bc.heads name)) :
    ∃ number hash, LastCommon bc (stateAfter (putBlockOrHeader cfg env item) bc) number hash ∧
      (stateAfter (putBlockOrHeader cfg env item) bc).heads name = some hash := by
  rcases putBlockOrHeader_cases cfg item bc hsafe.batch hsafe.newBlock with
    ⟨e, bc', hput, hsame⟩ | ⟨bc', hput, hsame | ⟨hnumber, ⟨path, ancestor, hput'⟩ |
      ⟨currentTdBlock, hput'⟩⟩⟩
  · rw [stateAfter_error hput] at hstale
    exact absurd hstale (h.not_stale (by rw [hsame.view]))
  · rw [stateAfter_ok hput] at hstale
    exact absurd hstale (h.not_stale (by rw [hsame.view]))
  · rw [stateAfter_ok hput] at hstale ⊢
    refine ⟨_, _, lastCommon_takeOver h.indexed hnumber hput', ?_⟩
    rcases h.head_tookOver hfree hsafe hput' name with ⟨hle, -⟩ | ⟨-, -, hheads⟩
    · refine absurd hstale (h.not_stale ?_)
      rw [hput'.view]
      exact takeOver_le hput'.rebuilds hle
    · exact hheads
  · rw [stateAfter_ok hput] at hstale
    refine absurd hstale (h.not_stale ?_)
    rw [hput'.view]
    exact aside_numberToHash _

end Put

section Iterate

variable {name : String} {n : Nat}

theorem getBlock_canonical {db : ChainDB} (hdb : Indexed headers db height)
    (hbody : ∀ n hash, (db.header n hash).isSome → (db.body n hash).isSome) {hash : Hash}
    (hn : db.numberToHash n = some hash) :
    ∃ block, db.getBlock n = .ok block ∧ block.header.hash = hash ∧
      db.header n hash = some block.header := by
  obtain ⟨header, hheader⟩ := Option.isSome_iff_exists.mp (hdb.canonical n hash hn)
  obtain ⟨body, hbody⟩ := Option.isSome_iff_exists.mp (hbody n hash (by
    rw [hheader]
    rfl))
  refine ⟨⟨header, body⟩, ?_, (db.header_key _ _ _ hheader).2, hheader⟩
  unfold ChainDB.getBlock
  rw [hn]
  simp only [ChainDB.getBlockAt, ChainDB.getHeader, hheader, hbody, bind, Except.bind]

/-- Where the last block is the one below, the next one is the canonical block. -/
theorem nextInLine_canonical (cfg : ChainConfig) (name : String) (hdb : Indexed headers bc.view height)
    (hbody : ∀ n hash, (bc.view.header n hash).isSome → (bc.view.body n hash).isSome)
    {lastBlock : Option Block} (hlast : ∀ block, lastBlock = some block →
      bc.view.numberToHash n = some block.header.hash) {hash : Hash}
    (hn : bc.view.numberToHash (n + 1) = some hash) :
    ∃ block, nextInLine cfg name lastBlock (n + 1) bc = .ok (n + 1, block) ∧
      block.header.hash = hash := by
  obtain ⟨block, hget, hhash, hheader⟩ := getBlock_canonical hdb hbody hn
  refine ⟨block, ?_, hhash⟩
  have hreorg : (lastBlock.any fun last => last.header.hash ≠ block.header.parentHash) = false := by
    cases lastBlock with
    | none => rfl
    | some last =>
      have hlink := hdb.link n hash _ hn hheader
      rw [hlast last rfl] at hlink
      simp [Option.some.inj hlink]
  unfold nextInLine
  simp only [hget, bind, Except.bind, hreorg, Bool.false_eq_true, if_false]

theorem nextInLine_end (hn : bc.view.numberToHash n = none) (lastBlock : Option Block) :
    nextInLine cfg name lastBlock n bc = .error .notFoundInDB := by
  unfold nextInLine ChainDB.getBlock
  rw [hn]
  rfl

/-- What the loop of the iterator has done: new blocks for its callback, the last of which is its
head. -/
structure Iterated (height : Nat) (name : String) (n : Nat) (remaining : Option Nat)
    (bc : Blockchain) (new : List Block) (heads : Heads) : Prop where
  blocks : ∀ i block, new[i]? = some block →
    bc.view.numberToHash (n + 1 + i) = some block.header.hash
  other : ∀ tag, tag ≠ name → heads tag = bc.heads tag
  head : heads name = (new.getLast?.map fun block => block.header.hash).or (bc.heads name)
  complete : (∀ r, remaining = some r → new.length < r) → height ≤ n + new.length

theorem Iterated.stopped {remaining : Option Nat} (h : height ≤ n ∨ remaining = some 0) :
    Iterated height name n remaining bc [] bc.heads := by
  constructor
  · intro i block hblock
    cases hblock
  · exact fun _ _ => rfl
  · rfl
  · intro hlimit
    rcases h with hle | hzero
    · exact hle
    · exact absurd (hlimit 0 hzero) (Nat.lt_irrefl 0)

theorem Iterated.cons {remaining : Option Nat} {block : Block} {new : List Block} {heads : Heads}
    (hblock : bc.view.numberToHash (n + 1) = some block.header.hash) (hremaining : remaining ≠ some 0)
    (h : Iterated height name (n + 1) (remaining.map (· - 1))
      { bc with heads := Function.update bc.heads name (some block.header.hash) } new heads) :
    Iterated height name n remaining bc (block :: new) heads := by
  constructor
  · rintro (_ | i) block' hget
    · obtain rfl := Option.some.inj hget
      exact hblock
    · have hnew := h.blocks i block' hget
      rw [← hnew]
      congr 1
      omega
  · intro tag htag
    rw [h.other tag htag]
    exact Function.update_of_ne htag _ _
  · rw [h.head, List.getLast?_cons]
    dsimp only
    rw [Function.update_self]
    cases new.getLast? <;> rfl
  · intro hlimit
    have hle := h.complete (by
      intro r hr
      cases remaining with
      | none => cases hr
      | some k =>
        have hk := hlimit k rfl
        obtain rfl := Option.some.inj hr
        rw [List.length_cons] at hk
        dsimp only
        omega)
    rw [List.length_cons]
    omega

/-- The loop goes up the index to its end or to its limit. -/
theorem iteratorLoop_spec (cfg : ChainConfig) (name : String) (fuel n : Nat)
    (remaining : Option Nat) (lastBlock : Option Block)
    (blocks : List Block) (bc : Blockchain) (hdb : Indexed headers bc.view height)
    (hbody : ∀ n hash, (bc.view.header n hash).isSome → (bc.view.body n hash).isSome)
    (hlast : ∀ block, lastBlock = some block → bc.view.numberToHash n = some block.header.hash)
    (hfuel : height ≤ n + fuel) :
    ∃ new heads, iteratorLoop cfg name fuel remaining lastBlock (n + 1) blocks bc =
        .ok (blocks ++ new) { bc with heads := heads } ∧
      Iterated height name n remaining bc new heads := by
  induction fuel generalizing n remaining lastBlock blocks bc with
  | zero =>
    refine ⟨[], bc.heads, ?_, .stopped (.inl (by omega))⟩
    rw [List.append_nil]
    rfl
  | succ fuel ih =>
    unfold iteratorLoop
    split
    · rename_i hzero
      refine ⟨[], bc.heads, ?_, .stopped (.inr hzero)⟩
      rw [List.append_nil]
      rfl
    · rename_i hremaining
      rw [get_bind]
      cases hentry : bc.view.numberToHash (n + 1) with
      | none =>
        have hle : height ≤ n := by
          rcases Nat.lt_or_ge n height with hlt | hge
          · have hsome := (hdb.index (n + 1)).mpr hlt
            rw [hentry] at hsome
            cases hsome
          · exact hge
        rw [nextInLine_end hentry]
        refine ⟨[], bc.heads, ?_, .stopped (.inl hle)⟩
        rw [List.append_nil]
        rfl
      | some hash =>
        obtain ⟨block, hnext, rfl⟩ := nextInLine_canonical cfg name hdb hbody hlast hentry
        rw [hnext]
        simp only [modify_bind]
        obtain ⟨new, heads, hloop, hiterated⟩ := ih (n + 1) (remaining.map (· - 1)) (some block)
          (blocks ++ [block])
          { bc with heads := Function.update bc.heads name (some block.header.hash) } hdb hbody
          (by
            rintro _ ⟨⟩
            exact hentry) (by omega)
        refine ⟨block :: new, heads, ?_, hiterated.cons hentry hremaining⟩
        rw [hloop, List.append_assoc]
        rfl

/-- The iterator with its answers from the database. -/
theorem InStep.iterator (h : InStep headers cfg height bc since) (name : String)
    (maxBlocks : Option Nat) :
    ∃ new heads, iteratorHeadNumber cfg name bc =
        .ok ((since name).1 + (since name).2.length) ∧
      iteratorLoop cfg name (bc.view.size - ((since name).1 + (since name).2.length)) maxBlocks none
        ((since name).1 + (since name).2.length + 1) [] bc = .ok new { bc with heads := heads } ∧
      Iterated height name ((since name).1 + (since name).2.length) maxBlocks bc new heads := by
  have hcanonical := h.heads name
  obtain ⟨header, hheader⟩ := Option.isSome_iff_exists.mp (h.indexed.canonical _ _ hcanonical)
  have hsize := lt_size hcanonical
  obtain ⟨top, htop⟩ := h.indexed.some_of_le le_rfl
  have hheight := lt_size htop
  obtain ⟨new, heads, hloop, hiterated⟩ := iteratorLoop_spec cfg name
    (bc.view.size - ((since name).1 + (since name).2.length))
    ((since name).1 + (since name).2.length) maxBlocks none [] bc h.indexed h.body
    (fun _ hnone => by cases hnone) (by omega)
  refine ⟨new, heads, ?_, hloop, hiterated⟩
  unfold iteratorHeadNumber ChainDB.getHashToNumber
  rw [(h.indexed.stored _ _ _ hheader).2]

theorem InStep.iterated (h : InStep headers cfg height bc since) {maxBlocks : Option Nat}
    {new : List Block} {heads : Heads} (hview : bc'.view = bc.view) (hheads : bc'.heads = heads)
    (hiterated : Iterated height name ((since name).1 + (since name).2.length) maxBlocks bc new
      heads) :
    InStep headers cfg height bc'
      (Function.update since name ((since name).1, (since name).2 ++ new)) := by
  constructor
  · rw [hview]
    exact h.indexed
  · rw [hview]
    exact h.body
  · intro tag
    rw [hview, hheads]
    rcases Classical.em (tag = name) with rfl | hne
    · rw [Function.update_self, hiterated.head, List.length_append]
      cases hlast : new.getLast? with
      | none =>
        rw [List.getLast?_eq_none_iff.mp hlast]
        exact h.heads tag
      | some block =>
        have hget := hiterated.blocks (new.length - 1) block (by
          rw [← hlast, List.getLast?_eq_getElem?])
        have hpos : new ≠ [] := by
          rintro rfl
          cases hlast
        have hlength := List.length_pos_iff.mpr hpos
        dsimp only at hget ⊢
        rw [← (by omega : (since tag).1 + (since tag).2.length + 1 + (new.length - 1) =
          (since tag).1 + ((since tag).2.length + new.length)), hget]
        rfl
    · rw [Function.update_of_ne hne, hiterated.other tag hne]
      exact h.heads tag
  · intro tag i block hblock
    rw [hview]
    rcases Classical.em (tag = name) with rfl | hne
    · rw [Function.update_self] at hblock ⊢
      dsimp only at hblock ⊢
      rcases Nat.lt_or_ge i (since tag).2.length with hlt | hge
      · rw [List.getElem?_append_left hlt] at hblock
        exact h.blocks tag i block hblock
      · rw [List.getElem?_append_right hge] at hblock
        rw [← hiterated.blocks _ block hblock]
        congr 1
        omega
    · rw [Function.update_of_ne hne] at hblock ⊢
      exact h.blocks tag i block hblock
  · rw [hview]
    exact h.genesis

theorem InStep.complete (h : InStep headers cfg height bc since) (name : String)
    (hend : height ≤ (since name).1 + (since name).2.length) :
    Complete bc (since name).1 (since name).2 := by
  intro i
  rcases Nat.lt_or_ge i (since name).2.length with hlt | hge
  · have hget := List.getElem?_eq_getElem hlt
    rw [hget]
    exact (h.blocks name i _ hget).symm
  · rw [List.getElem?_eq_none hge, h.indexed.none_of_lt (by omega)]
    rfl

theorem InStep.toNeverSkips (hfree : DistinctHashes headers)
    (h : InStep headers cfg height bc since) : NeverSkips headers cfg bc since := by
  refine ⟨fun _ _ hsafe name hstale => h.reorg hfree hsafe hstale, h.heads, h.blocks, ?_⟩
  intro env name maxBlocks hbatch
  obtain ⟨new, heads, hnumber, hloop, hiterated⟩ := h.iterator name maxBlocks
  refine ⟨new, { bc with heads := heads, saved := Blockchain.toSave { bc with heads := heads } },
    ?_, ?_⟩
  · unfold BlockchainM.iterator
    rw [get_bind, bind_of_ok (liftExcept_of_ok hnumber bc)]
    unfold withFinally
    rw [hloop]
    dsimp only
    rw [bind_of_ok (batchWithHeads_of_ok hbatch _ _)]
    rfl
  · intro hlimit
    have hle := hiterated.complete hlimit
    have hnext : InStep headers cfg height
        { bc with heads := heads, saved := Blockchain.toSave { bc with heads := heads } }
        (Function.update since name ((since name).1, (since name).2 ++ new)) :=
      h.iterated rfl rfl hiterated
    have hcomplete := hnext.complete name
    rw [Function.update_self] at hcomplete
    apply hcomplete
    rw [List.length_append]
    omega

end Iterate

theorem create_body (cfg : ChainConfig) (hardfork n : Nat) (hash : Hash) :
    (Blockchain.create cfg hardfork).view.body n hash =
      if (0, cfg.genesisBlock.header.hash) = (n, hash) then some cfg.genesisBlock.body
      else none :=
  ChainDB.set_apply _ _ _ _ _ _

theorem inStep_create (hgenesis : cfg.genesisBlock.header ∈ headers) (hardfork : Nat) :
    InStep headers cfg 0 (Blockchain.create cfg hardfork) fun _ => (0, []) := by
  have hzero : (Blockchain.create cfg hardfork).view.numberToHash 0 =
      some cfg.genesisBlock.header.hash := by
    rw [create_numberToHash, if_pos rfl]
  constructor
  · exact (onIndex_create cfg hardfork hgenesis).indexed
  · intro n hash hheader
    rw [create_header] at hheader
    rw [create_body]
    split at hheader
    · rename_i hkey
      rw [if_pos hkey]
      rfl
    · cases hheader
  · exact fun _ => hzero
  · intro name i block hblock
    cases hblock
  · exact hzero

/-- Over headers without collisions, in every state of a run whose blocks meet the condition no
iterator skips a canonical block. -/
theorem IteratorRun.neverSkips (hfree : DistinctHashes headers)
    (hgenesis : cfg.genesisBlock.header ∈ headers) (hrun : IteratorRun headers cfg bc since) :
    NeverSkips headers cfg bc since := by
  have hstep : ∃ height, InStep headers cfg height bc since := by
    induction hrun with
    | create hardfork => exact ⟨0, inStep_create hgenesis hardfork⟩
    | put hrun hsafe hsince ih =>
      obtain ⟨height, h⟩ := ih
      exact h.put hfree hsafe hsince
    | @iterate bc bc' since env name maxBlocks blocks hrun hiterate ih =>
      obtain ⟨height, h⟩ := ih
      obtain ⟨new, heads, hnumber, hloop, hiterated⟩ := h.iterator name maxBlocks
      obtain ⟨number, mid, hnumber', hloop', rfl⟩ := iterator_ok hiterate
      rw [hnumber] at hnumber'
      obtain rfl := Except.ok.inj hnumber'
      rw [hloop] at hloop'
      cases hloop'
      exact ⟨height, h.iterated rfl rfl hiterated⟩
  obtain ⟨height, h⟩ := hstep
  exact h.toNeverSkips hfree

theorem neverSkips_put_iterate : ∃ iterated,
    iterator Sample.config Sample.passing "vm" none
        (stateAfter (putBlockOrHeader Sample.config Sample.passing
          (Sample.block (Sample.header 1 1 0 1))) Sample.chain) =
      .ok [⟨Sample.header 1 1 0 1, [[], []]⟩] iterated ∧
    NeverSkips {Sample.genesis, Sample.header 1 1 0 1} Sample.config iterated
      (Function.update (fun _ => (0, [])) "vm" (0, [] ++ [⟨Sample.header 1 1 0 1, [[], []]⟩])) := by
  have hfree : DistinctHashes {Sample.genesis, Sample.header 1 1 0 1} := by
    rintro _ (rfl | rfl) _ (rfl | rfl) h
    · rfl
    · exact absurd h (by decide)
    · exact absurd h (by decide)
    · rfl
  have hsafe : SafeBlock {Sample.genesis, Sample.header 1 1 0 1} Sample.passing
      (Sample.block (Sample.header 1 1 0 1)) Sample.chain := by
    refine ⟨rfl, rfl, .inr rfl, rfl, ?_⟩
    intro _ name hash n hname
    cases hname
  have hrenews : ∀ name : String, Renews Sample.chain
      (stateAfter (putBlockOrHeader Sample.config Sample.passing
        (Sample.block (Sample.header 1 1 0 1))) Sample.chain) (Sample.chain.heads name) (0, [])
      (0, []) := by
    intro name
    refine ⟨?_, fun _ => rfl⟩
    rintro ⟨hash, hname, -⟩
    cases hname
  have hput : IteratorRun {Sample.genesis, Sample.header 1 1 0 1} Sample.config
      (stateAfter (putBlockOrHeader Sample.config Sample.passing
        (Sample.block (Sample.header 1 1 0 1))) Sample.chain) fun _ => (0, []) :=
    .put (.create 0) hsafe hrenews
  have hneverSkips : ∀ iterated,
      iterator Sample.config Sample.passing "vm" none
          (stateAfter (putBlockOrHeader Sample.config Sample.passing
            (Sample.block (Sample.header 1 1 0 1))) Sample.chain) =
        .ok [⟨Sample.header 1 1 0 1, [[], []]⟩] iterated →
      NeverSkips {Sample.genesis, Sample.header 1 1 0 1} Sample.config iterated
        (Function.update (fun _ => (0, [])) "vm"
          (0, [] ++ [⟨Sample.header 1 1 0 1, [[], []]⟩])) :=
    fun _ hiterate => IteratorRun.neverSkips hfree (.inl rfl) (.iterate hput hiterate)
  exact ⟨_, rfl, hneverSkips _ rfl⟩

theorem numberToHash_ne {db : ChainDB} {hash : Hash}
    (h : ∀ k < db.size, db.numberToHash k ≠ some hash) (k : Nat) : db.numberToHash k ≠ some hash :=
  fun hk => h k (lt_size hk) hk

/-- A heavier chain that is shorter: the head goes to its block, which no callback gets. -/
theorem not_neverSkips_shorter : ∃ before after later,
    iterator Sample.config Sample.passing "vm" none
        (stateAfter (putBlockOrHeader Sample.config Sample.passing
            (Sample.block (Sample.header 2 2 1 1)))
          (stateAfter (putBlockOrHeader Sample.config Sample.passing
            (Sample.block (Sample.header 1 1 0 1))) Sample.chain)) =
      .ok [⟨Sample.header 1 1 0 1, [[], []]⟩, ⟨Sample.header 2 2 1 1, [[], []]⟩] before ∧
    putBlockOrHeader Sample.config Sample.passing (Sample.block (Sample.header 3 1 0 10)) before =
      .ok () after ∧
    iterator Sample.config Sample.passing "vm" none after = .ok [] later ∧
    Stale after (before.heads "vm") ∧
    ∀ n hash, LastCommon before after n hash → after.heads "vm" ≠ some hash := by
  refine ⟨_, _, _, rfl, rfl, rfl, ⟨Sample.hash 2, rfl, ?_⟩, ?_⟩
  · exact numberToHash_ne (by decide)
  · intro n hash hcommon hhead
    have hash_eq : some hash = some (Sample.hash 3) := hhead.symm.trans rfl
    have hold := hcommon.old
    rw [hash_eq] at hold
    exact numberToHash_ne (by decide) n hold

end EthereumJS
