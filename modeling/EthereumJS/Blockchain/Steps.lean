import EthereumJS.Blockchain.Blockchain
import EthereumJS.Overlay.Frame

/-! # What the operations of the blockchain do

One lemma for each helper and outcome: what it returns and which fields it changes. The
operations are taken apart once; the properties of runs use these lemmas alone.
-/

namespace EthereumJS

/-- The entries of the canonical index from a number on. -/
def ChainDB.entries (db : ChainDB) : Nat → Nat → List (Nat × Hash)
  | 0, _ => []
  | fuel + 1, number =>
    match db.numberToHash number with
    | none => []
    | some hash => (number, hash) :: entries db fuel (number + 1)

/-- What deleting entries of the index makes of a head. -/
def moveHead (headHash : Hash) : List (Nat × Hash) → Hash → Hash
  | [], head => head
  | e :: entries, head => moveHead headHash entries (if head = e.2 then headHash else head)

/-- The block at a number, if there is a listener. -/
def recordedBlock (cfg : ChainConfig) (db : ChainDB) (number : Nat) :
    Except BlockchainError (List Block) :=
  if cfg.listening then (db.getBlock number).map fun block => [block] else .ok []

def recordedBlocks (cfg : ChainConfig) (db : ChainDB) :
    List (Nat × Hash) → Except BlockchainError (List Block)
  | [] => .ok []
  | e :: entries => do
    let first ← recordedBlock cfg db e.1
    let rest ← recordedBlocks cfg db entries
    .ok (first ++ rest)

/-- The hardfork after a header has become the head, and what the transition answers. -/
def transitioned (cfg : ChainConfig) (env : ChainEnv) (header : BlockHeader) (hardfork : Nat) :
    Except BlockchainError Unit × Nat :=
  if cfg.hardforkByHeadBlockNumber then
    match env.setHardforkBy header.number header.timestamp with
    | .error e => (.error e, hardfork)
    | .ok hardfork => (env.consensusSetup, hardfork)
  else (.ok (), hardfork)

/-- What rebuilding makes of a head. -/
def renewHead (staleHashes : List Hash) (canonicalHash head : Hash) : Hash :=
  if head ∈ staleHashes then canonicalHash else head

namespace BlockchainM

open Overlay

section Errors

variable {α : Type} {x : BlockchainM α} {bc mid : Blockchain}

theorem liftExcept_of_ok {y : Except BlockchainError α} {a : α} (h : y = .ok a) (bc : Blockchain) :
    liftExcept y bc = .ok a bc := by
  rw [h]
  rfl

theorem liftExcept_of_error {y : Except BlockchainError α} {e : BlockchainError}
    (h : y = .error e) (bc : Blockchain) : liftExcept y bc = .error e bc := by
  rw [h]
  rfl

theorem onError_of_ok {restore : Blockchain → Blockchain} {a : α} (h : x bc = .ok a mid) :
    onError x restore bc = .ok a mid := by
  unfold onError
  rw [h]

theorem onError_of_error {restore : Blockchain → Blockchain} {e : BlockchainError}
    (h : x bc = .error e mid) : onError x restore bc = .error e (restore mid) := by
  unfold onError
  rw [h]

end Errors

variable {cfg : ChainConfig} {env : ChainEnv} {bc : Blockchain}

section Delete

variable {number : Nat} {e : BlockchainError} {blocks : List Block} {headHash : Hash}
  {ops : List DBOp}

theorem recordDeleted_of_ok (h : recordedBlock cfg bc.view number = .ok blocks) :
    recordDeleted cfg number bc = .ok () { bc with deletedBlocks := bc.deletedBlocks ++ blocks } := by
  unfold recordedBlock at h
  unfold recordDeleted
  split at h
  · rename_i hlistening
    rw [if_pos hlistening]
    cases hblock : bc.view.getBlock number with
    | error e =>
      rw [hblock] at h
      cases h
    | ok block =>
      rw [hblock] at h
      obtain rfl := Except.ok.inj h
      rw [get_bind]
      exact bind_of_ok (liftExcept_of_ok hblock bc)
  · rename_i hlistening
    obtain rfl := Except.ok.inj h
    rw [if_neg hlistening, List.append_nil]
    rfl

theorem recordDeleted_of_error (h : recordedBlock cfg bc.view number = .error e) :
    recordDeleted cfg number bc = .error e bc := by
  unfold recordedBlock at h
  unfold recordDeleted
  split at h
  · rename_i hlistening
    rw [if_pos hlistening]
    cases hblock : bc.view.getBlock number with
    | error e' =>
      rw [hblock] at h
      obtain rfl := Except.error.inj h
      rw [get_bind]
      exact bind_of_error (liftExcept_of_error hblock bc)
    | ok block =>
      rw [hblock] at h
      cases h
  · cases h

theorem mapHeads_id (bc : Blockchain) : bc.mapHeads id = bc := by
  simp [Blockchain.mapHeads]

theorem moveHead_nil (headHash : Hash) : moveHead headHash [] = id := rfl

theorem moveHead_cons (headHash : Hash) (entry : Nat × Hash) (entries : List (Nat × Hash)) :
    moveHead headHash (entry :: entries) =
      moveHead headHash entries ∘ fun head => if head = entry.2 then headHash else head := rfl

/-- One turn of the loop over the index. -/
theorem deleteReferences_succ {fuel : Nat} {hash : Hash}
    (hentry : bc.view.numberToHash number = some hash)
    (hblocks : recordedBlock cfg bc.view number = .ok blocks) :
    ∃ mid, mid = Blockchain.mapHeads { bc with deletedBlocks := bc.deletedBlocks ++ blocks }
        (fun head => if head = hash then headHash else head) ∧ mid.view = bc.view ∧
      deleteReferences cfg headHash (fuel + 1) number ops bc =
        deleteReferences cfg headHash fuel (number + 1) (ops ++ [.delNumberToHash number]) mid := by
  refine ⟨_, rfl, rfl, ?_⟩
  conv_lhs => unfold deleteReferences
  rw [get_bind]
  simp only [hentry]
  rw [bind_of_ok (recordDeleted_of_ok hblocks), modify_bind]

theorem deleteReferences_none {fuel : Nat} (hentry : bc.view.numberToHash number = none) :
    deleteReferences cfg headHash (fuel + 1) number ops bc = .ok ops bc := by
  unfold deleteReferences
  rw [get_bind]
  simp only [hentry]
  rfl

theorem recordedBlocks_cons_ok {entry : Nat × Hash} {entries : List (Nat × Hash)} {db : ChainDB}
    (h : recordedBlocks cfg db (entry :: entries) = .ok blocks) :
    ∃ first rest, recordedBlock cfg db entry.1 = .ok first ∧
      recordedBlocks cfg db entries = .ok rest ∧ blocks = first ++ rest := by
  cases hfirst : recordedBlock cfg db entry.1 with
  | error e => simp [recordedBlocks, hfirst, bind, Except.bind] at h
  | ok first =>
    cases hrest : recordedBlocks cfg db entries with
    | error e => simp [recordedBlocks, hfirst, hrest, bind, Except.bind] at h
    | ok rest =>
      simp only [recordedBlocks, hfirst, hrest, bind, Except.bind, Except.ok.injEq] at h
      exact ⟨first, rest, rfl, rfl, h.symm⟩

theorem recordedBlocks_cons_error {entry : Nat × Hash} {entries : List (Nat × Hash)} {db : ChainDB}
    (h : recordedBlocks cfg db (entry :: entries) = .error e) :
    recordedBlock cfg db entry.1 = .error e ∨
      ∃ first, recordedBlock cfg db entry.1 = .ok first ∧
        recordedBlocks cfg db entries = .error e := by
  cases hfirst : recordedBlock cfg db entry.1 with
  | error e' =>
    simp only [recordedBlocks, hfirst, bind, Except.bind, Except.error.injEq] at h
    rw [h]
    exact .inl rfl
  | ok first =>
    cases hrest : recordedBlocks cfg db entries with
    | error e' =>
      simp only [recordedBlocks, hfirst, hrest, bind, Except.bind, Except.error.injEq] at h
      rw [h]
      exact .inr ⟨first, rfl, rfl⟩
    | ok rest => simp [recordedBlocks, hfirst, hrest, bind, Except.bind] at h

theorem recordedBlocks_eq_nil_iff {entries : List (Nat × Hash)} {db : ChainDB}
    (h : recordedBlocks cfg db entries = .ok blocks) :
    blocks = [] ↔ cfg.listening = false ∨ entries = [] := by
  cases hlistening : cfg.listening with
  | false =>
    have hnil : ∀ entries, recordedBlocks cfg db entries = .ok [] := by
      intro entries
      induction entries with
      | nil => rfl
      | cons entry entries ih =>
        simp [recordedBlocks, recordedBlock, hlistening, ih, bind, Except.bind]
    rw [hnil] at h
    simp [← Except.ok.inj h]
  | true =>
    cases entries with
    | nil =>
      obtain rfl := Except.ok.inj h
      simp
    | cons entry entries =>
      obtain ⟨first, rest, hfirst, -, rfl⟩ := recordedBlocks_cons_ok h
      rw [recordedBlock, if_pos hlistening] at hfirst
      cases hblock : db.getBlock entry.1 with
      | error e =>
        rw [hblock] at hfirst
        cases hfirst
      | ok block =>
        rw [hblock] at hfirst
        obtain rfl := Except.ok.inj hfirst
        simp

/-- The loop over the index deletes its entries and moves the heads off them. -/
theorem deleteReferences_of_ok {fuel : Nat} (bc : Blockchain)
    (h : recordedBlocks cfg bc.view (bc.view.entries fuel number) = .ok blocks) :
    deleteReferences cfg headHash fuel number ops bc =
      .ok (ops ++ (bc.view.entries fuel number).map (fun e => .delNumberToHash e.1))
        { bc.mapHeads (moveHead headHash (bc.view.entries fuel number)) with
          deletedBlocks := bc.deletedBlocks ++ blocks } := by
  induction fuel generalizing bc number ops blocks with
  | zero =>
    obtain rfl := Except.ok.inj h
    simp only [ChainDB.entries, moveHead_nil, mapHeads_id, List.map_nil, List.append_nil]
    rfl
  | succ fuel ih =>
    unfold ChainDB.entries at h ⊢
    cases hentry : bc.view.numberToHash number with
    | none =>
      rw [hentry] at h
      obtain rfl := Except.ok.inj h
      simp only [moveHead_nil, mapHeads_id, List.map_nil, List.append_nil]
      exact deleteReferences_none hentry
    | some hash =>
      simp only [hentry] at h ⊢
      obtain ⟨first, rest, hfirst, hrest, rfl⟩ := recordedBlocks_cons_ok h
      obtain ⟨mid, hmid, hview, hstep⟩ := deleteReferences_succ hentry hfirst
      rw [hstep, ih mid (by rw [hview]; exact hrest), hview, hmid, moveHead_cons]
      simp [Blockchain.mapHeads, Function.comp_def]

/-- Where the loop throws, it has moved the heads off the entries before. -/
theorem deleteReferences_of_error {fuel : Nat} (bc : Blockchain)
    (h : recordedBlocks cfg bc.view (bc.view.entries fuel number) = .error e) :
    ∃ before entry after d, bc.view.entries fuel number = before ++ entry :: after ∧
      deleteReferences cfg headHash fuel number ops bc =
        .error e { bc.mapHeads (moveHead headHash before) with deletedBlocks := d } := by
  induction fuel generalizing bc number ops with
  | zero => cases h
  | succ fuel ih =>
    unfold ChainDB.entries at h ⊢
    cases hentry : bc.view.numberToHash number with
    | none =>
      rw [hentry] at h
      cases h
    | some hash =>
      simp only [hentry] at h ⊢
      rcases recordedBlocks_cons_error h with hfirst | ⟨first, hfirst, hrest⟩
      · refine ⟨[], _, _, bc.deletedBlocks, rfl, ?_⟩
        rw [moveHead_nil, mapHeads_id]
        unfold deleteReferences
        rw [get_bind]
        simp only [hentry]
        exact bind_of_error (recordDeleted_of_error hfirst)
      · obtain ⟨mid, hmid, hview, hstep⟩ := deleteReferences_succ hentry hfirst
        obtain ⟨before, entry, after, d, hentries, hloop⟩ := ih mid (by rw [hview]; exact hrest)
        rw [hview] at hentries
        refine ⟨(number, hash) :: before, entry, after, d, ?_, ?_⟩
        · rw [hentries]
          rfl
        · rw [hstep, hloop, hmid, moveHead_cons]
          simp [Blockchain.mapHeads, Function.comp_def]

end Delete

/-- The entries that `_deleteCanonicalChainReferences` deletes. -/
def above (db : ChainDB) (number : Nat) : List (Nat × Hash) := db.entries (db.size - number) number

section Canonical

variable {number : Nat} {e : BlockchainError} {blocks : List Block} {headHash : Hash}
  {ops : List DBOp} {header : BlockHeader} {item : BlockItem}

theorem deleteCanonicalChainReferences_of_ok (bc : Blockchain) (headHash : Hash) (ops : List DBOp)
    (h : recordedBlocks cfg bc.view (above bc.view number) = .ok blocks) :
    deleteCanonicalChainReferences cfg number headHash ops bc =
      .ok (ops ++ (above bc.view number).map (fun e => .delNumberToHash e.1))
        { bc.mapHeads (moveHead headHash (above bc.view number)) with
          deletedBlocks := bc.deletedBlocks ++ blocks } := by
  unfold deleteCanonicalChainReferences
  rw [get_bind]
  exact onError_of_ok (deleteReferences_of_ok bc h)

theorem deleteCanonicalChainReferences_of_error (bc : Blockchain) (headHash : Hash) (ops : List DBOp)
    (h : recordedBlocks cfg bc.view (above bc.view number) = .error e) :
    ∃ before entry after, above bc.view number = before ++ entry :: after ∧
      deleteCanonicalChainReferences cfg number headHash ops bc =
        .error e { bc.mapHeads (moveHead headHash before) with deletedBlocks := [] } := by
  unfold deleteCanonicalChainReferences
  rw [get_bind]
  obtain ⟨before, entry, after, d, hentries, hloop⟩ := deleteReferences_of_error bc h
  rw [onError_of_error hloop]
  exact ⟨before, entry, after, hentries, rfl⟩

theorem transitionByHead_of_ok (bc : Blockchain)
    (h : (transitioned cfg env header bc.hardfork).1 = .ok ()) :
    transitionByHead cfg env header bc =
      .ok () { bc with hardfork := (transitioned cfg env header bc.hardfork).2 } := by
  unfold transitioned at h ⊢
  unfold transitionByHead
  split
  · rename_i hswitch
    rw [if_pos hswitch] at h
    unfold checkAndTransitionHardForkByNumber
    cases hset : env.setHardforkBy header.number header.timestamp with
    | error e =>
      rw [hset] at h
      cases h
    | ok hardfork =>
      rw [hset] at h
      change liftExcept env.consensusSetup { bc with hardfork := hardfork } = _
      exact liftExcept_of_ok h _
  · rfl

theorem transitionByHead_of_error (bc : Blockchain)
    (h : (transitioned cfg env header bc.hardfork).1 = .error e) :
    transitionByHead cfg env header bc =
      .error e { bc with hardfork := (transitioned cfg env header bc.hardfork).2 } := by
  unfold transitioned at h ⊢
  unfold transitionByHead
  split
  · rename_i hswitch
    rw [if_pos hswitch] at h
    unfold checkAndTransitionHardForkByNumber
    cases hset : env.setHardforkBy header.number header.timestamp with
    | error e' =>
      rw [hset] at h
      obtain rfl := Except.error.inj h
      rfl
    | ok hardfork =>
      rw [hset] at h
      change liftExcept env.consensusSetup { bc with hardfork := hardfork } = _
      exact liftExcept_of_error h _
  · rename_i hswitch
    rw [if_neg hswitch] at h
    cases h

theorem rebuildCanonical_of_ok (bc : Blockchain) {lookups : List DBOp} {staleHashes : List Hash}
    {hash : Hash}
    (h : rebuildLoop bc.view header.number header = .ok (lookups, staleHashes, hash)) :
    rebuildCanonical header ops bc = .ok (ops ++ lookups)
      { bc with
        heads := fun name => (bc.heads name).map (renewHead staleHashes hash)
        headBlockHash := renewHead staleHashes hash bc.headBlockHash } := by
  unfold rebuildCanonical
  rw [get_bind, bind_of_ok (liftExcept_of_ok h bc)]
  rfl

theorem rebuildCanonical_of_error (h : rebuildLoop bc.view header.number header = .error e) :
    rebuildCanonical header ops bc = .error e bc := by
  unfold rebuildCanonical
  rw [get_bind]
  exact bind_of_error (liftExcept_of_error h bc)

/-- The heads after an item has become the head of the chain. -/
def renewed (item : BlockItem) (entries : List (Nat × Hash)) (staleHashes : List Hash)
    (canonicalHash : Hash) (bc : Blockchain) : Blockchain :=
  { bc with
    heads := fun name => (bc.heads name).map fun head =>
      renewHead staleHashes canonicalHash (moveHead item.header.hash entries head)
    headHeaderHash := item.header.hash
    headBlockHash := renewHead staleHashes canonicalHash
      (moveHead item.header.hash entries (bc.withTop item).headBlockHash) }

theorem moveHead_self (headHash : Hash) (entries : List (Nat × Hash)) :
    moveHead headHash entries headHash = headHash := by
  induction entries with
  | nil => rfl
  | cons entry entries ih =>
    rw [moveHead_cons, Function.comp_apply, ite_self]
    exact ih

theorem moveHead_eq (headHash : Hash) (entries : List (Nat × Hash)) (head : Hash) :
    moveHead headHash entries head =
      if head ∈ entries.map Prod.snd then headHash else head := by
  induction entries with
  | nil => simp [moveHead]
  | cons entry entries ih =>
    rw [moveHead_cons, Function.comp_apply, List.map_cons]
    rcases Classical.em (head = entry.2) with heq | hne
    · rw [if_pos heq, moveHead_self, heq, if_pos List.mem_cons_self]
    · rw [if_neg hne, ih]
      simp only [List.mem_cons, hne, false_or]


variable {ancestor : BlockHeader × List BlockHeader}

theorem putCanonical_of_noAncestor (h : findCommonAncestor bc item.header = .error e) :
    putCanonical cfg env item ops bc = .error e bc := by
  unfold putCanonical
  rw [get_bind]
  exact bind_of_error (liftExcept_of_error h bc)

theorem putCanonical_of_noTransition (hancestor : findCommonAncestor bc item.header = .ok ancestor)
    (h : (transitioned cfg env item.header bc.hardfork).1 = .error e) :
    putCanonical cfg env item ops bc =
      .error e { bc.withTop item with
        hardfork := (transitioned cfg env item.header bc.hardfork).2 } := by
  unfold putCanonical
  rw [get_bind, bind_of_ok (liftExcept_of_ok hancestor bc), modify_bind]
  exact bind_of_error (transitionByHead_of_error (bc.withTop item) h)

theorem putCanonical_of_unreadable (ops : List DBOp)
    (hancestor : findCommonAncestor bc item.header = .ok ancestor)
    (htransition : (transitioned cfg env item.header bc.hardfork).1 = .ok ())
    (h : recordedBlocks cfg bc.view (above bc.view (item.header.number + 1)) = .error e) :
    ∃ f, putCanonical cfg env item ops bc =
      .error e { (bc.withTop item).mapHeads f with
        deletedBlocks := []
        hardfork := (transitioned cfg env item.header bc.hardfork).2 } := by
  unfold putCanonical
  rw [get_bind, bind_of_ok (liftExcept_of_ok hancestor bc), modify_bind,
    bind_of_ok (transitionByHead_of_ok (bc.withTop item) htransition)]
  obtain ⟨before, _, _, -, hdelete⟩ := deleteCanonicalChainReferences_of_error
    { bc.withTop item with hardfork := (transitioned cfg env item.header bc.hardfork).2 }
    item.header.hash ops h
  exact ⟨moveHead item.header.hash before, bind_of_error hdelete⟩

/-- The state with which `_rebuildCanonical` starts. -/
def deleted (cfg : ChainConfig) (env : ChainEnv) (item : BlockItem) (blocks : List Block)
    (bc : Blockchain) : Blockchain :=
  { (bc.withTop item).mapHeads
      (moveHead item.header.hash (above bc.view (item.header.number + 1))) with
    deletedBlocks := bc.deletedBlocks ++ blocks
    hardfork := (transitioned cfg env item.header bc.hardfork).2 }

theorem putCanonical_of_deleted (hancestor : findCommonAncestor bc item.header = .ok ancestor)
    (htransition : (transitioned cfg env item.header bc.hardfork).1 = .ok ())
    (h : recordedBlocks cfg bc.view (above bc.view (item.header.number + 1)) = .ok blocks) :
    putCanonical cfg env item ops bc =
      rebuildCanonical item.header
        (ops ++ (above bc.view (item.header.number + 1)).map (fun e => .delNumberToHash e.1))
        (deleted cfg env item blocks bc) := by
  unfold putCanonical
  rw [get_bind, bind_of_ok (liftExcept_of_ok hancestor bc), modify_bind,
    bind_of_ok (transitionByHead_of_ok (bc.withTop item) htransition)]
  exact bind_of_ok (deleteCanonicalChainReferences_of_ok
    { bc.withTop item with hardfork := (transitioned cfg env item.header bc.hardfork).2 } _ _ h)

theorem putCanonical_of_noRebuild (hancestor : findCommonAncestor bc item.header = .ok ancestor)
    (htransition : (transitioned cfg env item.header bc.hardfork).1 = .ok ())
    (hblocks : recordedBlocks cfg bc.view (above bc.view (item.header.number + 1)) = .ok blocks)
    (h : rebuildLoop bc.view item.header.number item.header = .error e) :
    putCanonical cfg env item ops bc = .error e (deleted cfg env item blocks bc) := by
  rw [putCanonical_of_deleted hancestor htransition hblocks]
  exact rebuildCanonical_of_error h

theorem putCanonical_of_ok (hancestor : findCommonAncestor bc item.header = .ok ancestor)
    (htransition : (transitioned cfg env item.header bc.hardfork).1 = .ok ())
    (hblocks : recordedBlocks cfg bc.view (above bc.view (item.header.number + 1)) = .ok blocks)
    {lookups : List DBOp} {staleHashes : List Hash} {hash : Hash}
    (h : rebuildLoop bc.view item.header.number item.header = .ok (lookups, staleHashes, hash)) :
    putCanonical cfg env item ops bc =
      .ok (ops ++ (above bc.view (item.header.number + 1)).map (fun e => .delNumberToHash e.1) ++
          lookups)
        { renewed item (above bc.view (item.header.number + 1)) staleHashes hash bc with
          deletedBlocks := bc.deletedBlocks ++ blocks
          hardfork := (transitioned cfg env item.header bc.hardfork).2 } := by
  rw [putCanonical_of_deleted hancestor htransition hblocks]
  refine (rebuildCanonical_of_ok (deleted cfg env item blocks bc) h).trans ?_
  simp [renewed, deleted, Blockchain.mapHeads, Blockchain.withTop, moveHead_self,
    Function.comp_def]

end Canonical

/-- The total difficulty of an item. -/
def itemTd (db : ChainDB) (header : BlockHeader) : Nat :=
  header.difficulty + db.getTotalDifficulty header.parentHash (header.number - 1)

/-- The operations that save an item. -/
def itemOps (db : ChainDB) (item : BlockItem) : List DBOp :=
  .setTD item.header.number item.header.hash (itemTd db item.header) :: DBSetBlockOrHeader item

/-- Whether an item becomes the head of the chain, where the head header has this total
difficulty. -/
def takesOver (db : ChainDB) (item : BlockItem) (currentTdHeader : Nat) : Prop :=
  itemTd db item.header > currentTdHeader ∨ item.proofOfStake = true

instance (db : ChainDB) (item : BlockItem) (currentTdHeader : Nat) :
    Decidable (takesOver db item currentTdHeader) :=
  inferInstanceAs (Decidable (_ ∨ _))

section Put

variable {e : BlockchainError} {item : BlockItem} {currentTdHeader currentTdBlock : Nat}
  {ops : List DBOp}

theorem prepareItem_of_unchecked (h : checkItem cfg env item = .error e) :
    prepareItem cfg env item bc = .error e bc :=
  bind_of_error (liftExcept_of_error h bc)

theorem prepareItem_of_noTdHeader (hcheck : checkItem cfg env item = .ok ())
    (h : bc.view.getTotalDifficultyByHash bc.headHeaderHash = .error e) :
    prepareItem cfg env item bc = .error e bc := by
  unfold prepareItem
  rw [bind_of_ok (liftExcept_of_ok hcheck bc), get_bind]
  exact bind_of_error (liftExcept_of_error h bc)

theorem prepareItem_of_noTdBlock (hcheck : checkItem cfg env item = .ok ())
    (hheader : bc.view.getTotalDifficultyByHash bc.headHeaderHash = .ok currentTdHeader)
    (h : bc.view.getTotalDifficultyByHash bc.headBlockHash = .error e) :
    prepareItem cfg env item bc = .error e bc := by
  unfold prepareItem
  rw [bind_of_ok (liftExcept_of_ok hcheck bc), get_bind, bind_of_ok (liftExcept_of_ok hheader bc)]
  exact bind_of_error (liftExcept_of_error h bc)

theorem prepareItem_of_takesOver (hcheck : checkItem cfg env item = .ok ())
    (hheader : bc.view.getTotalDifficultyByHash bc.headHeaderHash = .ok currentTdHeader)
    (hblock : bc.view.getTotalDifficultyByHash bc.headBlockHash = .ok currentTdBlock)
    (h : takesOver bc.view item currentTdHeader) :
    prepareItem cfg env item bc = putCanonical cfg env item (itemOps bc.view item) bc := by
  unfold prepareItem
  rw [bind_of_ok (liftExcept_of_ok hcheck bc), get_bind, bind_of_ok (liftExcept_of_ok hheader bc),
    bind_of_ok (liftExcept_of_ok hblock bc)]
  exact congrFun (if_pos h) bc

theorem prepareItem_of_side (hcheck : checkItem cfg env item = .ok ())
    (hheader : bc.view.getTotalDifficultyByHash bc.headHeaderHash = .ok currentTdHeader)
    (hblock : bc.view.getTotalDifficultyByHash bc.headBlockHash = .ok currentTdBlock)
    (h : ¬ takesOver bc.view item currentTdHeader) :
    prepareItem cfg env item bc =
      .ok (itemOps bc.view item ++ [.setHashToNumber item.header.hash item.header.number])
        { bc with
          headBlockHash := if itemTd bc.view item.header > currentTdBlock ∧ item.body.isSome then
            item.header.hash else bc.headBlockHash } := by
  unfold prepareItem
  rw [bind_of_ok (liftExcept_of_ok hcheck bc), get_bind, bind_of_ok (liftExcept_of_ok hheader bc),
    bind_of_ok (liftExcept_of_ok hblock bc)]
  refine (congrFun (if_neg h) bc).trans ?_
  simp only [putSide, decide_eq_true_eq]
  rfl

theorem batch_of_ok (h : env.batch = .ok ()) (ops : List DBOp) (bc : Blockchain) :
    batch env ops bc = .ok () { bc with view := bc.view.batch ops, db := bc.db.batch ops } := by
  unfold batch
  rw [get_bind, modify_bind, bind_of_ok (liftExcept_of_ok h _)]
  rfl

theorem batch_of_error (h : env.batch = .error e) (ops : List DBOp) (bc : Blockchain) :
    batch env ops bc = .error e { bc with view := bc.db.updateCaches bc.view ops } := by
  unfold batch
  rw [get_bind, modify_bind, bind_of_error (liftExcept_of_error h _)]

theorem batchWithHeads_of_ok (h : env.batch = .ok ()) (ops : List DBOp) (bc : Blockchain) :
    batchWithHeads env ops bc = .ok () { bc with
      view := bc.view.batch ops
      db := bc.db.batch ops
      saved := ⟨some bc.heads, some bc.headHeaderHash, some bc.headBlockHash⟩ } := by
  unfold batchWithHeads
  rw [bind_of_ok (batch_of_ok h ops bc)]
  rfl

theorem batchWithHeads_of_error (h : env.batch = .error e) (ops : List DBOp) (bc : Blockchain) :
    batchWithHeads env ops bc = .error e { bc with view := bc.db.updateCaches bc.view ops } :=
  bind_of_error (batch_of_error h ops bc)

theorem batch_ok {after : Blockchain} (h : batch env ops bc = .ok () after) :
    env.batch = .ok () := by
  cases hbatch : env.batch with
  | ok _ => rfl
  | error e =>
    rw [batch_of_error hbatch] at h
    cases h

theorem batchWithHeads_ok {after : Blockchain} (h : batchWithHeads env ops bc = .ok () after) :
    env.batch = .ok () := by
  obtain ⟨_, _, hbatch, -⟩ := bind_returns h
  exact batch_ok hbatch

end Put

end BlockchainM
end EthereumJS
