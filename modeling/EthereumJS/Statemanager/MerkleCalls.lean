import EthereumJS.Statemanager.MerkleTries

/-! # Calls of the Merkle state manager against the simple one

What it takes for the two state managers to agree, and that the parts of a call keep it. A part
may leave one account out until the account trie has been written.
-/

namespace EthereumJS

open RLP Patricia Patricia.Tree Overlay Ordered

namespace MerkleStateManager

variable {H : HashKeysFunction} {E : Set Bytes}

section Ends

/-- A computation returns and leaves what is said, if the nodes that it writes are among those
without collision. -/
def Ends {α : Type} (E : Set Bytes) (x : StateRun α) (m : MerkleStateManager)
    (Q : α → MerkleStateManager → Prop) : Prop :=
  (∀ e ∈ (endState (x m)).written, e ∈ E) → ∃ a m', x m = .ok a m' ∧ Q a m'

/-- A computation that only adds to what was written. -/
def Appends {α : Type} (x : StateRun α) : Prop :=
  ∀ e, Preserves (fun m : MerkleStateManager => e ∈ m.written) x

variable {α β : Type} {m : MerkleStateManager}

theorem ends_of_ok {x : StateRun α} {a : α} {m' : MerkleStateManager}
    {Q : α → MerkleStateManager → Prop} (h : x m = .ok a m') (hQ : Q a m') : Ends E x m Q :=
  fun _ => ⟨a, m', h, hQ⟩

theorem ends_pure {a : α} {Q : α → MerkleStateManager → Prop} (hQ : Q a m) :
    Ends E (pure a) m Q :=
  ends_of_ok rfl hQ

theorem Ends.bind {x : StateRun α} {f : α → StateRun β} {Q : β → MerkleStateManager → Prop}
    (hx : Ends E x m fun a mid => Ends E (f a) mid Q) (hf : ∀ a, Appends (f a)) :
    Ends E (x >>= f) m Q := by
  intro hmem
  cases hrun : x m with
  | error e mid =>
    rw [bind_of_error hrun] at hmem
    obtain ⟨a, m', hok, _⟩ := hx (by rwa [hrun])
    rw [hrun] at hok
    cases hok
  | ok a mid =>
    rw [bind_of_ok hrun] at hmem ⊢
    obtain ⟨a', mid', hok, hrest⟩ := hx (by
      rw [hrun]
      exact fun e he => hmem e (hf a e mid he))
    rw [hrun] at hok
    cases hok
    exact hrest hmem

theorem Ends.mono {x : StateRun α} {Q Q' : α → MerkleStateManager → Prop} (hx : Ends E x m Q)
    (hQ : ∀ a m', Q a m' → Q' a m') : Ends E x m Q' := by
  intro hmem
  obtain ⟨a, m', hok, hq⟩ := hx hmem
  exact ⟨a, m', hok, hQ a m' hq⟩

theorem written_of_bind {x : StateRun α} {f : α → StateRun β} (hf : ∀ a, Appends (f a)) {e : Bytes}
    (he : e ∈ (endState (x m)).written) : e ∈ (endState ((x >>= f) m)).written := by
  cases hrun : x m with
  | error err mid =>
    rw [bind_of_error hrun]
    rwa [hrun] at he
  | ok a mid =>
    rw [bind_of_ok hrun]
    rw [hrun] at he
    exact hf a e mid he

theorem endState_bind_pure (x : StateRun α) (f : α → β) (m : MerkleStateManager) :
    endState ((x >>= fun a => pure (f a)) m) = endState (x m) := by
  cases hrun : x m with
  | error err mid => rw [bind_of_error hrun]; rfl
  | ok a mid => rw [bind_of_ok hrun]; rfl

theorem appends_ofExcept (r : Except StateManagerError α) : Appends (ofExcept r) := by
  intro e
  cases r with
  | ok a => exact preserves_pure a
  | error _ => exact preserves_throw _

theorem appends_effectOf (r : Except MPTError Effect) : Appends (effectOf r) := by
  intro e
  cases r with
  | ok a => exact preserves_pure a
  | error _ => exact preserves_throw _

theorem appends_getAccount (address : Bytes) : Appends (getAccount H address) :=
  fun e => preserves_get.bind fun _ => appends_ofExcept _ e

theorem written_batch (m : MerkleStateManager) (ops : List BatchDBOp) :
    (m.batch ops).written = m.written := by
  unfold MerkleStateManager.batch
  split <;> rfl

theorem storageTries_writeTrie (m : MerkleStateManager) (effect : Effect) :
    (m.writeTrie effect).storageTries = m.storageTries := by
  unfold MerkleStateManager.writeTrie MerkleStateManager.batch
  dsimp only
  split <;> rfl

theorem appends_putAccount (address : Bytes) (account : Option Account) :
    Appends (putAccount H address account) := by
  intro e
  refine preserves_get.bind fun _ => (appends_effectOf _ e).bind fun _ => ?_
  exact preserves_modify fun _ hm => List.mem_append_left _ hm

theorem appends_modifyAccountFields (address : Bytes) (fields : AccountFields) :
    Appends (modifyAccountFields H address fields) :=
  fun e => (appends_getAccount address e).bind fun _ => appends_putAccount _ _ e

theorem appends_getStorageTrie (address : Bytes) (account : Account) :
    Appends (getStorageTrie H address account) := by
  intro e
  refine preserves_get.bind fun sm => ?_
  split
  · exact preserves_pure _
  · have hset : Preserves (fun m : MerkleStateManager => e ∈ m.written) (do
        modify fun sm => sm.setStorageTrie H address account.storageRoot
        pure account.storageRoot : StateRun Bytes) :=
      Preserves.bind (preserves_modify fun _ hm => hm) fun _ => preserves_pure _
    dsimp only
    split
    · exact (preserves_throw _).bind fun _ => hset
    · exact hset

/-- The part of `modifyContractStorage` behind the choice of the storage trie. -/
theorem appends_modifyTrie (address : Bytes) (account : Account)
    (modifyTrie : MerklePatriciaTrie → Except MPTError Effect) (root : Bytes) :
    Appends (do
      let effect ← effectOf (modifyTrie ((← get).storageTrie H root))
      modify fun sm => sm.writeStorageTrie H address effect
      putAccount H address (some { account with storageRoot := effect.root })) := by
  intro e
  refine preserves_get.bind fun _ => (appends_effectOf _ e).bind fun _ => ?_
  refine (preserves_modify fun _ hm => ?_).bind fun _ => appends_putAccount _ _ e
  exact List.mem_append_left _ hm

theorem appends_modifyContractStorage (address : Bytes) (account : Account)
    (modifyTrie : MerklePatriciaTrie → Except MPTError Effect) :
    Appends (modifyContractStorage H address account modifyTrie) :=
  fun e => (appends_getStorageTrie address account e).bind fun root =>
    appends_modifyTrie address account modifyTrie root e

theorem appends_putCode (address value : Bytes) : Appends (putCode H address value) := by
  intro e
  refine (preserves_modify fun m hm => ?_).bind fun _ =>
    (appends_getAccount address e).bind fun _ => ?_
  · rw [written_batch]
    exact hm
  · dsimp only
    split
    · exact (appends_putAccount _ _ e).bind fun _ => appends_modifyAccountFields _ _ e
    · exact appends_modifyAccountFields _ _ e

theorem appends_getCode (address : Bytes) : Appends (getCode H address) := by
  intro e
  refine (appends_getAccount address e).bind fun account => ?_
  split
  · exact preserves_pure _
  · split
    · exact preserves_pure _
    · exact preserves_get.bind fun _ => preserves_pure _

theorem appends_getStorage (address key : Bytes) : Appends (getStorage H address key) := by
  intro e
  have hread : ∀ account, Preserves (fun m : MerkleStateManager => e ∈ m.written) (do
      let root ← getStorageTrie H address account
      let value ← ofExcept ((((← get).storageTrie H root).get key false).mapError .mpt)
      ofExcept ((decodeValue (value.getD (.bytes []))).mapError .bytes) : StateRun Item) :=
    fun account => (appends_getStorageTrie _ _ e).bind fun _ => preserves_get.bind fun _ =>
      (appends_ofExcept _ e).bind fun _ => appends_ofExcept _ e
  unfold getStorage
  dsimp only
  split
  · refine (preserves_throw _).bind fun _ => (appends_getAccount address e).bind fun account => ?_
    split
    · exact preserves_pure _
    · exact hread _
  · refine (appends_getAccount address e).bind fun account => ?_
    split
    · exact preserves_pure _
    · exact hread _

theorem appends_writeSlot (address key value : Bytes) : Appends (do
    match ← getAccount H address with
    | none => throw .nonExistingAccount
    | some account => writeContractStorage H address account key (unpadBytes value)) := by
  intro e
  refine (appends_getAccount address e).bind fun account => ?_
  split
  · exact preserves_throw _
  · exact appends_modifyContractStorage _ _ _ e

theorem appends_putStorage (address key value : Bytes) :
    Appends (putStorage H address key value) := by
  intro e
  have hwrite := appends_writeSlot (H := H) address key value e
  unfold putStorage
  dsimp only
  split
  · refine (preserves_throw _).bind fun _ => ?_
    split
    · exact (preserves_throw _).bind fun _ => hwrite
    · exact hwrite
  · split
    · exact (preserves_throw _).bind fun _ => hwrite
    · exact hwrite

theorem appends_clearStorage (address : Bytes) : Appends (clearStorage H address) :=
  fun e => (appends_getAccount address e).bind fun _ => appends_modifyContractStorage _ _ _ e

theorem appends_commit : Appends commit := by
  intro e
  refine preserves_get.bind fun sm => ?_
  split
  · exact preserves_throw _
  · exact preserves_modify fun _ hm => hm
  · exact preserves_modify fun _ hm => hm

theorem appends_revert : Appends revert := by
  intro e
  refine preserves_get.bind fun sm => ?_
  split
  · exact preserves_throw _
  · exact preserves_modify fun _ hm => hm

theorem appends_step (call : StateCall) : Appends (step H call) := by
  intro e
  cases call with
  | getAccount address => exact (appends_getAccount _ e).bind fun _ => preserves_pure _
  | putAccount address account => exact (appends_putAccount _ _ e).bind fun _ => preserves_pure _
  | deleteAccount address => exact (appends_putAccount _ none e).bind fun _ => preserves_pure _
  | modifyAccountFields address fields =>
    exact (appends_modifyAccountFields _ _ e).bind fun _ => preserves_pure _
  | getCode address => exact (appends_getCode _ e).bind fun _ => preserves_pure _
  | putCode address value => exact (appends_putCode _ _ e).bind fun _ => preserves_pure _
  | getStorage address key => exact (appends_getStorage _ _ e).bind fun _ => preserves_pure _
  | putStorage address key value => exact (appends_putStorage _ _ _ e).bind fun _ => preserves_pure _
  | clearStorage address => exact (appends_clearStorage _ e).bind fun _ => preserves_pure _
  | checkpoint =>
    have hcheckpoint : Appends checkpoint := fun _ => preserves_modify fun _ hm => hm
    exact (hcheckpoint e).bind fun _ => preserves_pure _
  | commit => exact (appends_commit e).bind fun _ => preserves_pure _
  | revert => exact (appends_revert e).bind fun _ => preserves_pure _

theorem appends_run (calls : List StateCall) : Appends (run H calls) := by
  induction calls with
  | nil => exact fun e => preserves_pure _
  | cons call calls ih =>
    exact fun e => (appends_step call e).bind fun _ => (ih e).bind fun _ => preserves_pure _

theorem run_append (calls calls' : List StateCall) :
    run H (calls ++ calls') = (do
      let replies ← run H calls
      let replies' ← run H calls'
      return replies ++ replies') := by
  induction calls with
  | nil => simp [run]
  | cons call calls ih => simp [run, ih]

theorem run_append_ok {calls calls' : List StateCall} {replies replies' : List StateReply}
    {mid last : MerkleStateManager} (h : run H calls m = .ok replies mid)
    (h' : run H calls' mid = .ok replies' last) :
    run H (calls ++ calls') m = .ok (replies ++ replies') last := by
  rw [run_append, bind_of_ok h, bind_of_ok h']
  rfl

theorem length_run {calls : List StateCall} {replies : List StateReply}
    {last : MerkleStateManager} (h : run H calls m = .ok replies last) :
    replies.length = calls.length := by
  induction calls generalizing m replies with
  | nil =>
    cases h
    rfl
  | cons call calls ih =>
    obtain ⟨reply, mid, -, hrest⟩ := bind_returns h
    obtain ⟨rest, last', hrun, hret⟩ := bind_returns hrest
    cases hret
    exact congrArg Nat.succ (ih hrun)

theorem written_append_left {calls calls' : List StateCall} {e : Bytes}
    (he : e ∈ (endState (run H calls m)).written) :
    e ∈ (endState (run H (calls ++ calls') m)).written := by
  rw [run_append]
  exact written_of_bind (fun _ e => (appends_run calls' e).bind fun _ => preserves_pure _) he

theorem written_append_right {calls calls' : List StateCall} {replies : List StateReply}
    {mid : MerkleStateManager} (hok : run H calls m = .ok replies mid) :
    (endState (run H (calls ++ calls') m)).written = (endState (run H calls' mid)).written := by
  rw [run_append, bind_of_ok hok, endState_bind_pure]

end Ends

section Agrees

variable (H) in
/-- The root of the storage of an account. -/
def storageRootOf (m : MerkleStateManager) (address : Bytes) : Bytes :=
  match m.readAccount H address with
  | .ok (some account) => account.storageRoot
  | _ => keccakRlp H

/-- What was kept at a checkpoint is the simple state of then. -/
def LevelMatches (H : HashKeysFunction) (E : Set Bytes) (db : MapDB) (level : MapDB × Bytes)
    (state : SimpleState) : Prop :=
  ∃ t, Represents E ⟨hashedOpts H, level.1, level.2⟩ t ∧ CanonAt 64 t ∧ HashedKeys H E t ∧
    ∀ address ∈ E, Matches H E db level.1 state address (t.lookup (hashedPath H address))

/-- The two state managers agree on some addresses, and on all of them at the checkpoints. -/
structure Agrees (H : HashKeysFunction) (E A : Set Bytes) (sm : SimpleStateManager)
    (m : MerkleStateManager) : Prop where
  current : ∃ t, Backed H E m t ∧ ∀ address ∈ A,
    Matches H E m.db m.database sm.current address (t.lookup (hashedPath H address))
  saved : List.Forall₂ (LevelMatches H E m.db) (savedLevels m.db m.checkpoints) sm.saved
  tries : ∀ address ∈ A, ∀ root, lookupEntry (H.hash address) m.storageTries = some root →
    root = m.storageRootOf H address

variable {A B : Set Bytes} {sm : SimpleStateManager} {m m' : MerkleStateManager} {address : Bytes}

theorem Agrees.mono (h : Agrees H E A sm m) (hB : B ⊆ A) : Agrees H E B sm m := by
  obtain ⟨t, ht, hmatches⟩ := h.current
  exact ⟨⟨t, ht, fun a ha => hmatches a (hB ha)⟩, h.saved, fun a ha => h.tries a (hB ha)⟩

theorem saved_grow (hE : CollisionFree H E) (hempty : RLP_EMPTY_STRING ∈ E) {db db' : MapDB}
    {levels levels' : List (MapDB × Bytes)} {states : List SimpleState}
    (h : List.Forall₂ (LevelMatches H E db) levels states) (hdb : Within db db')
    (hdb' : db' (H.hash RLP_EMPTY_STRING) = none)
    (hlevels : List.Forall₂ (fun level level' => Within level.1 level'.1 ∧ level.2 = level'.2 ∧
      Entries (EntryOf H E) level'.1) levels levels') :
    List.Forall₂ (LevelMatches H E db') levels' states := by
  induction h generalizing levels' with
  | nil =>
    cases hlevels
    exact .nil
  | cons hlevel _ ih =>
    cases hlevels with
    | cons hstep hrest =>
      obtain ⟨hwithin, hroot, hentries⟩ := hstep
      obtain ⟨t, hrep, hcanon, hkeys, hmatches⟩ := hlevel
      refine .cons ⟨t, ?_, hcanon, hkeys, fun a ha => (hmatches a ha).grow hdb hwithin hdb'⟩ (ih hrest)
      rw [← hroot]
      exact hrep.grow hwithin (empty_of_entries hE hempty hentries)

/-- A manager that only grew agrees as before, but for the roots of the storage tries. -/
theorem Agrees.saved_of_grows (h : Agrees H E A sm m) (hE : CollisionFree H E)
    (hempty : RLP_EMPTY_STRING ∈ E) (hgrows : Grows H E m m') :
    List.Forall₂ (LevelMatches H E m'.db) (savedLevels m'.db m'.checkpoints) sm.saved :=
  saved_grow hE hempty h.saved hgrows.base (empty_of_entries hE hempty hgrows.sound.base)
    hgrows.saved

theorem storageRootOf_congr {m m' : MerkleStateManager}
    (h : m'.readAccount H address = m.readAccount H address) :
    m'.storageRootOf H address = m.storageRootOf H address := by
  unfold storageRootOf
  rw [h]

/-- A manager that only grew, with the same root and storage tries. -/
theorem Agrees.grow (h : Agrees H E A sm m) (hE : CollisionFree H E)
    (hempty : RLP_EMPTY_STRING ∈ E) (hgrows : Grows H E m m') (hroot : m'.root = m.root)
    (htries : m'.storageTries = m.storageTries) : Agrees H E A sm m' := by
  obtain ⟨t, ht, hmatches⟩ := h.current
  have ht' := ht.grow hE hempty hgrows hroot
  refine ⟨⟨t, ht', fun b hb => (hmatches b hb).grow hgrows.base hgrows.database
    (empty_of_entries hE hempty hgrows.sound.base)⟩, h.saved_of_grows hE hempty hgrows, ?_⟩
  intro b hb root hroot
  have hread := ht'.readAccount hE b
  rw [← ht.readAccount hE] at hread
  rw [storageRootOf_congr hread]
  exact h.tries b hb root (htries ▸ hroot)

theorem storageRootOf_of_some {stored : Account}
    (h : m.readAccount H address = .ok (some stored)) :
    m.storageRootOf H address = stored.storageRoot := by
  unfold storageRootOf
  rw [h]

theorem storageRootOf_of_none (h : m.readAccount H address = .ok none) :
    m.storageRootOf H address = keccakRlp H := by
  unfold storageRootOf
  rw [h]

end Agrees

section Parts

variable {A : Set Bytes} {sm : SimpleStateManager} {m : MerkleStateManager} {address : Bytes}

theorem hash_ne (hE : CollisionFree H E) {a b : Bytes} (ha : a ∈ E) (hb : b ∈ E) (hne : a ≠ b) :
    H.hash a ≠ H.hash b := fun h => hne (hE.injOn ha hb h)

/-- The state of the simple manager but for one address. -/
structure SameBut (address : Bytes) (state state' : SimpleState) : Prop where
  account : ∀ b ≠ address, state'.account b = state.account b
  code : ∀ b ≠ address, state'.code b = state.code b
  slot : ∀ b ≠ address, state'.slot b = state.slot b

/-- A write to the account trie makes the managers agree on one more address. -/
theorem Agrees.write (h : Agrees H E (E \ {address}) sm m) (hE : CollisionFree H E)
    (hempty : RLP_EMPTY_STRING ∈ E) (haddress : address ∈ E) {state' : SimpleState}
    (hother : SameBut address sm.current state') {op : TrieOp} (hop : op.key = address)
    {effect : Effect} (heffect : (m.trie H).effectOf op = .ok effect)
    (hmem : ∀ e ∈ putValues effect.batch, e ∈ E)
    (hvalue : ∀ {db view : MapDB}, Within m.db db → Within m.database view →
      db (H.hash RLP_EMPTY_STRING) = none →
      Matches H E db view state' address (valueAfter op))
    (htrie : ∀ m', m'.readAccount H address = accountOf H (valueAfter op) →
      ∀ root, lookupEntry (H.hash address) m.storageTries = some root →
        root = storageRootOf H m' address) :
    Agrees H E E ⟨state', sm.saved⟩ (m.writeTrie effect) := by
  obtain ⟨t, ht, hmatches⟩ := h.current
  obtain ⟨ht', hgrows⟩ := ht.writeTrie hE hempty heffect (hop ▸ haddress) hmem
  have hbase := empty_of_entries hE hempty hgrows.sound.base
  have hlookup : ∀ b ∈ E, (treeStep (hashedPath H) t op).lookup (hashedPath H b) =
      if b = address then valueAfter op else t.lookup (hashedPath H b) := by
    intro b hb
    rw [lookup_treeStep ht.canon, hop]
    exact if_congr (hashedPath_inj hE hb haddress) rfl rfl
  refine ⟨⟨_, ht', fun b hb => ?_⟩, h.saved_of_grows hE hempty hgrows, fun b hb root hroot => ?_⟩
  · rw [hlookup b hb]
    by_cases heq : b = address
    · rw [if_pos heq, heq]
      exact hvalue hgrows.base hgrows.database hbase
    · rw [if_neg heq]
      exact ((hmatches b ⟨hb, heq⟩).grow hgrows.base hgrows.database hbase).congr
        (hother.account b heq) (hother.code b heq) (hother.slot b heq)
  · rw [storageTries_writeTrie] at hroot
    have hread := ht'.readAccount hE b
    rw [hlookup b hb] at hread
    by_cases heq : b = address
    · rw [if_pos heq, heq] at hread
      rw [heq] at hroot ⊢
      exact htrie _ hread root hroot
    · rw [if_neg heq, ← ht.readAccount hE] at hread
      rw [storageRootOf_congr hread]
      exact h.tries b ⟨hb, heq⟩ root hroot

theorem putAccount_some {account : Account} {effect : Effect}
    (heffect : (m.trie H).effectOf
      (.put address ⟨account.serialize, serialize_ne_nil account⟩) = .ok effect) :
    putAccount H address (some account) m = .ok () (m.writeTrie effect) := by
  have hput : (m.trie H).putEffect address (some account.serialize) false = .ok effect := heffect
  rw [putAccount, get_bind]
  dsimp only
  rw [hput]
  rfl

theorem putAccount_none {effect : Effect}
    (heffect : (m.trie H).effectOf (.del address) = .ok effect) :
    putAccount H address none m = .ok () (m.writeTrie effect) := by
  have hdel : (m.trie H).delEffect address false = .ok effect := heffect
  rw [putAccount, get_bind]
  dsimp only
  rw [hdel]
  rfl

/-- An account is put that is right for the simple state. -/
theorem Agrees.put (h : Agrees H E (E \ {address}) sm m) (hE : CollisionFree H E)
    (hempty : RLP_EMPTY_STRING ∈ E) (haddress : address ∈ E) {state' : SimpleState}
    (hother : SameBut address sm.current state') {stored : Account}
    (hstored : HoldsAccount H E m.db m.database state' address stored)
    (htrie : ∀ root, lookupEntry (H.hash address) m.storageTries = some root →
      root = stored.storageRoot) :
    Ends E (putAccount H address (some stored)) m fun _ m' =>
      Agrees H E E ⟨state', sm.saved⟩ m' ∧ Within m.database m'.database := by
  obtain ⟨t, ht, -⟩ := h.current
  obtain ⟨effect, heffect⟩ := ht.effectOf hE hempty
    (.put address ⟨stored.serialize, serialize_ne_nil stored⟩)
  have hput := putAccount_some heffect
  intro hmem
  rw [hput] at hmem
  have hmem' : ∀ e ∈ putValues effect.batch, e ∈ E := fun e he =>
    hmem e (List.mem_append_right _ he)
  refine ⟨(), _, hput, h.write hE hempty haddress hother rfl heffect hmem' ?_ ?_,
    (ht.writeTrie hE hempty heffect haddress hmem').2.database⟩
  · intro db view hdb hview hbase
    exact .inr ⟨stored, rfl, hstored.grow hdb hview hbase⟩
  · intro m' hread root hroot
    have hlookup := lookup_treeStep (H := H) ht.canon
      (.put address ⟨stored.serialize, serialize_ne_nil stored⟩) (hashedPath H address)
    rw [TrieOp.key, if_pos rfl] at hlookup
    have hlen := (ht.writeTrie hE hempty heffect haddress hmem').1.length_lookup hE hlookup
    rw [valueAfter, accountOf, createAccountFromRLP_serialize hstored.length_storageRoot
      hstored.length_codeHash hlen] at hread
    rw [storageRootOf_of_some hread]
    exact htrie root hroot

/-- An account is removed of which the simple state has no trace. -/
theorem Agrees.remove (h : Agrees H E (E \ {address}) sm m) (hE : CollisionFree H E)
    (hempty : RLP_EMPTY_STRING ∈ E) (haddress : address ∈ E) {state' : SimpleState}
    (hother : SameBut address sm.current state') (habsent : Absent state' address)
    (htrie : ∀ root, lookupEntry (H.hash address) m.storageTries = some root →
      root = keccakRlp H) :
    Ends E (putAccount H address none) m fun _ m' => Agrees H E E ⟨state', sm.saved⟩ m' := by
  obtain ⟨t, ht, -⟩ := h.current
  obtain ⟨effect, heffect⟩ := ht.effectOf hE hempty (.del address)
  have hdel := putAccount_none heffect
  intro hmem
  rw [hdel] at hmem
  refine ⟨(), _, hdel, h.write hE hempty haddress hother rfl heffect
    (fun e he => hmem e (List.mem_append_right _ he)) ?_ ?_⟩
  · intro db view _ _ _
    exact .inl ⟨rfl, habsent⟩
  · intro m' hread root hroot
    rw [storageRootOf_of_none hread]
    exact htrie root hroot

/-- The account that a call reads first. -/
theorem Agrees.readAccount (h : Agrees H E A sm m) (hE : CollisionFree H E)
    (haddress : address ∈ A) :
    m.readAccount H address = .ok none ∧ Absent sm.current address ∨
      ∃ stored, m.readAccount H address = .ok (some stored) ∧
        HoldsAccount H E m.db m.database sm.current address stored := by
  obtain ⟨t, ht, hmatches⟩ := h.current
  rcases hmatches address haddress with ⟨hvalue, habsent⟩ | ⟨stored, hvalue, hstored⟩
  · exact .inl ⟨ht.accountOf_none hE hvalue, habsent⟩
  · exact .inr ⟨stored, ht.accountOf_holds hE hstored hvalue, hstored⟩

theorem getAccount_ok {account : Option Account} (h : m.readAccount H address = .ok account) :
    getAccount H address m = .ok account m := by
  rw [getAccount, get_bind, h]
  rfl

/-- The root that a call takes for the storage trie, which is then in the table. -/
theorem Agrees.getStorageTrie (h : Agrees H E A sm m) (hE : CollisionFree H E) (hA : A ⊆ E)
    (haddress : address ∈ A) {account : Account} (hlen : account.storageRoot.length = 32)
    (hroot : account.storageRoot = m.storageRootOf H address) :
    ∃ m', getStorageTrie H address account m = .ok account.storageRoot m' ∧
      Agrees H E A sm m' ∧ m'.db = m.db ∧ m'.database = m.database ∧ m'.written = m.written ∧
      m'.trie H = m.trie H := by
  unfold MerkleStateManager.getStorageTrie
  rw [get_bind]
  cases hlookup : lookupEntry (H.hash address) m.storageTries with
  | some root =>
    have heq := h.tries address haddress root hlookup
    rw [← hroot] at heq
    exact ⟨m, by rw [heq]; rfl, h, rfl, rfl, rfl, rfl⟩
  | none =>
    obtain ⟨t, ht, hmatches⟩ := h.current
    have ht' : Backed H E (m.setStorageTrie H address account.storageRoot) t :=
      ⟨⟨ht.sound.base, ht.sound.layers⟩, ht.represents, ht.canon, ht.keys⟩
    refine ⟨m.setStorageTrie H address account.storageRoot, ?_,
      ⟨⟨t, ht', hmatches⟩, h.saved, fun b hb root hb' => ?_⟩, rfl, rfl, rfl, rfl⟩
    · dsimp only
      rw [if_neg (not_not.mpr hlen)]
      rfl
    · have hsame : storageRootOf H (m.setStorageTrie H address account.storageRoot) b =
          m.storageRootOf H b := rfl
      rw [hsame]
      rw [setStorageTrie, lookupEntry_insertEntry] at hb'
      split at hb'
      · rename_i heq
        rw [← Option.some.inj hb', hE.injOn (hA hb) (hA haddress) heq]
        exact hroot
      · exact h.tries b hb root hb'

/-- Behind the checkpoints a storage trie was written, whose account is left out until it is put. -/
theorem Agrees.writeStorageTrie (h : Agrees H E E sm m) (hE : CollisionFree H E)
    (hempty : RLP_EMPTY_STRING ∈ E) (haddress : address ∈ E) {effect : Effect}
    (hops : ∀ op ∈ effect.batch, PutsEntry H E op) :
    Agrees H E (E \ {address}) sm (m.writeStorageTrie H address effect) ∧
      Grows H E m (m.writeStorageTrie H address effect) := by
  obtain ⟨t, ht, hmatches⟩ := h.current
  have hgrows : Grows H E m (m.writeStorageTrie H address effect) :=
    ht.sound.setBase hE hops rfl rfl
  have ht' := ht.grow hE hempty hgrows rfl
  have hbase := empty_of_entries hE hempty hgrows.sound.base
  refine ⟨⟨⟨t, ht', fun b hb => ?_⟩, h.saved_of_grows hE hempty hgrows, ?_⟩, hgrows⟩
  · exact (hmatches b hb.1).grow hgrows.base hgrows.database hbase
  · intro b hb root hroot
    have hread := ht'.readAccount hE b
    rw [← ht.readAccount hE] at hread
    rw [storageRootOf_congr hread]
    have hne := hash_ne hE hb.1 haddress hb.2
    unfold MerkleStateManager.writeStorageTrie setStorageTrie at hroot
    rw [lookupEntry_insertEntry, if_neg hne] at hroot
    exact h.tries b hb.1 root hroot

end Parts

end MerkleStateManager

end EthereumJS
