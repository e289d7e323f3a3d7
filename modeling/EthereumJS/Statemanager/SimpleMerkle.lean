import EthereumJS.Statemanager.MerkleCalls

/-! # The simple state manager in the place of the Merkle one

Where accounts are put with the hash of their code and the root of their storage, and are removed
or cleared only without code and slots, all calls of the two state managers return the same.
-/

namespace EthereumJS

open RLP Patricia Patricia.Tree Overlay Ordered

section Conditions

variable (H : HashKeysFunction) (sm : SimpleStateManager) (m : MerkleStateManager)

/-- A checkpoint is open for a commit or revert, and an account exists for a slot that is put. -/
def SimpleStateManager.Permits : StateCall → Prop
  | .putStorage address _ _ => sm.getAccount address ≠ none
  | .commit => sm.saved ≠ []
  | .revert => sm.saved ≠ []
  | _ => True

/-- A call by which the state managers do not come apart. -/
def CallFits : StateCall → Prop
  | .putAccount address (some account) =>
    account.codeHash = H.hash (sm.getCode address) ∧
      account.storageRoot = m.storageRootOf H address
  | .putAccount address none => sm.getCode address = [] ∧ sm.current.NoStorage address
  | .deleteAccount address => sm.getCode address = [] ∧ sm.current.NoStorage address
  | .modifyAccountFields address fields =>
    (∀ codeHash ∈ fields.codeHash, codeHash = H.hash (sm.getCode address)) ∧
      ∀ root ∈ fields.storageRoot, root = m.storageRootOf H address
  | .getStorage _ key => key.length = 32
  | .putStorage _ key value => key.length = 32 ∧ value.length ≤ 32
  | .clearStorage address => sm.getAccount address ≠ none ∧ sm.current.NoStorage address
  | _ => True

instance decidablePermits : ∀ call, Decidable (sm.Permits call)
  | .putStorage address _ _ => inferInstanceAs (Decidable (sm.getAccount address ≠ none))
  | .commit => decidable_of_iff (sm.saved.isEmpty = false) (by simp [SimpleStateManager.Permits])
  | .revert => decidable_of_iff (sm.saved.isEmpty = false) (by simp [SimpleStateManager.Permits])
  | .getAccount _ | .putAccount _ _ | .deleteAccount _ | .modifyAccountFields _ _ | .getCode _
  | .putCode _ _ | .getStorage _ _ | .clearStorage _ | .checkpoint => isTrue trivial

instance decidableCallFits : ∀ call, Decidable (CallFits H sm m call)
  | .putAccount _ (some _) => inferInstanceAs (Decidable (_ ∧ _))
  | .putAccount _ none | .deleteAccount _ | .clearStorage _ | .modifyAccountFields _ _
  | .putStorage _ _ _ => inferInstanceAs (Decidable (_ ∧ _))
  | .getStorage _ key => inferInstanceAs (Decidable (key.length = 32))
  | .getAccount _ | .getCode _ | .putCode _ _ | .checkpoint | .commit | .revert => isTrue trivial

/-- Every call of a run fits in the states before it. -/
def RunFits : SimpleStateManager → MerkleStateManager → List StateCall → Prop
  | _, _, [] => True
  | sm, m, call :: calls =>
    sm.Permits call ∧ CallFits H sm m call ∧
      match sm.step H call, MerkleStateManager.step H call m with
      | some (_, sm), .ok _ m => RunFits sm m calls
      | _, _ => True

instance decidableRunFits : ∀ sm m calls, Decidable (RunFits H sm m calls)
  | _, _, [] => isTrue trivial
  | sm, m, call :: calls =>
    have : Decidable (match sm.step H call, MerkleStateManager.step H call m with
        | some (_, sm), .ok _ m => RunFits H sm m calls
        | _, _ => True) :=
      match sm.step H call, MerkleStateManager.step H call m with
      | some (_, sm), .ok _ m => decidableRunFits sm m calls
      | none, _ => isTrue trivial
      | some _, .error _ _ => isTrue trivial
    inferInstanceAs (Decidable (sm.Permits call ∧ CallFits H sm m call ∧ _))

end Conditions

/-- What a call has hashed of its arguments. -/
def StateCall.messages : StateCall → List Bytes
  | .getAccount address => [address]
  | .putAccount address _ => [address]
  | .deleteAccount address => [address]
  | .modifyAccountFields address _ => [address]
  | .getCode address => [address]
  | .putCode address value => [address, value]
  | .getStorage address key => [address, key]
  | .putStorage address key _ => [address, key]
  | .clearStorage address => [address]
  | .checkpoint => []
  | .commit => []
  | .revert => []

/-- What a run on a new Merkle state manager has hashed. -/
def callMessages (H : HashKeysFunction) (calls : List StateCall) : Set Bytes :=
  { e | e ∈ RLP_EMPTY_STRING :: [] :: calls.flatMap StateCall.messages ++
    (endState (MerkleStateManager.run H calls (MerkleStateManager.new H))).written }

namespace MerkleStateManager

variable {H : HashKeysFunction} {E : Set Bytes} {sm : SimpleStateManager} {m : MerkleStateManager}
  {address : Bytes}

theorem unpadBytes_of_noStorage {state : SimpleState} (h : state.NoStorage address)
    (key : Bytes) : unpadBytes (state.slot address key) = [] := by
  have hzero := h.slot_eq state key
  rw [bytesToBigInt, ← bytesToNumber_unpadBytes] at hzero
  exact eq_nil_of_bytesToNumber (head_unpadBytes _) hzero

theorem isContract_iff {account : Account} :
    account.isContract H = true ↔ account.codeHash ≠ keccakNull H :=
  decide_eq_true_iff

theorem sameBut_setAccount (state : SimpleState) (account : Option Account) :
    SameBut address state (state.setAccount address account) :=
  ⟨fun b hb => by rw [SimpleState.account_setAccount, if_neg hb], fun _ _ => rfl, fun _ _ => rfl⟩

section Reads

theorem getAccount_agrees (h : Agrees H E E sm m) (hE : CollisionFree H E)
    (haddress : address ∈ E) : ∃ account, getAccount H address m = .ok account m ∧
      (StateReply.account (sm.getAccount address)).Agrees (.account account) := by
  rcases h.readAccount hE haddress with ⟨hread, habsent⟩ | ⟨stored, hread, hstored⟩
  · refine ⟨none, getAccount_ok hread, ?_⟩
    change (sm.current.account address).map _ = _
    rw [habsent.account]
  · obtain ⟨account, haccount, heq⟩ := hstored.account
    refine ⟨some stored, getAccount_ok hread, ?_⟩
    change (sm.current.account address).map _ = _
    rw [haccount, heq]
    rfl

theorem getCode_agrees (h : Agrees H E E sm m) (hE : CollisionFree H E) (hnull : [] ∈ E)
    (haddress : address ∈ E) : getCode H address m = .ok (sm.getCode address) m := by
  unfold getCode
  rcases h.readAccount hE haddress with ⟨hread, habsent⟩ | ⟨stored, hread, hstored⟩
  · rw [bind_of_ok (getAccount_ok hread), SimpleStateManager.getCode, habsent.code]
    rfl
  · rw [bind_of_ok (getAccount_ok hread)]
    dsimp only
    by_cases hcode : sm.current.code address = []
    · have hnull : stored.codeHash = keccakNull H := by rw [hstored.codeHash, hcode, keccakNull]
      rw [if_pos fun hcontract => isContract_iff.mp hcontract hnull, SimpleStateManager.getCode,
        hcode]
      rfl
    · have hcontract : stored.isContract H = true := by
        refine isContract_iff.mpr fun heq => hcode ?_
        rw [hstored.codeHash] at heq
        exact hE.injOn hstored.code_mem hnull heq
      rw [if_neg (not_not.mpr hcontract), get_bind, hstored.codeHash, hstored.code hcode]
      rfl

theorem getStorage_agrees (h : Agrees H E E sm m) (hE : CollisionFree H E)
    (haddress : address ∈ E) {key : Bytes} (hkey : key ∈ E) (hlen : key.length = 32) :
    ∃ m', getStorage H address key m = .ok (.bytes (unpadBytes (sm.getStorage address key))) m' ∧
      Agrees H E E sm m' := by
  unfold getStorage
  rw [if_neg (not_not.mpr hlen)]
  rcases h.readAccount hE haddress with ⟨hread, habsent⟩ | ⟨stored, hread, hstored⟩
  · refine ⟨m, ?_, h⟩
    dsimp only
    rw [bind_of_ok (getAccount_ok hread), SimpleStateManager.getStorage, habsent.slots key]
    rfl
  · obtain ⟨u, hu⟩ := hstored.slots
    obtain ⟨m', htrie, hagrees, hdb, -, -, -⟩ := h.getStorageTrie hE Set.Subset.rfl haddress
      hu.length_root (storageRootOf_of_some hread).symm
    refine ⟨m', ?_, hagrees⟩
    dsimp only
    rw [bind_of_ok (getAccount_ok hread)]
    dsimp only
    rw [bind_of_ok htrie, get_bind, storageTrie, hdb, hu.get hE hkey]
    change ofExcept ((decodeValue _).mapError .bytes) m' = _
    rw [hu.decodeValue hE hkey]
    rfl

theorem storage_agrees (value : Bytes) :
    (StateReply.storage (.bytes value)).Agrees (.storage (.bytes (unpadBytes value))) :=
  (bytesToNumber_unpadBytes value).symm

end Reads

section Writes

variable (hE : CollisionFree H E) (hempty : RLP_EMPTY_STRING ∈ E) (hnull : [] ∈ E)

include hE hempty

/-- The storage of an account that is put with the right root. -/
theorem exists_slots (h : Agrees H E E sm m) (haddress : address ∈ E) :
    ∃ u, HoldsSlots H E m.db (m.storageRootOf H address) (sm.current.slot address) u := by
  rcases h.readAccount hE haddress with ⟨hread, habsent⟩ | ⟨stored, hread, hstored⟩
  · obtain ⟨t, ht, -⟩ := h.current
    rw [storageRootOf_of_none hread]
    exact ⟨_, holdsSlots_empty (empty_of_entries hE hempty ht.sound.base)
      fun key _ => habsent.slots key⟩
  · rw [storageRootOf_of_some hread]
    exact hstored.slots

omit hempty in
theorem exists_code (h : Agrees H E E sm m) (hnull : [] ∈ E) (haddress : address ∈ E) :
    sm.current.code address ∈ E ∧ (sm.current.code address ≠ [] →
      m.database (codeKey (H.hash (sm.current.code address))) =
        some (sm.current.code address)) := by
  rcases h.readAccount hE haddress with ⟨-, habsent⟩ | ⟨stored, -, hstored⟩
  · rw [habsent.code]
    exact ⟨hnull, fun hne => absurd rfl hne⟩
  · exact ⟨hstored.code_mem, hstored.code⟩

theorem putAccount_agrees (h : Agrees H E E sm m) (hnull : [] ∈ E) (haddress : address ∈ E)
    (account : Account) {stored : Account}
    (hstored : stored = { account with storageRoot := stored.storageRoot })
    (hcode : stored.codeHash = H.hash (sm.getCode address))
    (hroot : stored.storageRoot = m.storageRootOf H address) :
    Ends E (putAccount H address (some stored)) m fun _ m' =>
      Agrees H E E (sm.putAccount address (some account)) m' ∧
        Within m.database m'.database := by
  obtain ⟨u, hu⟩ := exists_slots hE hempty h haddress
  obtain ⟨hmem, hentry⟩ := exists_code hE h hnull haddress
  refine (h.mono Set.sdiff_subset).put hE hempty haddress (sameBut_setAccount _ (some account))
    ⟨⟨account, ?_, hstored⟩, hcode, hmem, hentry, u, ?_⟩ fun root hlookup => ?_
  · rw [SimpleState.account_setAccount, if_pos rfl]
  · rw [hroot]
    exact hu
  · rw [hroot]
    exact h.tries address haddress root hlookup

omit hE hempty in
theorem getD_eq_of_forall {α : Type} {o : Option α} {a : α} (h : ∀ b ∈ o, b = a) : o.getD a = a := by
  cases o with
  | none => rfl
  | some b => exact h b rfl

theorem modifyAccountFields_agrees (h : Agrees H E E sm m) (hnull : [] ∈ E)
    (haddress : address ∈ E) {fields : AccountFields}
    (hcode : ∀ codeHash ∈ fields.codeHash, codeHash = H.hash (sm.getCode address))
    (hroot : ∀ root ∈ fields.storageRoot, root = m.storageRootOf H address) :
    Ends E (modifyAccountFields H address fields) m fun _ m' =>
      Agrees H E E (SimpleStateManager.modifyAccountFields H sm address fields) m' := by
  unfold modifyAccountFields SimpleStateManager.modifyAccountFields
  rcases h.readAccount hE haddress with ⟨hread, habsent⟩ | ⟨stored, hread, hstored⟩
  · refine Ends.bind (ends_of_ok (getAccount_ok hread) ?_) fun _ => appends_putAccount _ _
    have hnone : sm.getAccount address = none := habsent.account
    have hfirst : (Account.empty H).codeHash = H.hash (sm.getCode address) := by
      rw [SimpleStateManager.getCode, habsent.code]
      rfl
    rw [hnone]
    have hcodeHash : ((Account.empty H).modifyFields fields).codeHash =
        H.hash (sm.getCode address) := by
      rw [← hfirst] at hcode ⊢
      exact getD_eq_of_forall hcode
    have hstorageRoot : ((Account.empty H).modifyFields fields).storageRoot =
        m.storageRootOf H address := by
      rw [storageRootOf_of_none hread] at hroot ⊢
      exact getD_eq_of_forall hroot
    have hput := putAccount_agrees hE hempty h hnull haddress
      ((Account.empty H).modifyFields fields) rfl hcodeHash hstorageRoot
    exact hput.mono fun _ _ => And.left
  · refine Ends.bind (ends_of_ok (getAccount_ok hread) ?_) fun _ => appends_putAccount _ _
    obtain ⟨account, haccount, heq⟩ := hstored.account
    have hsome : sm.getAccount address = some account := haccount
    rw [hsome]
    have hcodeHash : (stored.modifyFields fields).codeHash = H.hash (sm.getCode address) := by
      rw [SimpleStateManager.getCode, ← hstored.codeHash] at hcode ⊢
      exact getD_eq_of_forall hcode
    have hstorageRoot : (stored.modifyFields fields).storageRoot = m.storageRootOf H address := by
      rw [storageRootOf_of_some hread] at hroot ⊢
      exact getD_eq_of_forall hroot
    have hvisible : stored.modifyFields fields = { account.modifyFields fields with
        storageRoot := (stored.modifyFields fields).storageRoot } := by
      rw [heq]
      rfl
    have hput := putAccount_agrees hE hempty h hnull haddress _ hvisible hcodeHash hstorageRoot
    exact hput.mono fun _ _ => And.left

/-- An account without slots has the root of the empty trie for its storage. -/
theorem storageRootOf_of_noStorage (h : Agrees H E E sm m) (haddress : address ∈ E)
    (hslots : sm.current.NoStorage address) : m.storageRootOf H address = keccakRlp H := by
  obtain ⟨u, hu⟩ := exists_slots hE hempty h haddress
  exact hu.root_of_empty fun key _ => unpadBytes_of_noStorage hslots key

theorem removeAccount_agrees (h : Agrees H E E sm m) (haddress : address ∈ E)
    (hcode : sm.getCode address = []) (hslots : sm.current.NoStorage address) :
    Ends E (putAccount H address none) m fun _ m' =>
      Agrees H E E (sm.deleteAccount address) m' := by
  refine (h.mono Set.sdiff_subset).remove hE hempty haddress (sameBut_setAccount _ none)
    ⟨?_, hcode, unpadBytes_of_noStorage hslots⟩ fun root hlookup => ?_
  · rw [SimpleState.account_setAccount, if_pos rfl]
  · rw [h.tries address haddress root hlookup]
    exact storageRootOf_of_noStorage hE hempty h haddress hslots

/-- The entry of a code in the database of the account trie. -/
theorem batch_code_agrees (h : Agrees H E E sm m) {value : Bytes} (hvalue : value ∈ E) :
    Agrees H E E sm (m.batch [.put (codeKey (H.hash value)) value]) ∧
      (m.batch [.put (codeKey (H.hash value)) value]).database (codeKey (H.hash value)) =
        some value := by
  obtain ⟨t, ht, -⟩ := h.current
  have hops : ∀ op ∈ [BatchDBOp.put (codeKey (H.hash value)) value], PutsEntry H E op := by
    intro op hop
    obtain rfl := List.mem_singleton.mp hop
    exact ⟨_, _, rfl, .inr ⟨hvalue, rfl⟩⟩
  refine ⟨h.grow hE hempty (ht.sound.batch hE hops) ?_ ?_, ?_⟩
  · unfold MerkleStateManager.batch
    split <;> rfl
  · unfold MerkleStateManager.batch
    split <;> rfl
  · rw [database_batch]
    exact Function.update_self _ _ _

/-- The last part of `putCode`: the account gets the hash. -/
theorem setCodeHash_agrees (h : Agrees H E E sm m) (haddress : address ∈ E) {value : Bytes}
    (hvalue : value ∈ E) (hentry : m.database (codeKey (H.hash value)) = some value)
    {account : Account} (haccount : sm.current.account address = some account) :
    Ends E (modifyAccountFields H address ⟨none, none, none, some (H.hash value)⟩) m fun _ m' =>
      Agrees H E E ⟨(sm.current.setCode address value).setAccount address
        (some { account with codeHash := H.hash value }), sm.saved⟩ m' := by
  rcases h.readAccount hE haddress with ⟨-, habsent⟩ | ⟨stored, hread, hstored⟩
  · rw [habsent.account] at haccount
    cases haccount
  obtain ⟨account', haccount', heq⟩ := hstored.account
  obtain rfl := Option.some.inj (haccount.symm.trans haccount')
  obtain ⟨u, hu⟩ := hstored.slots
  unfold modifyAccountFields
  refine Ends.bind (ends_of_ok (getAccount_ok hread) ?_) fun _ => appends_putAccount _ _
  have hother : SameBut address sm.current ((sm.current.setCode address value).setAccount address
      (some { account with codeHash := H.hash value })) := by
    refine ⟨fun b hb => ?_, fun b hb => ?_, fun _ _ => rfl⟩
    · rw [SimpleState.account_setAccount, if_neg hb]
      rfl
    · rw [SimpleState.code_setAccount, SimpleState.code_setCode, if_neg hb]
  have hstored' : HoldsAccount H E m.db m.database ((sm.current.setCode address value).setAccount
      address (some { account with codeHash := H.hash value })) address
      { stored with codeHash := H.hash value } := by
    refine ⟨⟨_, by rw [SimpleState.account_setAccount, if_pos rfl], ?_⟩, ?_, ?_, fun _ => ?_, u, hu⟩
    · rw [heq]
    · rw [SimpleState.code_setAccount, SimpleState.code_setCode, if_pos rfl]
    · rwa [SimpleState.code_setAccount, SimpleState.code_setCode, if_pos rfl]
    · rwa [SimpleState.code_setAccount, SimpleState.code_setCode, if_pos rfl]
  have hroot := storageRootOf_of_some hread
  have hput := (h.mono Set.sdiff_subset).put hE hempty haddress hother hstored'
    fun root hlookup => (h.tries address haddress root hlookup).trans hroot
  exact hput.mono fun _ _ => And.left

/-- The part of `putCode` behind the write of the code. -/
theorem setCode_agrees (h : Agrees H E E sm m) (hnull : [] ∈ E) (haddress : address ∈ E)
    {value : Bytes} (hvalue : value ∈ E)
    (hentry : m.database (codeKey (H.hash value)) = some value) :
    Ends E (do
      if (← getAccount H address) = none then putAccount H address (some (Account.empty H))
      modifyAccountFields H address ⟨none, none, none, some (H.hash value)⟩) m fun _ m' =>
      Agrees H E E (SimpleStateManager.putCode H sm address value) m' := by
  rcases h.readAccount hE haddress with ⟨hread, habsent⟩ | ⟨stored, hread, hstored⟩
  · refine Ends.bind (ends_of_ok (getAccount_ok hread) ?_) fun r e => ?_
    · have hfirst : (Account.empty H).codeHash = H.hash (sm.getCode address) := by
        rw [SimpleStateManager.getCode, habsent.code]
        rfl
      have hput := putAccount_agrees hE hempty h hnull haddress (Account.empty H) rfl hfirst
        (storageRootOf_of_none hread).symm
      rw [if_pos rfl]
      refine Ends.bind (hput.mono fun _ mid hmid => ?_) fun _ => appends_modifyAccountFields _ _
      have haccount : (sm.putAccount address (some (Account.empty H))).current.account address =
          some (Account.empty H) := by
        rw [SimpleStateManager.putAccount, Nested.modify, SimpleState.account_setAccount,
          if_pos rfl]
      refine (setCodeHash_agrees hE hempty hmid.1 haddress hvalue (hmid.2 _ _ hentry)
        haccount).mono fun _ m' hm' => ?_
      rw [SimpleStateManager.putCode_of_none H sm habsent.account,
        SimpleStateManager.putCode_of_some H _ haccount]
      exact hm'
    · split
      · exact (appends_putAccount _ _ e).bind fun _ => appends_modifyAccountFields _ _ e
      · exact appends_modifyAccountFields _ _ e
  · obtain ⟨account, haccount, -⟩ := hstored.account
    refine Ends.bind (ends_of_ok (getAccount_ok hread) ?_) fun r e => ?_
    · rw [if_neg (Option.some_ne_none stored)]
      refine (setCodeHash_agrees hE hempty h haddress hvalue hentry haccount).mono
        fun _ m' hm' => ?_
      rw [SimpleStateManager.putCode_of_some H sm haccount]
      exact hm'
    · split
      · exact (appends_putAccount _ _ e).bind fun _ => appends_modifyAccountFields _ _ e
      · exact appends_modifyAccountFields _ _ e

theorem putCode_agrees (h : Agrees H E E sm m) (hnull : [] ∈ E) (haddress : address ∈ E)
    {value : Bytes} (hvalue : value ∈ E) :
    Ends E (putCode H address value) m fun _ m' =>
      Agrees H E E (SimpleStateManager.putCode H sm address value) m' := by
  obtain ⟨hbatch, hentry⟩ := batch_code_agrees hE hempty h hvalue
  exact setCode_agrees hE hempty hbatch hnull haddress hvalue hentry

/-- A write to the storage trie of an account and then to the account trie. -/
theorem modifyContractStorage_agrees (h : Agrees H E E sm m) (haddress : address ∈ E)
    {stored : Account} (hread : m.readAccount H address = .ok (some stored))
    (hstored : HoldsAccount H E m.db m.database sm.current address stored)
    (modifyTrie : MerklePatriciaTrie → Except MPTError Effect) {effect : Effect}
    (heffect : modifyTrie ⟨hashedOpts H, m.db, stored.storageRoot⟩ = .ok effect)
    {state' : SimpleState} (hother : SameBut address sm.current state')
    (haccount : state'.account address = sm.current.account address)
    (hcode : state'.code address = sm.current.code address)
    (hslots : (∀ e ∈ putValues effect.batch, e ∈ E) →
      (∀ op ∈ effect.batch, PutsEntry H E op) ∧
        ∃ u, HoldsSlots H E (m.db.batch effect.batch) effect.root (state'.slot address) u) :
    Ends E (modifyContractStorage H address stored modifyTrie) m fun _ m' =>
      Agrees H E E ⟨state', sm.saved⟩ m' := by
  obtain ⟨m₁, htrie, hagrees, hdb, hdatabase, -, -⟩ := h.getStorageTrie hE Set.Subset.rfl haddress
    hstored.length_storageRoot (storageRootOf_of_some hread).symm
  unfold modifyContractStorage
  refine Ends.bind (ends_of_ok htrie ?_) fun r => ?_
  · intro hmem
    have hrun : (do
        let effect ← effectOf (modifyTrie ((← get).storageTrie H stored.storageRoot))
        modify fun sm => sm.writeStorageTrie H address effect
        putAccount H address (some { stored with storageRoot := effect.root }) : StateRun Unit) m₁ =
        putAccount H address (some { stored with storageRoot := effect.root })
          (m₁.writeStorageTrie H address effect) := by
      rw [get_bind, storageTrie, hdb, heffect]
      rfl
    rw [hrun] at hmem ⊢
    have hput : ∀ e ∈ putValues effect.batch, e ∈ E := fun e he =>
      hmem e (appends_putAccount _ _ e _ (List.mem_append_right _ he))
    obtain ⟨hops, u, hu⟩ := hslots hput
    obtain ⟨hwritten, hgrows⟩ := hagrees.writeStorageTrie hE hempty haddress hops
    have hbase := empty_of_entries hE hempty hgrows.sound.base
    have hgrown := hstored.grow (hdb ▸ hgrows.base) (hdatabase ▸ hgrows.database) hbase
    obtain ⟨account, hsome, heq⟩ := hgrown.account
    have hstored' : HoldsAccount H E (m₁.writeStorageTrie H address effect).db
        (m₁.writeStorageTrie H address effect).database state' address
        { stored with storageRoot := effect.root } := by
      refine ⟨⟨account, haccount.trans hsome, ?_⟩, ?_, ?_, fun hne => ?_, u, ?_⟩
      · rw [heq]
      · rw [hcode]
        exact hgrown.codeHash
      · rw [hcode]
        exact hgrown.code_mem
      · rw [hcode] at hne ⊢
        exact hgrown.code hne
      · rw [← hdb] at hu
        exact hu
    have htable : ∀ root, lookupEntry (H.hash address)
        (m₁.writeStorageTrie H address effect).storageTries = some root → root = effect.root := by
      intro root hroot
      rw [writeStorageTrie, setStorageTrie, lookupEntry_insertEntry, if_pos rfl] at hroot
      exact (Option.some.inj hroot).symm
    obtain ⟨a, m', hok, hq⟩ := hwritten.put hE hempty haddress hother hstored' htable hmem
    exact ⟨a, m', hok, hq.1⟩
  · exact appends_modifyTrie address stored modifyTrie r

omit hE hempty in
theorem writeContractStorage_eq (account : Account) (key w : Bytes) :
    writeContractStorage H address account key w =
      modifyContractStorage H address account fun trie => trie.effectOf (slotOp key w) := by
  unfold writeContractStorage
  congr 1
  funext trie
  cases w with
  | nil => rfl
  | cons byte w => rfl

omit hE hempty in
theorem slot_setSlot_eq (state : SimpleState) (address key value : Bytes) :
    (state.setSlot address key value).slot address =
      Function.update (state.slot address) key value := by
  funext k
  rw [SimpleState.slot_setSlot, Function.update_apply]
  exact if_congr (by rw [Prod.mk.injEq, and_iff_right rfl]) rfl rfl

theorem putStorage_agrees (h : Agrees H E E sm m) (haddress : address ∈ E) {key value : Bytes}
    (hkey : key ∈ E) (hlen : key.length = 32) (hvalue : value.length ≤ 32)
    (hsome : sm.getAccount address ≠ none) :
    Ends E (putStorage H address key value) m fun _ m' =>
      Agrees H E E (sm.putStorage address key value) m' := by
  rcases h.readAccount hE haddress with ⟨-, habsent⟩ | ⟨stored, hread, hstored⟩
  · exact absurd habsent.account hsome
  obtain ⟨u, hu⟩ := hstored.slots
  obtain ⟨effect, heffect⟩ := hu.represents.effectOf hE hempty rfl (slotOp key (unpadBytes value))
  have hother : SameBut address sm.current (sm.current.setSlot address key value) := by
    refine ⟨fun _ _ => rfl, fun _ _ => rfl, fun b hb => funext fun k => ?_⟩
    rw [SimpleState.slot_setSlot, if_neg fun heq => hb (congrArg Prod.fst heq)]
  have hslots : (∀ e ∈ putValues effect.batch, e ∈ E) →
      (∀ op ∈ effect.batch, PutsEntry H E op) ∧ ∃ u, HoldsSlots H E (m.db.batch effect.batch)
        effect.root ((sm.current.setSlot address key value).slot address) u := by
    intro hmem
    refine ⟨fun op hop => putsEntry_of_isStore
      (hu.represents.isStore hE hempty rfl heffect hmem op hop), ?_⟩
    rw [slot_setSlot_eq]
    exact hu.set hE hempty hkey heffect hmem
  have hmodify := modifyContractStorage_agrees hE hempty h haddress hread hstored
    (fun trie => trie.effectOf (slotOp key (unpadBytes value))) heffect hother rfl rfl
    hslots
  unfold putStorage
  rw [if_neg (not_not.mpr hlen), if_neg (Nat.not_lt.mpr hvalue)]
  refine Ends.bind (ends_of_ok (getAccount_ok hread) ?_) fun r e => ?_
  · dsimp only
    rw [writeContractStorage_eq]
    exact hmodify
  · split
    · exact preserves_throw _
    · exact appends_modifyContractStorage _ _ _ e

theorem clearStorage_agrees (h : Agrees H E E sm m) (haddress : address ∈ E)
    (hsome : sm.getAccount address ≠ none) (hslots : sm.current.NoStorage address) :
    Ends E (clearStorage H address) m fun _ m' => Agrees H E E sm m' := by
  rcases h.readAccount hE haddress with ⟨-, habsent⟩ | ⟨stored, hread, hstored⟩
  · exact absurd habsent.account hsome
  obtain ⟨t, ht, -⟩ := h.current
  have hdb := empty_of_entries hE hempty ht.sound.base
  unfold clearStorage
  refine Ends.bind (ends_of_ok (getAccount_ok hread) ?_) fun _ => appends_modifyContractStorage _ _ _
  refine modifyContractStorage_agrees hE hempty h haddress hread hstored _ rfl
    ⟨fun _ _ => rfl, fun _ _ => rfl, fun _ _ => rfl⟩ rfl rfl fun _ => ⟨fun op hop => ?_, nil, ?_⟩
  · cases hop
  · exact holdsSlots_empty hdb fun key _ => unpadBytes_of_noStorage hslots key

end Writes

end MerkleStateManager

end EthereumJS
