import EthereumJS.Mpt.Contract
import EthereumJS.Statemanager.SimpleMerkle

/-! # Runs of the two state managers

Checkpoints, commits and reverts keep the agreement of the state managers, so that all runs of
calls that fit return the same.
-/

namespace EthereumJS

open RLP Patricia Patricia.Tree Overlay Ordered

namespace MerkleStateManager

variable {H : HashKeysFunction} {E : Set Bytes} {sm : SimpleStateManager} {m : MerkleStateManager}

section Transactions

/-- Managers with one database have the same accounts. -/
theorem storageRootOf_of_trie {m m' : MerkleStateManager} (h : m'.trie H = m.trie H)
    (address : Bytes) : m'.storageRootOf H address = m.storageRootOf H address := by
  refine storageRootOf_congr ?_
  unfold readAccount
  rw [h]

theorem database_checkpoint (m : MerkleStateManager) :
    ({ m with checkpoints := ⟨∅, m.root⟩ :: m.checkpoints } : MerkleStateManager).database =
      m.database :=
  DiffMap.empty_overlay _

theorem checkpoint_agrees (h : Agrees H E E sm m) :
    Ends E checkpoint m fun _ m' => Agrees H E E (Nested.checkpoint sm) m' := by
  refine ends_of_ok rfl ?_
  obtain ⟨⟨t, ht, hmatches⟩, hsaved, htries⟩ := h
  have hdatabase := database_checkpoint m
  have htrie : ({ m with checkpoints := ⟨∅, m.root⟩ :: m.checkpoints } : MerkleStateManager).trie H =
      m.trie H := by
    unfold trie
    rw [hdatabase]
  refine ⟨⟨t, ⟨⟨ht.sound.base, ?_⟩, ?_, ht.canon, ht.keys⟩, ?_⟩, ?_, ?_⟩
  · exact List.forall_mem_cons.mpr ⟨DiffMap.entries_empty, ht.sound.layers⟩
  · rw [htrie]
    exact ht.represents
  · rw [hdatabase]
    exact hmatches
  · exact .cons ⟨t, ht.represents, ht.canon, ht.keys, hmatches⟩ hsaved
  · intro a ha root hroot
    rw [storageRootOf_of_trie htrie]
    exact htries a ha root hroot

/-- A manager with the same account trie, over a base that grew. -/
theorem Agrees.rebase (h : Agrees H E E sm m) {m' : MerkleStateManager} (hsound : Sound H E m')
    (hE : CollisionFree H E) (hempty : RLP_EMPTY_STRING ∈ E) (hbase : Within m.db m'.db)
    (hdatabase : m'.database = m.database) (hroot : m'.root = m.root)
    (htable : m'.storageTries = m.storageTries) {saved : List SimpleState}
    (hsaved : List.Forall₂ (LevelMatches H E m'.db) (savedLevels m'.db m'.checkpoints) saved) :
    Agrees H E E ⟨sm.current, saved⟩ m' := by
  obtain ⟨⟨t, ht, hmatches⟩, -, htries⟩ := h
  have htrie : m'.trie H = m.trie H := by
    unfold trie
    rw [hroot, hdatabase]
  refine ⟨⟨t, ⟨hsound, htrie ▸ ht.represents, ht.canon, ht.keys⟩, fun a ha => ?_⟩, hsaved, ?_⟩
  · rw [hdatabase]
    exact (hmatches a ha).grow hbase (Within.refl _) (empty_of_entries hE hempty hsound.base)
  · intro a ha root hroot
    rw [storageRootOf_of_trie htrie]
    exact htries a ha root (htable ▸ hroot)

theorem commit_agrees (h : Agrees H E E sm m) (hE : CollisionFree H E)
    (hempty : RLP_EMPTY_STRING ∈ E) (hopen : sm.saved ≠ []) :
    ∃ sm', Nested.commit sm = some sm' ∧ Ends E commit m fun _ m' => Agrees H E E sm' m' := by
  have hsaved := h.saved
  obtain ⟨root, checkpoints, db, storageTries, written⟩ := m
  obtain ⟨current, saved⟩ := sm
  have hsound : Sound H E ⟨root, checkpoints, db, storageTries, written⟩ := by
    obtain ⟨t, ht, -⟩ := h.current
    exact ht.sound
  have hlayers := hsound.layers
  cases checkpoints with
  | nil =>
    cases hsaved
    exact absurd rfl hopen
  | cons cp cps =>
    dsimp only at hlayers
    rw [List.forall_mem_cons] at hlayers
    cases hsaved with
    | cons hlevel hrest =>
      refine ⟨_, rfl, ?_⟩
      cases cps with
      | nil =>
        refine ends_of_ok rfl ?_
        have hwrites : writes cp.keyValueMap.toWrites db = cp.keyValueMap.overlay db :=
          DiffMap.writes_toWrites _ _
        have hwithin : Within db (writes cp.keyValueMap.toWrites db) := by
          rw [hwrites]
          exact hlayers.1.within (entryOf_determines hE) hsound.base
        have hentries : Entries (EntryOf H E) (writes cp.keyValueMap.toWrites db) := by
          rw [hwrites]
          exact hlayers.1.overlay hsound.base
        have hdatabase : (⟨root, [], writes cp.keyValueMap.toWrites db, storageTries, written⟩ :
            MerkleStateManager).database =
            (⟨root, [cp], db, storageTries, written⟩ : MerkleStateManager).database := hwrites
        cases hrest
        exact h.rebase ⟨hentries, hlayers.2⟩ hE hempty hwithin hdatabase rfl rfl .nil
      | cons cur cps =>
        refine ends_of_ok rfl ?_
        have hdatabase : (⟨root, ⟨cp.keyValueMap.merge cur.keyValueMap, cur.root⟩ :: cps,
            db, storageTries, written⟩ : MerkleStateManager).database =
            (⟨root, cp :: cur :: cps, db, storageTries, written⟩ : MerkleStateManager).database :=
          DiffMap.merge_overlay _ _ _
        rw [List.forall_mem_cons] at hlayers
        have hsound' : Sound H E ⟨root, ⟨cp.keyValueMap.merge cur.keyValueMap, cur.root⟩ :: cps, db,
            storageTries, written⟩ :=
          ⟨hsound.base, List.forall_mem_cons.mpr ⟨hlayers.1.merge hlayers.2.1, hlayers.2.2⟩⟩
        exact h.rebase hsound' hE hempty (Within.refl _) hdatabase rfl rfl hrest

theorem revert_agrees (h : Agrees H E E sm m) (hopen : sm.saved ≠ []) :
    ∃ sm', Nested.revert sm = some sm' ∧ Ends E revert m fun _ m' => Agrees H E E sm' m' := by
  obtain ⟨⟨t, ht, -⟩, hsaved, -⟩ := h
  obtain ⟨root, checkpoints, db, storageTries, written⟩ := m
  obtain ⟨current, saved⟩ := sm
  cases checkpoints with
  | nil =>
    cases hsaved
    exact absurd rfl hopen
  | cons cp cps =>
    have hlayers := ht.sound.layers
    dsimp only at hlayers
    rw [List.forall_mem_cons] at hlayers
    cases hsaved with
    | cons hlevel hrest =>
      refine ⟨_, rfl, ends_of_ok rfl ?_⟩
      obtain ⟨u, hrep, hcanon, hkeys, hmatches⟩ := hlevel
      refine ⟨⟨u, ⟨⟨ht.sound.base, hlayers.2⟩, hrep, hcanon, hkeys⟩, hmatches⟩, hrest, ?_⟩
      intro a _ root hroot
      cases hroot

end Transactions

section Runs

theorem step_agrees (h : Agrees H E E sm m) (hE : CollisionFree H E)
    (hempty : RLP_EMPTY_STRING ∈ E) (hnull : [] ∈ E) {call : StateCall}
    (hmem : ∀ e ∈ call.messages, e ∈ E) (hpermits : sm.Permits call)
    (hfits : CallFits H sm m call) :
    ∃ reply sm', sm.step H call = some (reply, sm') ∧
      Ends E (step H call) m fun reply' m' => Agrees H E E sm' m' ∧ reply.Agrees reply' := by
  cases call with
  | getAccount address =>
    obtain ⟨account, hok, hreply⟩ := getAccount_agrees h hE (hmem address List.mem_cons_self)
    refine ⟨_, _, rfl, Ends.bind (ends_of_ok hok (ends_pure ⟨h, hreply⟩)) ?_⟩
    exact fun _ _ => preserves_pure _
  | putAccount address account =>
    refine ⟨_, _, rfl, Ends.bind ?_ fun _ _ => preserves_pure _⟩
    cases account with
    | none =>
      exact (removeAccount_agrees hE hempty h (hmem address List.mem_cons_self) hfits.1
        hfits.2).mono fun _ _ h' => ends_pure ⟨h', trivial⟩
    | some account =>
      exact (putAccount_agrees hE hempty h hnull (hmem address List.mem_cons_self) account rfl
        hfits.1 hfits.2).mono fun _ _ h' => ends_pure ⟨h'.1, trivial⟩
  | deleteAccount address =>
    refine ⟨_, _, rfl, Ends.bind ?_ fun _ _ => preserves_pure _⟩
    exact (removeAccount_agrees hE hempty h (hmem address List.mem_cons_self) hfits.1
      hfits.2).mono fun _ _ h' => ends_pure ⟨h', trivial⟩
  | modifyAccountFields address fields =>
    refine ⟨_, _, rfl, Ends.bind ?_ fun _ _ => preserves_pure _⟩
    exact (modifyAccountFields_agrees hE hempty h hnull (hmem address List.mem_cons_self) hfits.1
      hfits.2).mono fun _ _ h' => ends_pure ⟨h', trivial⟩
  | getCode address =>
    have hok := getCode_agrees h hE hnull (hmem address List.mem_cons_self)
    refine ⟨_, _, rfl, Ends.bind (ends_of_ok hok (ends_pure ⟨h, rfl⟩)) ?_⟩
    exact fun _ _ => preserves_pure _
  | putCode address value =>
    refine ⟨_, _, rfl, Ends.bind ?_ fun _ _ => preserves_pure _⟩
    exact (putCode_agrees hE hempty h hnull (hmem address List.mem_cons_self)
      (hmem value (List.mem_cons_of_mem _ List.mem_cons_self))).mono
      fun _ _ h' => ends_pure ⟨h', trivial⟩
  | getStorage address key =>
    obtain ⟨m', hok, h'⟩ := getStorage_agrees h hE
      (hmem address List.mem_cons_self) (hmem key (List.mem_cons_of_mem _ List.mem_cons_self)) hfits
    refine ⟨_, _, rfl, Ends.bind (ends_of_ok hok (ends_pure ⟨h', storage_agrees _⟩)) ?_⟩
    exact fun _ _ => preserves_pure _
  | putStorage address key value =>
    refine ⟨_, _, rfl, Ends.bind ?_ fun _ _ => preserves_pure _⟩
    exact (putStorage_agrees hE hempty h (hmem address List.mem_cons_self)
      (hmem key (List.mem_cons_of_mem _ List.mem_cons_self)) hfits.1 hfits.2 hpermits).mono
      fun _ _ h' => ends_pure ⟨h', trivial⟩
  | clearStorage address =>
    refine ⟨_, _, rfl, Ends.bind ?_ fun _ _ => preserves_pure _⟩
    exact (clearStorage_agrees hE hempty h (hmem address List.mem_cons_self) hfits.1
      hfits.2).mono fun _ _ h' => ends_pure ⟨h', trivial⟩
  | checkpoint =>
    refine ⟨_, _, rfl, Ends.bind ?_ fun _ _ => preserves_pure _⟩
    exact (checkpoint_agrees h).mono fun _ _ h' => ends_pure ⟨h', trivial⟩
  | commit =>
    obtain ⟨sm', hcommit, hends⟩ := commit_agrees h hE hempty hpermits
    refine ⟨.done, sm', ?_, Ends.bind ?_ fun _ _ => preserves_pure _⟩
    · rw [SimpleStateManager.step, hcommit]
      rfl
    · exact hends.mono fun _ _ h' => ends_pure ⟨h', trivial⟩
  | revert =>
    obtain ⟨sm', hrevert, hends⟩ := revert_agrees h hpermits
    refine ⟨.done, sm', ?_, Ends.bind ?_ fun _ _ => preserves_pure _⟩
    · rw [SimpleStateManager.step, hrevert]
      rfl
    · exact hends.mono fun _ _ h' => ends_pure ⟨h', trivial⟩

theorem written_step (call : StateCall) (calls : List StateCall) {e : Bytes}
    (he : e ∈ (endState (step H call m)).written) :
    e ∈ (endState (run H (call :: calls) m)).written :=
  written_of_bind (fun _ e => (appends_run calls e).bind fun _ => preserves_pure _) he

theorem written_rest {call : StateCall} {calls : List StateCall} {reply : StateReply}
    {mid : MerkleStateManager} (hok : step H call m = .ok reply mid) :
    (endState (run H (call :: calls) m)).written = (endState (run H calls mid)).written := by
  rw [run, bind_of_ok hok, endState_bind_pure]

/-- Managers that agree do so after all calls that fit. -/
theorem run_agrees (h : Agrees H E E sm m) (hE : CollisionFree H E)
    (hempty : RLP_EMPTY_STRING ∈ E) (hnull : [] ∈ E) {calls : List StateCall}
    (hmem : ∀ e ∈ calls.flatMap StateCall.messages, e ∈ E) (hfits : RunFits H sm m calls)
    (hwritten : ∀ e ∈ (endState (run H calls m)).written, e ∈ E) :
    ∃ replies sm' replies' m', sm.run H calls = some (replies, sm') ∧
      run H calls m = .ok replies' m' ∧ Agrees H E E sm' m' ∧
      List.Forall₂ StateReply.Agrees replies replies' := by
  induction calls generalizing sm m with
  | nil => exact ⟨[], sm, [], m, rfl, rfl, h, .nil⟩
  | cons call calls ih =>
    rw [List.flatMap_cons, List.forall_mem_append] at hmem
    obtain ⟨hpermits, hfit, hrest⟩ := hfits
    obtain ⟨reply, sm₁, hstep, hends⟩ := step_agrees h hE hempty hnull hmem.1 hpermits hfit
    obtain ⟨reply', m₁, hok, h₁, hreply⟩ := hends fun e he => hwritten e (written_step call calls he)
    rw [hstep, hok] at hrest
    rw [written_rest hok] at hwritten
    obtain ⟨replies, sm', replies', m', hrun, hrun', h', hreplies⟩ := ih h₁ hmem.2 hrest hwritten
    refine ⟨reply :: replies, sm', reply' :: replies', m', ?_, ?_, h', .cons hreply hreplies⟩
    · rw [SimpleStateManager.run, hstep]
      change (sm₁.run H calls).bind _ = _
      rw [hrun]
      rfl
    · rw [run, bind_of_ok hok, bind_of_ok hrun']
      rfl

theorem agrees_new : Agrees H E E SimpleStateManager.new (new H) := by
  refine ⟨⟨nil, ⟨⟨fun k v h => ?_, fun cp h => ?_⟩, ?_, .inl rfl, fun k v h => ?_⟩, fun a _ => ?_⟩,
    .nil, fun a _ root h => ?_⟩
  · cases h
  · cases h
  · exact ⟨rfl, trivial, trivial, trivial, fun h => absurd rfl h, rfl⟩
  · rw [lookup_nil] at h
    cases h
  · exact .inl ⟨lookup_nil _, rfl, rfl, fun _ => rfl⟩
  · cases h

theorem messages_subset_callMessages (H : HashKeysFunction) (calls : List StateCall) :
    ∀ e ∈ calls.flatMap StateCall.messages, e ∈ callMessages H calls := fun _ he =>
  List.mem_cons_of_mem _ (List.mem_cons_of_mem _ (List.mem_append_left _ he))

theorem written_subset_callMessages (H : HashKeysFunction) (calls : List StateCall) :
    ∀ e ∈ (endState (run H calls (new H))).written, e ∈ callMessages H calls := fun _ he =>
  List.mem_cons_of_mem _ (List.mem_cons_of_mem _ (List.mem_append_right _ he))

theorem empty_mem_callMessages (H : HashKeysFunction) (calls : List StateCall) :
    RLP_EMPTY_STRING ∈ callMessages H calls := List.mem_cons_self

theorem nil_mem_callMessages (H : HashKeysFunction) (calls : List StateCall) :
    [] ∈ callMessages H calls := List.mem_cons_of_mem _ List.mem_cons_self

end Runs

end MerkleStateManager

open MerkleStateManager in
/-- The simple state manager answers all calls as the Merkle one does. -/
theorem simpleStateManager_agrees (H : HashKeysFunction) (calls : List StateCall)
    (hfits : RunFits H SimpleStateManager.new (MerkleStateManager.new H) calls)
    (hE : CollisionFree H (callMessages H calls)) :
    ∃ replies sm replies' m, SimpleStateManager.new.run H calls = some (replies, sm) ∧
      MerkleStateManager.run H calls (MerkleStateManager.new H) = .ok replies' m ∧
      List.Forall₂ StateReply.Agrees replies replies' := by
  obtain ⟨replies, sm, replies', m, hrun, hok, -, hreplies⟩ := run_agrees agrees_new hE
    (empty_mem_callMessages H calls) (nil_mem_callMessages H calls)
    (messages_subset_callMessages H calls) hfits (written_subset_callMessages H calls)
  exact ⟨replies, sm, replies', m, hrun, hok, hreplies⟩

def seventhSlot : Bytes := List.replicate 31 0 ++ [7]

def undoneCalls : List StateCall :=
  [.putStorage [2] seventhSlot [0, 0], .clearStorage [2], .deleteAccount [1], .putCode [3] [0x61]]

def storingCalls : List StateCall :=
  [.modifyAccountFields [1] ⟨none, some 5, none, none⟩, .putCode [2] [0x60],
    .putStorage [2] seventhSlot [0, 9], .checkpoint] ++ undoneCalls ++
  [.revert, .getAccount [1], .getCode [2], .getStorage [2] seventhSlot]

theorem simpleStateManager_agrees_storing :
    ∃ replies sm replies' m,
      SimpleStateManager.new.run polynomialHash storingCalls = some (replies, sm) ∧
      MerkleStateManager.run polynomialHash storingCalls (MerkleStateManager.new polynomialHash) =
        .ok replies' m ∧ List.Forall₂ StateReply.Agrees replies replies' :=
  simpleStateManager_agrees polynomialHash storingCalls (by decide +kernel)
    (collisionFree_of_list (by decide +kernel))

end EthereumJS
