import EthereumJS.Client.SelectionLists

/-! # The pool of a selection

The removal of blob transactions of the old format leaves all others, and what the selection asks of
a pool holds after every run of calls.
-/

namespace EthereumJS.Client.TxPool

open RLP Tx Ordered

section Removal

variable {config : PoolConfig} {vm : SelectionVM} {self : TxPool} {address txHash : Bytes}
  {obj : TxPoolObject}

/-- A transaction lies under a sender. -/
def Holds (self : TxPool) (address : Bytes) (obj : TxPoolObject) : Prop :=
  ∃ objects, self.pool.get address = some objects ∧ obj ∈ objects

theorem holds_removeByHash : (self.removeByHash txHash).Holds address obj ↔
    self.Holds address obj ∧ ∀ entry, self.handled.get txHash = some entry →
      entry.address = address → obj.hash ≠ txHash := by
  unfold removeByHash Holds
  cases hentry : self.handled.get txHash with
  | none => simp
  | some entry =>
    dsimp only
    cases hget : self.pool.get entry.address with
    | none =>
      dsimp only
      refine ⟨fun h => ⟨h, ?_⟩, And.left⟩
      rintro _ heq rfl
      cases heq
      obtain ⟨objects, hobjects, -⟩ := h
      rw [hget] at hobjects
      cases hobjects
    | some objects =>
      dsimp only
      by_cases heq : entry.address = address
      · subst heq
        rw [hget]
        split
        · next hnil =>
          rw [InsertionMap.get_delete, if_pos rfl]
          constructor
          · rintro ⟨_, hnone, -⟩
            cases hnone
          · rintro ⟨⟨_, hobjects, hmem⟩, hne⟩
            cases hobjects
            have hfilter : obj ∈ objects.filter fun poolObj => poolObj.hash ≠ txHash :=
              List.mem_filter.mpr ⟨hmem, decide_eq_true (hne entry rfl rfl)⟩
            rw [List.length_eq_zero_iff.mp hnil] at hfilter
            cases hfilter
        · rw [InsertionMap.get_set, if_pos rfl]
          constructor
          · rintro ⟨_, hobjects, hmem⟩
            cases hobjects
            obtain ⟨hmem, hne⟩ := List.mem_filter.mp hmem
            exact ⟨⟨objects, rfl, hmem⟩, fun _ _ _ => of_decide_eq_true hne⟩
          · rintro ⟨⟨_, hobjects, hmem⟩, hne⟩
            cases hobjects
            exact ⟨_, rfl, List.mem_filter.mpr ⟨hmem, decide_eq_true (hne entry rfl rfl)⟩⟩
      · have hsame : (if (objects.filter fun poolObj => poolObj.hash ≠ txHash).length = 0 then
            self.pool.delete entry.address
            else self.pool.set entry.address
              (objects.filter fun poolObj => poolObj.hash ≠ txHash)).get address =
            self.pool.get address := by
          split
          · rw [InsertionMap.get_delete, if_neg (Ne.symm heq)]
          · rw [InsertionMap.get_set, if_neg (Ne.symm heq)]
        rw [hsame]
        refine ⟨fun h => ⟨h, ?_⟩, And.left⟩
        rintro _ hentry rfl
        cases hentry
        exact absurd rfl heq

theorem holds_of_removeTxs {txs : List Tx.Transaction}
    (h : (self.removeTxs config txs).1.Holds address obj) : self.Holds address obj := by
  induction txs generalizing self with
  | nil => exact h
  | cons tx txs ih =>
    rw [removeTxs] at h
    cases htx : hash config tx with
    | error e =>
      rw [htx] at h
      exact h
    | ok txHash =>
      rw [htx] at h
      exact (holds_removeByHash.mp (ih h)).1

/-- Transactions with other hashes stay in the pool. -/
theorem removeTxs_ok {txs : List Tx.Transaction}
    (hhash : ∀ tx ∈ txs, ∃ txHash, hash config tx = .ok txHash) :
    (self.removeTxs config txs).2 = .ok () ∧
      ∀ address obj, self.Holds address obj → (∀ tx ∈ txs, hash config tx ≠ .ok obj.hash) →
        (self.removeTxs config txs).1.Holds address obj := by
  induction txs generalizing self with
  | nil => exact ⟨rfl, fun _ _ h _ => h⟩
  | cons tx txs ih =>
    rw [List.forall_mem_cons] at hhash
    obtain ⟨⟨txHash, htx⟩, hrest⟩ := hhash
    rw [removeTxs, htx]
    refine ⟨(ih hrest).1, fun address obj h hother => ?_⟩
    rw [List.forall_mem_cons] at hother
    refine (ih hrest).2 address obj
      (holds_removeByHash.mpr ⟨h, fun _ _ _ heq => hother.1 ?_⟩) hother.2
    rw [htx, heq]

/-- Every transaction is stored with its hash. -/
def Hashed (config : PoolConfig) (self : TxPool) : Prop :=
  ∀ address obj, self.Holds address obj → hash config obj.tx = .ok obj.hash

/-- Different transactions in the pool have different hashes. -/
def NoCollision (self : TxPool) : Prop :=
  ∀ address obj address' obj', self.Holds address obj → self.Holds address' obj' →
    obj.hash = obj'.hash → obj.tx = obj'.tx

theorem pooledAt_iff_holds {tx : Tx.Transaction} :
    PooledAt self.pool address tx ↔ ∃ obj, self.Holds address obj ∧ obj.tx = tx := by
  constructor
  · rintro ⟨objects, hget, obj, hmem, htx⟩
    exact ⟨obj, ⟨objects, hget, hmem⟩, htx⟩
  · rintro ⟨obj, ⟨objects, hget, hmem⟩, htx⟩
    exact ⟨objects, hget, obj, hmem, htx⟩

theorem mem_oldFormatBlobTxs {tx : Tx.Transaction} : tx ∈ self.oldFormatBlobTxs ↔
    isOldFormat tx = true ∧ ∃ address obj, self.Holds address obj ∧ obj.tx = tx := by
  rw [oldFormatBlobTxs, List.mem_flatMap]
  constructor
  · rintro ⟨⟨address, objects⟩, hentry, htx⟩
    obtain ⟨hmem, hold⟩ := List.mem_filter.mp htx
    obtain ⟨obj, hobj, rfl⟩ := List.mem_map.mp hmem
    exact ⟨hold, address, obj, ⟨objects, lookupEntry_of_mem self.pool.nodup hentry, hobj⟩, rfl⟩
  · rintro ⟨hold, address, obj, ⟨objects, hget, hobj⟩, rfl⟩
    exact ⟨(address, objects), mem_of_lookupEntry hget,
      List.mem_filter.mpr ⟨List.mem_map_of_mem hobj, hold⟩⟩

theorem filed_removeOldFormat (vm : SelectionVM) {time : Int} (h : Filed config self.pool self.handled time) :
    Filed config (self.removeOldFormat config vm).1.pool
      (self.removeOldFormat config vm).1.handled time := by
  unfold removeOldFormat
  split
  · exact h.removeTxs _
  · exact h

theorem holds_of_removeOldFormat (h : (self.removeOldFormat config vm).1.Holds address obj) :
    self.Holds address obj := by
  unfold removeOldFormat at h
  split at h
  · exact holds_of_removeTxs h
  · exact h

/-- The removal succeeds and leaves all but blob transactions. -/
theorem removeOldFormat_ok (vm : SelectionVM) (hhashed : self.Hashed config) (hone : self.NoCollision) :
    (self.removeOldFormat config vm).2 = .ok () ∧
      ∀ address obj, self.Holds address obj → isBlob obj.tx = false →
        (self.removeOldFormat config vm).1.Holds address obj := by
  unfold removeOldFormat
  split
  · have hhash : ∀ tx ∈ self.oldFormatBlobTxs, ∃ txHash, hash config tx = .ok txHash := by
      intro tx htx
      obtain ⟨-, address, obj, hobj, rfl⟩ := mem_oldFormatBlobTxs.mp htx
      exact ⟨obj.hash, hhashed address obj hobj⟩
    obtain ⟨hok, hkeep⟩ := removeTxs_ok hhash
    refine ⟨hok, fun address obj h hblob => hkeep address obj h fun tx htx heq => ?_⟩
    obtain ⟨hold, address', obj', hobj', rfl⟩ := mem_oldFormatBlobTxs.mp htx
    rw [hhashed address' obj' hobj'] at heq
    rw [hone address' obj' address obj hobj' h (Except.ok.inj heq)] at hold
    cases htx : obj.tx with
    | blob4844 tx =>
      rw [htx] at hblob
      cases hblob
    | _ =>
      rw [htx] at hold
      cases hold
  · exact ⟨rfl, fun _ _ h _ => h⟩

end Removal

section Reached

variable {config : PoolConfig} {self : TxPool} {address : Bytes} {obj : TxPoolObject}

theorem holds_add {request : AddRequest} {now : Int}
    (h : (self.add config request now).1.Holds address obj) :
    self.Holds address obj ∨ hash config obj.tx = .ok obj.hash := by
  unfold TxPool.add at h
  dsimp only at h
  split at h
  · exact .inl h
  · exact .inl h
  · next txHash address' hhash hsender =>
    split at h
    · exact .inl h
    · have hsame := cacheBlobs_same config (self.pooled request.tx txHash address' now) request.tx
      have hpooled : (self.pooled request.tx txHash address' now).Holds address obj →
          self.Holds address obj ∨ hash config obj.tx = .ok obj.hash := by
        rintro ⟨objects, hget, hobj⟩
        obtain ⟨old, hold, hmem⟩ | ⟨-, rfl⟩ := mem_pooled hget hobj
        · exact .inl ⟨old, hold, hmem⟩
        · exact .inr hhash
      split at h
      · next cached e hcached =>
        rw [hcached] at hsame
        obtain ⟨objects, hget, hobj⟩ := h
        rw [failed, hsame.1] at hget
        exact hpooled ⟨objects, hget, hobj⟩
      · next cached hcached =>
        rw [hcached] at hsame
        obtain ⟨objects, hget, hobj⟩ := h
        rw [hsame.1] at hget
        exact hpooled ⟨objects, hget, hobj⟩

theorem holds_cleanup {now later : Int} (h : (self.cleanup now later).Holds address obj) :
    self.Holds address obj := by
  obtain ⟨objects', hget, hobj⟩ := h
  rw [cleanup, InsertionMap.get_update] at hget
  obtain ⟨objects, hobjects, hclean⟩ := Option.bind_eq_some_iff.mp hget
  refine ⟨objects, hobjects, ?_⟩
  unfold cleanObjects at hclean
  dsimp only at hclean
  split at hclean
  · split at hclean
    · cases hclean
    · cases hclean
      exact List.mem_of_mem_filter hobj
  · cases hclean
    exact hobj

theorem Hashed.step (h : self.Hashed config) (timed : TimedCall) :
    (self.step config timed).Hashed config := by
  intro address obj hobj
  obtain ⟨call, now, later⟩ := timed
  cases call with
  | start => exact h address obj hobj
  | add request => exact (holds_add hobj).elim (h address obj) id
  | removeByHash txHash => exact h address obj (holds_removeByHash.mp hobj).1
  | removeNewBlockTxs newBlocks =>
    simp only [TxPool.step, removeNewBlockTxs] at hobj
    split at hobj
    · exact h address obj hobj
    · exact h address obj (holds_of_removeTxs hobj)
  | cleanup => exact h address obj (holds_cleanup hobj)

/-- What the selection asks of a pool holds after every run of calls. -/
theorem sound_states {time : Int} {calls : List TimedCall}
    (h : Filed config self.pool self.handled time) (hhashed : self.Hashed config)
    (hclock : Clocked time calls) : ∀ state ∈ self.states config calls,
      (∃ time, Filed config state.pool state.handled time) ∧ state.Hashed config := by
  induction calls generalizing self time with
  | nil =>
    intro state hstate
    cases hstate
  | cons timed calls ih =>
    obtain ⟨hnow, hlater, hlimit, hclock⟩ := hclock
    have hstep := h.step hnow hlater hlimit
    rw [states, List.forall_mem_cons]
    exact ⟨⟨⟨_, hstep⟩, hhashed.step timed⟩, ih hstep (hhashed.step timed) hclock⟩

end Reached

end EthereumJS.Client.TxPool
