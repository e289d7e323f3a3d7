import EthereumJS.Client.TxPool

/-! # The records of the transaction pool

The lists of the senders and the handled hashes are right after every run of calls. The counter is
right as long as no call replaces a pooled transaction and none removes a handled hash that is not
pooled while its sender has other transactions in the pool.
-/

namespace EthereumJS.Client.TxPool

open RLP Tx Ordered

variable (config : PoolConfig)

/-- The number of pooled transactions. -/
def pooledCount (self : TxPool) : Int := self.pool.total fun objects => objects.length

/-- What the records of a pool are for. -/
structure Bookkept (txPool : TxPool) : Prop where
  counted : txPool.txsInPool = txPool.pooledCount
  ne_nil : ∀ address objects, txPool.pool.get address = some objects → objects ≠ []
  ofSender : ∀ address objects, txPool.pool.get address = some objects → ∀ obj ∈ objects,
    config.getSenderAddress obj.tx = .ok address
  perNonce : ∀ address objects, txPool.pool.get address = some objects →
    (objects.map fun obj => obj.tx.base.nonce).Nodup
  superset : ∀ address objects, txPool.pool.get address = some objects → ∀ obj ∈ objects,
    (txPool.handled.get obj.hash).isSome

section Condition

/-- A transaction that passes its checks replaces none. -/
def ReplacesNone (self : TxPool) (request : AddRequest) : Prop :=
  self.validate config request = .ok () → ∀ address objects,
    config.getSenderAddress request.tx = .ok address → self.pool.get address = some objects →
    ∀ obj ∈ objects, obj.tx.base.nonce ≠ request.tx.base.nonce

/-- A handled hash whose sender has pooled transactions is the hash of one of them. -/
def RemovesOne (self : TxPool) (txHash : Bytes) : Prop :=
  ∀ handled objects, self.handled.get txHash = some handled →
    self.pool.get handled.address = some objects →
    (objects.filter fun obj => obj.hash = txHash).length = 1

def RemovesEach (self : TxPool) : List Transaction → Prop
  | [] => True
  | tx :: txs => ∀ txHash, hash config tx = .ok txHash →
      self.RemovesOne txHash ∧ RemovesEach (self.removeByHash txHash) txs

def OrderlyCall (self : TxPool) : Call → Prop
  | .add request => self.ReplacesNone config request
  | .removeByHash txHash => self.RemovesOne txHash
  | .removeNewBlockTxs newBlocks => self.running = true → self.RemovesEach config newBlocks.flatten
  | .start | .cleanup => True

def OrderlyRun (self : TxPool) : List TimedCall → Prop
  | [] => True
  | timed :: calls => self.OrderlyCall config timed.call ∧ OrderlyRun (self.step config timed) calls

/-- The clock never goes back, and `cleanup` takes no longer than the difference of the two limits. -/
def Clocked (time : Int) : List TimedCall → Prop
  | [] => True
  | timed :: calls => time ≤ timed.now ∧ timed.now ≤ timed.later ∧
      timed.later ≤ timed.now + (HANDLED_CLEANUP_TIME_LIMIT - POOLED_STORAGE_TIME_LIMIT) * 1000 * 60 ∧
      Clocked timed.later calls

end Condition

section Filed

/-- The pool and the handled hashes at a time. An entry of `handled` is no older than the pooled
transaction that it stands for. -/
structure Filed (pool : InsertionMap Bytes (List TxPoolObject))
    (handled : InsertionMap Bytes HandledObject) (time : Int) : Prop where
  ne_nil : ∀ address objects, pool.get address = some objects → objects ≠ []
  ofSender : ∀ address objects, pool.get address = some objects → ∀ obj ∈ objects,
    config.getSenderAddress obj.tx = .ok address
  perNonce : ∀ address objects, pool.get address = some objects →
    (objects.map fun obj => obj.tx.base.nonce).Nodup
  superset : ∀ address objects, pool.get address = some objects → ∀ obj ∈ objects,
    ∃ entry, handled.get obj.hash = some entry ∧ obj.added ≤ entry.added
  added : ∀ address objects, pool.get address = some objects → ∀ obj ∈ objects, obj.added ≤ time

variable {config} {pool : InsertionMap Bytes (List TxPoolObject)}
  {handled : InsertionMap Bytes HandledObject} {time : Int}

theorem Filed.bookkept {self : TxPool} (h : Filed config self.pool self.handled time)
    (hcount : self.txsInPool = self.pooledCount) : self.Bookkept config where
  counted := hcount
  ne_nil := h.ne_nil
  ofSender := h.ofSender
  perNonce := h.perNonce
  superset address objects hget obj hobj := by
    obtain ⟨entry, hentry, -⟩ := h.superset address objects hget obj hobj
    rw [hentry]
    rfl

theorem Filed.later (h : Filed config pool handled time) {time' : Int} (hle : time ≤ time') :
    Filed config pool handled time' :=
  { h with added := fun address objects hget obj hobj =>
      (h.added address objects hget obj hobj).trans hle }

theorem Filed.handle (h : Filed config pool handled time) (hash : Bytes) (entry : HandledObject)
    (hle : time ≤ entry.added) : Filed config pool (handled.set hash entry) time where
  ne_nil := h.ne_nil
  ofSender := h.ofSender
  perNonce := h.perNonce
  added := h.added
  superset address objects hget obj hobj := by
    rw [InsertionMap.get_set]
    split
    · exact ⟨entry, rfl, (h.added address objects hget obj hobj).trans hle⟩
    · exact h.superset address objects hget obj hobj

/-- The lists of some senders may lose transactions. -/
theorem Filed.shrink (h : Filed config pool handled time)
    {pool' : InsertionMap Bytes (List TxPoolObject)}
    (hsub : ∀ address objects', pool'.get address = some objects' → objects' ≠ [] ∧
      ∃ objects, pool.get address = some objects ∧ objects'.Sublist objects) :
    Filed config pool' handled time where
  ne_nil address objects' hget := (hsub address objects' hget).1
  ofSender address objects' hget obj hobj := by
    obtain ⟨-, objects, hold, hlist⟩ := hsub address objects' hget
    exact h.ofSender address objects hold obj (hlist.subset hobj)
  perNonce address objects' hget := by
    obtain ⟨-, objects, hold, hlist⟩ := hsub address objects' hget
    exact (hlist.map _).nodup (h.perNonce address objects hold)
  superset address objects' hget obj hobj := by
    obtain ⟨-, objects, hold, hlist⟩ := hsub address objects' hget
    exact h.superset address objects hold obj (hlist.subset hobj)
  added address objects' hget obj hobj := by
    obtain ⟨-, objects, hold, hlist⟩ := hsub address objects' hget
    exact h.added address objects hold obj (hlist.subset hobj)

theorem mem_pooled {self : TxPool} {tx : Transaction} {hash address address' : Bytes} {now : Int}
    {objects : List TxPoolObject}
    (hget : (self.pooled tx hash address now).pool.get address' = some objects) {obj : TxPoolObject}
    (hobj : obj ∈ objects) :
    (∃ old, self.pool.get address' = some old ∧ obj ∈ old) ∨
      address' = address ∧ obj = ⟨tx, hash, now⟩ := by
  simp only [TxPool.pooled, InsertionMap.get_set] at hget
  split at hget
  · next heq =>
    subst heq
    cases hget
    rcases List.mem_append.mp hobj with hobj | hobj
    · left
      cases hold : self.pool.get address' with
      | none => simp [hold] at hobj
      | some old =>
        rw [hold] at hobj
        exact ⟨old, rfl, (List.mem_filter.mp hobj).1⟩
    · exact .inr ⟨rfl, List.mem_singleton.mp hobj⟩
  · exact .inl ⟨objects, hget, hobj⟩

theorem Filed.pooled {self : TxPool} {tx : Transaction} {hash address : Bytes} {now : Int}
    (h : Filed config self.pool self.handled time) (hle : time ≤ now)
    (hsender : config.getSenderAddress tx = .ok address) :
    Filed config (self.pooled tx hash address now).pool (self.pooled tx hash address now).handled
      now := by
  have h := (h.later hle).handle hash ⟨address, now, none⟩ le_rfl
  constructor
  · intro address' objects hget
    simp only [TxPool.pooled, InsertionMap.get_set] at hget
    split at hget
    · cases hget
      simp
    · exact h.ne_nil address' objects hget
  · intro address' objects hget obj hobj
    rcases mem_pooled hget hobj with ⟨old, hold, hmem⟩ | ⟨rfl, rfl⟩
    · exact h.ofSender address' old hold obj hmem
    · exact hsender
  · intro address' objects hget
    simp only [TxPool.pooled, InsertionMap.get_set] at hget
    split at hget
    · next heq =>
      subst heq
      cases hget
      -- the others of the list have different nonces, and the new transaction none of theirs
      rw [List.map_append, List.nodup_append]
      refine ⟨?_, by simp, ?_⟩
      · cases hold : self.pool.get address' with
        | none => simp
        | some old => exact (List.filter_sublist.map _).nodup (h.perNonce address' old hold)
      · rintro nonce hnonce nonce' hnonce' rfl
        obtain ⟨obj, hobj, rfl⟩ := List.mem_map.mp hnonce
        have hne := (List.mem_filter.mp hobj).2
        simp only [List.map_cons, List.map_nil, List.mem_singleton] at hnonce'
        simp [hnonce'] at hne
    · exact h.perNonce address' objects hget
  · intro address' objects hget obj hobj
    rcases mem_pooled hget hobj with ⟨old, hold, hmem⟩ | ⟨rfl, rfl⟩
    · exact h.superset address' old hold obj hmem
    · exact ⟨⟨address', now, none⟩, by simp [TxPool.pooled], le_rfl⟩
  · intro address' objects hget obj hobj
    rcases mem_pooled hget hobj with ⟨old, hold, hmem⟩ | ⟨rfl, rfl⟩
    · exact h.added address' old hold obj hmem
    · exact le_rfl

theorem Filed.removeByHash {self : TxPool} (h : Filed config self.pool self.handled time)
    (txHash : Bytes) :
    Filed config (self.removeByHash txHash).pool (self.removeByHash txHash).handled time := by
  unfold TxPool.removeByHash
  split
  · exact h
  · next entry _ =>
    split
    · exact h
    · next objects hold =>
      apply h.shrink
      intro address objects' hget
      have hkeep : ∀ (m : InsertionMap Bytes (List TxPoolObject)) objects', m.get address = some objects' →
          (m.get address = self.pool.get address) → objects' ≠ [] ∧
            ∃ objects, self.pool.get address = some objects ∧ objects'.Sublist objects := by
        intro m objects' hm heq
        rw [heq] at hm
        exact ⟨h.ne_nil address objects' hm, objects', hm, List.Sublist.refl _⟩
      dsimp only at hget
      split at hget
      · next hnil =>
        rw [InsertionMap.get_delete] at hget
        split at hget
        · cases hget
        · exact hkeep _ _ hget rfl
      · next hne =>
        rw [InsertionMap.get_set] at hget
        split at hget
        · next heq =>
          subst heq
          cases hget
          exact ⟨fun hnil => hne (by rw [hnil]; rfl), objects, hold, List.filter_sublist⟩
        · exact hkeep _ _ hget rfl

theorem Filed.cleanup {self : TxPool} (h : Filed config self.pool self.handled time)
    {now later : Int}
    (hlater : later ≤ now + (HANDLED_CLEANUP_TIME_LIMIT - POOLED_STORAGE_TIME_LIMIT) * 1000 * 60) :
    Filed config (self.cleanup now later).pool (self.cleanup now later).handled time := by
  -- what stays in a list is young, and its list is not empty
  have hclean : ∀ address objects', (self.cleanup now later).pool.get address = some objects' →
      objects' ≠ [] ∧ ∃ objects, self.pool.get address = some objects ∧ objects'.Sublist objects ∧
        ∀ obj ∈ objects', now - POOLED_STORAGE_TIME_LIMIT * 1000 * 60 ≤ obj.added := by
    intro address objects' hget
    simp only [TxPool.cleanup, InsertionMap.get_update, Option.bind_eq_some_iff, cleanObjects] at hget
    obtain ⟨objects, hold, hget⟩ := hget
    have hyoung : ∀ objects' : List TxPoolObject, objects' = objects.filter
        (fun obj => obj.added ≥ now - POOLED_STORAGE_TIME_LIMIT * 1000 * 60) →
        ∀ obj ∈ objects', now - POOLED_STORAGE_TIME_LIMIT * 1000 * 60 ≤ obj.added := by
      rintro _ rfl obj hobj
      simpa using (List.mem_filter.mp hobj).2
    split at hget
    · split at hget
      · cases hget
      · next hne =>
        cases hget
        exact ⟨fun hnil => hne (by rw [hnil]; rfl), objects, hold, List.filter_sublist,
          hyoung _ rfl⟩
    · next hall =>
      cases hget
      refine ⟨h.ne_nil address _ hold, _, hold, List.Sublist.refl _, hyoung _ ?_⟩
      exact (List.filter_sublist.eq_of_length_le (not_lt.mp hall)).symm
  have hshrunk := h.shrink fun address objects' hget =>
    ⟨(hclean address objects' hget).1, by
      obtain ⟨-, objects, hold, hsub, -⟩ := hclean address objects' hget
      exact ⟨objects, hold, hsub⟩⟩
  refine { hshrunk with superset := ?_ }
  intro address objects' hget obj hobj
  obtain ⟨entry, hentry, hle⟩ := hshrunk.superset address objects' hget obj hobj
  obtain ⟨-, -, -, -, hyoung⟩ := hclean address objects' hget
  have hyoung := hyoung obj hobj
  refine ⟨entry, ?_, hle⟩
  simp only [TxPool.cleanup, InsertionMap.get_update, hentry, Option.bind_some]
  rw [if_neg]
  omega

end Filed

section Counter

theorem pooledCount_pooled {self : TxPool} {tx : Transaction} {hash address : Bytes} {now : Int}
    (hnone : ∀ objects, self.pool.get address = some objects → ∀ obj ∈ objects,
      obj.tx.base.nonce ≠ tx.base.nonce) :
    (self.pooled tx hash address now).pooledCount = self.pooledCount + 1 := by
  simp only [pooledCount, TxPool.pooled, InsertionMap.total_set, InsertionMap.weightAt]
  cases hget : self.pool.get address with
  | none => simp
  | some objects =>
    have hfilter : objects.filter (fun poolObj => poolObj.tx.base.nonce ≠ tx.base.nonce) =
        objects := List.filter_eq_self.mpr fun obj hobj => by simpa using hnone objects hget obj hobj
    simp only [Option.getD_some, hfilter, Option.map_some, List.length_append, List.length_cons,
      List.length_nil]
    push_cast
    omega

theorem pooledCount_removeByHash {self : TxPool} {txHash : Bytes} (h : self.RemovesOne txHash)
    (hcount : self.txsInPool = self.pooledCount) :
    (self.removeByHash txHash).txsInPool = (self.removeByHash txHash).pooledCount := by
  unfold TxPool.removeByHash
  split
  · exact hcount
  · next entry hentry =>
    split
    · exact hcount
    · next objects hold =>
      have hone := h entry objects hentry hold
      have hsum := List.length_eq_length_filter_add (l := objects) fun obj => obj.hash = txHash
      have hfilter : objects.filter (fun obj => !decide (obj.hash = txHash)) =
          objects.filter fun obj => obj.hash ≠ txHash := by simp
      rw [hone, hfilter] at hsum
      have hweight : self.pool.weightAt (fun objects => (objects.length : Int)) entry.address =
          objects.length := by simp [InsertionMap.weightAt, hold]
      change self.txsInPool - 1 = InsertionMap.total _ _
      rw [hcount, pooledCount]
      dsimp only
      split
      · next hnil =>
        rw [InsertionMap.total_delete, hweight]
        omega
      · rw [InsertionMap.total_set, hweight]
        omega

theorem pooledCount_cleanup {self : TxPool} (hcount : self.txsInPool = self.pooledCount)
    (now later : Int) :
    (self.cleanup now later).txsInPool = (self.cleanup now later).pooledCount := by
  simp only [pooledCount, TxPool.cleanup, InsertionMap.total_update] at hcount ⊢
  rw [hcount, ← InsertionMap.total_sub]
  congr 1
  funext objects
  simp only [removedObjects, cleanObjects]
  split
  · split
    · next hnil => simpa using hnil
    · simp
  · simp

end Counter

section Calls

variable {config}

/-- Caching the blobs of a transaction leaves the records alone. -/
def SameRecords (self self' : TxPool) : Prop :=
  self'.pool = self.pool ∧ self'.handled = self.handled ∧ self'.txsInPool = self.txsInPool

theorem foldlM_cacheBlob {networkWrapperVersion : Option Nat} {blobs kzgProofs : List Bytes}
    {entries : List (Bytes × Nat)} {self self' : TxPool}
    (h : entries.foldlM (cacheBlob networkWrapperVersion blobs kzgProofs) self = .ok self') :
    SameRecords self self' := by
  induction entries generalizing self with
  | nil =>
    cases h
    exact ⟨rfl, rfl, rfl⟩
  | cons entry entries ih =>
    rw [List.foldlM_cons] at h
    cases hone : cacheBlob networkWrapperVersion blobs kzgProofs self entry with
    | error e =>
      rw [hone] at h
      cases h
    | ok next =>
      rw [hone] at h
      have hnext : SameRecords self next := by
        unfold cacheBlob at hone
        dsimp only at hone
        split at hone
        · cases hone
          exact ⟨rfl, rfl, rfl⟩
        · split at hone
          · cases hone
            exact ⟨rfl, rfl, rfl⟩
          · cases hone
      obtain ⟨hpool, hhandled, htxs⟩ := ih h
      exact ⟨hpool.trans hnext.1, hhandled.trans hnext.2.1, htxs.trans hnext.2.2⟩

theorem pruneBlobsAndProofsCache_same {self self' : TxPool}
    (h : self.pruneBlobsAndProofsCache config = .ok self') : SameRecords self self' := by
  unfold pruneBlobsAndProofsCache at h
  cases hlimit : configParam config "maxBlobGasPerBlock" with
  | error e =>
    rw [hlimit] at h
    cases h
  | ok blobGasLimit =>
    cases hblob : configParam config "blobGasPerBlob" with
    | error e =>
      rw [hlimit, hblob] at h
      cases h
    | ok blobGasPerBlob =>
      rw [hlimit, hblob] at h
      by_cases hzero : blobGasPerBlob = 0
      · simp [throwIf, hzero, bind, Except.bind] at h
      · simp only [throwIf, hzero, decide_false, Bool.false_eq_true, if_false, bind, Except.bind,
          pure, Except.pure, Except.ok.injEq] at h
        rw [← h]
        exact ⟨rfl, rfl, rfl⟩

theorem cacheBlobs_same (config : PoolConfig) (self : TxPool) (tx : Transaction) :
    SameRecords self (self.cacheBlobs config tx).1 := by
  unfold cacheBlobs
  split
  · split
    · split
      · exact ⟨rfl, rfl, rfl⟩
      · next cached hcached =>
        have hcached := foldlM_cacheBlob hcached
        split
        · exact hcached
        · next pruned hpruned =>
          obtain ⟨hpool, hhandled, htxs⟩ := pruneBlobsAndProofsCache_same hpruned
          exact ⟨hpool.trans hcached.1, hhandled.trans hcached.2.1, htxs.trans hcached.2.2⟩
    · exact ⟨rfl, rfl, rfl⟩
  · exact ⟨rfl, rfl, rfl⟩

/-- What `add` does to the records: nothing, a failure noted, or a transaction pooled, perhaps with
a failure noted after that. -/
theorem add_cases (self : TxPool) (request : AddRequest) (now : Int) :
    SameRecords self (self.add config request now).1 ∨
    (∃ hash entry, entry.added = now ∧
      SameRecords { self with handled := self.handled.set hash entry }
        (self.add config request now).1) ∨
    (∃ hash address, config.getSenderAddress request.tx = .ok address ∧
      self.validate config request = .ok () ∧
      (SameRecords (self.pooled request.tx hash address now) (self.add config request now).1 ∨
        ∃ entry, entry.added = now ∧
          SameRecords { self.pooled request.tx hash address now with
            handled := (self.pooled request.tx hash address now).handled.set hash entry }
            (self.add config request now).1)) := by
  unfold add
  dsimp only
  split
  · exact .inl ⟨rfl, rfl, rfl⟩
  · exact .inl ⟨rfl, rfl, rfl⟩
  · next hash address hhash hsender =>
    right
    split
    · exact .inl ⟨hash, _, rfl, rfl, rfl, rfl⟩
    · next hvalid =>
      refine .inr ⟨hash, address, hsender, hvalid, ?_⟩
      have hsame := cacheBlobs_same config
        (self.pooled request.tx hash address now) request.tx
      split
      · next cached e hcached =>
        rw [hcached] at hsame
        refine .inr ⟨⟨address, now, some e⟩, rfl, hsame.1, ?_, hsame.2.2⟩
        rw [failed, hsame.2.1]
      · next cached hcached =>
        rw [hcached] at hsame
        exact .inl hsame

variable {time : Int}

theorem Filed.same (self : TxPool) {self' : TxPool}
    (h : Filed config self.pool self.handled time)
    (hsame : SameRecords self self') : Filed config self'.pool self'.handled time := by
  rw [hsame.1, hsame.2.1]
  exact h

theorem pooledCount_same {self self' : TxPool} (hsame : SameRecords self self')
    (hcount : self.txsInPool = self.pooledCount) : self'.txsInPool = self'.pooledCount := by
  rw [pooledCount, hsame.1, hsame.2.2]
  exact hcount

theorem Filed.add {self : TxPool} {request : AddRequest} {now : Int}
    (h : Filed config self.pool self.handled time) (hle : time ≤ now) :
    Filed config (self.add config request now).1.pool (self.add config request now).1.handled
      now := by
  rcases add_cases self request now with hsame | ⟨hash, entry, hadded, hsame⟩ |
    ⟨hash, address, hsender, -, hsame | ⟨entry, hadded, hsame⟩⟩
  · exact Filed.same self (h.later hle) hsame
  · exact Filed.same { self with handled := self.handled.set hash entry }
      ((h.later hle).handle hash entry hadded.ge) hsame
  · exact Filed.same _ (h.pooled hle hsender) hsame
  · exact Filed.same { self.pooled request.tx hash address now with
      handled := (self.pooled request.tx hash address now).handled.set hash entry }
      ((h.pooled hle hsender).handle hash entry hadded.ge) hsame

theorem pooledCount_add {self : TxPool} {request : AddRequest} (now : Int)
    (h : self.ReplacesNone config request) (hcount : self.txsInPool = self.pooledCount) :
    (self.add config request now).1.txsInPool = (self.add config request now).1.pooledCount := by
  have hpooled : ∀ hash address, config.getSenderAddress request.tx = .ok address →
      self.validate config request = .ok () →
      (self.pooled request.tx hash address now).txsInPool =
        (self.pooled request.tx hash address now).pooledCount := by
    intro hash address hsender hvalid
    rw [pooledCount_pooled (h hvalid address · hsender), ← hcount]
    rfl
  rcases add_cases self request now with hsame | ⟨hash, entry, -, hsame⟩ |
    ⟨hash, address, hsender, hvalid, hsame | ⟨entry, -, hsame⟩⟩
  · exact pooledCount_same hsame hcount
  · exact pooledCount_same hsame hcount
  · exact pooledCount_same hsame (hpooled hash address hsender hvalid)
  · exact pooledCount_same hsame (hpooled hash address hsender hvalid)

theorem Filed.removeTxs {self : TxPool} (h : Filed config self.pool self.handled time)
    (txs : List Transaction) :
    Filed config (self.removeTxs config txs).1.pool (self.removeTxs config txs).1.handled time := by
  induction txs generalizing self with
  | nil => exact h
  | cons tx txs ih =>
    unfold TxPool.removeTxs
    split
    · exact h
    · next txHash _ => exact ih (h.removeByHash txHash)

theorem pooledCount_removeTxs {self : TxPool} {txs : List Transaction}
    (h : self.RemovesEach config txs) (hcount : self.txsInPool = self.pooledCount) :
    (self.removeTxs config txs).1.txsInPool = (self.removeTxs config txs).1.pooledCount := by
  induction txs generalizing self with
  | nil => exact hcount
  | cons tx txs ih =>
    unfold removeTxs
    split
    · exact hcount
    · next txHash hhash =>
      obtain ⟨hone, hrest⟩ := h txHash hhash
      exact ih hrest (pooledCount_removeByHash hone hcount)

/-- The lists and the handled hashes are right after every call. -/
theorem Filed.step {self : TxPool} {timed : TimedCall}
    (h : Filed config self.pool self.handled time) (hnow : time ≤ timed.now)
    (hlater : timed.now ≤ timed.later)
    (hlimit : timed.later ≤
      timed.now + (HANDLED_CLEANUP_TIME_LIMIT - POOLED_STORAGE_TIME_LIMIT) * 1000 * 60) :
    Filed config (self.step config timed).pool (self.step config timed).handled timed.later := by
  obtain ⟨call, now, later⟩ := timed
  have hall := h.later (hnow.trans hlater)
  cases call with
  | start => exact hall
  | add request => exact (h.add hnow).later hlater
  | removeByHash txHash => exact hall.removeByHash txHash
  | removeNewBlockTxs newBlocks =>
    simp only [TxPool.step, removeNewBlockTxs]
    split
    · exact hall
    · exact hall.removeTxs _
  | cleanup => exact hall.cleanup hlimit

/-- The counter is right after an orderly call. -/
theorem pooledCount_step {self : TxPool} {timed : TimedCall}
    (h : self.OrderlyCall config timed.call) (hcount : self.txsInPool = self.pooledCount) :
    (self.step config timed).txsInPool = (self.step config timed).pooledCount := by
  obtain ⟨call, now, later⟩ := timed
  cases call with
  | start => exact hcount
  | add request => exact pooledCount_add now h hcount
  | removeByHash txHash => exact pooledCount_removeByHash h hcount
  | removeNewBlockTxs newBlocks =>
    simp only [step, removeNewBlockTxs]
    split
    · exact hcount
    · next hrunning => exact pooledCount_removeTxs (h (by simpa using hrunning)) hcount
  | cleanup => exact pooledCount_cleanup hcount now later

theorem filed_create (time : Int) :
    Filed config (create.pool) (create.handled) time := by
  constructor <;> intro address objects hget <;> simp [create] at hget

theorem bookkept_states {self : TxPool} {calls : List TimedCall}
    (h : Filed config self.pool self.handled time) (hcount : self.txsInPool = self.pooledCount)
    (hclock : Clocked time calls) (horderly : self.OrderlyRun config calls) :
    ∀ state ∈ self.states config calls, state.Bookkept config := by
  induction calls generalizing self time with
  | nil => simp [states]
  | cons timed calls ih =>
    obtain ⟨hnow, hlater, hlimit, hclock⟩ := hclock
    obtain ⟨hcall, horderly⟩ := horderly
    have hstep := h.step hnow hlater hlimit
    have hcount := pooledCount_step hcall hcount
    simp only [states, List.forall_mem_cons]
    exact ⟨hstep.bookkept hcount, ih hstep hcount hclock horderly⟩

/-- After each call of an orderly run on a fresh pool the records are right. -/
theorem create_bookkept (config : PoolConfig) (time : Int) (calls : List TimedCall)
    (hclock : Clocked time calls) (horderly : create.OrderlyRun config calls) :
    ∀ state ∈ create.states config calls, state.Bookkept config :=
  bookkept_states (filed_create time) rfl hclock horderly

end Calls

section Samples

/-- One sender, and a hash that tells the encodings of the samples apart. -/
def sampleConfig : PoolConfig where
  keccak256 data := (data ++ List.replicate 32 0).take 32
  getSenderAddress _ := .ok (List.replicate 20 17)
  param _ := none
  blobsAndProofsCacheBlocks := 1

def sampleTx (nonce gasPrice : Nat) : Transaction :=
  .legacy { nonce := nonce, gasPrice := gasPrice, gasLimit := 21000
            toAddress := some (List.replicate 20 34), value := 0, data := []
            v := some 27, r := some 1, s := some 1 }

def sampleHash (nonce gasPrice : Nat) : Bytes :=
  sampleConfig.keccak256 (sampleTx nonce gasPrice).serialize

def sampleAdd (nonce gasPrice : Nat) (now : Int) : TimedCall where
  call := .add
    { tx := sampleTx nonce gasPrice
      common := { chainId := 1, hardfork := .cancun, eips := [], param := fun _ => 0, kzg := true }
      isLocalTransaction := false
      getCanonicalHeadHeader := .ok { baseFeePerGas := some 7, gasLimit := 30000000 }
      getAccount := .ok (some (0, 10 ^ 18)) }
  now := now
  later := now

def sampleRemove (nonce gasPrice : Nat) (now : Int) : TimedCall where
  call := .removeByHash (sampleHash nonce gasPrice)
  now := now
  later := now

def orderlyCalls : List TimedCall :=
  [sampleAdd 0 1000000000 0, sampleRemove 0 1000000000 1, { call := .cleanup, now := 2, later := 3 }]

def replacingCalls : List TimedCall := [sampleAdd 0 1000000000 0, sampleAdd 0 2000000000 1]

def removingCalls : List TimedCall :=
  [sampleAdd 0 1000000000 0, sampleAdd 1 1000000000 1, sampleRemove 0 1000000000 2,
    sampleRemove 0 1000000000 3]

theorem create_bookkept_sample :
    (Clocked 0 orderlyCalls ∧ create.OrderlyRun sampleConfig orderlyCalls) ∧
    ∀ state ∈ create.states sampleConfig orderlyCalls, state.Bookkept sampleConfig := by
  have hclock : Clocked 0 orderlyCalls := by
    simp [Clocked, orderlyCalls, sampleAdd, sampleRemove, HANDLED_CLEANUP_TIME_LIMIT,
      POOLED_STORAGE_TIME_LIMIT]
  have horderly : create.OrderlyRun sampleConfig orderlyCalls := by
    refine ⟨?_, ?_, trivial, trivial⟩
    · intro _ address objects _ hget
      cases hget
    · intro handled objects hhandled hget
      have haddress : ((create.step sampleConfig (sampleAdd 0 1000000000 0)).handled.get
          (sampleHash 0 1000000000)).map HandledObject.address = some (List.replicate 20 17) := by
        decide +kernel
      have hone : ((create.step sampleConfig (sampleAdd 0 1000000000 0)).pool.get
          (List.replicate 20 17)).map (fun objects => (objects.filter
            fun obj => obj.hash = sampleHash 0 1000000000).length) = some 1 := by
        decide +kernel
      rw [hhandled, Option.map_some, Option.some_inj] at haddress
      rw [haddress] at hget
      rw [hget] at hone
      exact Option.some_inj.mp hone
  exact ⟨⟨hclock, horderly⟩, create_bookkept sampleConfig 0 orderlyCalls hclock horderly⟩

/-- A replaced transaction is counted twice, and one that is removed twice is taken off twice. -/
theorem not_create_bookkept :
    (Clocked 0 replacingCalls ∧
      ¬ ∀ state ∈ create.states sampleConfig replacingCalls, state.Bookkept sampleConfig) ∧
    (Clocked 0 removingCalls ∧
      ¬ ∀ state ∈ create.states sampleConfig removingCalls, state.Bookkept sampleConfig) := by
  have hreplaced : (create.states sampleConfig replacingCalls).map
      (fun state => (state.txsInPool, state.pooledCount)) = [(1, 1), (2, 1)] := by decide +kernel
  have hremoved : (create.states sampleConfig removingCalls).map
      (fun state => (state.txsInPool, state.pooledCount)) = [(1, 1), (2, 2), (1, 1), (0, 1)] := by
    decide +kernel
  have hcounted : ∀ states : List TxPool, (∀ state ∈ states, state.Bookkept sampleConfig) →
      ∀ pair ∈ states.map (fun state => (state.txsInPool, state.pooledCount)), pair.1 = pair.2 := by
    intro states hall pair hpair
    obtain ⟨state, hstate, rfl⟩ := List.mem_map.mp hpair
    exact (hall state hstate).counted
  refine ⟨⟨?_, fun hall => ?_⟩, ?_, fun hall => ?_⟩
  · simp [Clocked, replacingCalls, sampleAdd, HANDLED_CLEANUP_TIME_LIMIT, POOLED_STORAGE_TIME_LIMIT]
  · have hpairs := hcounted _ hall
    rw [hreplaced] at hpairs
    exact absurd (hpairs (2, 1) (by simp)) (by decide)
  · simp [Clocked, removingCalls, sampleAdd, sampleRemove, HANDLED_CLEANUP_TIME_LIMIT,
      POOLED_STORAGE_TIME_LIMIT]
  · have hpairs := hcounted _ hall
    rw [hremoved] at hpairs
    exact absurd (hpairs (0, 1) (by simp)) (by decide)

end Samples

end EthereumJS.Client.TxPool
