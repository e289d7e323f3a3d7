import EthereumJS.Client.SelectionPool
import EthereumJS.Ordered.Numbered

/-! # When the transactions for a block are the right ones

The selection throws if there is a sender whose first transaction is underpriced beside another one.
Otherwise it is right as long as the pool has no gap between the nonces of a sender and no nonce
below that of the account.
-/

namespace EthereumJS.Client.TxPool

open RLP Tx Ordered

section Right

variable (config : PoolConfig) (vm : SelectionVM) (baseFee : Option Nat)

def ofSender (address : Bytes) (tx : Tx.Transaction) : Bool :=
  config.getSenderAddress tx = .ok address

/-- What a selection is for. It is made from the pool `kept` without blob transactions of the old
format. A candidate that does not fit is passed over. -/
structure RightSelection (pool kept : InsertionMap Bytes (List TxPoolObject))
    (allowedBlobs : Option Nat) (txs : List Tx.Transaction) : Prop where
  pooled : ∀ tx ∈ txs, ∃ address, PooledAt kept address tx
  consecutive : ∀ address, Numbered (fun tx : Tx.Transaction => tx.base.nonce) (vm.nonce address)
    (txs.filter (ofSender config address))
  pays : ∀ tx ∈ txs, pays baseFee tx = true
  complete : ∀ address (run : List Tx.Transaction),
    Numbered (fun tx : Tx.Transaction => tx.base.nonce) (vm.nonce address) run →
    (∀ tx ∈ run, PooledAt pool address tx ∧ isBlob tx = false ∧ TxPool.pays baseFee tx = true) →
    run <+: txs.filter (ofSender config address)
  blobs : ∀ allowed, allowedBlobs = some allowed → (txs.map blobCount).sum ≤ allowed
  best : ∀ front tx back, txs = front ++ tx :: back →
    ∀ address candidate, Ready vm kept address → PooledAt kept address candidate →
    candidate.base.nonce = vm.nonce address + (front.filter (ofSender config address)).length →
    TxPool.pays baseFee candidate = true →
    normalizedGasPrice candidate baseFee ≤ normalizedGasPrice tx baseFee ∨
      isSkipped vm allowedBlobs (front.map blobCount).sum candidate = true

/-- The pools from which the selection is right. -/
structure Orderly (pool : InsertionMap Bytes (List TxPoolObject)) : Prop where
  firstPays : ∀ address other, address ≠ other → Ready vm pool address → Ready vm pool other →
    ∀ tx, PooledAt pool address tx → tx.base.nonce = vm.nonce address → pays baseFee tx = true
  noGap : ∀ address tx, Ready vm pool address → PooledAt pool address tx →
    (∀ other, PooledAt pool address other → other.base.nonce ≤ tx.base.nonce →
      pays baseFee other = true ∧ isFutureFork vm other = false) →
    ∀ n, vm.nonce address ≤ n → n ≤ tx.base.nonce →
      ∃ other, PooledAt pool address other ∧ other.base.nonce = n
  noneBelow : ∀ address tx, PooledAt pool address tx → tx.base.nonce = vm.nonce address →
    isBlob tx = false → pays baseFee tx = true →
    ∀ other, PooledAt pool address other → vm.nonce address ≤ other.base.nonce

variable {config vm baseFee} {pool : InsertionMap Bytes (List TxPoolObject)}
  {handled : InsertionMap Bytes HandledObject} {time : Int} {allowedBlobs : Option Nat}
  {lists : List (Bytes × List Tx.Transaction)} {txs : List Tx.Transaction} {address : Bytes}

theorem ListsOf.ready (h : ListsOf config vm baseFee pool lists) {objects : List TxPoolObject}
    (hget : pool.get address = some objects) (hready : Ready vm pool address) :
    queueOf lists address = (sortedByNonce objects).takeWhile (TxPool.pays baseFee) :=
  queueOf_of_mem h.toListed ((h.mem _ _).mpr ⟨objects, hget, hready, rfl⟩)

theorem ListsOf.not_nil (h : ListsOf config vm baseFee pool lists) {tx : Tx.Transaction}
    (htx : tx ∈ queueOf lists address) :
    ∃ objects, pool.get address = some objects ∧ Ready vm pool address := by
  obtain ⟨first, rest, hqueue⟩ := List.exists_cons_of_ne_nil (List.ne_nil_of_mem htx)
  obtain ⟨objects, hget, hready, -⟩ := (h.mem _ _).mp (queueOf_cons hqueue)
  exact ⟨objects, hget, hready⟩

theorem ListsOf.owned (h : ListsOf config vm baseFee pool lists) :
    Owned (queueOf lists) (ofSender config) := by
  intro address tx htx other
  obtain ⟨first, rest, hqueue⟩ := List.exists_cons_of_ne_nil (List.ne_nil_of_mem htx)
  rw [hqueue] at htx
  have hsender := h.senders _ (queueOf_cons hqueue) tx htx
  rw [ofSender, hsender, decide_eq_decide, Except.ok.injEq]
  exact eq_comm

/-- The first part of the transactions of a sender as long as all of them pay. -/
theorem prefix_takeWhile {α : Type} {p : α → Bool} {l l' : List α} (hpart : l' <+: l)
    (hall : ∀ a ∈ l', p a = true) : l' <+: l.takeWhile p := by
  obtain ⟨rest, rfl⟩ := hpart
  rw [List.takeWhile_append_of_pos hall]
  exact List.prefix_append _ _

theorem isSkipped_none (tx : Tx.Transaction) (blobsCount : Nat) :
    isSkipped vm none blobsCount tx = isFutureFork vm tx := by
  unfold isSkipped exceedsBlobs
  rw [Bool.and_false, Bool.false_or]

theorem isSkipped_notBlob {tx : Tx.Transaction} (h : isBlob tx = false) (blobsCount : Nat) :
    isSkipped vm allowedBlobs blobsCount tx = false := by
  unfold isSkipped exceedsBlobs
  rw [h, Bool.false_and, Bool.false_or]
  cases tx with
  | blob4844 tx => cases h
  | _ => rfl

theorem isSkipped_mono {tx : Tx.Transaction} {blobsCount more : Nat} (hle : blobsCount ≤ more)
    (h : isSkipped vm allowedBlobs blobsCount tx = true) :
    isSkipped vm allowedBlobs more tx = true := by
  unfold isSkipped exceedsBlobs at h ⊢
  rw [Bool.or_eq_true, Bool.and_eq_true] at h ⊢
  refine h.imp_left fun hexceeds => ⟨hexceeds.1, ?_⟩
  cases allowedBlobs with
  | none => exact hexceeds.2
  | some allowed =>
    have hlimit := of_decide_eq_true hexceeds.2
    exact decide_eq_true (by omega)

theorem blobCount_notBlob {tx : Tx.Transaction} (h : isBlob tx = false) : blobCount tx = 0 := by
  cases tx with
  | blob4844 tx => cases h
  | _ => rfl

theorem fits_limit {allowed blobsCount : Nat} {tx : Tx.Transaction} (hused : blobsCount ≤ allowed)
    (h : ¬ isSkipped vm (some allowed) blobsCount tx = true) :
    blobsCount + blobCount tx ≤ allowed := by
  cases hblob : isBlob tx with
  | false =>
    rw [blobCount_notBlob hblob]
    exact hused
  | true =>
    unfold isSkipped exceedsBlobs at h
    rw [hblob, Bool.true_and, Bool.or_eq_true, not_or] at h
    have hlimit := of_decide_eq_false (Bool.eq_false_iff.mpr h.1)
    omega

theorem ListsOf.mem_queue (h : ListsOf config vm baseFee pool lists) {tx : Tx.Transaction}
    (htx : tx ∈ queueOf lists address) :
    PooledAt pool address tx ∧ TxPool.pays baseFee tx = true := by
  obtain ⟨objects, hget, hready⟩ := h.not_nil htx
  rw [h.ready hget hready] at htx
  exact ⟨(pooledAt_iff hget).mpr ((List.takeWhile_sublist _).subset htx),
    List.mem_takeWhile_imp htx⟩

/-- Transactions without a gap that all pay are the first ones of their sender's list. -/
theorem ListsOf.prefix_queue (h : ListsOf config vm baseFee pool lists)
    (hfiled : Filed config pool handled time) (hready : Ready vm pool address)
    {run : List Tx.Transaction}
    (hrun : Numbered (fun tx : Tx.Transaction => tx.base.nonce) (vm.nonce address) run)
    (hall : ∀ tx ∈ run, PooledAt pool address tx ∧ TxPool.pays baseFee tx = true) :
    run <+: queueOf lists address := by
  obtain ⟨first, ⟨objects, hget, -⟩, -⟩ := hready.1
  have hsorted : run <+: sortedByNonce objects :=
    hrun.prefix_of_subset (sortedByNonce_strict (hfiled.perNonce address objects hget))
      (fun tx htx => hready.2 tx ((pooledAt_iff hget).mpr htx))
      fun tx htx => (pooledAt_iff hget).mp (hall tx htx).1
  rw [h.ready hget hready]
  exact prefix_takeWhile hsorted fun tx htx => (hall tx htx).2

/-- What is selected of a sender has no gap. -/
theorem ListsOf.numbered (h : ListsOf config vm baseFee pool lists)
    (hfiled : Filed config pool handled time) (horderly : Orderly vm baseFee pool)
    (hselects : Selects vm baseFee allowedBlobs (queueOf lists) 0 txs) (address : Bytes) :
    Numbered (fun tx : Tx.Transaction => tx.base.nonce) (vm.nonce address)
      (txs.filter (ofSender config address)) := by
  have hpart : txs.filter (ofSender config address) <+: queueOf lists address :=
    hselects.filter_initial h.owned address
  have hfuture : ∀ tx ∈ txs, isFutureFork vm tx = false := by
    intro tx htx
    obtain ⟨used, hfits⟩ := hselects.fits htx
    rw [Bool.not_eq_true, isSkipped, Bool.or_eq_false_iff] at hfits
    exact hfits.2
  by_cases hnil : txs.filter (ofSender config address) = []
  · rw [hnil]
    exact numbered_nil
  · obtain ⟨first, hfirst⟩ := List.exists_mem_of_ne_nil _ hnil
    obtain ⟨objects, hget, hready⟩ := h.not_nil (hpart.subset hfirst)
    have hstrict := sortedByNonce_strict (hfiled.perNonce address objects hget)
    have hsorted : txs.filter (ofSender config address) <+: sortedByNonce objects := by
      have hqueue := hpart
      rw [h.ready hget hready] at hqueue
      exact hqueue.trans (List.takeWhile_prefix _)
    refine numbered_of_full (hstrict.sublist hsorted.sublist) (fun tx htx => ?_)
      fun tx htx n hlo hle => ?_
    · exact hready.2 tx ((pooledAt_iff hget).mpr (hsorted.subset htx))
    · have hbefore : ∀ other, PooledAt pool address other → other.base.nonce ≤ tx.base.nonce →
          other ∈ txs.filter (ofSender config address) := fun other hother hle =>
        mem_prefix_of_le hstrict hsorted htx ((pooledAt_iff hget).mp hother) hle
      obtain ⟨other, hother, hnonce⟩ := horderly.noGap address tx hready
        ((pooledAt_iff hget).mpr (hsorted.subset htx)) (fun other hother hle => by
          have hin := hbefore other hother hle
          exact ⟨(h.mem_queue (hpart.subset hin)).2,
            hfuture other (List.mem_of_mem_filter hin)⟩) n hlo hle
      exact ⟨other, hbefore other hother (by omega), hnonce⟩

/-- What is merged from lists of an orderly pool is right. -/
theorem right_of_orderly {kept : InsertionMap Bytes (List TxPoolObject)}
    (hfiled : Filed config kept handled time) (h : ListsOf config vm baseFee kept lists)
    (horderly : Orderly vm baseFee kept)
    (hselects : Selects vm baseFee allowedBlobs (queueOf lists) 0 txs)
    (hkept : ∀ address tx, PooledAt pool address tx → isBlob tx = false →
      PooledAt kept address tx) :
    RightSelection config vm baseFee pool kept allowedBlobs txs := by
  have hpart : ∀ address, txs.filter (ofSender config address) <+: queueOf lists address :=
    hselects.filter_initial h.owned
  have hmem : ∀ tx ∈ txs, ∃ address, tx ∈ queueOf lists address := fun tx => hselects.mem
  have hnumbered := h.numbered hfiled horderly hselects
  constructor
  · intro tx htx
    obtain ⟨address, hqueue⟩ := hmem tx htx
    exact ⟨address, (h.mem_queue hqueue).1⟩
  · exact hnumbered
  · intro tx htx
    obtain ⟨address, hqueue⟩ := hmem tx htx
    exact (h.mem_queue hqueue).2
  · intro address run hrun hall
    cases run with
    | nil => exact List.nil_prefix
    | cons first run =>
      have hfirst := (numbered_cons.mp hrun).1
      obtain ⟨hpooled, hblob, hpays⟩ := hall first List.mem_cons_self
      have hready : Ready vm kept address :=
        ⟨⟨first, hkept address first hpooled hblob, hfirst⟩,
          horderly.noneBelow address first (hkept address first hpooled hblob) hfirst hblob hpays⟩
      refine hselects.prefix_filter h.owned ?_ fun tx htx used => ?_
      · exact h.prefix_queue hfiled hready hrun fun tx htx =>
          ⟨hkept address tx (hall tx htx).1 (hall tx htx).2.1, (hall tx htx).2.2⟩
      · rw [isSkipped_notBlob (hall tx htx).2.1]
        exact Bool.false_ne_true
  · rintro allowed rfl
    have hle := hselects.weight_le (fun used tx => fits_limit) (Nat.zero_le allowed)
    omega
  · intro front tx back htxs address candidate hready hpooled hnonce hpays
    have hfront : front.filter (ofSender config address) <+:
        txs.filter (ofSender config address) := by
      rw [htxs, List.filter_append]
      exact List.prefix_append _ _
    -- the candidate comes right behind those of its sender that were selected before
    have hnext : front.filter (ofSender config address) ++ [candidate] <+:
        queueOf lists address := by
      refine h.prefix_queue hfiled hready (((hnumbered address).initial hfront).snoc hnonce) ?_
      intro tx htx
      obtain htx | htx := List.mem_append.mp htx
      · exact h.mem_queue ((hpart address).subset (hfront.subset htx))
      · rw [List.mem_singleton.mp htx]
        exact ⟨hpooled, hpays⟩
    have hget : (queueOf lists address)[(front.filter (ofSender config address)).length]? =
        some candidate := by
      obtain ⟨rest, hrest⟩ := hnext
      rw [← hrest, List.append_assoc, List.getElem?_append_right le_rfl, Nat.sub_self]
      rfl
    have hbest := hselects.best h.owned (fun hle => isSkipped_mono hle) htxs hget
    rw [Nat.zero_add] at hbest
    exact hbest

end Right

section Exact

variable {config : PoolConfig} {vm : SelectionVM} {baseFee : Option Nat}
  {qheap : PriorityHeap (comparBefore baseFee)} {allowedBlobs : Option Nat}
  {pool kept : InsertionMap Bytes (List TxPoolObject)} {handled : InsertionMap Bytes HandledObject}
  {time : Int} {lists : List (Bytes × List Tx.Transaction)} {txs : List Tx.Transaction}
  {address : Bytes}

/-- The list of a sender begins with the transaction at the account nonce. -/
theorem ListsOf.first (hfiled : Filed config pool handled time)
    (h : ListsOf config vm baseFee pool lists) {tx : Tx.Transaction}
    (hready : Ready vm pool address) (hpooled : PooledAt pool address tx)
    (hnonce : tx.base.nonce = vm.nonce address) :
    ∃ txs, (address, txs) ∈ lists ∧ (txs ≠ [] ↔ TxPool.pays baseFee tx = true) := by
  obtain ⟨objects, hget, -⟩ := id hpooled
  refine ⟨_, (h.mem _ _).mpr ⟨objects, hget, hready, rfl⟩, ?_⟩
  have hnumbered : Numbered (fun tx : Tx.Transaction => tx.base.nonce) (vm.nonce address) [tx] :=
    numbered_cons.mpr ⟨hnonce, numbered_nil⟩
  obtain ⟨rest, hsorted⟩ := hnumbered.prefix_of_subset
    (sortedByNonce_strict (hfiled.perNonce address objects hget))
    (fun tx htx => hready.2 tx ((pooledAt_iff hget).mpr htx))
    (List.forall_mem_singleton.mpr ((pooledAt_iff hget).mp hpooled))
  rw [← hsorted, List.singleton_append, List.takeWhile_cons]
  split
  · next hpays => exact iff_of_true (List.cons_ne_nil _ _) hpays
  · next hpays => exact iff_of_false (fun hne => hne rfl) hpays

theorem mergeLists_of_orderly (qheap : PriorityHeap (comparBefore baseFee))
    (allowedBlobs : Option Nat) (hfiled : Filed config kept handled time)
    (h : ListsOf config vm baseFee kept lists) (horderly : Orderly vm baseFee kept) :
    ∃ selected, mergeLists config vm qheap allowedBlobs lists = .ok selected ∧
      Selects vm baseFee allowedBlobs (queueOf lists) 0 selected := by
  refine mergeLists_ok h.toListed ?_
  by_contra hnot
  rw [not_or, not_le] at hnot
  obtain ⟨hmany, hempty⟩ := hnot
  refine hempty fun entry hentry => ?_
  obtain ⟨address, txs⟩ := entry
  obtain ⟨objects, -, hready, -⟩ := (h.mem _ _).mp hentry
  obtain ⟨tx, hpooled, hnonce⟩ := hready.1
  obtain ⟨entry, hmem, hne⟩ := h.toListed.exists_ne hmany address
  obtain ⟨-, -, hready', -⟩ := (h.mem entry.1 entry.2).mp hmem
  obtain ⟨txs', hmem', hpays⟩ := h.first hfiled hready hpooled hnonce
  have heq := queueOf_of_mem h.toListed hentry
  rw [queueOf_of_mem h.toListed hmem'] at heq
  rw [← heq, hpays]
  exact horderly.firstPays address entry.1 hne.symm hready hready' tx hpooled hnonce

/-- Where the selection is right without a limit on blobs, the pool is orderly. -/
theorem orderly_of_right (hfiled : Filed config kept handled time)
    (h : ListsOf config vm baseFee kept lists)
    (hmerge : mergeLists config vm qheap none lists = .ok txs)
    (hright : RightSelection config vm baseFee pool kept none txs)
    (hpool : ∀ address tx, PooledAt kept address tx → PooledAt pool address tx) :
    Orderly vm baseFee kept := by
  have hfirst : ∀ address other, address ≠ other → Ready vm kept address → Ready vm kept other →
      ∀ tx, PooledAt kept address tx → tx.base.nonce = vm.nonce address →
        TxPool.pays baseFee tx = true := by
    intro address other hne hready hother tx hpooled hnonce
    by_contra hpays
    obtain ⟨txs, hmem, hiff⟩ := h.first hfiled hready hpooled hnonce
    have hnil : txs = [] := not_not.mp fun hne => hpays (hiff.mp hne)
    obtain ⟨tx', hpooled', hnonce'⟩ := hother.1
    obtain ⟨txs', hmem', -⟩ := h.first hfiled hother hpooled' hnonce'
    have hmany : 2 ≤ lists.length := by
      match lists, hmem, hmem' with
      | [], hmem, _ => cases hmem
      | [entry], hmem, hmem' =>
        cases List.mem_singleton.mp hmem
        cases List.mem_singleton.mp hmem'
        exact absurd rfl hne
      | _ :: _ :: lists, _, _ => exact Nat.le_add_left 2 lists.length
    have herror : ∃ e, mergeLists config vm qheap none lists = .error e :=
      mergeLists_error ⟨_, hmem, hnil⟩ hmany
    obtain ⟨e, herror⟩ := herror
    rw [herror] at hmerge
    cases hmerge
  have hlists : lists.length ≤ 1 ∨ ∀ entry ∈ lists, entry.2 ≠ [] := by
    by_contra hnot
    rw [not_or, not_le] at hnot
    refine hnot.2 fun entry hentry hnil => ?_
    have herror : ∃ e, mergeLists config vm qheap none lists = .error e :=
      mergeLists_error ⟨entry, hentry, hnil⟩ hnot.1
    obtain ⟨e, herror⟩ := herror
    rw [herror] at hmerge
    cases hmerge
  obtain ⟨selected, hok, hselects⟩ := mergeLists_ok h.toListed hlists
  cases hmerge.symm.trans hok
  constructor
  · exact hfirst
  · intro address tx hready hpooled hall n hlo hle
    obtain ⟨objects, hget, -⟩ := id hpooled
    have hstrict := sortedByNonce_strict (hfiled.perNonce address objects hget)
    obtain ⟨front, back, hsorted⟩ := List.append_of_mem ((pooledAt_iff hget).mp hpooled)
    have hrun : front ++ [tx] <+: sortedByNonce objects :=
      ⟨back, by rw [hsorted, List.append_assoc, List.singleton_append]⟩
    have hbefore : ∀ other ∈ front ++ [tx], TxPool.pays baseFee other = true ∧
        isFutureFork vm other = false := by
      intro other hother
      refine hall other ((pooledAt_iff hget).mpr (hrun.subset hother)) ?_
      obtain hother | hother := List.mem_append.mp hother
      · rw [hsorted] at hstrict
        exact ((List.pairwise_append.mp hstrict).2.2 other hother tx List.mem_cons_self).le
      · rw [List.mem_singleton.mp hother]
    have hselected : front ++ [tx] <+: txs.filter (ofSender config address) := by
      refine hselects.prefix_filter h.owned ?_ fun other hother used => ?_
      · rw [h.ready hget hready]
        exact prefix_takeWhile hrun fun other hother => (hbefore other hother).1
      · rw [isSkipped_none, (hbefore other hother).2]
        exact Bool.false_ne_true
    obtain ⟨other, hother, hnonce⟩ := ((hright.consecutive address).initial hselected).exists_of_le
      (List.mem_append_right _ (List.mem_singleton_self tx)) hlo hle
    exact ⟨other, (pooledAt_iff hget).mpr (hrun.subset hother), hnonce⟩
  · intro address tx hpooled hnonce hblob hpays
    have hrun := hright.complete address [tx] (numbered_cons.mpr ⟨hnonce, numbered_nil⟩)
      (List.forall_mem_singleton.mpr ⟨hpool address tx hpooled, hblob, hpays⟩)
    have hqueue := (hselects.filter_initial h.owned address).subset
      (hrun.subset (List.mem_singleton_self tx))
    obtain ⟨-, -, hready⟩ := h.not_nil hqueue
    exact hready.2

end Exact

section Exactness

/-- The selection is right for every limit on blobs iff the pool is orderly. -/
theorem selection_right_iff (config : PoolConfig) (vm : SelectionVM) (baseFee : Option Nat)
    (qheap : PriorityHeap (comparBefore baseFee)) (self : TxPool) {time : Int}
    (hfiled : Filed config self.pool self.handled time) (hhashed : self.Hashed config)
    (hone : self.NoCollision) :
    (∀ allowedBlobs, ∃ txs,
      (self.txsByPriceAndNonce config vm qheap allowedBlobs).2 = .ok txs ∧
        RightSelection config vm baseFee self.pool (self.removeOldFormat config vm).1.pool
          allowedBlobs txs) ↔
      Orderly vm baseFee (self.removeOldFormat config vm).1.pool := by
  have hkept := filed_removeOldFormat vm hfiled
  obtain ⟨hremoved, hleft⟩ := removeOldFormat_ok vm hhashed hone
  obtain ⟨lists, hlists, hof⟩ := listsOf_pool vm baseFee hkept
  have hselection : ∀ allowedBlobs,
      (self.txsByPriceAndNonce config vm qheap allowedBlobs).2 =
        mergeLists config vm qheap allowedBlobs lists := by
    intro allowedBlobs
    have heq : self.removeOldFormat config vm = ((self.removeOldFormat config vm).1, .ok ()) :=
      Prod.ext rfl hremoved
    unfold txsByPriceAndNonce
    rw [heq]
    dsimp only
    rw [hlists]
  constructor
  · intro h
    obtain ⟨txs, hmerge, hright⟩ := h none
    rw [hselection] at hmerge
    refine orderly_of_right hkept hof hmerge hright fun address tx hpooled => ?_
    obtain ⟨obj, hobj, htx⟩ := pooledAt_iff_holds.mp hpooled
    exact pooledAt_iff_holds.mpr ⟨obj, holds_of_removeOldFormat hobj, htx⟩
  · intro horderly allowedBlobs
    obtain ⟨txs, hmerge, hselects⟩ := mergeLists_of_orderly qheap allowedBlobs hkept hof horderly
    refine ⟨txs, (hselection allowedBlobs).trans hmerge,
      right_of_orderly hkept hof horderly hselects fun address tx hpooled hblob => ?_⟩
    obtain ⟨obj, hobj, rfl⟩ := pooledAt_iff_holds.mp hpooled
    exact pooledAt_iff_holds.mpr ⟨obj, hleft address obj hobj hblob, rfl⟩

/-- Two senders that are told apart by the value of their transactions. -/
def pairConfig : PoolConfig :=
  { sampleConfig with
    getSenderAddress := fun tx => .ok (List.replicate 20 (if tx.base.value = 0 then 17 else 34)) }

def pairTx (value nonce gasPrice : Nat) : Tx.Transaction :=
  .legacy { nonce := nonce, gasPrice := gasPrice, gasLimit := 21000
            toAddress := some (List.replicate 20 51), value := value, data := []
            v := some 27, r := some 1, s := some 1 }

def pairHash (value nonce gasPrice : Nat) : Bytes :=
  pairConfig.keccak256 (pairTx value nonce gasPrice).serialize

def pairPooled (self : TxPool) (value nonce gasPrice : Nat) : TxPool :=
  self.pooled (pairTx value nonce gasPrice) (pairHash value nonce gasPrice)
    (List.replicate 20 (if value = 0 then 17 else 34)) 0

def freshVM : SelectionVM where
  isActivatedEIP _ := false
  nonce _ := 0

def sortedHeap (baseFee : Option Nat) : PriorityHeap (comparBefore baseFee) :=
  PriorityHeap.sorted fun tx => normalizedGasPrice tx baseFee

theorem selection_right_iff_sample :
    (Filed pairConfig (create.pairPooled 0 0 1000000000).pool
        (create.pairPooled 0 0 1000000000).handled 0 ∧
      (create.pairPooled 0 0 1000000000).Hashed pairConfig ∧
      (create.pairPooled 0 0 1000000000).NoCollision) ∧
    ∀ allowedBlobs, ∃ txs,
      ((create.pairPooled 0 0 1000000000).txsByPriceAndNonce pairConfig freshVM
          (sortedHeap (some 7)) allowedBlobs).2 = .ok txs ∧
        RightSelection pairConfig freshVM (some 7) (create.pairPooled 0 0 1000000000).pool
          (create.pairPooled 0 0 1000000000).pool allowedBlobs txs := by
  have honly : ∀ address obj, (create.pairPooled 0 0 1000000000).Holds address obj →
      address = List.replicate 20 17 ∧
        obj = ⟨pairTx 0 0 1000000000, pairHash 0 0 1000000000, 0⟩ := by
    rintro address obj ⟨objects, hget, hobj⟩
    obtain ⟨old, hold, -⟩ | hnew := mem_pooled hget hobj
    · cases hold
    · exact hnew
  have hpooled : ∀ address tx, PooledAt (create.pairPooled 0 0 1000000000).pool address tx →
      address = List.replicate 20 17 ∧ tx = pairTx 0 0 1000000000 := by
    intro address tx h
    obtain ⟨obj, hobj, rfl⟩ := pooledAt_iff_holds.mp h
    obtain ⟨rfl, rfl⟩ := honly address obj hobj
    exact ⟨rfl, rfl⟩
  have hfiled : Filed pairConfig (create.pairPooled 0 0 1000000000).pool
      (create.pairPooled 0 0 1000000000).handled 0 := (filed_create 0).pooled le_rfl rfl
  have hhashed : (create.pairPooled 0 0 1000000000).Hashed pairConfig := by
    intro address obj h
    obtain ⟨-, rfl⟩ := honly address obj h
    rfl
  have hone : (create.pairPooled 0 0 1000000000).NoCollision := by
    intro address obj address' obj' h h' _
    rw [(honly address obj h).2, (honly address' obj' h').2]
  refine ⟨⟨hfiled, hhashed, hone⟩, ?_⟩
  refine (selection_right_iff pairConfig freshVM (some 7) (sortedHeap (some 7))
    (create.pairPooled 0 0 1000000000) hfiled hhashed hone).mpr ?_
  constructor
  · intro address other hne hready hother
    obtain ⟨⟨tx, htx, -⟩, -⟩ := hready
    obtain ⟨⟨tx', htx', -⟩, -⟩ := hother
    exact absurd ((hpooled address tx htx).1.trans (hpooled other tx' htx').1.symm) hne
  · intro address tx hready htx hall n hlo hle
    refine ⟨tx, htx, ?_⟩
    rw [(hpooled address tx htx).2] at hle ⊢
    exact (Nat.le_zero.mp hle).symm
  · intro address tx htx hnonce hblob hpays other hother
    exact Nat.zero_le _

/-- An underpriced transaction of one sender stops the selection for all, and a transaction behind
a gap is selected. -/
theorem not_selection_right :
    ((((create.pairPooled 0 0 1000000000).pairPooled 1 0 3000000000).txsByPriceAndNonce pairConfig
        freshVM (sortedHeap (some 2000000000)) none).2 =
      .error "Cannot read properties of undefined (reading 'supports')") ∧
    (((create.pairPooled 0 0 1000000000).pairPooled 0 2 1000000000).txsByPriceAndNonce pairConfig
        freshVM (sortedHeap none) none).2 =
      .ok [pairTx 0 0 1000000000, pairTx 0 2 1000000000] ∧
    ¬ RightSelection pairConfig freshVM none
        ((create.pairPooled 0 0 1000000000).pairPooled 0 2 1000000000).pool
        ((create.pairPooled 0 0 1000000000).pairPooled 0 2 1000000000).pool none
        [pairTx 0 0 1000000000, pairTx 0 2 1000000000] := by
  refine ⟨by decide +kernel, by decide +kernel, fun h => ?_⟩
  have hnumbered := h.consecutive (List.replicate 20 17)
  revert hnumbered
  unfold Numbered
  decide

end Exactness

end EthereumJS.Client.TxPool
