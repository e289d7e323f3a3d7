import Mathlib.Data.List.TakeWhile
import EthereumJS.Client.TxSelection

/-! # The lists that are merged

The merge succeeds for at most one list and for lists that are not empty. The list of a sender is
there if its lowest nonce is that of the account, and ends before the first transaction that does
not pay the base fee.
-/

namespace EthereumJS.Client.TxPool

open RLP Tx Ordered

section Start

variable {config : PoolConfig} {vm : SelectionVM} {baseFee : Option Nat}
  {qheap : PriorityHeap (comparBefore baseFee)} {allowedBlobs : Option Nat}
  {lists : List (Bytes × List Tx.Transaction)} {heap : qheap.Heap}

def queueOf (lists : List (Bytes × List Tx.Transaction)) (address : Bytes) : List Tx.Transaction :=
  (lookupEntry address lists).getD []

structure Listed (config : PoolConfig) (lists : List (Bytes × List Tx.Transaction)) : Prop where
  nodup : (lists.map Prod.fst).Nodup
  senders : ∀ entry ∈ lists, ∀ tx ∈ entry.2, config.getSenderAddress tx = .ok entry.1

theorem Listed.exists_ne (h : Listed config lists) (hmany : 2 ≤ lists.length) (address : Bytes) :
    ∃ entry ∈ lists, entry.1 ≠ address := by
  obtain ⟨hnodup, -⟩ := h
  match lists, hmany with
  | first :: second :: lists, _ =>
    rw [List.map_cons, List.nodup_cons] at hnodup
    by_cases heq : first.1 = address
    · refine ⟨second, List.mem_cons_of_mem _ List.mem_cons_self, fun heq' => hnodup.1 ?_⟩
      rw [heq, ← heq', List.map_cons]
      exact List.mem_cons_self
    · exact ⟨first, List.mem_cons_self, heq⟩

theorem queueOf_cons {address : Bytes} {tx : Tx.Transaction} {rest : List Tx.Transaction}
    (h : queueOf lists address = tx :: rest) : (address, tx :: rest) ∈ lists := by
  unfold queueOf at h
  cases hlookup : lookupEntry address lists with
  | none =>
    rw [hlookup] at h
    cases h
  | some txs =>
    rw [hlookup] at h
    have h : txs = tx :: rest := h
    rw [← h]
    exact mem_of_lookupEntry hlookup

theorem queueOf_of_mem (h : Listed config lists) {address : Bytes} {txs : List Tx.Transaction}
    (hmem : (address, txs) ∈ lists) : queueOf lists address = txs := by
  rw [queueOf, lookupEntry_of_mem h.nodup hmem]
  rfl

theorem foldlM_insertFirst (hne : ∀ entry ∈ lists, entry.2 ≠ []) (heap : qheap.Heap) :
    ∃ heap', (lists.map fun entry => entry.2.head?).foldlM (insertFirst qheap) (.defined heap) =
        .ok (.defined heap') ∧
      qheap.contents heap' = qheap.contents heap + (lists.filterMap fun entry => entry.2.head?) := by
  induction lists generalizing heap with
  | nil => exact ⟨heap, rfl, (add_zero _).symm⟩
  | cons entry lists ih =>
    obtain ⟨address, txs⟩ := entry
    rw [List.forall_mem_cons] at hne
    cases txs with
    | nil => exact absurd rfl hne.1
    | cons tx txs =>
      obtain ⟨heap', hfold, hcontents⟩ := ih hne.2 (qheap.insert tx heap)
      refine ⟨heap', hfold, ?_⟩
      rw [hcontents, qheap.contents_insert, List.filterMap_cons]
      change _ = _ + Multiset.ofList (tx :: lists.filterMap fun entry => entry.2.head?)
      rw [← Multiset.cons_coe, Multiset.cons_add, Multiset.add_cons]

theorem foldlM_insertFirst_undefined (hne : lists ≠ []) :
    ∃ e, (lists.map fun entry => entry.2.head?).foldlM (insertFirst qheap) .undefined =
      .error e := by
  cases lists with
  | nil => exact absurd rfl hne
  | cons entry lists => exact ⟨_, rfl⟩

/-- An empty list beside another one ends in a comparison with `undefined`. -/
theorem foldlM_insertFirst_error (hempty : ∃ entry ∈ lists, entry.2 = [])
    (hmany : 2 ≤ qheap.length heap + lists.length) :
    ∃ e, (lists.map fun entry => entry.2.head?).foldlM (insertFirst qheap) (.defined heap) =
      .error e := by
  induction lists generalizing heap with
  | nil =>
    obtain ⟨entry, hmem, -⟩ := hempty
    cases hmem
  | cons entry lists ih =>
    obtain ⟨address, txs⟩ := entry
    rw [List.map_cons, List.foldlM_cons]
    cases txs with
    | nil =>
      change ∃ e, ((if qheap.length heap = 0 then Except.ok FirstHeap.undefined
        else Except.error _) >>= _) = _
      split
      · next hzero =>
        rw [hzero, List.length_cons] at hmany
        exact foldlM_insertFirst_undefined (List.length_pos_iff.mp (by omega))
      · exact ⟨_, rfl⟩
    | cons tx txs =>
      obtain ⟨entry, hmem, hnil⟩ := hempty
      obtain rfl | hmem := List.mem_cons.mp hmem
      · cases hnil
      · refine ih ⟨entry, hmem, hnil⟩ ?_
        rw [qheap.length_eq, qheap.contents_insert, Multiset.card_cons, ← qheap.length_eq]
        rw [List.length_cons] at hmany
        omega

theorem queued_start (h : Listed config lists) {byPrice : qheap.Heap}
    (hcontents : qheap.contents byPrice = (lists.filterMap fun entry => entry.2.head?)) :
    Queued config qheap byPrice (restsOf lists) (queueOf lists) := by
  have hmem : ∀ tx, tx ∈ qheap.contents byPrice ↔
      ∃ address rest, queueOf lists address = tx :: rest := by
    intro tx
    rw [hcontents, Multiset.mem_coe, List.mem_filterMap]
    constructor
    · rintro ⟨⟨address, txs⟩, hentry, hhead⟩
      obtain ⟨rest, rfl⟩ := List.head?_eq_some_iff.mp hhead
      exact ⟨address, rest, queueOf_of_mem h hentry⟩
    · rintro ⟨address, rest, hqueue⟩
      exact ⟨(address, tx :: rest), queueOf_cons hqueue, rfl⟩
  have hsender : ∀ address, ∀ tx ∈ queueOf lists address,
      config.getSenderAddress tx = .ok address := by
    intro address tx htx
    cases hqueue : queueOf lists address with
    | nil =>
      rw [hqueue] at htx
      cases htx
    | cons first rest =>
      rw [hqueue] at htx
      exact h.senders _ (queueOf_cons hqueue) tx htx
  refine ⟨?_, hmem, ?_, hsender⟩
  · rw [hcontents, Multiset.coe_nodup]
    clear hmem hsender hcontents
    induction lists with
    | nil => exact List.nodup_nil
    | cons entry lists ih =>
      obtain ⟨hnodup, hsenders⟩ := h
      rw [List.map_cons, List.nodup_cons] at hnodup
      rw [List.forall_mem_cons] at hsenders
      have ih := ih ⟨hnodup.2, hsenders.2⟩
      obtain ⟨address, txs⟩ := entry
      cases txs with
      | nil => exact ih
      | cons tx txs =>
        refine List.nodup_cons.mpr ⟨fun hmem => hnodup.1 ?_, ih⟩
        obtain ⟨other, hother, hhead⟩ := List.mem_filterMap.mp hmem
        have htx := hsenders.2 other hother tx (List.mem_of_head? hhead)
        rw [hsenders.1 tx List.mem_cons_self] at htx
        exact List.mem_map.mpr ⟨other, hother, (Except.ok.inj htx).symm⟩
  · intro address tx rest hqueue
    rw [restsOf, lookupEntry_of_mem h.nodup (queueOf_cons hqueue)]
    rfl

theorem sum_length_queueOf (h : Listed config lists) :
    ∑ key ∈ (lists.map Prod.fst).toFinset, (queueOf lists key).length =
      (lists.map fun entry => entry.2.length).sum := by
  rw [List.sum_toFinset _ h.nodup, List.map_map]
  congr 1
  refine List.map_congr_left fun entry hentry => ?_
  rw [Function.comp_apply, queueOf_of_mem h (show (entry.1, entry.2) ∈ lists from hentry)]

/-- The merge of at most one list, or of lists that are not empty. -/
theorem mergeLists_ok (h : Listed config lists)
    (hlists : lists.length ≤ 1 ∨ ∀ entry ∈ lists, entry.2 ≠ []) :
    ∃ selected, mergeLists config vm qheap allowedBlobs lists = .ok selected ∧
      Selects vm baseFee allowedBlobs (queueOf lists) 0 selected := by
  by_cases hne : ∀ entry ∈ lists, entry.2 ≠ []
  · obtain ⟨byPrice, hfold, hcontents⟩ := foldlM_insertFirst hne qheap.empty
    rw [qheap.contents_empty, zero_add] at hcontents
    have hkeys : ∀ key, queueOf lists key ≠ [] → key ∈ (lists.map Prod.fst).toFinset := by
      intro key hkey
      obtain ⟨tx, rest, hqueue⟩ := List.exists_cons_of_ne_nil hkey
      exact List.mem_toFinset.mpr (List.mem_map.mpr ⟨_, queueOf_cons hqueue, rfl⟩)
    rw [mergeLists, hfold]
    exact merge_selects (s := { byPrice := byPrice, byNonce := restsOf lists, blobsCount := 0
                                txs := [] }) (queued_start h hcontents) hkeys
      ((sum_length_queueOf h).trans_lt (Nat.lt_succ_self _))
  · have hle := hlists.resolve_right hne
    match lists, hle with
    | [], _ => exact absurd (fun entry hentry => absurd hentry List.not_mem_nil) hne
    | [(address, txs)], _ =>
      have hnil : txs = [] := by
        by_contra htxs
        refine hne fun entry hentry => ?_
        rw [List.mem_singleton.mp hentry]
        exact htxs
      subst hnil
      refine ⟨[], ?_, .done fun other => ?_⟩
      · have hzero : qheap.length qheap.empty = 0 := by
          rw [qheap.length_eq, qheap.contents_empty]
          rfl
        have hfold : [(address, ([] : List Tx.Transaction))].map (fun entry => entry.2.head?) =
          [none] := rfl
        rw [mergeLists, hfold, List.foldlM_cons, insertFirst, if_pos hzero]
        rfl
      · cases hqueue : queueOf [(address, [])] other with
        | nil => rfl
        | cons tx rest => cases List.mem_singleton.mp (queueOf_cons hqueue)

theorem mergeLists_error (hempty : ∃ entry ∈ lists, entry.2 = []) (hmany : 2 ≤ lists.length) :
    ∃ e, mergeLists config vm qheap allowedBlobs lists = .error e := by
  have hfold : ∃ e, (lists.map fun entry => entry.2.head?).foldlM (insertFirst qheap)
      (.defined qheap.empty) = .error e := foldlM_insertFirst_error hempty (by omega)
  obtain ⟨e, herror⟩ := hfold
  rw [mergeLists, herror]
  exact ⟨e, rfl⟩

end Start

section Lists

variable {config : PoolConfig} {vm : SelectionVM} {baseFee : Option Nat} {address : Bytes}
  {objects : List TxPoolObject} {pool : InsertionMap Bytes (List TxPoolObject)}
  {tx other : Tx.Transaction}

def PooledAt (pool : InsertionMap Bytes (List TxPoolObject)) (address : Bytes)
    (tx : Tx.Transaction) : Prop :=
  ∃ objects, pool.get address = some objects ∧ ∃ obj ∈ objects, obj.tx = tx

/-- The lowest nonce of a sender in the pool is the nonce of the account. -/
def Ready (vm : SelectionVM) (pool : InsertionMap Bytes (List TxPoolObject)) (address : Bytes) :
    Prop :=
  (∃ tx, PooledAt pool address tx ∧ tx.base.nonce = vm.nonce address) ∧
    ∀ tx, PooledAt pool address tx → vm.nonce address ≤ tx.base.nonce

def pays (baseFee : Option Nat) (tx : Tx.Transaction) : Bool :=
  ((baseFee.getD 0 : Nat) : Int) ≤ normalizedGasPrice tx none

theorem pays_of_zero (h : baseFee.getD 0 = 0) (tx : Tx.Transaction) : pays baseFee tx = true := by
  refine decide_eq_true ?_
  unfold normalizedGasPrice
  rw [h, if_neg (by decide)]
  cases tx <;> exact Int.natCast_nonneg _

theorem cutUnderpriced_eq (txs : List Tx.Transaction) :
    cutUnderpriced baseFee txs = txs.takeWhile (pays baseFee) := by
  unfold cutUnderpriced
  split
  · induction txs with
    | nil => rfl
    | cons tx txs ih =>
      rw [List.findIdx?_cons, List.takeWhile_cons, ← ih, pays]
      by_cases hpays : ((baseFee.getD 0 : Nat) : Int) ≤ normalizedGasPrice tx none
      · rw [if_neg (by simpa using hpays), if_pos (decide_eq_true hpays)]
        cases txs.findIdx? fun tx => normalizedGasPrice tx none < (baseFee.getD 0 : Nat) with
        | none => rfl
        | some found => rfl
      · rw [if_pos (by simpa using hpays), if_neg (by simpa using hpays)]
        rfl
  · next hzero =>
    exact (List.takeWhile_eq_self_iff.mpr fun tx _ =>
      pays_of_zero (not_not.mp hzero) tx).symm

theorem mem_sortedByNonce : tx ∈ sortedByNonce objects ↔ ∃ obj ∈ objects, obj.tx = tx := by
  rw [sortedByNonce, (List.perm_insertionSort _ _).mem_iff, List.mem_map]

theorem sortedByNonce_strict (h : (objects.map fun obj => obj.tx.base.nonce).Nodup) :
    (sortedByNonce objects).Pairwise fun a b => a.base.nonce < b.base.nonce := by
  have hperm := List.perm_insertionSort (fun a b : Tx.Transaction => a.base.nonce ≤ b.base.nonce)
    (objects.map TxPoolObject.tx)
  have hnodup : ((sortedByNonce objects).map fun tx => tx.base.nonce).Nodup := by
    rw [sortedByNonce, (hperm.map _).nodup_iff, List.map_map]
    exact h
  have hsorted : (sortedByNonce objects).Pairwise fun a b => a.base.nonce ≤ b.base.nonce := by
    have htotal : Std.Total fun a b : Tx.Transaction => a.base.nonce ≤ b.base.nonce :=
      ⟨fun a b => le_total _ _⟩
    have htrans : IsTrans Tx.Transaction fun a b => a.base.nonce ≤ b.base.nonce :=
      ⟨fun a b c => le_trans⟩
    exact List.pairwise_insertionSort _ _
  refine (hsorted.and (List.pairwise_map.mp hnodup)).imp ?_
  rintro a b ⟨hle, hne⟩
  exact lt_of_le_of_ne hle hne

theorem pooledAt_iff (hget : pool.get address = some objects) :
    PooledAt pool address tx ↔ tx ∈ sortedByNonce objects := by
  rw [mem_sortedByNonce]
  constructor
  · rintro ⟨objects', hget', hmem⟩
    rw [hget] at hget'
    cases hget'
    exact hmem
  · exact fun hmem => ⟨objects, hget, hmem⟩

/-- The list of a sender that takes part, and none for one that does not. -/
theorem txsOfSender_eq (hget : pool.get address = some objects) (hne : objects ≠ [])
    (hnodup : (objects.map fun obj => obj.tx.base.nonce).Nodup) :
    (Ready vm pool address ∧ txsOfSender vm baseFee address objects =
        .ok (some ((sortedByNonce objects).takeWhile (pays baseFee)))) ∨
      (¬ Ready vm pool address ∧ txsOfSender vm baseFee address objects = .ok none) := by
  have hstrict := sortedByNonce_strict hnodup
  unfold txsOfSender
  cases hsorted : sortedByNonce objects with
  | nil =>
    obtain ⟨obj, hobj⟩ := List.exists_mem_of_ne_nil objects hne
    have hmem : obj.tx ∈ sortedByNonce objects := mem_sortedByNonce.mpr ⟨obj, hobj, rfl⟩
    rw [hsorted] at hmem
    cases hmem
  | cons first rest =>
    rw [hsorted, List.pairwise_cons] at hstrict
    have hfirst : ∀ tx, PooledAt pool address tx → first.base.nonce ≤ tx.base.nonce := by
      intro tx htx
      rw [pooledAt_iff hget, hsorted] at htx
      obtain rfl | htx := List.mem_cons.mp htx
      · exact le_rfl
      · exact (hstrict.1 tx htx).le
    have hpooled : PooledAt pool address first := by
      rw [pooledAt_iff hget, hsorted]
      exact List.mem_cons_self
    dsimp only
    by_cases heq : first.base.nonce = vm.nonce address
    · left
      rw [if_neg (not_not.mpr heq), cutUnderpriced_eq]
      refine ⟨⟨⟨first, hpooled, heq⟩, fun tx htx => ?_⟩, rfl⟩
      rw [← heq]
      exact hfirst tx htx
    · right
      rw [if_pos heq]
      refine ⟨?_, rfl⟩
      rintro ⟨⟨tx, htx, hnonce⟩, hlow⟩
      have hle := hfirst tx htx
      have hge := hlow first hpooled
      omega

theorem listsByNonce_ok {entries : List (Bytes × List TxPoolObject)}
    (hok : ∀ entry ∈ entries, ∃ txs, txsOfSender vm baseFee entry.1 entry.2 = .ok txs) :
    ∃ lists, listsByNonce vm baseFee entries = .ok lists ∧
      (lists.map Prod.fst).Sublist (entries.map Prod.fst) ∧
      ∀ address txs, (address, txs) ∈ lists ↔ ∃ objects, (address, objects) ∈ entries ∧
        txsOfSender vm baseFee address objects = .ok (some txs) := by
  induction entries with
  | nil => exact ⟨[], rfl, List.Sublist.refl _, by simp⟩
  | cons entry entries ih =>
    rw [List.forall_mem_cons] at hok
    obtain ⟨⟨txs, htxs⟩, hrest⟩ := hok
    obtain ⟨lists, hlists, hsub, hmem⟩ := ih hrest
    obtain ⟨key, objects⟩ := entry
    have hkey : ∀ address found, (∃ objects', (address, objects') ∈ (key, objects) :: entries ∧
        txsOfSender vm baseFee address objects' = .ok (some found)) ↔
        (address = key ∧ txs = some found) ∨ (address, found) ∈ lists := by
      intro address found
      rw [hmem]
      constructor
      · rintro ⟨objects', hentry, hfound⟩
        obtain heq | hentry := List.mem_cons.mp hentry
        · cases heq
          rw [htxs] at hfound
          exact .inl ⟨rfl, Except.ok.inj hfound⟩
        · exact .inr ⟨objects', hentry, hfound⟩
      · rintro (⟨rfl, rfl⟩ | ⟨objects', hentry, hfound⟩)
        · exact ⟨objects, List.mem_cons_self, htxs⟩
        · exact ⟨objects', List.mem_cons_of_mem _ hentry, hfound⟩
    rw [listsByNonce, htxs]
    dsimp only
    rw [hlists]
    cases txs with
    | none =>
      refine ⟨lists, rfl, hsub.cons _, fun address found => ?_⟩
      rw [hkey]
      simp
    | some txs =>
      refine ⟨(key, txs) :: lists, rfl, hsub.cons_cons _, fun address found => ?_⟩
      rw [hkey, List.mem_cons, Prod.mk.injEq, Option.some_inj]
      constructor
      · rintro (⟨rfl, rfl⟩ | hlater)
        · exact .inl ⟨rfl, rfl⟩
        · exact .inr hlater
      · rintro (⟨rfl, rfl⟩ | hlater)
        · exact .inl ⟨rfl, rfl⟩
        · exact .inr hlater

/-- The lists that are merged. -/
structure ListsOf (config : PoolConfig) (vm : SelectionVM) (baseFee : Option Nat)
    (pool : InsertionMap Bytes (List TxPoolObject))
    (lists : List (Bytes × List Tx.Transaction)) : Prop extends Listed config lists where
  mem : ∀ address txs, (address, txs) ∈ lists ↔ ∃ objects, pool.get address = some objects ∧
    Ready vm pool address ∧ txs = (sortedByNonce objects).takeWhile (pays baseFee)

theorem listsOf_pool (vm : SelectionVM) (baseFee : Option Nat) {handled : InsertionMap Bytes HandledObject} {time : Int}
    (h : Filed config pool handled time) :
    ∃ lists, listsByNonce vm baseFee pool.entries = .ok lists ∧
      ListsOf config vm baseFee pool lists := by
  have hget : ∀ {address objects}, (address, objects) ∈ pool.entries ↔
      pool.get address = some objects :=
    ⟨lookupEntry_of_mem pool.nodup, mem_of_lookupEntry⟩
  have heq : ∀ {address objects}, pool.get address = some objects →
      (Ready vm pool address ∧ txsOfSender vm baseFee address objects =
          .ok (some ((sortedByNonce objects).takeWhile (pays baseFee)))) ∨
        (¬ Ready vm pool address ∧ txsOfSender vm baseFee address objects = .ok none) :=
    fun {address objects} hget =>
      txsOfSender_eq hget (h.ne_nil address objects hget) (h.perNonce address objects hget)
  have hsome : ∀ entry ∈ pool.entries, ∃ txs,
      txsOfSender vm baseFee entry.1 entry.2 = .ok txs := by
    intro entry hentry
    obtain ⟨-, hsome⟩ | ⟨-, hnone⟩ := heq (hget.mp hentry)
    · exact ⟨_, hsome⟩
    · exact ⟨_, hnone⟩
  obtain ⟨lists, hok, hsub, hmem⟩ := listsByNonce_ok hsome
  have hlists : ∀ address txs, (address, txs) ∈ lists ↔ ∃ objects,
      pool.get address = some objects ∧ Ready vm pool address ∧
        txs = (sortedByNonce objects).takeWhile (pays baseFee) := by
    intro address txs
    rw [hmem]
    constructor
    · rintro ⟨objects, hentry, htxs⟩
      obtain ⟨hready, hsome⟩ | ⟨-, hnone⟩ := heq (hget.mp hentry)
      · rw [hsome] at htxs
        exact ⟨objects, hget.mp hentry, hready, (Option.some.inj (Except.ok.inj htxs)).symm⟩
      · rw [hnone] at htxs
        cases htxs
    · rintro ⟨objects, hobjects, hready, rfl⟩
      obtain ⟨-, hsome⟩ | ⟨hnot, -⟩ := heq hobjects
      · exact ⟨objects, hget.mpr hobjects, hsome⟩
      · exact absurd hready hnot
  refine ⟨lists, hok, ⟨hsub.nodup pool.nodup, ?_⟩, hlists⟩
  rintro ⟨address, txs⟩ hentry tx htx
  obtain ⟨objects, hobjects, -, rfl⟩ := (hlists address txs).mp hentry
  obtain ⟨obj, hobj, rfl⟩ := mem_sortedByNonce.mp ((List.takeWhile_sublist _).subset htx)
  exact h.ofSender address objects hobjects obj hobj

end Lists

end EthereumJS.Client.TxPool
