import Mathlib.Algebra.BigOperators.Group.Finset.Piecewise
import Mathlib.Data.List.Sort
import EthereumJS.Client.Bookkeeping
import EthereumJS.Ordered.BestFirst

/-! # The transactions for a block

`txsByPriceAndNonce` of `client/src/service/txpool.ts`. The heap is a parameter. An item that goes
into a heap is compared with one that is there already, which throws if one of them is undefined.
The pool does not change while the accounts are read.
-/

namespace EthereumJS.Client

open RLP Tx Ordered

/-- The parts of the VM that are read. A missing account has the nonce 0. -/
structure SelectionVM where
  isActivatedEIP : Nat → Bool
  nonce : Bytes → Nat

namespace TxPool

section Prices

/-- A base fee of 0 counts as none. -/
def normalizedGasPrice (tx : Tx.Transaction) (baseFee : Option Nat) : Int :=
  if baseFee.getD 0 ≠ 0 then
    match tx with
    | .legacy tx => (tx.gasPrice : Int) - (baseFee.getD 0 : Nat)
    | .accessList2930 tx => (tx.gasPrice : Int) - (baseFee.getD 0 : Nat)
    | .feeMarket1559 tx => tx.maxPriorityFeePerGas
    | .blob4844 tx => tx.maxPriorityFeePerGas
    | .eoaCode7702 tx => tx.maxPriorityFeePerGas
  else
    match tx with
    | .legacy tx => tx.gasPrice
    | .accessList2930 tx => tx.gasPrice
    | .feeMarket1559 tx => tx.maxFeePerGas
    | .blob4844 tx => tx.maxFeePerGas
    | .eoaCode7702 tx => tx.maxFeePerGas

def comparBefore (baseFee : Option Nat) (a b : Tx.Transaction) : Bool :=
  normalizedGasPrice b baseFee - normalizedGasPrice a baseFee < 0

def isBlob : Tx.Transaction → Bool
  | .blob4844 _ => true
  | _ => false

/-- The number of blobs that a transaction counts for. -/
def blobCount : Tx.Transaction → Nat
  | .blob4844 tx => (tx.blobs.getD []).length
  | _ => 0

variable (vm : SelectionVM)

def exceedsBlobs (allowedBlobs : Option Nat) (blobsCount : Nat) (tx : Tx.Transaction) : Bool :=
  isBlob tx && match allowedBlobs with
    | some allowed => blobCount tx + blobsCount > allowed
    | none => false

/-- A blob transaction with the wrapper of EIP-7594 before it is active. -/
def isFutureFork : Tx.Transaction → Bool
  | .blob4844 tx => tx.networkWrapperVersion = some 1 && !vm.isActivatedEIP 7594
  | _ => false

def isSkipped (allowedBlobs : Option Nat) (blobsCount : Nat) (tx : Tx.Transaction) : Bool :=
  exceedsBlobs allowedBlobs blobsCount tx || isFutureFork vm tx

end Prices

section Lists

variable (config : PoolConfig) (vm : SelectionVM) (baseFee : Option Nat)

def isOldFormat : Tx.Transaction → Bool
  | .blob4844 tx => tx.networkWrapperVersion = some 0
  | _ => false

def oldFormatBlobTxs (self : TxPool) : List Tx.Transaction :=
  self.pool.entries.flatMap fun entry => (entry.2.map TxPoolObject.tx).filter isOldFormat

/-- The pool without blob transactions of the old format once they are not allowed any more. -/
def removeOldFormat (self : TxPool) : TxPool × Except String Unit :=
  if vm.isActivatedEIP 7594 then self.removeTxs config self.oldFormatBlobTxs else (self, .ok ())

def sortedByNonce (poolObjects : List TxPoolObject) : List Tx.Transaction :=
  (poolObjects.map TxPoolObject.tx).insertionSort fun a b => a.base.nonce ≤ b.base.nonce

/-- If any transaction has an insufficient gas price, all from there on are removed. -/
def cutUnderpriced (txs : List Tx.Transaction) : List Tx.Transaction :=
  if baseFee.getD 0 ≠ 0 then
    match txs.findIdx? fun tx => normalizedGasPrice tx none < (baseFee.getD 0 : Nat) with
    | some found => txs.take found
    | none => txs
  else txs

/-- The transactions of a sender, or none if the account nonce is not the lowest of them. -/
def txsOfSender (address : Bytes) (poolObjects : List TxPoolObject) :
    Except String (Option (List Tx.Transaction)) :=
  match sortedByNonce poolObjects with
  | [] => .error "Cannot read properties of undefined (reading 'nonce')"
  | first :: rest =>
    if first.base.nonce ≠ vm.nonce address then .ok none
    else .ok (some (cutUnderpriced baseFee (first :: rest)))

/-- `byNonce` in the order of the pool, whose senders differ. -/
def listsByNonce : List (Bytes × List TxPoolObject) →
    Except String (List (Bytes × List Tx.Transaction))
  | [] => .ok []
  | (address, poolObjects) :: entries =>
    match txsOfSender vm baseFee address poolObjects with
    | .error e => .error e
    | .ok txs =>
      match listsByNonce entries with
      | .error e => .error e
      | .ok lists =>
        match txs with
        | some txs => .ok ((address, txs) :: lists)
        | none => .ok lists

end Lists

section Merge

variable (config : PoolConfig) (vm : SelectionVM) {baseFee : Option Nat}
  (qheap : PriorityHeap (comparBefore baseFee)) (allowedBlobs : Option Nat)

/-- The heap of the first transactions, where `undefined` may be the only item. -/
inductive FirstHeap
  | undefined
  | defined (heap : qheap.Heap)

/-- `byPrice.insert(txs[0])`. -/
def insertFirst : FirstHeap qheap → Option Tx.Transaction → Except String (FirstHeap qheap)
  | .defined heap, some tx => .ok (.defined (qheap.insert tx heap))
  | .defined heap, none =>
    if qheap.length heap = 0 then .ok .undefined
    else .error "Cannot read properties of undefined (reading 'supports')"
  | .undefined, _ => .error "Cannot read properties of undefined (reading 'supports')"

structure Selection where
  byPrice : qheap.Heap
  byNonce : Bytes → Option (List Tx.Transaction)
  blobsCount : Nat
  txs : List Tx.Transaction

/-- The loop that replaces the best transaction with the next from the same account. -/
def merge : Nat → Selection qheap → Except String (List Tx.Transaction)
  | 0, _ => .error "out of fuel"
  | fuel + 1, s =>
    match qheap.remove s.byPrice with
    | none => .ok s.txs
    | some (best, byPrice) =>
      match config.getSenderAddress best with
      | .error e => .error e
      | .ok address =>
        match s.byNonce address with
        | none => .error "Cannot read properties of undefined (reading 'length')"
        | some accTxs =>
          if isSkipped vm allowedBlobs s.blobsCount best then
            merge fuel { s with
              byPrice := byPrice
              byNonce := Function.update s.byNonce address (some []) }
          else
            match accTxs with
            | [] =>
              merge fuel { s with
                byPrice := byPrice
                blobsCount := s.blobsCount + blobCount best
                txs := s.txs ++ [best] }
            | next :: rest =>
              merge fuel
                { byPrice := qheap.insert next byPrice
                  byNonce := Function.update s.byNonce address (some rest)
                  blobsCount := s.blobsCount + blobCount best
                  txs := s.txs ++ [best] }

/-- The lists behind their first transactions. -/
def restsOf (lists : List (Bytes × List Tx.Transaction)) (address : Bytes) :
    Option (List Tx.Transaction) :=
  (lookupEntry address lists).map List.tail

/-- The merge of the lists. No run of the loop is longer than the number of their transactions. -/
def mergeLists (lists : List (Bytes × List Tx.Transaction)) :
    Except String (List Tx.Transaction) :=
  match (lists.map fun entry => entry.2.head?).foldlM (insertFirst qheap)
      (.defined qheap.empty) with
  | .error e => .error e
  | .ok .undefined => .ok []
  | .ok (.defined byPrice) =>
    merge config vm qheap allowedBlobs ((lists.map fun entry => entry.2.length).sum + 1)
      { byPrice := byPrice, byNonce := restsOf lists, blobsCount := 0, txs := [] }

def txsByPriceAndNonce (self : TxPool) : TxPool × Except String (List Tx.Transaction) :=
  match self.removeOldFormat config vm with
  | (self, .error e) => (self, .error e)
  | (self, .ok ()) =>
    match listsByNonce vm baseFee self.pool.entries with
    | .error e => (self, .error e)
    | .ok lists => (self, mergeLists config vm qheap allowedBlobs lists)

end Merge

section Refinement

variable {config : PoolConfig} {vm : SelectionVM} {baseFee : Option Nat}
  {qheap : PriorityHeap (comparBefore baseFee)} {allowedBlobs : Option Nat}

theorem price_le_of_comparBefore {a b : Tx.Transaction} (h : comparBefore baseFee a b = false) :
    normalizedGasPrice a baseFee ≤ normalizedGasPrice b baseFee := by
  have h := of_decide_eq_false h
  omega

/-- The transactions of each sender that are still to come, the first of them in the heap. -/
structure Queued (config : PoolConfig) (qheap : PriorityHeap (comparBefore baseFee))
    (byPrice : qheap.Heap) (byNonce : Bytes → Option (List Tx.Transaction))
    (queues : Bytes → List Tx.Transaction) : Prop where
  nodup : (qheap.contents byPrice).Nodup
  heads : ∀ tx, tx ∈ qheap.contents byPrice ↔ ∃ address rest, queues address = tx :: rest
  rests : ∀ address tx rest, queues address = tx :: rest → byNonce address = some rest
  senders : ∀ address, ∀ tx ∈ queues address, config.getSenderAddress tx = .ok address

variable {byPrice byPrice' : qheap.Heap} {byNonce byNonce' : Bytes → Option (List Tx.Transaction)}
  {queues : Bytes → List Tx.Transaction} {address : Bytes} {best next : Tx.Transaction}
  {rest : List Tx.Transaction}

theorem Queued.sender (h : Queued config qheap byPrice byNonce queues)
    (hqueue : queues address = best :: rest) : config.getSenderAddress best = .ok address :=
  h.senders address best (by rw [hqueue]; exact List.mem_cons_self)

/-- The queue of the transaction that the heap gives out. -/
theorem Queued.removed (h : Queued config qheap byPrice byNonce queues)
    (hremove : qheap.remove byPrice = some (best, byPrice')) :
    ∃ address rest, queues address = best :: rest ∧
      ∀ other head tail, queues other = head :: tail →
        normalizedGasPrice head baseFee ≤ normalizedGasPrice best baseFee := by
  obtain ⟨hcontents, hbefore⟩ := qheap.remove_some _ _ _ hremove
  have hmem : best ∈ qheap.contents byPrice := by
    rw [hcontents]
    exact Multiset.mem_cons_self _ _
  obtain ⟨address, rest, hqueue⟩ := (h.heads best).mp hmem
  refine ⟨address, rest, hqueue, fun other head tail hother => ?_⟩
  have hhead : head ∈ qheap.contents byPrice := (h.heads head).mpr ⟨other, tail, hother⟩
  rw [hcontents] at hhead
  obtain rfl | hhead := Multiset.mem_cons.mp hhead
  · exact le_rfl
  · exact price_le_of_comparBefore (hbefore head hhead)

theorem update_eq_cons {queue tail : List Tx.Transaction} {other : Bytes}
    {head : Tx.Transaction} :
    Function.update queues address queue other = head :: tail ↔
      other = address ∧ queue = head :: tail ∨ other ≠ address ∧ queues other = head :: tail := by
  rw [Function.update_apply, ite_eq_iff]

/-- A queue is dropped whose first transaction left the heap. -/
theorem Queued.drop (h : Queued config qheap byPrice byNonce queues)
    (hremove : qheap.remove byPrice = some (best, byPrice'))
    (hqueue : queues address = best :: rest)
    (hother : ∀ other, other ≠ address → byNonce' other = byNonce other) :
    Queued config qheap byPrice' byNonce' (Function.update queues address []) := by
  obtain ⟨hcontents, -⟩ := qheap.remove_some _ _ _ hremove
  have hnodup := h.nodup
  rw [hcontents, Multiset.nodup_cons] at hnodup
  constructor
  · exact hnodup.2
  · intro tx
    constructor
    · intro htx
      have hmem : tx ∈ qheap.contents byPrice := by
        rw [hcontents]
        exact Multiset.mem_cons_of_mem htx
      obtain ⟨other, tail, hhead⟩ := (h.heads tx).mp hmem
      have hne : other ≠ address := by
        rintro rfl
        rw [hqueue] at hhead
        cases hhead
        exact hnodup.1 htx
      exact ⟨other, tail, by rw [Function.update_of_ne hne]; exact hhead⟩
    · rintro ⟨other, tail, hhead⟩
      obtain ⟨-, hnil⟩ | ⟨heq, hhead⟩ := update_eq_cons.mp hhead
      · cases hnil
      · have hmem := (h.heads tx).mpr ⟨other, tail, hhead⟩
        rw [hcontents] at hmem
        obtain rfl | hmem := Multiset.mem_cons.mp hmem
        · have hsender := h.sender hhead
          rw [h.sender hqueue] at hsender
          exact absurd (Except.ok.inj hsender).symm heq
        · exact hmem
  · intro other tx tail hhead
    obtain ⟨-, hnil⟩ | ⟨heq, hhead⟩ := update_eq_cons.mp hhead
    · cases hnil
    · rw [hother other heq]
      exact h.rests other tx tail hhead
  · intro other tx htx
    by_cases heq : other = address
    · rw [heq, Function.update_self] at htx
      cases htx
    · rw [Function.update_of_ne heq] at htx
      exact h.senders other tx htx

/-- The next transaction of an account goes into the heap. -/
theorem Queued.insert (h : Queued config qheap byPrice byNonce queues)
    (hempty : queues address = [])
    (hsenders : ∀ tx ∈ next :: rest, config.getSenderAddress tx = .ok address) :
    Queued config qheap (qheap.insert next byPrice)
      (Function.update byNonce address (some rest))
      (Function.update queues address (next :: rest)) := by
  have hnext := hsenders next List.mem_cons_self
  constructor
  · rw [qheap.contents_insert, Multiset.nodup_cons]
    refine ⟨fun hmem => ?_, h.nodup⟩
    obtain ⟨other, tail, hhead⟩ := (h.heads next).mp hmem
    have hsender := h.sender hhead
    rw [hnext] at hsender
    rw [← Except.ok.inj hsender, hempty] at hhead
    cases hhead
  · intro tx
    rw [qheap.contents_insert, Multiset.mem_cons, h.heads]
    constructor
    · rintro (rfl | ⟨other, tail, hhead⟩)
      · exact ⟨address, rest, Function.update_self _ _ _⟩
      · have hne : other ≠ address := by
          rintro rfl
          rw [hempty] at hhead
          cases hhead
        exact ⟨other, tail, by rw [Function.update_of_ne hne]; exact hhead⟩
    · rintro ⟨other, tail, hhead⟩
      obtain ⟨-, hcons⟩ | ⟨-, hhead⟩ := update_eq_cons.mp hhead
      · cases hcons
        exact .inl rfl
      · exact .inr ⟨other, tail, hhead⟩
  · intro other tx tail hhead
    obtain ⟨rfl, hcons⟩ | ⟨heq, hhead⟩ := update_eq_cons.mp hhead
    · cases hcons
      exact Function.update_self _ _ _
    · rw [Function.update_of_ne heq]
      exact h.rests other tx tail hhead
  · intro other tx htx
    by_cases heq : other = address
    · rw [heq, Function.update_self] at htx
      rw [heq]
      exact hsenders tx htx
    · rw [Function.update_of_ne heq] at htx
      exact h.senders other tx htx

/-- The selection that the loop makes, by the specification. -/
def Selects (vm : SelectionVM) (baseFee allowedBlobs : Option Nat) :
    (Bytes → List Tx.Transaction) → Nat → List Tx.Transaction → Prop :=
  BestFirst (normalizedGasPrice · baseFee) blobCount
    fun blobsCount tx => isSkipped vm allowedBlobs blobsCount tx = true

/-- The number of transactions in the queues of some senders goes down with one of them. -/
theorem sum_length_update {keys : Finset Bytes} (hkey : address ∈ keys)
    {items : List Tx.Transaction} (hless : items.length < (queues address).length) :
    ∑ key ∈ keys, (Function.update queues address items key).length <
      ∑ key ∈ keys, (queues key).length := by
  refine Finset.sum_lt_sum (fun key _ => ?_) ⟨address, hkey, ?_⟩
  · by_cases heq : key = address
    · rw [heq, Function.update_self]
      exact hless.le
    · rw [Function.update_of_ne heq]
  · rw [Function.update_self]
    exact hless

/-- The loop ends and makes the selection of the specification. -/
theorem merge_selects {fuel : Nat} {s : Selection qheap} {keys : Finset Bytes}
    (h : Queued config qheap s.byPrice s.byNonce queues)
    (hkeys : ∀ key, queues key ≠ [] → key ∈ keys)
    (hfuel : ∑ key ∈ keys, (queues key).length < fuel) :
    ∃ selected, merge config vm qheap allowedBlobs fuel s = .ok (s.txs ++ selected) ∧
      Selects vm baseFee allowedBlobs queues s.blobsCount selected := by
  induction fuel generalizing s queues with
  | zero => exact absurd hfuel (Nat.not_lt_zero _)
  | succ fuel ih =>
    rw [merge]
    cases hremove : qheap.remove s.byPrice with
    | none =>
      refine ⟨[], by rw [List.append_nil], .done fun address => ?_⟩
      cases hqueue : queues address with
      | nil => rfl
      | cons tx rest =>
        have hmem := (h.heads tx).mpr ⟨address, rest, hqueue⟩
        rw [qheap.remove_none _ hremove] at hmem
        exact absurd hmem (Multiset.notMem_zero _)
    | some removed =>
      obtain ⟨best, byPrice⟩ := removed
      obtain ⟨address, rest, hqueue, hbest⟩ := h.removed hremove
      have hkey : address ∈ keys := hkeys address (by rw [hqueue]; exact List.cons_ne_nil _ _)
      have hkeys' : ∀ {items : List Tx.Transaction} (key : Bytes),
          Function.update queues address items key ≠ [] → key ∈ keys := by
        intro items key hne
        by_cases heq : key = address
        · rw [heq]
          exact hkey
        · rw [Function.update_of_ne heq] at hne
          exact hkeys key hne
      have hfuel' : ∀ {items : List Tx.Transaction}, items.length ≤ rest.length →
          ∑ key ∈ keys, (Function.update queues address items key).length < fuel := by
        intro items hle
        have hless : items.length < (queues address).length := by
          rw [hqueue, List.length_cons]
          omega
        have hsum := sum_length_update hkey hless
        omega
      dsimp only
      rw [h.sender hqueue]
      dsimp only
      rw [h.rests address best rest hqueue]
      dsimp only
      split
      · next hskip =>
        have hdrop : Queued config qheap byPrice (Function.update s.byNonce address (some []))
            (Function.update queues address []) :=
          h.drop hremove hqueue fun other hne => Function.update_of_ne hne _ _
        obtain ⟨selected, hok, hselected⟩ := ih (s := { s with
          byPrice := byPrice, byNonce := Function.update s.byNonce address (some []) })
          hdrop hkeys' (hfuel' (Nat.zero_le _))
        exact ⟨selected, hok, .skip hqueue hskip hselected⟩
      · next hfits =>
        have hsenders : ∀ tx ∈ rest, config.getSenderAddress tx = .ok address :=
          fun tx htx => h.senders address tx (by rw [hqueue]; exact List.mem_cons_of_mem _ htx)
        have hdrop : Queued config qheap byPrice s.byNonce (Function.update queues address []) :=
          h.drop hremove hqueue fun other _ => rfl
        cases rest with
        | nil =>
          obtain ⟨selected, hok, hselected⟩ := ih (s := { s with
            byPrice := byPrice, blobsCount := s.blobsCount + blobCount best
            txs := s.txs ++ [best] }) hdrop hkeys' (hfuel' le_rfl)
          refine ⟨best :: selected, ?_, .take hqueue hbest hfits hselected⟩
          rw [List.append_cons s.txs best selected]
          exact hok
        | cons next rest =>
          have hinsert := hdrop.insert (Function.update_self _ _ _) hsenders
          rw [Function.update_idem] at hinsert
          obtain ⟨selected, hok, hselected⟩ := ih (s := { s with
            byPrice := qheap.insert next byPrice
            byNonce := Function.update s.byNonce address (some rest)
            blobsCount := s.blobsCount + blobCount best
            txs := s.txs ++ [best] }) hinsert hkeys' (hfuel' le_rfl)
          refine ⟨best :: selected, ?_, .take hqueue hbest hfits hselected⟩
          rw [List.append_cons s.txs best selected]
          exact hok

end Refinement

end TxPool

end EthereumJS.Client
