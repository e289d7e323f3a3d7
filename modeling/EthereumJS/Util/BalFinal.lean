import EthereumJS.Util.BalSlots

/-! # Changes of earlier transactions in a block access list

A transaction changes the list at its own index, and what stands there at smaller indices stays,
unless the clean-up of self-destructed accounts drops it: that one clears an account at all
indices.
-/

namespace EthereumJS

open RLP Ordered

/-- What the changes of an access are to. -/
inductive ChangeKind
  | storage (slot : Bytes)
  | balance
  | nonce
  | code

namespace Access

variable {access before after : Access} {i : Nat}

def changes (access : Access) : ChangeKind → List IndexedChange
  | .storage slot => (access.storageChanges.get slot).getD []
  | .balance => access.balanceChanges.entries
  | .nonce => access.nonceChanges.entries
  | .code => access.codeChanges

theorem changes_empty (kind : ChangeKind) : empty.changes kind = [] := by
  cases kind <;> rfl

theorem changes_addReads (slots : List Bytes) (kind : ChangeKind) :
    (access.addReads slots).changes kind = access.changes kind := by
  cases kind <;> rfl

theorem changes_mergeReverted (target : Access) (kind : ChangeKind) :
    (target.mergeReverted access).changes kind = target.changes kind := by
  rw [mergeReverted, changes_addReads, changes_addReads]

theorem changes_addStorageRead (key : Bytes) (kind : ChangeKind) :
    (access.addStorageRead key).changes kind = access.changes kind := by
  rw [addStorageRead]
  split
  · cases kind <;> rfl
  · rfl

/-- The changes at indices below `i`. -/
def earlier (i : Nat) (changes : List IndexedChange) : List IndexedChange :=
  changes.filter fun change => change.1 < i

theorem earlier_insertEntry (value : Bytes) (changes : List IndexedChange) :
    earlier i (insertEntry i value changes) = earlier i changes :=
  filter_insertEntry fun _ => decide_eq_false (Nat.lt_irrefl i)

theorem earlier_filter_ne (changes : List IndexedChange) :
    earlier i (changes.filter fun change => change.1 ≠ i) = earlier i changes := by
  rw [earlier, List.filter_filter, earlier]
  refine List.filter_congr fun change _ => ?_
  by_cases hlt : change.1 < i
  · simp [hlt, Nat.ne_of_lt hlt]
  · simp [hlt]

theorem earlier_eraseP (changes : List IndexedChange) :
    earlier i (changes.eraseP fun change => change.1 = i) = earlier i changes := by
  induction changes with
  | nil => rfl
  | cons change changes ih =>
    rw [List.eraseP_cons]
    by_cases heq : change.1 = i
    · simp [heq, earlier]
    · simp only [heq, decide_false, cond_false]
      simp only [earlier] at ih
      rw [earlier, List.filter_cons, ih, earlier, List.filter_cons]

theorem earlier_eq_nil {changes : List IndexedChange} :
    earlier i changes = [] ↔ ∀ change ∈ changes, i ≤ change.1 := by
  simp [earlier, List.filter_eq_nil_iff]

/-- The two have the same changes at indices below `i`. -/
def SameEarlier (i : Nat) (before after : Access) : Prop :=
  ∀ kind, earlier i (after.changes kind) = earlier i (before.changes kind)

theorem SameEarlier.refl (access : Access) : SameEarlier i access access := fun _ => rfl

theorem SameEarlier.ite {other : Access} {condition : Prop} [Decidable condition]
    (h : SameEarlier i before after) (hother : SameEarlier i before other) :
    SameEarlier i before (if condition then after else other) := by
  split
  · exact h
  · exact hother

theorem sameEarlier_addStorageWrite (key value : Bytes) :
    SameEarlier i access (access.addStorageWrite key value i) := by
  intro kind
  cases kind with
  | storage slot =>
    simp only [changes, addStorageWrite, InsertionMap.get_set]
    split
    · next heq => rw [Option.getD_some, earlier_insertEntry, heq]
    · rfl
  | balance => rfl
  | nonce => rfl
  | code => rfl

theorem sameEarlier_addStorageNoOp (key : Bytes) :
    SameEarlier i access (access.addStorageNoOp key i) := by
  intro kind
  rw [addStorageNoOp]
  split
  · next slotChanges hchanges =>
    dsimp only
    have hslot : ∀ remaining, remaining = slotChanges.filter (fun change => change.1 ≠ i) →
        earlier i remaining = earlier i ((access.storageChanges.get key).getD []) := by
      rintro remaining rfl
      rw [hchanges, Option.getD_some, earlier_filter_ne]
    split
    · next hnone =>
      rw [changes_addStorageRead]
      cases kind with
      | storage slot =>
        simp only [changes, InsertionMap.get_delete]
        split
        · next heq =>
          rw [heq, Option.getD_none]
          exact hslot [] (List.eq_nil_of_length_eq_zero hnone).symm
        · rfl
      | balance => rfl
      | nonce => rfl
      | code => rfl
    · cases kind with
      | storage slot =>
        simp only [changes, InsertionMap.get_set]
        split
        · next heq =>
          rw [heq, Option.getD_some]
          exact hslot _ rfl
        · rfl
      | balance => rfl
      | nonce => rfl
      | code => rfl
  · rw [changes_addStorageRead]

theorem sameEarlier_setBalance (value : Bytes) :
    SameEarlier i access { access with balanceChanges := access.balanceChanges.set i value } := by
  intro kind
  cases kind with
  | balance => exact earlier_insertEntry value access.balanceChanges.entries
  | storage slot => rfl
  | nonce => rfl
  | code => rfl

theorem sameEarlier_deleteBalance :
    SameEarlier i access { access with balanceChanges := access.balanceChanges.delete i } := by
  intro kind
  cases kind with
  | balance => exact earlier_filter_ne access.balanceChanges.entries
  | storage slot => rfl
  | nonce => rfl
  | code => rfl

theorem sameEarlier_setNonce (value : Bytes) :
    SameEarlier i access { access with nonceChanges := access.nonceChanges.set i value } := by
  intro kind
  cases kind with
  | nonce => exact earlier_insertEntry value access.nonceChanges.entries
  | storage slot => rfl
  | balance => rfl
  | code => rfl

theorem sameEarlier_setCode {codeChanges : List IndexedChange}
    (h : earlier i codeChanges = earlier i access.codeChanges) :
    SameEarlier i access { access with codeChanges := codeChanges } := by
  intro kind
  cases kind with
  | code => exact h
  | storage slot => rfl
  | balance => rfl
  | nonce => rfl

end Access

namespace BlockLevelAccessList

open Access

variable {self start : BlockLevelAccessList} {i : Nat} {accesses : Accesses}

/-- The changes that the list has to what `kind` says of an address. -/
def changesOf (accesses : Accesses) (address : Bytes) (kind : ChangeKind) : List IndexedChange :=
  ((accesses.get address).getD .empty).changes kind

/-- The two have the same changes at indices below `i`. -/
def SameEarlier (i : Nat) (before after : Accesses) : Prop :=
  ∀ address kind, earlier i (changesOf after address kind) = earlier i (changesOf before address kind)

theorem SameEarlier.refl (accesses : Accesses) : SameEarlier i accesses accesses :=
  fun _ _ => rfl

theorem SameEarlier.trans {before middle after : Accesses} (h : SameEarlier i before middle)
    (h' : SameEarlier i middle after) : SameEarlier i before after :=
  fun address kind => (h' address kind).trans (h address kind)

theorem SameEarlier.set (address : Bytes) {access : Access}
    (h : Access.SameEarlier i ((accesses.get address).getD .empty) access) :
    SameEarlier i accesses (accesses.set address access) := by
  intro other kind
  simp only [changesOf, InsertionMap.get_set]
  split
  · next heq => rw [Option.getD_some, heq, h kind]
  · rfl

theorem sameEarlier_mergeReverted (snapshot : Accesses) :
    SameEarlier i snapshot (mergeReverted accesses.entries snapshot) := by
  intro address kind
  rw [changesOf, get_mergeReverted address _ _ accesses.nodup]
  split
  · rfl
  · rw [Option.getD_some, changes_mergeReverted, changesOf]

theorem sameEarlier_cleanupNetZero (address : Bytes) (originalBalance : Nat) :
    SameEarlier self.blockAccessIndex accesses
      (self.cleanupNetZero accesses address originalBalance) := by
  rw [cleanupNetZero]
  split
  · exact .refl accesses
  · next access haccess =>
    split
    · exact .refl accesses
    · split
      · refine .set address ?_
        rw [haccess, Option.getD_some]
        exact sameEarlier_deleteBalance
      · exact .refl accesses

theorem sameEarlier_cleanupNetZeroBalanceChanges :
    SameEarlier self.blockAccessIndex self.accesses self.cleanupNetZeroBalanceChanges.accesses := by
  have hloop : ∀ (entries : List (Bytes × Nat)) (accesses : Accesses),
      SameEarlier self.blockAccessIndex accesses
        (entries.foldl (fun accesses entry => self.cleanupNetZero accesses entry.1 entry.2)
          accesses) := by
    intro entries
    induction entries with
    | nil => exact fun accesses => .refl accesses
    | cons entry entries ih =>
      intro accesses
      rw [List.foldl_cons]
      exact (sameEarlier_cleanupNetZero entry.1 entry.2).trans (ih _)
  exact hloop self.originalBalances.entries self.accesses

/-- What the clean-up of self-destructed accounts clears. -/
def Clears (self : BlockLevelAccessList) (address : Bytes) : ChangeKind → Prop
  | .balance => (self.originalBalances.get address).getD 0 = 0
  | .storage _ | .nonce | .code => True

instance (address : Bytes) (kind : ChangeKind) : Decidable (self.Clears address kind) :=
  match kind with
  | .balance => inferInstanceAs (Decidable ((self.originalBalances.get address).getD 0 = 0))
  | .storage _ | .nonce | .code => isTrue trivial

theorem changes_cleanupAccess (address : Bytes) (access : Access) (kind : ChangeKind) :
    (self.cleanupAccess address access).changes kind =
      if self.Clears address kind then [] else access.changes kind := by
  cases kind with
  | balance =>
    by_cases hclears : self.Clears address .balance
    · rw [if_pos hclears, Access.changes, cleanupAccess]
      rw [Clears] at hclears
      dsimp only
      split
      · rfl
      · rfl
      · next hpositive hget =>
        rw [hget] at hclears
        exact absurd hclears hpositive
    · rw [if_neg hclears, Access.changes, cleanupAccess]
      rw [Clears] at hclears
      dsimp only
      split
      · next hget => simp [hget] at hclears
      · next hget => simp [hget] at hclears
      · rfl
  | storage slot => rfl
  | nonce => rfl
  | code => rfl

theorem changesOf_cleanupSelfdestructed (other : Bytes) (kind : ChangeKind)
    (addresses : List Bytes) : ∀ self : BlockLevelAccessList,
      changesOf (cleanupSelfdestructed addresses self).accesses other kind =
        if other ∈ addresses ∧ self.Clears other kind then []
        else changesOf self.accesses other kind := by
  induction addresses with
  | nil =>
    intro self
    rw [cleanupSelfdestructed, if_neg fun h => List.not_mem_nil h.1]
  | cons address addresses ih =>
    intro self
    have hround : ∀ access, changesOf (self.accesses.set address
        (self.cleanupAccess address access)) other kind =
          if other = address then if self.Clears address kind then [] else access.changes kind
          else changesOf self.accesses other kind := by
      intro access
      simp only [changesOf, InsertionMap.get_set]
      split
      · rw [Option.getD_some, changes_cleanupAccess]
      · rfl
    rw [cleanupSelfdestructed]
    cases haccess : self.accesses.get address with
    | none =>
      rw [ih self]
      by_cases heq : other = address
      · have hnothing : changesOf self.accesses other kind = [] := by
          rw [changesOf, heq, haccess, Option.getD_none, changes_empty]
        rw [hnothing, ite_self, ite_self]
      · simp only [List.mem_cons, heq, false_or]
    | some access =>
      rw [ih, hround access]
      by_cases heq : other = address
      · subst heq
        have hold : changesOf self.accesses other kind = access.changes kind := by
          rw [changesOf, haccess, Option.getD_some]
        rw [if_pos rfl, hold]
        by_cases hclears : self.Clears other kind
        · rw [if_pos hclears, ite_self, if_pos ⟨List.mem_cons_self, hclears⟩]
        · rw [if_neg hclears, if_neg fun h => hclears h.2, if_neg fun h => hclears h.2]
      · rw [if_neg heq]
        simp only [List.mem_cons, heq, false_or]
        rfl

/-- No change at an earlier index is one that the clean-up clears. -/
def SelfdestructMeets (self : BlockLevelAccessList) (addresses : List Bytes) : Prop :=
  ∀ address ∈ addresses, ∀ kind, self.Clears address kind →
    ∀ change ∈ changesOf self.accesses address kind, self.blockAccessIndex ≤ change.1

/-- What a transaction does to the list; its changes are at the index of the list. -/
inductive TransactionOp
  | addStorageWrite (address storageKey value : Bytes) (originalValue : Option Bytes)
  | addBalanceChange (address : Bytes) (balance : Nat) (originalBalance : Option Nat)
  | addNonceChange (address : Bytes) (nonce : Nat)
  | addCodeChange (address code : Bytes) (originalCode : Option Bytes)
  | checkpoint
  | commit
  | revert
  | cleanupNetZeroBalanceChanges
  | cleanupSelfdestructed (addresses : List Bytes)

def apply (self : BlockLevelAccessList) : TransactionOp → BlockLevelAccessList
  | .addStorageWrite address storageKey value originalValue =>
    self.addStorageWrite address storageKey value self.blockAccessIndex originalValue
  | .addBalanceChange address balance originalBalance =>
    self.addBalanceChange address balance self.blockAccessIndex originalBalance
  | .addNonceChange address nonce => self.addNonceChange address nonce self.blockAccessIndex
  | .addCodeChange address code originalCode =>
    self.addCodeChange address code self.blockAccessIndex originalCode
  | .checkpoint => self.checkpoint
  | .commit => self.commit
  | .revert => self.revert
  | .cleanupNetZeroBalanceChanges => self.cleanupNetZeroBalanceChanges
  | .cleanupSelfdestructed addresses => cleanupSelfdestructed addresses self

def applyAll (self : BlockLevelAccessList) (ops : List TransactionOp) : BlockLevelAccessList :=
  ops.foldl apply self

/-- How many checkpoints of the transaction there are after the operation. -/
def depthAfter (depth : Nat) : TransactionOp → Nat
  | .checkpoint => depth + 1
  | .commit | .revert => depth - 1
  | _ => depth

/-- Every revert is to a checkpoint of the transaction. -/
def RevertsWithin : Nat → List TransactionOp → Prop
  | _, [] => True
  | depth, op :: ops => (op = .revert → 0 < depth) ∧ RevertsWithin (depthAfter depth op) ops

def OpMeets (self : BlockLevelAccessList) : TransactionOp → Prop
  | .cleanupSelfdestructed addresses => self.SelfdestructMeets addresses
  | _ => True

def OpsMeet (self : BlockLevelAccessList) : List TransactionOp → Prop
  | [] => True
  | op :: ops => self.OpMeets op ∧ (self.apply op).OpsMeet ops

/-- The index and the earlier changes are those of the start, and so they are at the last `depth`
checkpoints. -/
structure Within (start : BlockLevelAccessList) (depth : Nat) (list : BlockLevelAccessList) :
    Prop where
  index : list.blockAccessIndex = start.blockAccessIndex
  current : SameEarlier start.blockAccessIndex start.accesses list.accesses
  saved : ∀ saved ∈ list.checkpoints.take depth, saved.2 = start.blockAccessIndex ∧
    SameEarlier start.blockAccessIndex start.accesses saved.1

theorem Within.refl (start : BlockLevelAccessList) : Within start 0 start where
  index := rfl
  current := .refl start.accesses
  saved _ h := by simp at h

variable {depth : Nat}

theorem Within.mem (h : Within start depth self) {address : Bytes} {kind : ChangeKind}
    {change : IndexedChange} (hchange : change ∈ changesOf start.accesses address kind)
    (hlt : change.1 < start.blockAccessIndex) : change ∈ changesOf self.accesses address kind := by
  have hearlier : change ∈ earlier start.blockAccessIndex (changesOf start.accesses address kind) :=
    List.mem_filter.mpr ⟨hchange, decide_eq_true hlt⟩
  rw [← h.current address kind] at hearlier
  exact (List.mem_filter.mp hearlier).1

theorem Within.mem_start (h : Within start depth self) {address : Bytes} {kind : ChangeKind}
    {change : IndexedChange} (hchange : change ∈ changesOf self.accesses address kind)
    (hlt : change.1 < start.blockAccessIndex) : change ∈ changesOf start.accesses address kind := by
  have hearlier : change ∈ earlier start.blockAccessIndex (changesOf self.accesses address kind) :=
    List.mem_filter.mpr ⟨hchange, decide_eq_true hlt⟩
  rw [h.current address kind] at hearlier
  exact (List.mem_filter.mp hearlier).1

theorem Within.modifyAccess (h : Within start depth self) (address : Bytes)
    {change : Access → Access}
    (hchange : ∀ access, Access.SameEarlier self.blockAccessIndex access (change access)) :
    Within start depth (self.modifyAccess address change) where
  index := h.index
  current := h.current.trans (.set address (h.index ▸ hchange _))
  saved := h.saved

theorem Within.checkpoint (h : Within start depth self) :
    Within start (depth + 1) self.checkpoint where
  index := h.index
  current := h.current
  saved saved hsaved := by
    rw [BlockLevelAccessList.checkpoint, List.take_succ_cons] at hsaved
    obtain rfl | hsaved := List.mem_cons.mp hsaved
    · exact ⟨h.index, h.current⟩
    · exact h.saved saved hsaved

theorem mem_take_of_mem_take_tail {α : Type} {entry : α} {entries : List α}
    (h : entry ∈ entries.tail.take (depth - 1)) : entry ∈ entries.take depth := by
  cases depth with
  | zero => simp at h
  | succ depth =>
    cases entries with
    | nil => simp at h
    | cons head entries => exact List.mem_cons_of_mem _ h

theorem Within.commit (h : Within start depth self) : Within start (depth - 1) self.commit where
  index := h.index
  current := h.current
  saved saved hsaved := h.saved saved (mem_take_of_mem_take_tail hsaved)

theorem Within.revert (h : Within start depth self) (hdepth : 0 < depth) :
    Within start (depth - 1) self.revert := by
  rw [BlockLevelAccessList.revert]
  cases hcheckpoints : self.checkpoints with
  | nil =>
    refine ⟨h.index, h.current, fun saved hsaved => ?_⟩
    simp [hcheckpoints] at hsaved
  | cons saved checkpoints =>
    have hkept := h.saved
    rw [hcheckpoints] at hkept
    obtain ⟨depth, rfl⟩ : ∃ n, depth = n + 1 := ⟨depth - 1, (Nat.succ_pred_eq_of_pos hdepth).symm⟩
    obtain ⟨hindex, hsame⟩ := hkept saved (by simp)
    exact ⟨hindex, hsame.trans (sameEarlier_mergeReverted saved.1),
      fun other hother => hkept other (List.mem_cons_of_mem _ hother)⟩

theorem selfdestructMeets_iff {addresses : List Bytes} :
    self.SelfdestructMeets addresses ↔
      SameEarlier self.blockAccessIndex self.accesses
        (BlockLevelAccessList.cleanupSelfdestructed addresses self).accesses := by
  constructor
  · intro h address kind
    rw [changesOf_cleanupSelfdestructed]
    split
    · next hcleared => exact (earlier_eq_nil.mpr (h address hcleared.1 kind hcleared.2)).symm
    · rfl
  · intro h address haddress kind hclears
    have hsame := h address kind
    rw [changesOf_cleanupSelfdestructed, if_pos ⟨haddress, hclears⟩] at hsame
    exact earlier_eq_nil.mp hsame.symm

theorem cleanupSelfdestructed_frame (addresses : List Bytes) : ∀ self : BlockLevelAccessList,
    (BlockLevelAccessList.cleanupSelfdestructed addresses self).blockAccessIndex =
        self.blockAccessIndex ∧
      (BlockLevelAccessList.cleanupSelfdestructed addresses self).checkpoints =
        self.checkpoints := by
  induction addresses with
  | nil => exact fun self => ⟨rfl, rfl⟩
  | cons address addresses ih =>
    intro self
    rw [BlockLevelAccessList.cleanupSelfdestructed]
    split
    · exact ih self
    · exact ih _

theorem Within.apply (h : Within start depth self) {op : TransactionOp}
    (hrevert : op = .revert → 0 < depth) (hmeets : self.OpMeets op) :
    Within start (depthAfter depth op) (self.apply op) := by
  cases op with
  | addStorageWrite address storageKey value originalValue =>
    refine ⟨h.index, h.current.trans (.set address ?_), h.saved⟩
    rw [← h.index]
    exact .ite (sameEarlier_addStorageNoOp _) (sameEarlier_addStorageWrite _ _)
  | addBalanceChange address balance originalBalance =>
    have hchanged := h.modifyAccess address fun access =>
      sameEarlier_setBalance (stripLeadingZeros (bigIntToBytes balance))
    dsimp only [BlockLevelAccessList.apply, BlockLevelAccessList.addBalanceChange, depthAfter]
    split
    · exact ⟨hchanged.index, hchanged.current, hchanged.saved⟩
    · exact hchanged
  | addNonceChange address nonce =>
    have hchanged := h.modifyAccess address fun access =>
      sameEarlier_setNonce (bigIntToBytes nonce)
    exact hchanged
  | addCodeChange address code originalCode =>
    refine ⟨h.index, h.current.trans (.set address ?_), h.saved⟩
    rw [← h.index]
    beta_reduce
    by_cases hexisting : (lookupEntry self.blockAccessIndex
        ((self.accesses.get address).getD .empty).codeChanges).isSome
    · rw [if_pos hexisting]
      exact .ite (sameEarlier_setCode (earlier_eraseP _))
        (sameEarlier_setCode (earlier_insertEntry code _))
    · rw [if_neg hexisting]
      exact .ite (.refl _) (sameEarlier_setCode (by simp [earlier]))
  | checkpoint => exact h.checkpoint
  | commit => exact h.commit
  | revert => exact h.revert (hrevert rfl)
  | cleanupNetZeroBalanceChanges =>
    have hcleaned := @sameEarlier_cleanupNetZeroBalanceChanges self
    rw [h.index] at hcleaned
    exact ⟨h.index, h.current.trans hcleaned, h.saved⟩
  | cleanupSelfdestructed addresses =>
    obtain ⟨hindex, hcheckpoints⟩ := cleanupSelfdestructed_frame addresses self
    have hcleaned := selfdestructMeets_iff.mp hmeets
    rw [h.index] at hcleaned
    exact ⟨hindex.trans h.index, h.current.trans hcleaned,
      fun saved hsaved => h.saved saved (hcheckpoints ▸ hsaved)⟩

/-- In every state that the transaction reaches the earlier changes of the start are there, if and
only if no clean-up of self-destructed accounts clears one. -/
theorem Within.applyAll_iff (ops : List TransactionOp) : ∀ {self : BlockLevelAccessList}
    {depth : Nat}, Within start depth self → RevertsWithin depth ops →
      ((∀ reached, reached <+: ops → ∀ address kind,
        ∀ change ∈ changesOf start.accesses address kind, change.1 < start.blockAccessIndex →
          change ∈ changesOf (self.applyAll reached).accesses address kind) ↔ self.OpsMeet ops) := by
  induction ops with
  | nil =>
    intro self depth h _
    refine ⟨fun _ => trivial, fun _ reached hreached address kind change hchange hlt => ?_⟩
    rw [List.prefix_nil.mp hreached]
    exact h.mem hchange hlt
  | cons op ops ih =>
    rintro self depth h ⟨hrevert, hreverts⟩
    constructor
    · intro hkept
      have hmeets : self.OpMeets op := by
        cases op with
        | cleanupSelfdestructed addresses =>
          intro address haddress kind hclears change hchange
          by_contra hlt
          rw [not_le, h.index] at hlt
          have hstart := h.mem_start hchange hlt
          have hcleaned := hkept [.cleanupSelfdestructed addresses] (by simp) address kind change
            hstart hlt
          rw [BlockLevelAccessList.applyAll, List.foldl_cons, List.foldl_nil,
            BlockLevelAccessList.apply, changesOf_cleanupSelfdestructed,
            if_pos ⟨haddress, hclears⟩] at hcleaned
          exact List.not_mem_nil hcleaned
        | _ => trivial
      refine ⟨hmeets, (ih (h.apply hrevert hmeets) hreverts).mp fun reached hreached => ?_⟩
      exact hkept (op :: reached) (List.cons_prefix_cons.mpr ⟨rfl, hreached⟩)
    · rintro ⟨hmeets, hrest⟩ reached hreached
      obtain rfl | ⟨rest, rfl, hprefix⟩ := List.prefix_cons_iff.mp hreached
      · exact fun address kind change hchange hlt => h.mem hchange hlt
      · exact (ih (h.apply hrevert hmeets) hreverts).mpr hrest rest hprefix

/-- What stands at the indices of earlier transactions stays as it is, if and only if no clean-up
of self-destructed accounts clears it. -/
theorem earlier_final (self : BlockLevelAccessList) (ops : List TransactionOp)
    (hreverts : RevertsWithin 0 ops) :
    (∀ reached, reached <+: ops → ∀ address kind,
      ∀ change ∈ changesOf self.accesses address kind, change.1 < self.blockAccessIndex →
        change ∈ changesOf (self.applyAll reached).accesses address kind) ↔ self.OpsMeet ops :=
  (Within.refl self).applyAll_iff ops hreverts

section Sample

/-- A nonce and a slot of the first transaction, at the start of the second one. -/
def secondTransaction : BlockLevelAccessList :=
  { (createBlockLevelAccessList.addStorageWrite [1] [5] [7] 1 (some [])).addNonceChange [1] 1 1 with
    blockAccessIndex := 2 }

/-- A transaction that changes the account and takes it back, and destroys another one. -/
def changeAndDestroy : List TransactionOp :=
  [.checkpoint, .addStorageWrite [1] [5] [] (some [7]), .revert, .addNonceChange [2] 1,
    .cleanupSelfdestructed [[2]]]

theorem earlier_final_sample :
    (2, ([7] : Bytes)) ∉ changesOf secondTransaction.accesses [1] (.storage [5]) ∧
    ∀ reached, reached <+: changeAndDestroy → ∀ address kind,
      ∀ change ∈ changesOf secondTransaction.accesses address kind, change.1 < 2 →
        change ∈ changesOf (secondTransaction.applyAll reached).accesses address kind := by
  have hreverts : RevertsWithin 0 changeAndDestroy := by
    simp [changeAndDestroy, RevertsWithin, depthAfter]
  refine ⟨by decide, (earlier_final secondTransaction changeAndDestroy hreverts).mpr ?_⟩
  refine ⟨trivial, trivial, trivial, trivial, ?_, trivial⟩
  intro address haddress kind _ change hchange
  obtain rfl := List.mem_singleton.mp haddress
  cases kind with
  | storage slot => exact absurd hchange List.not_mem_nil
  | balance => exact absurd hchange List.not_mem_nil
  | code => exact absurd hchange List.not_mem_nil
  | nonce =>
    obtain rfl : change = (2, [1]) := List.mem_singleton.mp hchange
    decide

/-- A clean-up of an account that was changed by the transaction before. -/
theorem not_earlier_final :
    ¬ ∀ (self : BlockLevelAccessList) (ops : List TransactionOp), RevertsWithin 0 ops →
      ∀ address kind, ∀ change ∈ changesOf self.accesses address kind,
        change.1 < self.blockAccessIndex →
          change ∈ changesOf (self.applyAll ops).accesses address kind := by
  intro h
  have hnonce := h secondTransaction [.cleanupSelfdestructed [[1]]]
    (by simp [RevertsWithin]) [1] .nonce (1, [1])
  revert hnonce
  decide

end Sample

end BlockLevelAccessList

end EthereumJS
