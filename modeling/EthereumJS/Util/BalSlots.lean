import EthereumJS.Util.Bal

/-! # The slots of a block access list

A slot of an account is read or changed, not both, as long as no revert brings back the changes
of a slot that counts as read by then.
-/

namespace EthereumJS

open RLP Ordered

namespace Access

variable {access target : Access}

/-- No slot is both read and changed. -/
def Classified (access : Access) : Prop :=
  ∀ slot, (access.storageReads.get slot).isSome → access.storageChanges.get slot = none

theorem classified_empty : empty.Classified := fun _ _ => rfl

theorem mem_readKeys {slot : Bytes} :
    slot ∈ access.readKeys ↔ (access.storageReads.get slot).isSome := lookupEntry_isSome.symm

theorem get_addReads (slots : List Bytes) (slot : Bytes) :
    ∀ access : Access, ((access.addReads slots).storageReads.get slot).isSome ↔
      (access.storageReads.get slot).isSome ∨ slot ∈ slots := by
  induction slots with
  | nil => simp [addReads]
  | cons key slots ih =>
    intro access
    rw [show access.addReads (key :: slots) =
        { access with storageReads := access.storageReads.set key () }.addReads slots from rfl,
      ih, InsertionMap.get_set, List.mem_cons]
    split
    · next heq => simp [heq]
    · next hne => simp [hne]

theorem Classified.addStorageRead (h : access.Classified) (key : Bytes) :
    (access.addStorageRead key).Classified := by
  unfold Access.addStorageRead
  split
  · next hnone =>
    intro slot hslot
    by_cases heq : slot = key
    · rw [heq]
      exact hnone
    · rw [InsertionMap.get_set, if_neg heq] at hslot
      exact h slot hslot
  · exact h

theorem Classified.addStorageWrite (h : access.Classified) (key value : Bytes) (index : Nat) :
    (access.addStorageWrite key value index).Classified := by
  intro slot hslot
  simp only [Access.addStorageWrite, InsertionMap.get_delete, InsertionMap.get_set] at hslot ⊢
  split at hslot
  · cases hslot
  · next hne =>
    rw [if_neg hne]
    exact h slot hslot

theorem Classified.addStorageNoOp (h : access.Classified) (key : Bytes) (index : Nat) :
    (access.addStorageNoOp key index).Classified := by
  unfold Access.addStorageNoOp
  split
  · next slotChanges hchanges =>
    dsimp only
    split
    · refine Classified.addStorageRead ?_ key
      intro slot hslot
      rw [InsertionMap.get_delete]
      split
      · rfl
      · exact h slot hslot
    · intro slot hslot
      rw [InsertionMap.get_set]
      split
      · next heq =>
        rw [heq] at hslot
        rw [h key hslot] at hchanges
        cases hchanges
      · exact h slot hslot
  · exact h.addStorageRead key

/-- The merge keeps the changes of the target. -/
theorem classified_mergeReverted (h : target.Classified) :
    (target.mergeReverted access).Classified ↔
      ∀ slot ∈ access.readKeys, target.storageChanges.get slot = none := by
  have hreads : ∀ slot, ((target.mergeReverted access).storageReads.get slot).isSome ↔
      ((target.storageReads.get slot).isSome ∨ slot ∈ access.readKeys) ∨
        slot ∈ access.slotKeys.filter fun slot => (target.storageChanges.get slot).isNone := by
    intro slot
    rw [mergeReverted, get_addReads, get_addReads]
  constructor
  · intro hmerged slot hslot
    exact hmerged slot ((hreads slot).mpr (.inl (.inr hslot)))
  · intro hapart slot hslot
    obtain (hread | hread) | hwritten := (hreads slot).mp hslot
    · exact h slot hread
    · exact hapart slot hread
    · show target.storageChanges.get slot = none
      exact Option.isNone_iff_eq_none.mp (List.mem_filter.mp hwritten).2

end Access

namespace BlockLevelAccessList

variable {self : BlockLevelAccessList} {accesses : Accesses}

def AllClassified (accesses : Accesses) : Prop :=
  ∀ address access, accesses.get address = some access → access.Classified

theorem AllClassified.getD (h : AllClassified accesses) (address : Bytes) :
    ((accesses.get address).getD .empty).Classified :=
  InsertionMap.getD_of_all h Access.classified_empty address

theorem AllClassified.set (h : AllClassified accesses) (address : Bytes) {access : Access}
    (haccess : access.Classified) : AllClassified (accesses.set address access) :=
  InsertionMap.all_set h address haccess

/-- The access list and all its checkpoints are classified. -/
structure SlotsApart (list : BlockLevelAccessList) : Prop where
  current : AllClassified list.accesses
  saved : ∀ saved ∈ list.checkpoints, AllClassified saved.1

/-- No slot that counts as read was changed at the checkpoint to revert to. -/
def RevertMeets (self : BlockLevelAccessList) : Prop :=
  ∀ saved ∈ self.checkpoints.head?, ∀ entry ∈ self.accesses.entries,
    ∀ target ∈ saved.1.get entry.1, ∀ slot ∈ entry.2.readKeys,
      target.storageChanges.get slot = none

instance : Decidable self.RevertMeets :=
  inferInstanceAs (Decidable (∀ saved ∈ self.checkpoints.head?, _))

theorem SlotsApart.modifyAccess (h : self.SlotsApart) (address : Bytes)
    {change : Access → Access} (hchange : ∀ access, access.Classified → (change access).Classified) :
    (self.modifyAccess address change).SlotsApart where
  current := h.current.set address (hchange _ (h.current.getD address))
  saved := h.saved

theorem get_mergeReverted (address : Bytes) (current : List (Bytes × Access)) :
    ∀ accesses : Accesses, (current.map Prod.fst).Nodup →
      (mergeReverted current accesses).get address =
        match lookupEntry address current with
        | none => accesses.get address
        | some access => some (((accesses.get address).getD .empty).mergeReverted access) := by
  induction current with
  | nil => exact fun accesses _ => rfl
  | cons entry current ih =>
    obtain ⟨key, access⟩ := entry
    intro accesses hnodup
    obtain ⟨hnew, hnodup⟩ := List.nodup_cons.mp hnodup
    rw [mergeReverted, ih _ hnodup, lookupEntry, InsertionMap.get_set]
    by_cases heq : key = address
    · subst heq
      rw [lookupEntry_eq_none hnew, if_pos rfl, if_pos rfl]
    · rw [if_neg heq, if_neg fun hsymm => heq hsymm.symm]

theorem SlotsApart.revert_iff (h : self.SlotsApart) :
    AllClassified self.revert.accesses ↔ self.RevertMeets := by
  unfold BlockLevelAccessList.revert RevertMeets
  cases hcheckpoints : self.checkpoints with
  | nil => simp [h.current]
  | cons saved checkpoints =>
    have hsaved : AllClassified saved.1 := h.saved saved (by simp [hcheckpoints])
    have hmerged := fun address =>
      get_mergeReverted address self.accesses.entries saved.1 self.accesses.nodup
    simp only [List.head?_cons, Option.mem_some_iff, forall_eq']
    constructor
    · intro hclassified entry hentry target htarget slot hslot
      have hlookup : lookupEntry entry.1 self.accesses.entries = some entry.2 :=
        lookupEntry_of_mem self.accesses.nodup hentry
      have hentryMerged := hmerged entry.1
      rw [hlookup, htarget] at hentryMerged
      have hboth := hclassified entry.1 _ hentryMerged
      exact (Access.classified_mergeReverted (hsaved entry.1 target htarget)).mp hboth slot hslot
    · intro hmeets address access haccess
      rw [hmerged address] at haccess
      split at haccess
      · exact hsaved address access haccess
      · next current hcurrent =>
        cases haccess
        rw [Access.classified_mergeReverted (hsaved.getD address)]
        intro slot hslot
        cases htarget : saved.1.get address with
        | none => rfl
        | some target =>
          exact hmeets (address, current) (mem_of_lookupEntry hcurrent) target htarget slot hslot

theorem SlotsApart.cleanupSelfdestructed (addresses : List Bytes) :
    ∀ {self : BlockLevelAccessList}, self.SlotsApart →
      (BlockLevelAccessList.cleanupSelfdestructed addresses self).SlotsApart := by
  induction addresses with
  | nil => exact fun h => h
  | cons address addresses ih =>
    intro self h
    rw [BlockLevelAccessList.cleanupSelfdestructed]
    split
    · exact ih h
    · next access haccess =>
      exact ih ⟨h.current.set address fun _ _ => rfl, h.saved⟩

/-- What changes a block access list; an increment is that of the index in the block. -/
inductive Op
  | addAddress (address : Bytes)
  | addStorageRead (address storageKey : Bytes)
  | addStorageWrite (address storageKey value : Bytes) (blockAccessIndex : Nat)
      (originalValue : Option Bytes)
  | checkpoint
  | commit
  | revert
  | cleanupSelfdestructed (addresses : List Bytes)
  | increment

def step (self : BlockLevelAccessList) : Op → BlockLevelAccessList
  | .addAddress address => self.addAddress address
  | .addStorageRead address storageKey => self.addStorageRead address storageKey
  | .addStorageWrite address storageKey value blockAccessIndex originalValue =>
    self.addStorageWrite address storageKey value blockAccessIndex originalValue
  | .checkpoint => self.checkpoint
  | .commit => self.commit
  | .revert => self.revert
  | .cleanupSelfdestructed addresses => cleanupSelfdestructed addresses self
  | .increment => { self with blockAccessIndex := self.blockAccessIndex + 1 }

def Meets (self : BlockLevelAccessList) : Op → Prop
  | .revert => self.RevertMeets
  | _ => True

instance (op : Op) : Decidable (self.Meets op) :=
  match op with
  | .revert => inferInstanceAs (Decidable self.RevertMeets)
  | .addAddress _ | .addStorageRead _ _ | .addStorageWrite _ _ _ _ _ | .checkpoint | .commit
  | .cleanupSelfdestructed _ | .increment => isTrue trivial

def MeetsRun (self : BlockLevelAccessList) : List Op → Prop
  | [] => True
  | op :: ops => self.Meets op ∧ (self.step op).MeetsRun ops

def run (self : BlockLevelAccessList) (ops : List Op) : BlockLevelAccessList := ops.foldl step self

theorem SlotsApart.step (h : self.SlotsApart) {op : Op} (hmeets : self.Meets op) :
    (self.step op).SlotsApart := by
  cases op with
  | addAddress address => exact h.modifyAccess address fun _ hclassified => hclassified
  | addStorageRead address storageKey =>
    exact h.modifyAccess address fun _ hclassified => hclassified.addStorageRead _
  | addStorageWrite address storageKey value blockAccessIndex originalValue =>
    rw [BlockLevelAccessList.step, BlockLevelAccessList.addStorageWrite]
    refine h.modifyAccess address fun access hclassified => ?_
    split
    · exact hclassified.addStorageNoOp _ blockAccessIndex
    · exact hclassified.addStorageWrite _ _ blockAccessIndex
  | checkpoint =>
    refine ⟨h.current, fun saved hsaved => ?_⟩
    obtain rfl | hsaved := List.mem_cons.mp hsaved
    · exact h.current
    · exact h.saved saved hsaved
  | commit =>
    exact ⟨h.current, fun saved hsaved => h.saved saved (List.mem_of_mem_tail hsaved)⟩
  | revert =>
    refine ⟨h.revert_iff.mpr hmeets, fun saved hsaved => h.saved saved ?_⟩
    simp only [BlockLevelAccessList.step, BlockLevelAccessList.revert] at hsaved
    split at hsaved
    · exact hsaved
    · next heq =>
      rw [heq]
      exact List.mem_cons_of_mem _ hsaved
  | cleanupSelfdestructed addresses => exact h.cleanupSelfdestructed addresses
  | increment => exact ⟨h.current, h.saved⟩

theorem SlotsApart.run (ops : List Op) :
    ∀ {self : BlockLevelAccessList}, self.SlotsApart →
      ((∀ reached, reached <+: ops → AllClassified (self.run reached).accesses) ↔
        self.MeetsRun ops) := by
  induction ops with
  | nil =>
    intro self h
    simp [MeetsRun, BlockLevelAccessList.run, h.current]
  | cons op ops ih =>
    intro self h
    constructor
    · intro hall
      have hmeets : self.Meets op := by
        cases op with
        | revert => exact h.revert_iff.mp (hall [.revert] (by simp))
        | _ => trivial
      refine ⟨hmeets, (ih (h.step hmeets)).mp fun reached hreached => ?_⟩
      exact hall (op :: reached) (List.cons_prefix_cons.mpr ⟨rfl, hreached⟩)
    · rintro ⟨hmeets, hrest⟩ reached hreached
      obtain rfl | ⟨rest, rfl, hrestPrefix⟩ := List.prefix_cons_iff.mp hreached
      · exact h.current
      · exact (ih (h.step hmeets)).mpr hrest rest hrestPrefix

theorem createBlockLevelAccessList_slotsApart : createBlockLevelAccessList.SlotsApart where
  current _ _ h := by cases h
  saved _ h := by cases h

/-- In every state that a run reaches each slot of an account is read or changed and not both, if
and only if no revert of the run brings back the changes of a slot that counts as read. -/
theorem slots_classified (ops : List Op) :
    (∀ reached, reached <+: ops → ∀ address access slot,
      (createBlockLevelAccessList.run reached).accesses.get address = some access →
      ¬ (slot ∈ access.readKeys ∧ slot ∈ access.slotKeys)) ↔
    createBlockLevelAccessList.MeetsRun ops := by
  rw [← createBlockLevelAccessList_slotsApart.run ops]
  refine forall_congr' fun reached => imp_congr_right fun _ => ?_
  constructor
  · intro h address access haccess slot hslot
    rw [← Option.not_isSome_iff_eq_none]
    intro hsome
    exact h address access slot haccess ⟨Access.mem_readKeys.mpr hslot, lookupEntry_isSome.mp hsome⟩
  · rintro h address access slot haccess ⟨hread, hchanged⟩
    have hnone := h address access haccess slot (Access.mem_readKeys.mp hread)
    have hsome : (access.storageChanges.get slot).isSome := lookupEntry_isSome.mpr hchanged
    rw [hnone] at hsome
    cases hsome

/-- A change that a call takes back before it is reverted. -/
theorem not_slots_classified :
    ¬ ∀ ops address access slot,
      (createBlockLevelAccessList.run ops).accesses.get address = some access →
      ¬ (slot ∈ access.readKeys ∧ slot ∈ access.slotKeys) := by
  intro h
  have hslot := h [.addStorageWrite [1] [5] [7] 1 (some []), .checkpoint,
    .addStorageWrite [1] [5] [] 1 (some []), .revert] [1] _ [5] rfl
  revert hslot
  decide

end BlockLevelAccessList

end EthereumJS
