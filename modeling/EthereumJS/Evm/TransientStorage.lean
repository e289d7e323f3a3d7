import EthereumJS.Overlay.ChangeJournal
import EthereumJS.Util.BalOrder

/-! # Transient storage

`TransientStorage` of `evm/src/transientStorage.ts`. The storage is keyed by the hex strings of
addresses and slots; the change journal comes newest first, the indices last first. Undoing
changes of a single journal is what nested transactions on the slots would do.
-/

namespace EthereumJS.Evm

open RLP Overlay

inductive TransientStorageError
  | keyLength
  | valueTooLong
  | nothingToCommit
  | nothingToRevert
  /-- The storage of an address is used that is not there. -/
  | undefinedStorage
  deriving DecidableEq

structure TransientStorageModification where
  addr : HexString
  key : HexString
  prevValue : Bytes

abbrev TransientStorageCurrent := HexString → Option (HexString → Option Bytes)

structure TransientStorage where
  storage : TransientStorageCurrent
  changeJournal : List TransientStorageModification
  indices : List ℕ

namespace TransientStorage

/-- A new `TransientStorage`. -/
def fresh : TransientStorage := { storage := fun _ => none, changeJournal := [], indices := [0] }

def lookup (storage : TransientStorageCurrent) (addr key : HexString) : Bytes :=
  match storage addr with
  | none => List.replicate 32 0
  | some map => (map key).getD (List.replicate 32 0)

def get (self : TransientStorage) (addr key : Bytes) : Bytes :=
  lookup self.storage (bytesToHex addr) (bytesToHex key)

def put (self : TransientStorage) (addr key value : Bytes) :
    Except TransientStorageError TransientStorage :=
  if key.length ≠ 32 then .error .keyLength
  else if value.length > 32 then .error .valueTooLong
  else
    let map := (self.storage (bytesToHex addr)).getD fun _ => none
    let prevValue := (map (bytesToHex key)).getD (List.replicate 32 0)
    .ok { self with
      storage := Function.update self.storage (bytesToHex addr)
        (some (Function.update map (bytesToHex key) (some value)))
      changeJournal := ⟨bytesToHex addr, bytesToHex key, prevValue⟩ :: self.changeJournal }

def commit (self : TransientStorage) : Except TransientStorageError TransientStorage :=
  match self.indices with
  | [] => .error .nothingToCommit
  | _ :: indices => .ok { self with indices := indices }

def checkpoint (self : TransientStorage) : TransientStorage :=
  { self with indices := self.changeJournal.length :: self.indices }

/-- One round of the loop of `revert`. -/
def undo (storage : TransientStorageCurrent) (change : TransientStorageModification) :
    Except TransientStorageError TransientStorageCurrent :=
  match storage change.addr with
  | none => .error .undefinedStorage
  | some map => .ok (Function.update storage change.addr
      (some (Function.update map change.key (some change.prevValue))))

def revert (self : TransientStorage) : Except TransientStorageError TransientStorage :=
  match self.indices with
  | [] => .error .nothingToRevert
  | lastCheckpoint :: indices => do
    let count := self.changeJournal.length - lastCheckpoint
    let storage ← (self.changeJournal.take count).foldlM undo self.storage
    .ok { storage := storage, changeJournal := self.changeJournal.drop count, indices := indices }

inductive Op
  | put (addr key value : Bytes)
  | get (addr key : Bytes)
  | checkpoint
  | commit
  | revert
  deriving DecidableEq

/-- A `put` that throws has changed nothing. -/
def step (self : TransientStorage) : Op → Except TransientStorageError TransientStorage
  | .put addr key value => .ok ((self.put addr key value).toOption.getD self)
  | .get _ _ => .ok self
  | .checkpoint => .ok self.checkpoint
  | .commit => self.commit
  | .revert => self.revert

/-- What an operation returns, as far as it returns bytes. -/
def returned (self : TransientStorage) : Op → List Bytes
  | .get addr key => [self.get addr key]
  | _ => []

/-- The values that the operations read, and the storage after them. -/
def run (self : TransientStorage) :
    List Op → Except TransientStorageError (List Bytes × TransientStorage)
  | [] => .ok ([], self)
  | op :: ops =>
    match self.step op with
    | .error error => .error error
    | .ok next => (next.run ops).map fun result => (self.returned op ++ result.1, result.2)

section Transactions

/-- The number at each slot of each address. -/
abbrev Slots := Bytes → Bytes → ℕ

def Slots.put (addr key : Bytes) (value : ℕ) (slots : Slots) : Slots :=
  fun a k => if a = addr ∧ k = key then value else slots a k

/-- What an operation does to nested transactions; to end no checkpoint is not defined. -/
def nestedStep (nested : Nested Slots) : Op → Option (Nested Slots)
  | .put addr key value =>
    if key.length = 32 ∧ value.length ≤ 32 then
      some (nested.modify (Slots.put addr key (bytesToBigInt value)))
    else some nested
  | .get _ _ => some nested
  | .checkpoint => some nested.checkpoint
  | .commit => nested.commit
  | .revert => nested.revert

def nestedReturned (nested : Nested Slots) : Op → List ℕ
  | .get addr key => [nested.current addr key]
  | _ => []

def nestedRun (nested : Nested Slots) : List Op → Option (List ℕ × Nested Slots)
  | [] => some ([], nested)
  | op :: ops =>
    match nestedStep nested op with
    | none => none
    | some next =>
      (nestedRun next ops).map fun result => (nestedReturned nested op ++ result.1, result.2)

/-- Every slot zero and no checkpoint open. -/
def nestedFresh : Nested Slots := ⟨fun _ _ => 0, []⟩

/-- The open checkpoints after some operations; `none` if one ends a checkpoint that is not
there. -/
def depthAfter : ℕ → List Op → Option ℕ
  | depth, [] => some depth
  | depth, .checkpoint :: ops => depthAfter (depth + 1) ops
  | 0, .commit :: _ | 0, .revert :: _ => none
  | depth + 1, .commit :: ops | depth + 1, .revert :: ops => depthAfter depth ops
  | depth, .put _ _ _ :: ops | depth, .get _ _ :: ops => depthAfter depth ops

/-- Balanced operations are those that nested transactions define. -/
theorem saved_nestedRun (ops : List Op) :
    ∀ nested : Nested Slots, (nestedRun nested ops).map (·.2.saved.length) =
      depthAfter nested.saved.length ops := by
  induction ops with
  | nil => exact fun nested => rfl
  | cons op ops ih =>
    intro nested
    have hnext {next : Nested Slots} (hstep : nestedStep nested op = some next) :
        (nestedRun nested (op :: ops)).map (·.2.saved.length) =
          depthAfter next.saved.length ops := by
      rw [nestedRun, hstep, ← ih next]
      exact Option.map_map _ _ _
    cases op with
    | put addr key value =>
      by_cases hvalid : key.length = 32 ∧ value.length ≤ 32
      · exact @hnext (nested.modify _) (if_pos hvalid)
      · exact hnext (if_neg hvalid)
    | get addr key => exact hnext rfl
    | checkpoint => exact hnext rfl
    | commit =>
      obtain ⟨current, saved⟩ := nested
      cases saved with
      | nil => rfl
      | cons before saved => exact hnext rfl
    | revert =>
      obtain ⟨current, saved⟩ := nested
      cases saved with
      | nil => rfl
      | cons before saved => exact hnext rfl

end Transactions

section Representation

def slotsOf (storage : TransientStorageCurrent) : Slots :=
  fun addr key => bytesToBigInt (lookup storage (bytesToHex addr) (bytesToHex key))

def Slots.undo (change : TransientStorageModification) (slots : Slots) : Slots :=
  fun a k =>
    if bytesToHex a = change.addr ∧ bytesToHex k = change.key then bytesToBigInt change.prevValue
    else slots a k

/-- The storage stands for nested transactions above the first index, which is there from the
start. -/
structure Represents (transient : TransientStorage) (nested : Nested Slots) : Prop where
  current : slotsOf transient.storage = nested.current
  unwinds : Unwinds Slots.undo (nested.saved ++ [nestedFresh.current]) transient.indices
    nested.current transient.changeJournal
  known : ∀ change ∈ transient.changeJournal, (transient.storage change.addr).isSome

theorem hex_slot_iff {a addr k key : Bytes} :
    bytesToHex a = bytesToHex addr ∧ bytesToHex k = bytesToHex key ↔ a = addr ∧ k = key :=
  and_congr bytesToHex_injective.eq_iff bytesToHex_injective.eq_iff

theorem fresh_represents : fresh.Represents nestedFresh := by
  have hslots : slotsOf fresh.storage = nestedFresh.current := by
    funext addr key
    rfl
  refine ⟨hslots, ⟨[], [], [], rfl, rfl, rfl, rfl⟩, fun change hmem => ?_⟩
  exact absurd hmem List.not_mem_nil

variable {storage : TransientStorageCurrent} {map : HexString → Option Bytes} {addr : HexString}

/-- A value that is set in the map of an address, or in a new map for it. -/
theorem lookup_set (hmap : ∀ key, (map key).getD (List.replicate 32 0) = lookup storage addr key)
    (key : HexString) (value : Bytes) (a k : HexString) :
    lookup (Function.update storage addr (some (Function.update map key (some value)))) a k =
      if a = addr ∧ k = key then value else lookup storage a k := by
  by_cases ha : a = addr
  · subst ha
    rw [lookup, Function.update_self]
    by_cases hk : k = key
    · subst hk
      rw [if_pos ⟨rfl, rfl⟩]
      dsimp only
      rw [Function.update_self]
      rfl
    · rw [if_neg fun h => hk h.2, ← hmap]
      dsimp only
      rw [Function.update_of_ne hk]
  · rw [if_neg fun h => ha h.1, lookup, Function.update_of_ne ha, lookup]

theorem lookup_eq_getD (storage : TransientStorageCurrent) (addr key : HexString) :
    (((storage addr).getD fun _ => none) key).getD (List.replicate 32 0) =
      lookup storage addr key := by
  rw [lookup]
  cases storage addr <;> rfl

/-- The change that a put records undoes it. -/
theorem undo_put (addr key : Bytes) (value : ℕ) (slots : Slots) {prevValue : Bytes}
    (hprev : bytesToBigInt prevValue = slots addr key) :
    Slots.undo ⟨bytesToHex addr, bytesToHex key, prevValue⟩ (slots.put addr key value) = slots := by
  funext a k
  rw [Slots.undo, Slots.put]
  by_cases h : a = addr ∧ k = key
  · rw [if_pos (hex_slot_iff.mpr h), h.1, h.2, hprev]
  · rw [if_neg (mt hex_slot_iff.mp h), if_neg h]

/-- One round of the loop of `revert`, at an address that has a storage. -/
theorem undo_eq {change : TransientStorageModification} (hknown : (storage change.addr).isSome) :
    ∃ undone, undo storage change = .ok undone ∧
      slotsOf undone = Slots.undo change (slotsOf storage) ∧
      ∀ addr, (storage addr).isSome → (undone addr).isSome := by
  obtain ⟨map, hmap⟩ := Option.isSome_iff_exists.mp hknown
  rw [undo, hmap]
  refine ⟨_, rfl, ?_, fun addr hsome => ?_⟩
  · funext a k
    rw [slotsOf, lookup_set fun key => by rw [lookup, hmap], Slots.undo]
    exact apply_ite bytesToBigInt _ _ _
  · by_cases haddr : addr = change.addr
    · rw [haddr, Function.update_self]
      rfl
    · rwa [Function.update_of_ne haddr]

theorem foldlM_undo (changes : List TransientStorageModification) :
    ∀ storage : TransientStorageCurrent, (∀ change ∈ changes, (storage change.addr).isSome) →
      ∃ undone, changes.foldlM undo storage = .ok undone ∧
        slotsOf undone = undoChanges Slots.undo changes (slotsOf storage) ∧
        ∀ addr, (storage addr).isSome → (undone addr).isSome := by
  induction changes with
  | nil => exact fun storage _ => ⟨storage, rfl, rfl, fun _ => id⟩
  | cons change changes ih =>
    intro storage hknown
    obtain ⟨hchange, hchanges⟩ := List.forall_mem_cons.mp hknown
    obtain ⟨next, hnext, hslots, hkept⟩ := undo_eq hchange
    obtain ⟨undone, hundone, hall, hkept'⟩ := ih next fun c hc => hkept _ (hchanges c hc)
    refine ⟨undone, ?_, ?_, fun addr hsome => hkept' _ (hkept _ hsome)⟩
    · rw [List.foldlM_cons, hnext]
      exact hundone
    · rw [hall, hslots]
      rfl

end Representation

section Steps

variable {self : TransientStorage} {nested : Nested Slots}

theorem Represents.put (h : self.Represents nested) (addr : Bytes) {key value : Bytes}
    (hkey : key.length = 32) (hvalue : value.length ≤ 32) :
    ∃ changed, self.put addr key value = .ok changed ∧
      changed.Represents (nested.modify (Slots.put addr key (bytesToBigInt value))) := by
  rw [TransientStorage.put, if_neg (not_not_intro hkey), if_neg (Nat.not_lt.mpr hvalue)]
  refine ⟨_, rfl, ?_, ?_, ?_⟩
  · funext a k
    dsimp only
    rw [slotsOf, lookup_set (lookup_eq_getD _ _), if_congr hex_slot_iff rfl rfl]
    refine (apply_ite bytesToBigInt _ _ _).trans ?_
    rw [Nested.modify, ← h.current]
    rfl
  · refine h.unwinds.record (undo_put addr key _ _ ?_)
    rw [lookup_eq_getD, ← h.current]
    rfl
  · intro change hchange
    dsimp only at hchange ⊢
    rcases List.mem_cons.mp hchange with rfl | hold
    · rw [Function.update_self]
      rfl
    · by_cases haddr : change.addr = bytesToHex addr
      · rw [haddr, Function.update_self]
        rfl
      · rw [Function.update_of_ne haddr]
        exact h.known change hold

theorem Represents.checkpoint (h : self.Represents nested) :
    self.checkpoint.Represents nested.checkpoint := ⟨h.current, h.unwinds.checkpoint, h.known⟩

/-- There is an index for each open checkpoint. -/
theorem Represents.indices_ne_nil (h : self.Represents nested) :
    ∃ index indices, self.indices = index :: indices := by
  have hlength := h.unwinds.length_indices
  rw [List.length_append, List.length_singleton] at hlength
  exact List.exists_cons_of_length_eq_add_one hlength

theorem Represents.commit (h : self.Represents nested) {ended : Nested Slots}
    (hended : nested.commit = some ended) :
    ∃ committed, self.commit = .ok committed ∧ committed.Represents ended := by
  obtain ⟨current, saved⟩ := nested
  cases saved with
  | nil => cases hended
  | cons before saved =>
    obtain rfl := Option.some.inj hended
    obtain ⟨index, indices, hindices⟩ := h.indices_ne_nil
    have hunwinds := h.unwinds
    rw [hindices] at hunwinds
    rw [TransientStorage.commit, hindices]
    exact ⟨_, rfl, h.current, hunwinds.commit, h.known⟩

theorem Represents.revert (h : self.Represents nested) {ended : Nested Slots}
    (hended : nested.revert = some ended) :
    ∃ reverted, self.revert = .ok reverted ∧ reverted.Represents ended := by
  obtain ⟨current, saved⟩ := nested
  cases saved with
  | nil => cases hended
  | cons before saved =>
    obtain rfl := Option.some.inj hended
    obtain ⟨index, indices, hindices⟩ := h.indices_ne_nil
    have hunwinds := h.unwinds
    rw [hindices] at hunwinds
    obtain ⟨hback, hrest⟩ := hunwinds.revert
    obtain ⟨undone, hundone, hslots, hkept⟩ :=
      foldlM_undo (self.changeJournal.take (self.changeJournal.length - index)) self.storage
        fun change hchange => h.known change (List.mem_of_mem_take hchange)
    rw [TransientStorage.revert, hindices]
    dsimp only
    rw [hundone]
    refine ⟨_, rfl, ?_, hrest, fun change hchange => ?_⟩
    · rw [← hback, ← h.current]
      exact hslots
    · exact hkept _ (h.known change (List.mem_of_mem_drop hchange))

/-- What an operation of nested transactions reads and leaves, the storage reads and leaves. -/
theorem Represents.step (h : self.Represents nested) {op : Op} {next : Nested Slots}
    (hnext : nestedStep nested op = some next) :
    ∃ after, self.step op = .ok after ∧ after.Represents next := by
  cases op with
  | put addr key value =>
    rw [nestedStep] at hnext
    by_cases hvalid : key.length = 32 ∧ value.length ≤ 32
    · rw [if_pos hvalid] at hnext
      obtain rfl := Option.some.inj hnext
      obtain ⟨changed, hput, hrepresents⟩ := h.put addr hvalid.1 hvalid.2
      refine ⟨changed, ?_, hrepresents⟩
      rw [TransientStorage.step, hput]
      rfl
    · rw [if_neg hvalid] at hnext
      obtain rfl := Option.some.inj hnext
      refine ⟨self, ?_, h⟩
      rw [TransientStorage.step, TransientStorage.put]
      split_ifs with hkey hvalue
      · rfl
      · rfl
      · exact absurd ⟨not_not.mp hkey, Nat.not_lt.mp hvalue⟩ hvalid
  | get addr key =>
    obtain rfl := Option.some.inj hnext
    exact ⟨self, rfl, h⟩
  | checkpoint =>
    obtain rfl := Option.some.inj hnext
    exact ⟨self.checkpoint, rfl, h.checkpoint⟩
  | commit => exact h.commit hnext
  | revert => exact h.revert hnext

theorem Represents.get (h : self.Represents nested) (addr key : Bytes) :
    bytesToBigInt (self.get addr key) = nested.current addr key := by
  rw [← h.current]
  rfl

theorem Represents.returned (h : self.Represents nested) (op : Op) :
    (self.returned op).map bytesToBigInt = nestedReturned nested op := by
  cases op with
  | get addr key => exact congrArg (fun value => [value]) (h.get addr key)
  | put addr key value => rfl
  | checkpoint => rfl
  | commit => rfl
  | revert => rfl

theorem Represents.run (ops : List Op) :
    ∀ {self : TransientStorage} {nested : Nested Slots}, self.Represents nested →
      ∀ {values : List ℕ} {last : Nested Slots}, nestedRun nested ops = some (values, last) →
        ∃ read after, self.run ops = .ok (read, after) ∧ read.map bytesToBigInt = values ∧
          after.Represents last := by
  induction ops with
  | nil =>
    intro self nested h values last hrun
    obtain ⟨rfl, rfl⟩ := Prod.mk.inj (Option.some.inj hrun)
    exact ⟨[], self, rfl, rfl, h⟩
  | cons op ops ih =>
    intro self nested h values last hrun
    rw [nestedRun] at hrun
    cases hnext : nestedStep nested op with
    | none =>
      rw [hnext] at hrun
      cases hrun
    | some next =>
      rw [hnext] at hrun
      obtain ⟨⟨rest, last'⟩, hrest, heq⟩ := Option.map_eq_some_iff.mp hrun
      obtain ⟨rfl, rfl⟩ := Prod.mk.inj heq
      obtain ⟨after, hstep, hafter⟩ := h.step hnext
      obtain ⟨read, final, hread, hvalues, hfinal⟩ := ih hafter hrest
      refine ⟨self.returned op ++ read, final, ?_, ?_, hfinal⟩
      · rw [TransientStorage.run, hstep]
        dsimp only
        rw [hread]
        rfl
      · rw [List.map_append, h.returned, hvalues]

end Steps

/-- With balanced checkpoints, the storage reads what nested transactions on a map of numbers
read, during the operations and after them. -/
theorem fresh_run (ops : List Op) {depth : ℕ} (hbalanced : depthAfter 0 ops = some depth) :
    ∃ read after values last, fresh.run ops = .ok (read, after) ∧
      nestedRun nestedFresh ops = some (values, last) ∧ read.map bytesToBigInt = values ∧
      ∀ addr key, bytesToBigInt (after.get addr key) = last.current addr key := by
  have hsaved : (nestedRun nestedFresh ops).map (·.2.saved.length) = some depth :=
    (saved_nestedRun ops nestedFresh).trans hbalanced
  obtain ⟨⟨values, last⟩, hnested, -⟩ := Option.map_eq_some_iff.mp hsaved
  obtain ⟨read, after, hrun, hread, hafter⟩ := fresh_represents.run ops hnested
  exact ⟨read, after, values, last, hrun, hnested, hread, hafter.get⟩

section Example

def slotKey : Bytes := List.replicate 32 7

/-- A committed checkpoint in one that is reverted. -/
def revertedOps : List Op :=
  [.put [1] slotKey [5], .checkpoint, .put [1] slotKey [6], .checkpoint, .put [1] slotKey [7],
    .commit, .get [1] slotKey, .revert, .get [1] slotKey]

theorem fresh_run_revertedOps : ∃ read after values last,
    fresh.run revertedOps = .ok (read, after) ∧
      nestedRun nestedFresh revertedOps = some (values, last) ∧ read.map bytesToBigInt = values ∧
      ∀ addr key, bytesToBigInt (after.get addr key) = last.current addr key :=
  @fresh_run revertedOps 0 rfl

example : (nestedRun nestedFresh revertedOps).map (·.1) = some [7, 5] := rfl

end Example

end TransientStorage

end EthereumJS.Evm
