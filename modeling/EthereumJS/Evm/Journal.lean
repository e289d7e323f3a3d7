import EthereumJS.Overlay.UndoLog
import EthereumJS.Util.Bytes
import Mathlib.Data.Finset.SDiff

/-! # The journal of warm and touched addresses

`Journal` of `evm/src/journal.ts` without the reports of accessed addresses and preimages.
Addresses and slots are the bytes that their unprefixed hex strings stand for, and the diff items
come newest first.
-/

namespace EthereumJS.Evm

open RLP Overlay

def ripemd160Address : Bytes := List.replicate 19 0 ++ [3]

/-- Warm addresses, warm slots and touched addresses to remove. -/
structure JournalDiffItem where
  addresses : Finset Bytes
  slots : Bytes → Finset Bytes
  touched : Finset Bytes

def JournalDiffItem.empty : JournalDiffItem :=
  { addresses := ∅, slots := fun _ => ∅, touched := ∅ }

structure Journal where
  journal : Bytes → Option (Finset Bytes)
  alwaysWarmJournal : Bytes → Option (Finset Bytes)
  touched : Finset Bytes
  journalDiff : List (ℤ × JournalDiffItem)
  journalHeight : ℤ

namespace Journal

/-- A clean journal in which these addresses and slots are always warm. -/
def clean (alwaysWarmJournal : Bytes → Option (Finset Bytes)) : Journal :=
  { journal := fun _ => none, alwaysWarmJournal := alwaysWarmJournal, touched := ∅
    journalDiff := [(0, .empty)], journalHeight := 0 }

/-- A change of the last diff item. -/
def addToDiff (self : Journal) (add : JournalDiffItem → JournalDiffItem) : Journal :=
  { self with
    journalDiff :=
      match self.journalDiff with
      | [] => []
      | (height, diff) :: diffs => (height, add diff) :: diffs }

def touchAccount (self : Journal) (address : Bytes) : Journal :=
  if address ∈ self.touched then self
  else
    { self with touched := insert address self.touched }.addToDiff fun diff =>
      { diff with touched := insert address diff.touched }

/-- `putAccount` as far as the journal goes. -/
def putAccount (self : Journal) (address : Bytes) : Journal := self.touchAccount address

def commit (self : Journal) : Journal :=
  { self with
    journalHeight := self.journalHeight - 1
    journalDiff := (self.journalHeight - 1, .empty) :: self.journalDiff }

def checkpoint (self : Journal) : Journal :=
  { self with
    journalHeight := self.journalHeight + 1
    journalDiff := (self.journalHeight + 1, .empty) :: self.journalDiff }

/-- One round of the loop of `revert`. -/
def undo (self : Journal) (diff : JournalDiffItem) : Journal :=
  { self with
    journal := fun address =>
      if address ∈ diff.addresses then none
      else (self.journal address).map (· \ diff.slots address)
    touched := self.touched \ diff.touched.erase ripemd160Address }

/-- The loop of `revert`, which never disposes of the first item. -/
def revertDiffs (height : ℤ) : List (ℤ × JournalDiffItem) → Journal → Journal
  | [], self => { self with journalDiff := [] }
  | [(h, diff)], self =>
    { (if h < height then self else self.undo diff) with journalDiff := [(h, diff)] }
  | (h, diff) :: next :: diffs, self =>
    if h < height then { self with journalDiff := (h, diff) :: next :: diffs }
    else revertDiffs height (next :: diffs) (self.undo diff)

def revert (self : Journal) : Journal :=
  let reverted := revertDiffs self.journalHeight self.journalDiff self
  { reverted with journalHeight := self.journalHeight - 1 }

def isWarmedAddress (self : Journal) (address : Bytes) : Bool :=
  (self.journal address).isSome || (self.alwaysWarmJournal address).isSome

def addWarmedAddress (self : Journal) (address : Bytes) : Journal :=
  match self.journal address with
  | some _ => self
  | none =>
    { self with journal := Function.update self.journal address (some ∅) }.addToDiff fun diff =>
      { diff with addresses := insert address diff.addresses }

def isAlwaysWarmStorage (self : Journal) (address slot : Bytes) : Bool :=
  match self.alwaysWarmJournal address with
  | some slots => slot ∈ slots
  | none => false

def isWarmedStorage (self : Journal) (address slot : Bytes) : Bool :=
  match self.journal address with
  | none => self.isAlwaysWarmStorage address slot
  | some slots => slot ∈ slots || self.isAlwaysWarmStorage address slot

def addWarmedStorage (self : Journal) (address slot : Bytes) : Journal :=
  let self := self.addWarmedAddress address
  let slots := (self.journal address).getD ∅
  if slot ∈ slots then self
  else
    { self with
      journal := Function.update self.journal address (some (insert slot slots)) }.addToDiff
      fun diff =>
        { diff with
          slots := Function.update diff.slots address (insert slot (diff.slots address)) }

inductive Op
  | checkpoint
  | commit
  | revert
  | addWarmedAddress (address : Bytes)
  | addWarmedStorage (address slot : Bytes)
  | putAccount (address : Bytes)
  deriving DecidableEq

def step (self : Journal) : Op → Journal
  | .checkpoint => self.checkpoint
  | .commit => self.commit
  | .revert => self.revert
  | .addWarmedAddress address => self.addWarmedAddress address
  | .addWarmedStorage address slot => self.addWarmedStorage address slot
  | .putAccount address => self.putAccount address

def run (self : Journal) (ops : List Op) : Journal := ops.foldl step self

/-- The open checkpoints after some operations; `none` if one ends a checkpoint that is not
there. -/
def depthAfter : Nat → List Op → Option Nat
  | depth, [] => some depth
  | depth, .checkpoint :: ops => depthAfter (depth + 1) ops
  | 0, .commit :: _ | 0, .revert :: _ => none
  | depth + 1, .commit :: ops | depth + 1, .revert :: ops => depthAfter depth ops
  | depth, .addWarmedAddress _ :: ops | depth, .addWarmedStorage _ _ :: ops
  | depth, .putAccount _ :: ops => depthAfter depth ops

/-- What is undone exactly: all but the touch of the RIPEMD160 precompile. -/
structure Marks where
  warm : Bytes → Option (Finset Bytes)
  touched : Finset Bytes

def Marks.undo (diff : JournalDiffItem) (marks : Marks) : Marks :=
  { warm := fun address =>
      if address ∈ diff.addresses then none else (marks.warm address).map (· \ diff.slots address)
    touched := marks.touched \ diff.touched }

def marks (self : Journal) : Marks :=
  { warm := self.journal, touched := self.touched.erase ripemd160Address }

/-- The journal stands for nested transactions on its marks. -/
structure Represents (journal : Journal) (nested : Nested Marks) : Prop where
  current : journal.marks = nested.current
  height : journal.journalHeight = nested.saved.length
  rewinds : Rewinds Marks.undo nested.saved nested.current journal.journalDiff

theorem Marks.undo_empty (marks : Marks) : Marks.undo .empty marks = marks := by
  obtain ⟨warm, touched⟩ := marks
  simp [Marks.undo, JournalDiffItem.empty]

theorem marks_undo (self : Journal) (diff : JournalDiffItem) :
    (self.undo diff).marks = Marks.undo diff self.marks := by
  simp only [marks, undo, Marks.undo, Marks.mk.injEq, true_and]
  ext address
  simp only [Finset.mem_erase, Finset.mem_sdiff]
  tauto

section Steps

variable {self : Journal} {nested : Nested Marks}

theorem clean_represents (alwaysWarmJournal : Bytes → Option (Finset Bytes)) :
    (clean alwaysWarmJournal).Represents ⟨(clean alwaysWarmJournal).marks, []⟩ :=
  ⟨rfl, rfl, _, _, rfl⟩

/-- A change of the marks that the last diff item records. -/
theorem Represents.record (h : self.Represents nested) {changed : Journal}
    (add : JournalDiffItem → JournalDiffItem) (hdiff : changed.journalDiff = self.journalDiff)
    (hheight : changed.journalHeight = self.journalHeight)
    (hundo : ∀ diff, Marks.undo (add diff) changed.marks = Marks.undo diff self.marks) :
    (changed.addToDiff add).Represents ⟨changed.marks, nested.saved⟩ := by
  obtain ⟨diff, diffs, hhead⟩ := h.rewinds.head
  refine ⟨rfl, hheight.trans h.height, ?_⟩
  have hrewinds := h.rewinds
  rw [hhead] at hrewinds
  simp only [addToDiff, hdiff, hhead]
  refine hrewinds.record ?_
  rw [hundo, h.current]

theorem Represents.touchAccount (h : self.Represents nested) (address : Bytes) :
    (self.touchAccount address).Represents
      ⟨(self.touchAccount address).marks, nested.saved⟩ := by
  simp only [Journal.touchAccount]
  split
  · rw [h.current]
    exact h
  · next hnew =>
    refine h.record _ rfl rfl fun diff => ?_
    simp only [Marks.undo, marks, Marks.mk.injEq, true_and]
    ext other
    simp only [Finset.mem_sdiff, Finset.mem_erase, Finset.mem_insert]
    constructor
    · rintro ⟨⟨hne, rfl | hmem⟩, hnot⟩
      · exact absurd (.inl rfl) hnot
      · exact ⟨⟨hne, hmem⟩, fun hin => hnot (.inr hin)⟩
    · rintro ⟨⟨hne, hmem⟩, hnot⟩
      refine ⟨⟨hne, .inr hmem⟩, ?_⟩
      rintro (rfl | hin)
      · exact hnew hmem
      · exact hnot hin

theorem Represents.addWarmedAddress (h : self.Represents nested) (address : Bytes) :
    (self.addWarmedAddress address).Represents
      ⟨(self.addWarmedAddress address).marks, nested.saved⟩ := by
  simp only [Journal.addWarmedAddress]
  split
  · rw [h.current]
    exact h
  · next hnone =>
    refine h.record _ rfl rfl fun diff => ?_
    simp only [Marks.undo, marks, Marks.mk.injEq, and_true]
    funext other
    by_cases hother : other = address
    · subst hother
      simp [hnone]
    · simp [hother]

theorem journal_addWarmedAddress (self : Journal) (address : Bytes) :
    ∃ slots, (self.addWarmedAddress address).journal address = some slots := by
  simp only [Journal.addWarmedAddress]
  split
  · next slots hsome => exact ⟨slots, hsome⟩
  · exact ⟨∅, by simp [addToDiff]⟩

theorem Represents.addWarmedStorage (h : self.Represents nested) (address slot : Bytes) :
    (self.addWarmedStorage address slot).Represents
      ⟨(self.addWarmedStorage address slot).marks, nested.saved⟩ := by
  have hwarm := h.addWarmedAddress address
  obtain ⟨slots, hslots⟩ := self.journal_addWarmedAddress address
  simp only [Journal.addWarmedStorage]
  split
  · exact hwarm
  · next hnew =>
    rw [hslots, Option.getD_some] at hnew ⊢
    refine hwarm.record _ rfl rfl fun diff => ?_
    simp only [Marks.undo, marks, Marks.mk.injEq, and_true]
    funext other
    by_cases hother : other = address
    · subst hother
      split_ifs
      · rfl
      · simp only [Function.update_self, hslots, Option.map_some, Option.some.injEq]
        ext key
        simp only [Finset.mem_sdiff, Finset.mem_insert]
        constructor
        · rintro ⟨rfl | hmem, hnot⟩
          · exact absurd (.inl rfl) hnot
          · exact ⟨hmem, fun hin => hnot (.inr hin)⟩
        · rintro ⟨hmem, hnot⟩
          refine ⟨.inr hmem, ?_⟩
          rintro (rfl | hin)
          · exact hnew hmem
          · exact hnot hin
    · simp [hother]

theorem Represents.checkpoint (h : self.Represents nested) :
    self.checkpoint.Represents nested.checkpoint := by
  refine ⟨h.current, ?_, ?_⟩
  · simp [Journal.checkpoint, Nested.checkpoint, h.height]
  · have hrewinds := h.rewinds.checkpoint (Marks.undo_empty nested.current)
    simp only [Journal.checkpoint, h.height]
    exact hrewinds

theorem Represents.commit (h : self.Represents nested) {ended : Nested Marks}
    (hended : nested.commit = some ended) : self.commit.Represents ended := by
  obtain ⟨current, saved⟩ := nested
  cases saved with
  | nil => cases hended
  | cons before saved =>
    obtain rfl := Option.some.inj hended
    have hheight : self.journalHeight - 1 = saved.length := by
      rw [h.height]
      simp
    refine ⟨h.current, hheight, ?_⟩
    have hrewinds := h.rewinds.commit (Marks.undo_empty current)
    simp only [Journal.commit, hheight]
    exact hrewinds

theorem marks_undoAll (diffs : List (ℤ × JournalDiffItem)) :
    ∀ self : Journal, (diffs.foldl (fun self item => self.undo item.2) self).marks =
      undoAll Marks.undo diffs self.marks := by
  induction diffs with
  | nil => exact fun self => rfl
  | cons item diffs ih =>
    intro self
    rw [List.foldl_cons, ih, marks_undo]
    rfl

/-- The loop undoes the items from the height on. -/
theorem revertDiffs_eq {height h : ℤ} {diff : JournalDiffItem}
    {rest : List (ℤ × JournalDiffItem)} (hlt : h < height) :
    ∀ (top : List (ℤ × JournalDiffItem)) (self : Journal), (∀ item ∈ top, height ≤ item.1) →
      revertDiffs height (top ++ (h, diff) :: rest) self =
        { top.foldl (fun self item => self.undo item.2) self with
          journalDiff := (h, diff) :: rest } := by
  intro top
  induction top with
  | nil =>
    intro self _
    cases rest with
    | nil => simp [revertDiffs, hlt]
    | cons next rest => simp [revertDiffs, hlt]
  | cons item top ih =>
    intro self htop
    obtain ⟨hitem, htop⟩ := List.forall_mem_cons.mp htop
    obtain ⟨next, diffs, hnext⟩ : ∃ next diffs, top ++ (h, diff) :: rest = next :: diffs := by
      cases top with
      | nil => exact ⟨_, _, rfl⟩
      | cons next top => exact ⟨_, _, rfl⟩
    rw [List.cons_append, hnext, revertDiffs, if_neg (by omega), ← hnext]
    exact ih (self.undo item.2) htop

theorem Represents.revert (h : self.Represents nested) {ended : Nested Marks}
    (hended : nested.revert = some ended) : self.revert.Represents ended := by
  obtain ⟨current, saved⟩ := nested
  cases saved with
  | nil => cases hended
  | cons before saved =>
    obtain rfl := Option.some.inj hended
    obtain ⟨top, rest, hdiffs, htop, hback, hrest⟩ := h.rewinds.revert
    obtain ⟨diff, diffs, rfl⟩ := hrest.head
    have hheight : self.journalHeight = saved.length + 1 := by
      rw [h.height]
      simp
    have hloop : revertDiffs self.journalHeight self.journalDiff self =
        { top.foldl (fun self item => self.undo item.2) self with
          journalDiff := ((saved.length : ℤ), diff) :: diffs } := by
      rw [hdiffs, revertDiffs_eq (by omega)]
      intro item hitem
      have := htop item hitem
      omega
    refine ⟨?_, ?_, ?_⟩
    · rw [Journal.revert, hloop]
      show (top.foldl (fun self item => self.undo item.2) self).marks = before
      rw [marks_undoAll, h.current, hback]
    · simp [Journal.revert, hheight]
    · rw [Journal.revert, hloop]
      exact hrest

/-- Operations that end no checkpoint from before them keep what it saved. -/
theorem Represents.run (ops : List Op) (base : List Marks) :
    ∀ (opened : List Marks) {self : Journal} {nested : Nested Marks} {depth : Nat},
      self.Represents nested → nested.saved = opened ++ base →
      depthAfter opened.length ops = some depth →
      ∃ nested' opened', (self.run ops).Represents nested' ∧ nested'.saved = opened' ++ base ∧
        opened'.length = depth := by
  induction ops with
  | nil =>
    intro opened self nested depth h hsaved hdepth
    exact ⟨nested, opened, h, hsaved, Option.some.inj hdepth⟩
  | cons op ops ih =>
    intro opened self nested depth h hsaved hdepth
    rw [Journal.run, List.foldl_cons]
    cases op with
    | checkpoint =>
      have hopened : nested.checkpoint.saved = (nested.current :: opened) ++ base := by
        rw [Nested.checkpoint, hsaved, List.cons_append]
      exact ih (nested.current :: opened) h.checkpoint hopened hdepth
    | commit =>
      cases opened with
      | nil => cases hdepth
      | cons before opened =>
        obtain ⟨current, saved⟩ := nested
        obtain rfl : saved = before :: opened ++ base := hsaved
        exact ih opened (h.commit rfl) rfl hdepth
    | revert =>
      cases opened with
      | nil => cases hdepth
      | cons before opened =>
        obtain ⟨current, saved⟩ := nested
        obtain rfl : saved = before :: opened ++ base := hsaved
        exact ih opened (h.revert rfl) rfl hdepth
    | addWarmedAddress address => exact ih opened (h.addWarmedAddress address) hsaved hdepth
    | addWarmedStorage address slot =>
      exact ih opened (h.addWarmedStorage address slot) hsaved hdepth
    | putAccount address => exact ih opened (h.touchAccount address) hsaved hdepth

end Steps

section Ripemd

variable {self : Journal}

theorem ripemd_undo (self : Journal) (diff : JournalDiffItem) :
    ripemd160Address ∈ (self.undo diff).touched ↔ ripemd160Address ∈ self.touched := by
  simp [undo]

theorem ripemd_revertDiffs (height : ℤ) (diffs : List (ℤ × JournalDiffItem)) :
    ∀ self : Journal, ripemd160Address ∈ (revertDiffs height diffs self).touched ↔
      ripemd160Address ∈ self.touched := by
  induction diffs with
  | nil => exact fun self => Iff.rfl
  | cons item diffs ih =>
    intro self
    cases diffs with
    | nil =>
      simp only [revertDiffs]
      split
      · exact Iff.rfl
      · exact ripemd_undo self item.2
    | cons next diffs =>
      simp only [revertDiffs]
      split
      · exact Iff.rfl
      · exact (ih _).trans (ripemd_undo self item.2)

/-- The RIPEMD160 precompile stays touched. -/
theorem ripemd_step (op : Op) (h : ripemd160Address ∈ self.touched) :
    ripemd160Address ∈ (self.step op).touched := by
  have hwarm : ∀ address, (self.addWarmedAddress address).touched = self.touched := by
    intro address
    simp only [addWarmedAddress]
    split <;> rfl
  cases op with
  | checkpoint => exact h
  | commit => exact h
  | revert => exact (ripemd_revertDiffs _ _ self).mpr h
  | addWarmedAddress address =>
    rw [step, hwarm]
    exact h
  | addWarmedStorage address slot =>
    simp only [step, addWarmedStorage]
    split
    · rw [hwarm]
      exact h
    · simp only [addToDiff, hwarm]
      exact h
  | putAccount address =>
    simp only [step, putAccount, touchAccount]
    split
    · exact h
    · exact Finset.mem_insert_of_mem h

theorem ripemd_run (ops : List Op) :
    ∀ {self : Journal}, ripemd160Address ∈ self.touched →
      ripemd160Address ∈ (self.run ops).touched := by
  induction ops with
  | nil => exact fun h => h
  | cons op ops ih => exact fun h => ih (ripemd_step op h)

end Ripemd

theorem alwaysWarmJournal_step (self : Journal) (op : Op) :
    (self.step op).alwaysWarmJournal = self.alwaysWarmJournal := by
  have hwarm : ∀ address,
      (self.addWarmedAddress address).alwaysWarmJournal = self.alwaysWarmJournal := by
    intro address
    simp only [addWarmedAddress]
    split <;> rfl
  have hloop : ∀ (height : ℤ) (diffs : List (ℤ × JournalDiffItem)) (self : Journal),
      (revertDiffs height diffs self).alwaysWarmJournal = self.alwaysWarmJournal := by
    intro height diffs
    induction diffs with
    | nil => exact fun self => rfl
    | cons item diffs ih =>
      intro self
      cases diffs with
      | nil =>
        simp only [revertDiffs]
        split <;> rfl
      | cons next diffs =>
        simp only [revertDiffs]
        split
        · rfl
        · exact ih (self.undo item.2)
  cases op with
  | checkpoint => rfl
  | commit => rfl
  | revert => exact hloop self.journalHeight self.journalDiff self
  | addWarmedAddress address => exact hwarm address
  | addWarmedStorage address slot =>
    simp only [step, addWarmedStorage]
    split
    · exact hwarm address
    · exact hwarm address
  | putAccount address =>
    simp only [step, putAccount, touchAccount]
    split <;> rfl

theorem alwaysWarmJournal_run (ops : List Op) :
    ∀ self : Journal, (self.run ops).alwaysWarmJournal = self.alwaysWarmJournal := by
  induction ops with
  | nil => exact fun self => rfl
  | cons op ops ih => exact fun self => (ih _).trans (alwaysWarmJournal_step self op)

/-- A revert restores the marks of the matching checkpoint. -/
theorem marks_revert (alwaysWarmJournal : Bytes → Option (Finset Bytes))
    {before inside : List Op} {depth : Nat} (hbefore : depthAfter 0 before = some depth)
    (hinside : depthAfter 0 inside = some 0) :
    (((clean alwaysWarmJournal).run before).run (.checkpoint :: inside)).revert.marks =
      ((clean alwaysWarmJournal).run before).marks := by
  obtain ⟨nested, opened, hrepresents, -, -⟩ := Represents.run before [] []
    (clean_represents alwaysWarmJournal) rfl hbefore
  obtain ⟨last, opened', hlast, hsaved, hlength⟩ := Represents.run inside _ []
    hrepresents.checkpoint rfl hinside
  obtain ⟨current, saved⟩ := last
  obtain rfl := List.eq_nil_of_length_eq_zero hlength
  obtain rfl : saved = nested.current :: nested.saved := hsaved
  exact (hlast.revert rfl).current.trans hrepresents.current.symm

/-- After a revert what is warm or touched is what was at the matching checkpoint, but the
RIPEMD160 precompile stays touched; and a commit changes nothing of it. -/
theorem revert_exact (alwaysWarmJournal : Bytes → Option (Finset Bytes))
    (before inside : List Op) (depth : Nat) (hbefore : depthAfter 0 before = some depth)
    (hinside : depthAfter 0 inside = some 0) :
    let saved := (clean alwaysWarmJournal).run before
    let last := saved.run (.checkpoint :: inside)
    ((∀ address, last.revert.isWarmedAddress address = saved.isWarmedAddress address) ∧
      (∀ address slot,
        last.revert.isWarmedStorage address slot = saved.isWarmedStorage address slot) ∧
      ∀ address, address ∈ last.revert.touched ↔
        address ∈ saved.touched ∨ address = ripemd160Address ∧ address ∈ last.touched) ∧
    (∀ address, last.commit.isWarmedAddress address = last.isWarmedAddress address) ∧
    (∀ address slot,
      last.commit.isWarmedStorage address slot = last.isWarmedStorage address slot) ∧
    last.commit.touched = last.touched := by
  intro saved last
  have hmarks : last.revert.marks = saved.marks :=
    marks_revert alwaysWarmJournal hbefore hinside
  have hjournal : last.revert.journal = saved.journal := congrArg Marks.warm hmarks
  have hwarm : last.revert.alwaysWarmJournal = saved.alwaysWarmJournal :=
    (alwaysWarmJournal_step last .revert).trans (alwaysWarmJournal_run _ saved)
  refine ⟨⟨?_, ?_, ?_⟩, fun _ => rfl, fun _ _ => rfl, rfl⟩
  · intro address
    simp only [isWarmedAddress, hjournal, hwarm]
  · intro address slot
    simp only [isWarmedStorage, isAlwaysWarmStorage, hjournal, hwarm]
  · intro address
    by_cases haddress : address = ripemd160Address
    · subst haddress
      rw [show ripemd160Address ∈ last.revert.touched ↔ ripemd160Address ∈ last.touched from
        ripemd_revertDiffs _ _ last]
      constructor
      · exact fun hlast => .inr ⟨rfl, hlast⟩
      · rintro (hsaved | ⟨-, hlast⟩)
        · exact ripemd_run _ hsaved
        · exact hlast
    · have htouched := congrArg (address ∈ ·) (congrArg Marks.touched hmarks)
      simp only [marks, Finset.mem_erase, haddress, ne_eq, not_false_eq_true, true_and]
        at htouched
      simp [htouched, haddress]

/-- A commit inside the reverted checkpoint, and touches of the RIPEMD160 precompile and of
another address. -/
theorem revert_exact_nested :
    ((clean fun _ => none).run [.addWarmedAddress [1], .checkpoint, .addWarmedStorage [1] [2],
      .checkpoint, .putAccount ripemd160Address, .commit, .putAccount [4],
      .revert]).isWarmedStorage [1] [2] = false :=
  ((revert_exact (fun _ => none) [.addWarmedAddress [1]]
    [.addWarmedStorage [1] [2], .checkpoint, .putAccount ripemd160Address, .commit,
      .putAccount [4]] 0 rfl rfl).1.2.1 [1] [2]).trans (by decide)

end Journal

end EthereumJS.Evm
