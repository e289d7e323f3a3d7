import EthereumJS.Overlay.Script
import Mathlib.Data.List.Infix

/-! # The fill of the canonical chain from the skeleton

`fillCanonicalChain` of `client/src/service/skeleton.ts`. Each call that is awaited takes its
answer from a script: what it returns or throws, and what other tasks have made of the state by
then. Only `fillCanonicalChain` writes the flag `filling`.
-/

namespace EthereumJS.Client

open Overlay

structure SkeletonBlock where
  number : Nat
  hash : Nat
  deriving DecidableEq

structure SkeletonSubchain where
  head : Nat
  tail : Nat
  deriving DecidableEq

inductive PutStatus
  | valid
  | invalid
  deriving DecidableEq

structure FillStatus where
  status : PutStatus
  height : Nat
  hash : Nat
  validationError : Option (List Char)
  deriving DecidableEq

/-- What other tasks may change while a call is awaited; `height` is that of `chain.blocks`, and
`subchainHead` the head of the subchain that is being filled. -/
structure SharedStatus where
  canonicalHeadReset : Bool
  linked : Bool
  height : Nat
  subchainHead : Nat
  deriving DecidableEq

structure Skeleton where
  filling : Bool
  shared : SharedStatus
  subchain0 : Option SkeletonSubchain
  fillStatus : Option FillStatus
  deriving DecidableEq

/-- The calls that are awaited; `acquire` is that of the lock, and `chainGetBlock` looks a parent
up for the log. -/
inductive FillCall
  | acquire
  | resetCanonicalHead
  | getBlock
  | putBlocks
  | backStep
  | deleteBlock
  | chainGetBlock
  deriving DecidableEq

inductive FillReply
  | done
  | block (block : Option SkeletonBlock)
  | inserted (numBlocks : Nat)
  | throws (message : List Char)
  deriving DecidableEq

structure FillAnswer where
  call : FillCall
  reply : FillReply
  shared : SharedStatus
  deriving DecidableEq

namespace Skeleton

abbrev Fill (α : Type) := Scripted (List Char) Skeleton FillAnswer α

def fail {α : Type} (message : String) : Fill α := throw (.thrown message.toList)

def await (call : FillCall) : Fill FillReply := fun s =>
  match s.answers with
  | [] => .error .pending s
  | answer :: answers =>
    if answer.call = call then
      let s := { s with state := { s.state with shared := answer.shared }, answers := answers }
      match answer.reply with
      | .throws message => .error (.thrown message) s
      | reply => .ok reply s
    else .error .pending s

def setFilling (filling : Bool) : Fill Unit :=
  modifyState fun self => { self with filling := filling }

def setFillStatus (status : FillStatus) : Fill Unit :=
  modifyState fun self => { self with fillStatus := some status }

def clearReset : Fill Unit :=
  modifyState fun self => { self with shared := { self.shared with canonicalHeadReset := false } }

/-- The reset of the canonical head before the loop. -/
def resetHead (subchain : SkeletonSubchain) (canonicalHead : Nat) : Fill Nat := do
  let newHead := subchain.tail - 1
  let head ←
    if canonicalHead > 0 then do
      let _ ← await .resetCanonicalHead
      pure newHead
    else pure canonicalHead
  let _ ← await .acquire
  clearReset
  pure head

/-- A back step in the lock. -/
def backStepLocked (unlessReset : Bool) : Fill Unit := do
  let _ ← await .acquire
  let self ← getState
  if unlessReset && self.shared.canonicalHeadReset then pure ()
  else do
    let _ ← await .backStep
    pure ()

def isNotFound (message : List Char) : Bool :=
  let errorMsg := message.map Char.toLower
  "block".toList <:+: errorMsg && "not found".toList <:+: errorMsg

/-- The insertion of a block, with the number of blocks inserted. -/
def putBlock (block : SkeletonBlock) : Fill Nat := do
  match ← attempt (await .putBlocks) with
  | .ok (.inserted numBlocksInserted) =>
    if numBlocksInserted > 0 then
      setFillStatus
        { status := .valid, height := block.number, hash := block.hash, validationError := none }
    pure numBlocksInserted
  | .ok _ => pending
  | .error validationError =>
    if isNotFound validationError then backStepLocked true
    else
      setFillStatus
        { status := .invalid, height := block.number, hash := block.hash
          validationError := some validationError }
    pure 0

/-- The parents that are looked up for the log. -/
def logParents : Fill Unit := do
  let _ ← attempt (await .chainGetBlock)
  let _ ← attempt (await .chainGetBlock)
  pure ()

def deleteFilled (block : SkeletonBlock) : Fill Unit := do
  let _ ← await .acquire
  let self ← getState
  if self.shared.linked && !self.shared.canonicalHeadReset &&
      self.shared.height ≥ block.number then do
    let _ ← await .deleteBlock
    pure ()
  else pure ()

/-- A round of the loop after the block was found; whether the loop goes on. -/
def fillBlock (block : SkeletonBlock) : Fill Bool := do
  let self ← getState
  if self.shared.height ≤ block.number then do
    let numBlocksInserted ← putBlock block
    if numBlocksInserted ≠ 1 then do
      logParents
      pure false
    else do
      deleteFilled block
      pure true
  else do
    deleteFilled block
    pure true

/-- The loop, of which each round takes an answer. -/
def fillLoop : Nat → Nat → Fill Unit
  | 0, _ => pending
  | rounds + 1, canonicalHead => do
    let self ← getState
    if !self.shared.canonicalHeadReset && canonicalHead < self.shared.subchainHead then do
      match ← await .getBlock with
      | .block none =>
        let self ← getState
        if self.shared.canonicalHeadReset then pure () else backStepLocked false
      | .block (some block) =>
        if ← fillBlock block then fillLoop rounds (canonicalHead + 1) else pure ()
      | _ => pending
    else pure ()

/-- Whether the canonical head is behind the tail of the subchain by more than a block. -/
def inconsistent (self : Skeleton) (subchain : SkeletonSubchain) : Bool :=
  self.shared.canonicalHeadReset && subchain.tail > self.shared.height + 1

/-- What `fillCanonicalChain` does with a subchain that is consistent. -/
def fillSubchain (subchain : SkeletonSubchain) : Fill Unit := do
  let self ← getState
  let canonicalHead := self.shared.height
  let canonicalHead ←
    if self.shared.canonicalHeadReset then resetHead subchain canonicalHead
    else pure canonicalHead
  let answers ← countAnswers
  fillLoop (answers + 1) canonicalHead

/-- `fillCanonicalChain`; a subchain that is not there has no tail and no head to read. -/
def fillCanonicalChain : Fill Unit := do
  let self ← getState
  if self.filling then pure ()
  else do
    setFilling true
    match self.subchain0 with
    | none => fail "Cannot read properties of undefined"
    | some subchain =>
      if self.inconsistent subchain then
        fail "Canonical head should already be on or ahead subchain tail"
      else do
        fillSubchain subchain
        setFilling false

/-- An exception that nothing catches. -/
def Uncaught (answer : FillAnswer) : Prop :=
  (∃ message, answer.reply = .throws message) ∧
    answer.call ≠ .putBlocks ∧ answer.call ≠ .chainGetBlock

section Steps

theorem accounts_await {call : FillCall} (hput : call ≠ .putBlocks)
    (hget : call ≠ .chainGetBlock) : Accounts Uncaught Skeleton.filling (await call) := by
  intro s
  unfold await
  split
  · exact ⟨[], rfl, trivial, rfl⟩
  · next answer answers hanswers =>
    split
    · next hcall =>
      dsimp only
      split
      · next message hreply =>
        refine ⟨[answer], hanswers, ?_, rfl⟩
        exact ⟨answer, List.mem_singleton.mpr rfl, ⟨message, hreply⟩, hcall ▸ hput, hcall ▸ hget⟩
      · next hreply =>
        refine ⟨[answer], hanswers, ?_, rfl⟩
        rintro other hother ⟨⟨message, hthrows⟩, -, -⟩
        rw [List.mem_singleton.mp hother] at hthrows
        exact hreply message hthrows
    · exact ⟨[], rfl, trivial, rfl⟩

theorem takesNoBad_await {call : FillCall} (hcall : call = .putBlocks ∨ call = .chainGetBlock) :
    TakesNoBad Uncaught Skeleton.filling (await call) := by
  intro s
  unfold await
  split
  · exact ⟨[], rfl, fun _ h => absurd h List.not_mem_nil, rfl⟩
  · next answer answers hanswers =>
    split
    · next heq =>
      have hgood : ∀ other ∈ [answer], ¬ Uncaught other := by
        rintro other hother ⟨-, hput, hget⟩
        rw [List.mem_singleton.mp hother, heq] at hput hget
        obtain hcall | hcall := hcall
        · exact hput hcall
        · exact hget hcall
      dsimp only
      split
      · exact ⟨[answer], hanswers, hgood, rfl⟩
      · exact ⟨[answer], hanswers, hgood, rfl⟩
    · exact ⟨[], rfl, fun _ h => absurd h List.not_mem_nil, rfl⟩

theorem accounts_clearReset : Accounts Uncaught Skeleton.filling clearReset :=
  accounts_modifyState fun _ => rfl

theorem accounts_setFillStatus (status : FillStatus) :
    Accounts Uncaught Skeleton.filling (setFillStatus status) :=
  accounts_modifyState fun _ => rfl

theorem accounts_resetHead (subchain : SkeletonSubchain) (canonicalHead : Nat) :
    Accounts Uncaught Skeleton.filling (resetHead subchain canonicalHead) := by
  have hacquire : Accounts Uncaught Skeleton.filling (await .acquire) := accounts_await (by decide) (by decide)
  unfold resetHead
  dsimp only
  split
  · refine (accounts_await (by decide) (by decide)).bind fun _ => (accounts_pure _).bind fun _ => ?_
    exact hacquire.bind fun _ => accounts_clearReset.bind fun _ => accounts_pure _
  · refine (accounts_pure _).bind fun _ => ?_
    exact hacquire.bind fun _ => accounts_clearReset.bind fun _ => accounts_pure _

theorem accounts_backStepLocked (unlessReset : Bool) :
    Accounts Uncaught Skeleton.filling (backStepLocked unlessReset) := by
  refine (accounts_await (by decide) (by decide)).bind fun _ => accounts_getState.bind fun self => ?_
  refine Accounts.ite (accounts_pure _) ?_
  exact (accounts_await (by decide) (by decide)).bind fun _ => accounts_pure _

theorem accounts_putBlock (block : SkeletonBlock) : Accounts Uncaught Skeleton.filling (putBlock block) := by
  refine (takesNoBad_await (.inl rfl)).attempt.bind fun result => ?_
  split
  · split
    · exact (accounts_setFillStatus _).bind fun _ => accounts_pure _
    · exact accounts_pure _
  · exact accounts_pending
  · split
    · exact (accounts_backStepLocked true).bind fun _ => accounts_pure _
    · exact (accounts_setFillStatus _).bind fun _ => accounts_pure _

theorem accounts_logParents : Accounts Uncaught Skeleton.filling logParents := by
  refine (takesNoBad_await (.inr rfl)).attempt.bind fun _ => ?_
  exact (takesNoBad_await (.inr rfl)).attempt.bind fun _ => accounts_pure _

theorem accounts_deleteFilled (block : SkeletonBlock) :
    Accounts Uncaught Skeleton.filling (deleteFilled block) := by
  refine (accounts_await (by decide) (by decide)).bind fun _ => accounts_getState.bind fun self => ?_
  refine Accounts.ite ?_ (accounts_pure _)
  exact (accounts_await (by decide) (by decide)).bind fun _ => accounts_pure _

theorem accounts_fillBlock (block : SkeletonBlock) : Accounts Uncaught Skeleton.filling (fillBlock block) := by
  refine accounts_getState.bind fun self => Accounts.ite ?_ ?_
  · refine (accounts_putBlock block).bind fun numBlocksInserted => Accounts.ite ?_ ?_
    · exact accounts_logParents.bind fun _ => accounts_pure _
    · exact (accounts_deleteFilled block).bind fun _ => accounts_pure _
  · exact (accounts_deleteFilled block).bind fun _ => accounts_pure _

theorem accounts_fillLoop (rounds : Nat) :
    ∀ canonicalHead, Accounts Uncaught Skeleton.filling (fillLoop rounds canonicalHead) := by
  induction rounds with
  | zero => exact fun _ => accounts_pending
  | succ rounds ih =>
    intro canonicalHead
    refine accounts_getState.bind fun self => Accounts.ite ?_ (accounts_pure _)
    refine (accounts_await (by decide) (by decide)).bind fun reply => ?_
    split
    · exact accounts_getState.bind fun _ =>
        Accounts.ite (accounts_pure _) (accounts_backStepLocked false)
    · refine (accounts_fillBlock _).bind fun goesOn => Accounts.ite ?_ (accounts_pure _)
      exact ih (canonicalHead + 1)
    · exact accounts_pending

theorem accounts_fillSubchain (subchain : SkeletonSubchain) :
    Accounts Uncaught Skeleton.filling (fillSubchain subchain) := by
  refine accounts_getState.bind fun self => ?_
  dsimp only
  split
  · refine (accounts_resetHead subchain _).bind fun canonicalHead => ?_
    exact accounts_countAnswers.bind fun answers => accounts_fillLoop _ canonicalHead
  · refine (accounts_pure _).bind fun canonicalHead => ?_
    exact accounts_countAnswers.bind fun answers => accounts_fillLoop _ canonicalHead

end Steps

instance (answer : FillAnswer) : Decidable (Uncaught answer) :=
  match hreply : answer.reply with
  | .throws message =>
    decidable_of_iff (answer.call ≠ .putBlocks ∧ answer.call ≠ .chainGetBlock)
      (by simp [Uncaught, hreply])
  | .done | .block _ | .inserted _ => isFalse (by simp [Uncaught, hreply])

/-- The fill of a subchain that is there and consistent, in which nothing that is not caught is
thrown. -/
def FillMeets (self : Skeleton) (answers : List FillAnswer) : Prop :=
  self.filling = false ∧ (∃ subchain, self.subchain0 = some subchain ∧
    self.inconsistent subchain = false) ∧ ∀ answer ∈ answers, ¬ Uncaught answer

/-- When a call has come to an end the flag is cleared, if and only if the call was no silent
no-op, its subchain was there and consistent, and no call outside the two `try` blocks threw. -/
theorem filling_cleared_iff (self : Skeleton) (answers : List FillAnswer)
    (hends : Ends (fillCanonicalChain ⟨self, answers⟩)) :
    (endState (fillCanonicalChain ⟨self, answers⟩)).state.filling = false ↔
      self.FillMeets answers := by
  have hstart : fillCanonicalChain ⟨self, answers⟩ =
      (if self.filling then pure ()
      else do
        setFilling true
        match self.subchain0 with
        | none => fail "Cannot read properties of undefined"
        | some subchain =>
          if self.inconsistent subchain then
            fail "Canonical head should already be on or ahead subchain tail"
          else do
            fillSubchain subchain
            setFilling false : Fill Unit) ⟨self, answers⟩ := rfl
  rw [hstart] at hends ⊢
  cases hfilling : self.filling with
  | true => simp [FillMeets, hfilling, endState, pure, EStateM.pure]
  | false =>
    simp only [hfilling, Bool.false_eq_true, if_false] at hends ⊢
    cases hsubchain : self.subchain0 with
    | none =>
      simp only [hsubchain] at hends ⊢
      refine iff_of_false (fun hidle => by cases hidle) ?_
      rintro ⟨-, ⟨subchain, hsome, -⟩, -⟩
      rw [hsubchain] at hsome
      cases hsome
    | some subchain =>
      simp only [hsubchain] at hends ⊢
      cases hconsistent : self.inconsistent subchain with
      | true =>
        simp only [hconsistent, if_true] at hends ⊢
        refine iff_of_false (fun hidle => by cases hidle) ?_
        rintro ⟨-, ⟨other, hother, hfalse⟩, -⟩
        rw [hsubchain] at hother
        cases hother
        rw [hconsistent] at hfalse
        cases hfalse
      | false =>
        simp only [hconsistent, Bool.false_eq_true, if_false] at hends ⊢
        have hset : ∀ f : Unit → Fill Unit, (setFilling true >>= f) ⟨self, answers⟩ =
            f () ⟨{ self with filling := true }, answers⟩ := fun _ => rfl
        rw [hset] at hends ⊢
        have haccounts := accounts_fillSubchain subchain
        have hfillEnds : Ends (fillSubchain subchain ⟨{ self with filling := true }, answers⟩) := by
          cases hres : fillSubchain subchain ⟨{ self with filling := true }, answers⟩ with
          | ok a s' =>
            rw [bind_of_ok hres] at hends
            exact hends
          | error stop s' =>
            rw [bind_of_error hres] at hends
            exact hends
        obtain ⟨a, s', hres, -, hgood⟩ | ⟨e, s', hres, hkept, hbad⟩ := haccounts.ends hfillEnds
        · rw [bind_of_ok hres]
          exact iff_of_true rfl ⟨hfilling, ⟨subchain, hsubchain, hconsistent⟩, hgood⟩
        · rw [bind_of_error hres, endState_error, hkept]
          refine iff_of_false (fun hidle => by cases hidle) ?_
          rintro ⟨-, -, hgood⟩
          obtain ⟨answer, hanswer, hthrows⟩ := hbad
          exact hgood answer hanswer hthrows

/-- A call that finds the flag set does nothing. -/
theorem fillCanonicalChain_filling {self : Skeleton} (hfilling : self.filling = true)
    (answers : List FillAnswer) :
    fillCanonicalChain ⟨self, answers⟩ = .ok () ⟨self, answers⟩ := by
  show (if self.filling then pure () else _ : Fill Unit) _ = _
  rw [if_pos hfilling]
  rfl

section Examples

def linkedAt (height head : Nat) (canonicalHeadReset : Bool) : SharedStatus :=
  { canonicalHeadReset := canonicalHeadReset, linked := true, height := height
    subchainHead := head }

/-- A skeleton whose subchain from 5 to 6 is not filled. -/
def unfilled (height : Nat) (canonicalHeadReset : Bool) : Skeleton :=
  { filling := false, shared := linkedAt height 6 canonicalHeadReset
    subchain0 := some { head := 6, tail := 5 }, fillStatus := none }

/-- The answers of a fill of the block 6, which is deleted from the skeleton. -/
def fillOne : List FillAnswer :=
  [{ call := .getBlock, reply := .block (some { number := 6, hash := 66 })
     shared := linkedAt 5 6 false },
   { call := .putBlocks, reply := .inserted 1, shared := linkedAt 6 6 false },
   { call := .acquire, reply := .done, shared := linkedAt 6 6 false },
   { call := .deleteBlock, reply := .done, shared := linkedAt 6 6 false }]

theorem filling_cleared_iff_one :
    (endState (fillCanonicalChain ⟨unfilled 5 false, fillOne⟩)).state.filling = false :=
  (filling_cleared_iff (unfilled 5 false) fillOne rfl).mpr
    ⟨rfl, ⟨_, rfl, rfl⟩, by decide⟩

/-- The canonical head is behind the tail of the subchain. -/
theorem not_filling_cleared :
    ¬ ∀ (self : Skeleton) (answers : List FillAnswer), self.filling = false →
      Ends (fillCanonicalChain ⟨self, answers⟩) →
      (endState (fillCanonicalChain ⟨self, answers⟩)).state.filling = false := by
  intro h
  cases h (unfilled 1 true) [] rfl rfl

end Examples

end Skeleton

end EthereumJS.Client
