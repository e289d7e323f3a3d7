import EthereumJS.Client.BlockFetcher

/-! # Queued tasks and the remaining range

No block is lost and none is fetched twice as long as no tasks are made for a fetcher that does not
take them, the first remaining number is not enqueued by itself, and a fetcher in reverse is not
cleared while tasks are queued.
-/

namespace EthereumJS.Client.BlockFetcherBase

/-- The numbers of a range, in the direction of the fetcher. -/
def InRange (reverse : Bool) (first count n : Int) : Prop :=
  if reverse then first - count < n ∧ n ≤ first else first ≤ n ∧ n < first + count

/-- Numbers that the fetcher passes before it comes to `first`. -/
def Before (reverse : Bool) (first n : Int) : Prop := if reverse then first < n else n < first

def InTasks (reverse : Bool) (tasks : List JobTask) (n : Int) : Prop :=
  ∃ task ∈ tasks, InRange reverse task.first task.count n

def Queued (self : BlockFetcherBase) (n : Int) : Prop := InTasks self.reverse self.inQueue n

def Remaining (self : BlockFetcherBase) (n : Int) : Prop :=
  InRange self.reverse self.first self.count n

instance (reverse : Bool) (first count n : Int) : Decidable (InRange reverse first count n) :=
  inferInstanceAs (Decidable (if reverse then _ else _))

instance (self : BlockFetcherBase) (n : Int) : Decidable (self.Queued n) :=
  inferInstanceAs (Decidable (∃ task ∈ self.inQueue, InRange self.reverse task.first task.count n))

instance (self : BlockFetcherBase) (n : Int) : Decidable (self.Remaining n) :=
  inferInstanceAs (Decidable (InRange self.reverse self.first self.count n))

/-- What a fetcher has to fetch after some calls. -/
def Goal (first count : Int) (reverse : Bool) (calls : List Call) (n : Int) : Prop :=
  InRange reverse first count n ∨ ∃ numberList min max,
    Call.enqueueByNumberList numberList min max ∈ calls ∧ (n ∈ numberList ∨ first ≤ n ∧ n ≤ max)

structure Covered (goal : Int → Prop) (fetcher : BlockFetcherBase) : Prop where
  apart : ∀ n, fetcher.Queued n → ¬ fetcher.Remaining n
  covers : ∀ n, goal n → fetcher.Queued n ∨ fetcher.Remaining n

section Condition

variable (config : FetcherConfig)

/-- The tasks that `nextTasks` makes are enqueued. -/
def TasksKept (self : BlockFetcherBase) : Prop :=
  self.makesTasks config → self.running ∧ ¬ self.syncErrored

instance (self : BlockFetcherBase) : Decidable (self.TasksKept config) :=
  inferInstanceAs (Decidable (_ → _))

def Meets (self : BlockFetcherBase) : Call → Prop
  | .fetch => ¬ self.running → ¬ self.fetching →
      TasksKept config { self with running := true, fetching := true }
  | .next | .nextTasks => self.TasksKept config
  | .fetchEnds => True
  | .clear => self.reverse → self.inQueue = []
  | .enqueueByNumberList numberList _ max =>
    let count := (self.updateHeight max).count
    self.reverse = false ∧
    (∀ n ∈ numberList, n ≤ self.first ∨ n < self.first + count) ∧
    (0 < count → self.first ∉ numberList ∧ ¬ self.Queued self.first) ∧
    ((∃ n ∈ numberList, n ≤ self.first) → ¬ self.syncErrored) ∧
    ((∀ n ∈ numberList, self.first < n) → (self.updateHeight max).TasksKept config)

instance (self : BlockFetcherBase) (call : Call) : Decidable (self.Meets config call) :=
  match call with
  | .fetch => inferInstanceAs (Decidable (_ → _ → TasksKept _ _))
  | .next | .nextTasks => inferInstanceAs (Decidable (TasksKept _ _))
  | .fetchEnds => inferInstanceAs (Decidable True)
  | .clear => inferInstanceAs (Decidable (_ → _))
  | .enqueueByNumberList _ _ _ => inferInstanceAs (Decidable (_ ∧ _ ∧ _ ∧ _ ∧ _))

def MeetsRun (self : BlockFetcherBase) : List Call → Prop
  | [] => True
  | call :: calls => self.Meets config call ∧ MeetsRun (self.step config call) calls

instance meetsRunDecidable (self : BlockFetcherBase) :
    (calls : List Call) → Decidable (self.MeetsRun config calls)
  | [] => inferInstanceAs (Decidable True)
  | call :: calls =>
    have := meetsRunDecidable (self.step config call) calls
    inferInstanceAs (Decidable (self.Meets config call ∧ _))

end Condition

section Tasks

variable {reverse : Bool}

theorem inTasks_append (tasks tasks' : List JobTask) (n : Int) :
    InTasks reverse (tasks ++ tasks') n ↔ InTasks reverse tasks n ∨ InTasks reverse tasks' n := by
  simp [InTasks, or_and_right, exists_or]

@[simp] theorem inTasks_nil (n : Int) : ¬ InTasks reverse [] n := by
  rintro ⟨task, htask, -⟩
  cases htask

theorem inTasks_singleton {task : JobTask} {n : Int} :
    InTasks reverse [task] n ↔ InRange reverse task.first task.count n := by
  simp [InTasks]

/-- A range and the one that follows it. -/
theorem inRange_add {first k k' n : Int} (hk : 0 ≤ k) (hk' : 0 ≤ k') :
    InRange reverse first (k + k') n ↔
      InRange reverse first k n ∨ InRange reverse (advance reverse first k) k' n := by
  cases reverse <;> simp only [InRange, advance, Bool.not_true, Bool.not_false, if_true, if_false,
    Bool.false_eq_true] <;> omega

theorem advance_add (reverse : Bool) (first k k' : Int) :
    advance reverse (advance reverse first k) k' = advance reverse first (k + k') := by
  cases reverse <;> simp only [advance, Bool.not_true, Bool.not_false, if_true, if_false,
    Bool.false_eq_true] <;> omega

theorem not_inRange_zero (first n : Int) : ¬ InRange reverse first 0 n := by
  cases reverse <;> simp only [InRange, if_true, if_false, Bool.false_eq_true] <;> omega

theorem advance_zero (reverse : Bool) (first : Int) : advance reverse first 0 = first := by
  cases reverse <;> simp [advance]

theorem fullTasks_spec (reverse : Bool) {max : Int} (hmax : 1 ≤ max) (jobs : Nat)
    (first count : Int) :
    ∃ k, 0 ≤ k ∧ (fullTasks reverse max jobs first count).2.1 = advance reverse first k ∧
      (fullTasks reverse max jobs first count).2.2 = count - k ∧
      ∀ n, InTasks reverse (fullTasks reverse max jobs first count).1 n ↔
        InRange reverse first k n := by
  induction jobs generalizing first count with
  | zero =>
    refine ⟨0, le_rfl, (advance_zero reverse first).symm, (Int.sub_zero count).symm, fun n => ?_⟩
    exact iff_of_false (inTasks_nil n) (not_inRange_zero first n)
  | succ jobs ih =>
    rw [fullTasks]
    split
    · obtain ⟨k, hk, hfirst, hcount, htasks⟩ := ih (advance reverse first max) (count - max)
      refine ⟨max + k, by omega, ?_, ?_, fun n => ?_⟩
      · exact hfirst.trans (advance_add reverse first max k)
      · exact hcount.trans (by omega)
      · rw [inRange_add (by omega) hk, ← htasks n]
        exact (inTasks_append [{ first := first, count := max }] _ n).trans
          (or_congr_left inTasks_singleton)
    · refine ⟨0, le_rfl, (advance_zero reverse first).symm, (Int.sub_zero count).symm, fun n => ?_⟩
      exact iff_of_false (inTasks_nil n) (not_inRange_zero first n)

variable {config : FetcherConfig}

/-- The tasks stand for the numbers that leave the range. -/
theorem tasks_spec (config : FetcherConfig) (self : BlockFetcherBase) :
    ∃ k, 0 ≤ k ∧ (self.tasks config).2 =
        { self with first := advance self.reverse self.first k, count := self.count - k } ∧
      ∀ n, InTasks self.reverse (self.tasks config).1 n ↔
        InRange self.reverse self.first k n := by
  obtain ⟨k, hk, hfirst, hcount, htasks⟩ := fullTasks_spec self.reverse
    (show (1 : Int) ≤ config.maxPerRequest by exact_mod_cast config.maxPerRequest_pos)
    config.maxFetcherJobs self.first self.count
  unfold tasks
  dsimp only
  split
  · next hrest =>
    rw [Bool.and_eq_true, decide_eq_true_eq, hcount] at hrest
    have hleft : 0 < self.count - k := hrest.1
    have hsum : k + (self.count - k) = self.count := by omega
    refine ⟨self.count, by omega, ?_, fun n => ?_⟩
    · rw [hfirst, hcount, advance_add, hsum, Int.sub_self]
    · rw [inTasks_append, inTasks_singleton, htasks n, hfirst, hcount, ← inRange_add hk hleft.le,
        hsum]
  · exact ⟨k, hk, by rw [hfirst, hcount], htasks⟩

theorem enqueueTasks_ranges (self : BlockFetcherBase) (autoRestart : Bool)
    (tasks : List JobTask) :
    (self.enqueueTasks autoRestart tasks).first = self.first ∧
      (self.enqueueTasks autoRestart tasks).count = self.count ∧
      (self.enqueueTasks autoRestart tasks).reverse = self.reverse := by
  induction tasks generalizing self with
  | nil => exact ⟨rfl, rfl, rfl⟩
  | cons task tasks ih =>
    obtain ⟨hfirst, hcount, hreverse⟩ := ih (self.enqueueTask autoRestart task)
    have hone : (self.enqueueTask autoRestart task).first = self.first ∧
        (self.enqueueTask autoRestart task).count = self.count ∧
        (self.enqueueTask autoRestart task).reverse = self.reverse := by
      unfold enqueueTask
      split <;> exact ⟨rfl, rfl, rfl⟩
    exact ⟨hfirst.trans hone.1, hcount.trans hone.2.1, hreverse.trans hone.2.2⟩

/-- A fetcher that takes tasks takes all of them. -/
theorem enqueueTasks_queue (self : BlockFetcherBase) (autoRestart : Bool)
    (herrored : ¬ self.syncErrored) (htakes : self.running ∨ autoRestart) (tasks : List JobTask) :
    (self.enqueueTasks autoRestart tasks).inQueue = self.inQueue ++ tasks ∧
      ¬ (self.enqueueTasks autoRestart tasks).syncErrored ∧
      (self.running → (self.enqueueTasks autoRestart tasks).running) := by
  induction tasks generalizing self with
  | nil => exact ⟨(List.append_nil _).symm, herrored, id⟩
  | cons task tasks ih =>
    have hone : (self.enqueueTask autoRestart task).inQueue = self.inQueue ++ [task] ∧
        ¬ (self.enqueueTask autoRestart task).syncErrored ∧
        (self.running → (self.enqueueTask autoRestart task).running) := by
      unfold enqueueTask
      rw [if_neg]
      · exact ⟨rfl, herrored, fun hrunning => by simp [hrunning]⟩
      · rcases htakes with hrunning | hauto
        · simp [herrored, hrunning]
        · simp [herrored, hauto]
    obtain ⟨hqueue, herrored', hrunning⟩ := ih _ hone.2.1 (htakes.imp_left hone.2.2)
    refine ⟨?_, herrored', fun h => hrunning (hone.2.2 h)⟩
    exact hqueue.trans (by rw [hone.1, List.append_assoc, List.singleton_append])

/-- `nextTasks` does nothing, or it moves the next numbers of the range to an empty queue. -/
theorem nextTasks_cases {self : BlockFetcherBase} (h : self.TasksKept config) :
    self.nextTasks config = self ∨ self.inQueue = [] ∧ ∃ k, 0 ≤ k ∧
      (self.nextTasks config).first = advance self.reverse self.first k ∧
      (self.nextTasks config).count = self.count - k ∧
      (self.nextTasks config).reverse = self.reverse ∧
      (∀ n, (self.nextTasks config).Queued n ↔ InRange self.reverse self.first k n) ∧
      (self.nextTasks config).running ∧ ¬ (self.nextTasks config).syncErrored := by
  unfold nextTasks
  split
  · next hmakes =>
    right
    obtain ⟨hrunning, herrored⟩ := h hmakes
    have hempty : self.inQueue = [] := by
      unfold makesTasks at hmakes
      rw [Bool.and_eq_true, Bool.and_eq_true, decide_eq_true_eq] at hmakes
      exact List.length_eq_zero_iff.mp hmakes.1.1
    obtain ⟨k, hk, hself, htasks⟩ := tasks_spec config self
    dsimp only
    rw [hself]
    obtain ⟨hfirst, hcount, hreverse⟩ := enqueueTasks_ranges
      { self with first := advance self.reverse self.first k, count := self.count - k } false
      (self.tasks config).1
    obtain ⟨hqueue, herrored', hrunning'⟩ := enqueueTasks_queue
      { self with first := advance self.reverse self.first k, count := self.count - k } false
      herrored (.inl hrunning) (self.tasks config).1
    refine ⟨hempty, k, hk, hfirst, hcount, hreverse, fun n => ?_, hrunning' hrunning, herrored'⟩
    rw [Queued, hreverse, hqueue, ← htasks n]
    dsimp only
    rw [hempty, List.nil_append]
  · exact .inl rfl

end Tasks

section Invariant

/-- Queued numbers are behind the range, save the first number of an empty one; and every number
from the start on that is behind the range is queued. -/
structure InOrder (start : Int) (fetcher : BlockFetcherBase) : Prop where
  behind : ∀ n, fetcher.Queued n → Before fetcher.reverse fetcher.first n ∨ n = fetcher.first ∧ fetcher.count ≤ 0
  passed : ∀ n, ¬ Before fetcher.reverse start n → Before fetcher.reverse fetcher.first n → fetcher.Queued n

/-- Numbers that are queued or remain do so after a step, whose queue is in order too. -/
structure KeepsAll (start : Int) (fetcher fetcher' : BlockFetcherBase) : Prop where
  inOrder : InOrder start fetcher'
  reverse : fetcher'.reverse = fetcher.reverse
  keeps : ∀ n, fetcher.Queued n ∨ fetcher.Remaining n → fetcher'.Queued n ∨ fetcher'.Remaining n

variable {start : Int} {self : BlockFetcherBase} {config : FetcherConfig}

theorem InOrder.apart (h : InOrder start self) (n : Int) (hqueued : self.Queued n) :
    ¬ self.Remaining n := by
  intro hremaining
  have hbehind := h.behind n hqueued
  unfold Remaining InRange at hremaining
  unfold Before at hbehind
  split at hremaining <;> next hreverse =>
    simp only [hreverse, if_true, if_false, Bool.false_eq_true] at hbehind
    omega

theorem InOrder.refl (h : InOrder start self) : KeepsAll start self self := ⟨h, rfl, fun _ => id⟩

theorem KeepsAll.trans {self' self'' : BlockFetcherBase} (h : KeepsAll start self self')
    (h' : KeepsAll start self' self'') : KeepsAll start self self'' :=
  ⟨h'.inOrder, h'.reverse.trans h.reverse, fun n hn => h'.keeps n (h.keeps n hn)⟩

theorem InOrder.nextTasks (h : InOrder start self) (hkept : self.TasksKept config) :
    KeepsAll start self (self.nextTasks config) := by
  rcases nextTasks_cases hkept with hself | ⟨hempty, k, hk, hfirst, hcount, hreverse, hqueue, -⟩
  · rw [hself]
    exact h.refl
  · have hnone : ∀ n, ¬ self.Queued n := by
      intro n
      rw [Queued, hempty]
      exact inTasks_nil n
    refine ⟨⟨fun n hn => ?_, fun n hstart hbefore => ?_⟩, hreverse, fun n hn => ?_⟩
    · left
      rw [hqueue n] at hn
      rw [hreverse, hfirst]
      unfold InRange at hn
      unfold Before advance
      split at hn <;> next hdir =>
        simp only [hdir, if_true, if_false, Bool.false_eq_true, Bool.not_true, Bool.not_false]
        omega
    · rw [hqueue n]
      rw [hreverse] at hstart hbefore
      rw [hfirst] at hbefore
      have hpassed := mt (h.passed n hstart) (hnone n)
      unfold Before at hpassed hbefore
      unfold advance at hbefore
      unfold InRange
      split at hbefore <;> next hdir =>
        simp only [hdir, if_true, if_false, Bool.false_eq_true, Bool.not_true, Bool.not_false]
          at hpassed hbefore ⊢
        omega
    · have hn := hn.resolve_left (hnone n)
      rw [hqueue n, Remaining, hreverse, hfirst, hcount]
      unfold Remaining InRange at hn
      unfold InRange advance
      split at hn <;> next hdir =>
        simp only [hdir, if_true, if_false, Bool.false_eq_true, Bool.not_true, Bool.not_false]
        omega

theorem TasksKept.again (h : self.TasksKept config) : (self.nextTasks config).TasksKept config := by
  rcases nextTasks_cases h with hself | ⟨-, k, -, -, -, -, -, hrunning, herrored⟩
  · rw [hself]
    exact h
  · exact fun _ => ⟨hrunning, herrored⟩

theorem InOrder.next (h : InOrder start self) (hkept : self.TasksKept config) :
    KeepsAll start self (self.next config) := by
  have hnext := h.nextTasks hkept
  unfold BlockFetcherBase.next
  dsimp only
  split
  · exact ⟨⟨hnext.inOrder.behind, hnext.inOrder.passed⟩, hnext.reverse, hnext.keeps⟩
  · exact hnext

theorem firstAndLast_spec (self : BlockFetcherBase) :
    self.firstAndLast.1 ≤ self.first ∧ self.first + self.count - 1 ≤ self.firstAndLast.2 ∧
      ∀ task ∈ self.inQueue, self.firstAndLast.1 ≤ task.first ∧
        task.first + task.count - 1 ≤ self.firstAndLast.2 := by
  have hfold : ∀ (tasks : List JobTask) (range : Int × Int),
      (tasks.foldl (fun range task => (Min.min range.1 task.first,
        Max.max range.2 (task.first + task.count - 1))) range).1 ≤ range.1 ∧
      range.2 ≤ (tasks.foldl (fun range task => (Min.min range.1 task.first,
        Max.max range.2 (task.first + task.count - 1))) range).2 ∧
      ∀ task ∈ tasks, (tasks.foldl (fun range task => (Min.min range.1 task.first,
        Max.max range.2 (task.first + task.count - 1))) range).1 ≤ task.first ∧
        task.first + task.count - 1 ≤ (tasks.foldl (fun range task => (Min.min range.1 task.first,
          Max.max range.2 (task.first + task.count - 1))) range).2 := by
    intro tasks
    induction tasks with
    | nil => simp
    | cons task tasks ih =>
      intro range
      obtain ⟨hfirst, hlast, htasks⟩ := ih
        (Min.min range.1 task.first, Max.max range.2 (task.first + task.count - 1))
      rw [List.foldl_cons]
      refine ⟨hfirst.trans (min_le_left _ _), (le_max_left _ _).trans hlast, ?_⟩
      rintro other hother
      rcases List.mem_cons.mp hother with rfl | hother
      · exact ⟨hfirst.trans (min_le_right _ _), (le_max_right _ _).trans hlast⟩
      · exact htasks other hother
  exact hfold self.inQueue (self.first, self.first + self.count - 1)

theorem InOrder.clear (h : InOrder start self) (hmeets : self.reverse → self.inQueue = []) :
    KeepsAll start self self.clear := by
  have hgone : ∀ n, ¬ self.clear.Queued n := fun n => inTasks_nil n
  obtain ⟨hfirst, hlast, htasks⟩ := firstAndLast_spec self
  by_cases hreverse : self.reverse
  · -- nothing is queued, and the range stays
    have hself : self.clear = self := by
      have hempty := hmeets hreverse
      have hcount : self.first + self.count - 1 - self.first + 1 = self.count := by omega
      unfold BlockFetcherBase.clear firstAndLast
      rw [hempty, List.foldl_nil]
      dsimp only
      rw [hcount, ← hempty]
    rw [hself]
    exact h.refl
  · have hcovers : ∀ n, self.Queued n ∨ self.Remaining n → self.clear.Remaining n := by
      intro n hn
      simp only [Queued, Remaining, InTasks, InRange, hreverse, if_false, Bool.false_eq_true] at hn
      simp only [Remaining, InRange, BlockFetcherBase.clear, hreverse, if_false,
        Bool.false_eq_true]
      rcases hn with ⟨task, htask, hn⟩ | hn
      · have := htasks task htask
        omega
      · omega
    refine ⟨⟨fun n hn => absurd hn (hgone n), fun n hstart hbefore => ?_⟩, rfl,
      fun n hn => .inr (hcovers n hn)⟩
    -- the start is queued or still to come, so that the new range begins no later
    exfalso
    simp only [Before, BlockFetcherBase.clear, hreverse, if_false, Bool.false_eq_true]
      at hstart hbefore
    have hpassed := h.passed n (by simpa only [Before, hreverse, if_false, Bool.false_eq_true])
      (by simp only [Before, hreverse, if_false, Bool.false_eq_true]; omega)
    have hremaining := hcovers n (.inl hpassed)
    simp only [Remaining, InRange, BlockFetcherBase.clear, hreverse, if_false,
      Bool.false_eq_true] at hremaining
    omega

end Invariant

section Numbers

variable {self : BlockFetcherBase} {config : FetcherConfig}

theorem bulkCheck_mem {numberList : List Int} {rounds : Nat} {min : Int}
    (h : bulkCheck numberList rounds min = true) (n : Int) (hn : min ≤ n) (hlt : n < min + rounds) :
    n ∈ numberList := by
  induction rounds generalizing min with
  | zero => omega
  | succ rounds ih =>
    rw [bulkCheck, Bool.and_eq_true, decide_eq_true_eq] at h
    rcases hn.eq_or_lt with rfl | hgt
    · exact h.1
    · exact ih h.2 (by omega) (by push_cast at hlt; omega)

/-- As many consecutive numbers as the list is long leave no room for others in it. -/
theorem bulkCheck_iff {numberList : List Int} {min : Int}
    (h : bulkCheck numberList numberList.length min = true) (n : Int) :
    n ∈ numberList ↔ min ≤ n ∧ n < min + numberList.length := by
  have hsub : Finset.Ico min (min + numberList.length) ⊆ numberList.toFinset := by
    intro n hn
    rw [Finset.mem_Ico] at hn
    exact List.mem_toFinset.mpr (bulkCheck_mem h n hn.1 hn.2)
  have hcard : numberList.toFinset.card ≤ (Finset.Ico min (min + numberList.length)).card := by
    rw [Int.card_Ico, add_sub_cancel_left, Int.toNat_natCast]
    exact List.toFinset_card_le numberList
  have heq := Finset.eq_of_subset_of_card_le hsub hcard
  rw [← List.mem_toFinset, ← heq, Finset.mem_Ico]

theorem inTasks_numberTasks (numberList : List Int) (min n : Int) :
    InTasks false (numberTasks numberList min) n ↔ n ∈ numberList := by
  unfold numberTasks
  dsimp only
  split
  · next hbulk =>
    rw [Bool.and_eq_true] at hbulk
    rw [inTasks_singleton, bulkCheck_iff hbulk.1 n]
    simp [InRange]
  · constructor
    · rintro ⟨task, htask, hn⟩
      obtain ⟨m, hm, rfl⟩ := List.mem_map.mp htask
      simp only [InRange, if_false, Bool.false_eq_true] at hn
      have hsame : n = m := by omega
      rwa [hsame]
    · intro hn
      refine ⟨{ first := n, count := 1 }, List.mem_map.mpr ⟨n, hn, rfl⟩, ?_⟩
      simp only [InRange, if_false, Bool.false_eq_true]
      omega

theorem updateHeight_spec (self : BlockFetcherBase) (max : Int) :
    self.updateHeight max = { self with count := (self.updateHeight max).count } ∧
      self.count ≤ (self.updateHeight max).count ∧
      max < self.first + (self.updateHeight max).count := by
  unfold updateHeight
  dsimp only
  split
  · refine ⟨rfl, ?_, ?_⟩ <;> dsimp only <;> omega
  · exact ⟨rfl, le_rfl, by omega⟩

variable {start : Int}

/-- A forward fetcher with a new count that has some numbers in its queue as well. -/
structure HoldsAgain (fetcher middle : BlockFetcherBase) (count : Int) (again : List Int) :
    Prop where
  forward : fetcher.reverse = false
  reverse : middle.reverse = fetcher.reverse
  first : middle.first = fetcher.first
  count : middle.count = count
  queued : ∀ n, middle.Queued n ↔ fetcher.Queued n ∨ n ∈ again

section HoldsAgain

variable {middle : BlockFetcherBase} {count : Int} {again : List Int}

theorem HoldsAgain.remaining (h : HoldsAgain self middle count again) (n : Int) :
    middle.Remaining n ↔ self.first ≤ n ∧ n < self.first + count := by
  simp only [Remaining, InRange, h.reverse, h.first, h.count, h.forward, if_false,
    Bool.false_eq_true]

theorem HoldsAgain.inOrder (h : HoldsAgain self middle count again) (hself : InOrder start self)
    (hagain : ∀ n ∈ again, n ≤ self.first)
    (hfirst : 0 < count → self.first ∉ again ∧ ¬ self.Queued self.first) :
    InOrder start middle := by
  constructor
  · intro n hn
    have hbehind := hself.behind n
    simp only [Before, h.reverse, h.first, h.count, h.forward, if_false, Bool.false_eq_true]
      at hbehind ⊢
    rcases (h.queued n).mp hn with hn | hn
    · rcases hbehind hn with hlt | ⟨rfl, -⟩
      · exact .inl hlt
      · exact .inr ⟨rfl, not_lt.mp fun hpos => (hfirst hpos).2 hn⟩
    · rcases (hagain n hn).lt_or_eq with hlt | rfl
      · exact .inl hlt
      · exact .inr ⟨rfl, not_lt.mp fun hpos => (hfirst hpos).1 hn⟩
  · intro n hstart hbefore
    rw [h.reverse] at hstart hbefore
    rw [h.first] at hbefore
    exact (h.queued n).mpr (.inl (hself.passed n hstart hbefore))

theorem HoldsAgain.keepsAll (h : HoldsAgain self middle count again)
    (hinOrder : InOrder start middle) (hcount : self.count ≤ count) :
    KeepsAll start self middle := by
  refine ⟨hinOrder, h.reverse, fun n hn => ?_⟩
  rcases hn with hn | hn
  · exact .inl ((h.queued n).mpr (.inl hn))
  · right
    rw [h.remaining n]
    simp only [Remaining, InRange, h.forward, if_false, Bool.false_eq_true] at hn
    omega

/-- The numbers behind are queued, and those up to the height ahead. -/
theorem HoldsAgain.covers (h : HoldsAgain self middle count again) (hself : InOrder start self)
    {n : Int} (hnew : n ∈ again ∨ start ≤ n ∧ n < self.first + count ∨
      self.first < n ∧ n < self.first + count) :
    middle.Queued n ∨ middle.Remaining n := by
  rw [h.queued n, h.remaining n]
  rcases hnew with hn | ⟨hstart, hlt⟩ | ⟨hgt, hlt⟩
  · exact .inl (.inr hn)
  · rcases Int.lt_or_le n self.first with hbehind | hahead
    · refine .inl (.inl (hself.passed n ?_ ?_)) <;>
        simp only [Before, h.forward, if_false, Bool.false_eq_true] <;> omega
    · exact .inr ⟨hahead, hlt⟩
  · exact .inr ⟨hgt.le, hlt⟩

end HoldsAgain

/-- The numbers of the list are covered, and those up to the height. -/
theorem InOrder.enqueueByNumberList (h : InOrder start self) {numberList : List Int}
    {min max : Int} (hmeets : self.Meets config (.enqueueByNumberList numberList min max)) :
    KeepsAll start self (self.enqueueByNumberList config numberList min max) ∧
      ∀ n, n ∈ numberList ∨ start ≤ n ∧ n ≤ max →
        (self.enqueueByNumberList config numberList min max).Queued n ∨
          (self.enqueueByNumberList config numberList min max).Remaining n := by
  obtain ⟨hforward, hheight, hfirst, herrored, hkept⟩ := hmeets
  obtain ⟨hupdate, hcount, hmax⟩ := updateHeight_spec self max
  obtain ⟨count, hcounteq⟩ : ∃ count, count = (self.updateHeight max).count := ⟨_, rfl⟩
  rw [← hcounteq] at hheight hfirst hupdate hcount hmax
  rw [hupdate] at hkept
  obtain ⟨again, hagain⟩ : ∃ again, again = numberList.filter fun num => num ≤ self.first :=
    ⟨_, rfl⟩
  have hmem : ∀ n, n ∈ again ↔ n ∈ numberList ∧ n ≤ self.first := by
    intro n
    rw [hagain, List.mem_filter, decide_eq_true_eq]
  obtain ⟨middle, hmiddle⟩ : ∃ middle, middle =
      { self with count := count }.enqueueTasks true (numberTasks again min) := ⟨_, rfl⟩
  have hself : self.enqueueByNumberList config numberList min max =
      if middle.inQueue.length = 0 then middle.nextTasks config else middle := by
    rw [BlockFetcherBase.enqueueByNumberList, hupdate, hmiddle, hagain]
  have hnone (hnil : again = []) : middle = { self with count := count } := by
    rw [hmiddle, hnil]
    rfl
  have hholds : HoldsAgain self middle count again := by
    obtain ⟨hmfirst, hmcount, hmreverse⟩ := enqueueTasks_ranges { self with count := count } true
      (numberTasks again min)
    rw [← hmiddle] at hmfirst hmcount hmreverse
    refine ⟨hforward, hmreverse, hmfirst, hmcount, fun n => ?_⟩
    by_cases hany : ∃ n ∈ numberList, n ≤ self.first
    · obtain ⟨hqueue, -, -⟩ := enqueueTasks_queue { self with count := count } true
        (herrored hany) (.inr rfl) (numberTasks again min)
      rw [← hmiddle] at hqueue
      rw [Queued, Queued, hmreverse, hqueue]
      dsimp only
      rw [inTasks_append, hforward, inTasks_numberTasks]
    · have hnil : again = [] := by
        rw [List.eq_nil_iff_forall_not_mem]
        exact fun m hm => hany ⟨m, (hmem m).mp hm⟩
      rw [hnone hnil, hnil]
      exact (or_iff_left (List.not_mem_nil)).symm
  have hinOrder : InOrder start middle := by
    apply hholds.inOrder h
    · exact fun n hn => ((hmem n).mp hn).2
    · exact fun hpos => ⟨fun hn => (hfirst hpos).1 ((hmem _).mp hn).1, (hfirst hpos).2⟩
  have hone : KeepsAll start self middle := hholds.keepsAll hinOrder hcount
  have hnew : ∀ n, n ∈ numberList ∨ start ≤ n ∧ n ≤ max →
      middle.Queued n ∨ middle.Remaining n := by
    intro n hn
    apply hholds.covers h
    rcases hn with hlist | ⟨hstart, hle⟩
    · rcases Int.lt_or_le self.first n with hgt | hle
      · rcases hheight n hlist with hle' | hlt
        · omega
        · exact .inr (.inr ⟨hgt, hlt⟩)
      · exact .inl ((hmem n).mpr ⟨hlist, hle⟩)
    · exact .inr (.inl ⟨hstart, by omega⟩)
  rw [hself]
  split
  · next hempty =>
    -- nothing was enqueued again, so that all numbers of the list are ahead
    have hnothing : ∀ n, ¬ middle.Queued n := by
      intro n hn
      rw [Queued, List.length_eq_zero_iff.mp hempty] at hn
      exact inTasks_nil n hn
    have hnil : again = [] := by
      rw [List.eq_nil_iff_forall_not_mem]
      exact fun m hm => hnothing m ((hholds.queued m).mpr (.inr hm))
    have hahead : ∀ n ∈ numberList, self.first < n := by
      intro n hlist
      by_contra hle
      exact hnothing n ((hholds.queued n).mpr (.inr ((hmem n).mpr ⟨hlist, not_lt.mp hle⟩)))
    have hnext : KeepsAll start middle (middle.nextTasks config) := by
      apply hinOrder.nextTasks
      rw [hnone hnil]
      exact hkept hahead
    exact ⟨hone.trans hnext, fun n hn => hnext.keeps n (hnew n hn)⟩
  · exact ⟨hone, hnew⟩

theorem InOrder.fetch (h : InOrder start self) (hmeets : self.Meets config .fetch) :
    KeepsAll start self (self.fetch config) := by
  unfold BlockFetcherBase.fetch
  split
  · exact h.refl
  · next hidle =>
    rw [Bool.or_eq_true, not_or] at hidle
    have hkept := hmeets hidle.1 hidle.2
    have hset : KeepsAll start self { self with running := true, fetching := true } :=
      ⟨⟨h.behind, h.passed⟩, rfl, fun _ => id⟩
    have hnext := hset.inOrder.nextTasks hkept
    exact (hset.trans hnext).trans (hnext.inOrder.next hkept.again)

theorem InOrder.fetchEnds (h : InOrder start self) : KeepsAll start self self.fetchEnds := by
  unfold BlockFetcherBase.fetchEnds
  split
  · exact h.refl
  · exact ⟨⟨h.behind, h.passed⟩, rfl, fun _ => id⟩

/-- What a call adds to the goal. -/
def Adds (start : Int) (call : Call) (n : Int) : Prop :=
  ∃ numberList min max, call = .enqueueByNumberList numberList min max ∧
    (n ∈ numberList ∨ start ≤ n ∧ n ≤ max)

theorem InOrder.step (h : InOrder start self) {call : Call} (hmeets : self.Meets config call) :
    KeepsAll start self (self.step config call) ∧
      ∀ n, Adds start call n → (self.step config call).Queued n ∨
        (self.step config call).Remaining n := by
  cases call with
  | fetch => exact ⟨h.fetch hmeets, by rintro n ⟨_, _, _, ⟨⟩, -⟩⟩
  | next => exact ⟨h.next hmeets, by rintro n ⟨_, _, _, ⟨⟩, -⟩⟩
  | fetchEnds => exact ⟨h.fetchEnds, by rintro n ⟨_, _, _, ⟨⟩, -⟩⟩
  | nextTasks => exact ⟨h.nextTasks hmeets, by rintro n ⟨_, _, _, ⟨⟩, -⟩⟩
  | clear => exact ⟨h.clear hmeets, by rintro n ⟨_, _, _, ⟨⟩, -⟩⟩
  | enqueueByNumberList numberList min max =>
    obtain ⟨hkeeps, hnew⟩ := h.enqueueByNumberList hmeets
    refine ⟨hkeeps, ?_⟩
    rintro n ⟨_, _, _, ⟨⟩, hn⟩
    exact hnew n hn

theorem InOrder.run (h : InOrder start self) {calls : List Call} (hmeets : self.MeetsRun config calls) :
    KeepsAll start self (self.run config calls) ∧
      ∀ n, (∃ call ∈ calls, Adds start call n) → (self.run config calls).Queued n ∨
        (self.run config calls).Remaining n := by
  induction calls generalizing self with
  | nil => exact ⟨h.refl, by rintro n ⟨_, ⟨⟩, -⟩⟩
  | cons call calls ih =>
    obtain ⟨hstep, hadds⟩ := h.step hmeets.1
    obtain ⟨hrun, hlater⟩ := ih hstep.inOrder hmeets.2
    refine ⟨hstep.trans hrun, ?_⟩
    rintro n ⟨other, hother, hn⟩
    rcases List.mem_cons.mp hother with rfl | hother
    · exact hrun.keeps n (hadds n hn)
    · exact hlater n ⟨other, hother, hn⟩

theorem create_inOrder (first count : Int) (reverse : Bool) :
    InOrder first (create first count reverse) := by
  constructor
  · intro n hn
    exact absurd hn (inTasks_nil n)
  · intro n hstart hbefore
    exact absurd hbefore hstart

/-- Every fetcher covers its goal without overlap after a run whose calls meet the condition. -/
theorem create_covered (config : FetcherConfig) (first count : Int) (reverse : Bool)
    (calls : List Call) (hmeets : (create first count reverse).MeetsRun config calls) :
    Covered (Goal first count reverse calls) ((create first count reverse).run config calls) := by
  obtain ⟨hkeeps, hadds⟩ := (create_inOrder first count reverse).run hmeets
  refine ⟨hkeeps.inOrder.apart, fun n hn => ?_⟩
  rcases hn with hn | ⟨numberList, min, max, hcall, hn⟩
  · exact hkeeps.keeps n (.inr hn)
  · exact hadds n ⟨_, hcall, numberList, min, max, rfl, hn⟩

end Numbers

section Samples

def sampleConfig : FetcherConfig where
  maxPerRequest := 5
  maxFetcherJobs := 10
  maxFetcherRequests := 10
  maxPerRequest_pos := by decide
  maxFetcherJobs_pos := by decide

def orderlyCalls : List Call :=
  [.fetch, .enqueueByNumberList [13, 15] 13 15, .enqueueByNumberList [3, 4] 3 4, .clear]

theorem create_covered_sample :
    (create 1 10 false).MeetsRun sampleConfig orderlyCalls ∧
      Covered (Goal 1 10 false orderlyCalls)
        ((create 1 10 false).run sampleConfig orderlyCalls) := by
  have hmeets : (create 1 10 false).MeetsRun sampleConfig orderlyCalls := by decide +kernel
  exact ⟨hmeets, create_covered sampleConfig 1 10 false orderlyCalls hmeets⟩

/-- A number that is queued and remains, a range in reverse that `clear` loses, and tasks that a
fetcher does not take because it does not run. -/
theorem not_create_covered :
    (¬ Covered (Goal 1 10 false [.fetch, .enqueueByNumberList [11, 12] 11 12])
      ((create 1 10 false).run sampleConfig [.fetch, .enqueueByNumberList [11, 12] 11 12])) ∧
    (¬ Covered (Goal 100 100 true [.fetch, .clear])
      ((create 100 100 true).run sampleConfig [.fetch, .clear])) ∧
    ¬ Covered (Goal 1 10 false [.enqueueByNumberList [13, 15] 13 15])
      ((create 1 10 false).run sampleConfig [.enqueueByNumberList [13, 15] 13 15]) := by
  refine ⟨fun h => ?_, fun h => ?_, fun h => ?_⟩
  · exact h.apart 11 (by decide +kernel) (by decide +kernel)
  · have hlost := h.covers 100 (.inl (by decide))
    exact absurd hlost (by decide +kernel)
  · have hlost := h.covers 13 (.inr ⟨[13, 15], 13, 15, by simp, .inl (by simp)⟩)
    exact absurd hlost (by decide +kernel)

end Samples

end EthereumJS.Client.BlockFetcherBase
