import EthereumJS.Client.JobPipeline
import Mathlib.Data.List.Count
import Mathlib.Data.List.Range

/-! # No job is lost

As long as `clear` finds the heap `in` empty every job is in one place, the counters are right and
the jobs enter the stream in their order. A `clear` that removes jobs leaves `total` as it is.
-/

namespace EthereumJS.Client.JobPipeline

variable {Reply Item : Type} {config : PipelineConfig Reply Item}

/-- The jobs under request that have not expired. -/
def active (fetcher : JobPipeline Item) : List (BlockJob Item) :=
  fetcher.requests.filter fun job => job.state = .active

/-- The jobs of all places, one place after the other. -/
def placed (fetcher : JobPipeline Item) : List (BlockJob Item) :=
  fetcher.inHeap ++ (fetcher.active ++ (fetcher.out ++ (fetcher.stream ++ fetcher.written)))

/-- Every job comes after all jobs of lower index have come at least once. -/
def InOrder (entered : List Nat) : Prop :=
  ∀ n index, entered[n]? = some index → ∀ lower < index, lower ∈ entered.take n

/-- What a fetcher has to keep. -/
structure Kept (fetcher : JobPipeline Item) : Prop where
  onePlace : ∀ index ∈ fetcher.created, index ∉ fetcher.cleared →
    (fetcher.placed.map BlockJob.index).count index = 1
  total : (fetcher.total : Int) =
    fetcher.inHeap.length + fetcher.active.length + fetcher.out.length + fetcher.processed
  stream : fetcher.processed - fetcher.finished = fetcher.stream.length
  inOrder : InOrder fetcher.entered

section Order

theorem InOrder.concat {entered : List Nat} {index : Nat} (h : InOrder entered)
    (hlower : ∀ lower < index, lower ∈ entered) : InOrder (entered ++ [index]) := by
  intro n i hi lower hlt
  obtain hn | hn := Nat.lt_or_ge n entered.length
  · rw [List.getElem?_append_left hn] at hi
    rw [List.take_append_of_le_length hn.le]
    exact h n i hi lower hlt
  · rw [List.getElem?_append_right hn, List.getElem?_singleton] at hi
    split at hi
    · next heq =>
      cases hi
      have hlength : n = entered.length := by omega
      rw [hlength, List.take_left]
      exact hlower lower hlt
    · cases hi

theorem InOrder.mem {entered : List Nat} {index lower : Nat} (h : InOrder entered)
    (hindex : index ∈ entered) (hlt : lower < index) : lower ∈ entered := by
  obtain ⟨n, hn⟩ := List.mem_iff_getElem?.mp hindex
  exact List.mem_of_mem_take (h n index hn lower hlt)

/-- A list in order that holds so many numbers holds all smaller ones. -/
theorem InOrder.mem_of_lt {entered indices : List Nat} {lower : Nat} (h : InOrder entered)
    (hnodup : indices.Nodup) (hsub : indices ⊆ entered) (hlt : lower < indices.length) :
    lower ∈ entered := by
  by_contra hnot
  have hbelow : indices ⊆ List.range lower := by
    intro index hindex
    rw [List.mem_range]
    by_contra hge
    obtain hgt | heq := Nat.lt_or_eq_of_le (Nat.le_of_not_lt hge)
    · exact hnot (h.mem (hsub hindex) hgt)
    · exact hnot (heq ▸ hsub hindex)
  have hle := (hnodup.subperm hbelow).length_le
  rw [List.length_range] at hle
  omega

end Order

/-- The books of the fetcher while some jobs are between two places; so many of these were taken
from the stream. -/
structure Accounted (floating : List (BlockJob Item)) (dequeued : Nat)
    (fetcher : JobPipeline Item) : Prop where
  places : ∀ index, ((fetcher.placed ++ floating).map BlockJob.index).count index =
    (List.range fetcher.total).count index
  created : fetcher.created = List.range fetcher.total
  finished : fetcher.finished = fetcher.written.length
  processed : fetcher.processed = fetcher.stream.length + fetcher.written.length + dequeued
  active : ∀ job ∈ fetcher.out ++ fetcher.stream, job.state = .active
  inOrder : InOrder fetcher.entered
  entered : ∀ job ∈ fetcher.stream ++ fetcher.written, job.index ∈ fetcher.entered

section Moves

variable {fetcher fetcher' : JobPipeline Item} {floating floating' : List (BlockJob Item)}
  {dequeued : Nat} {job : BlockJob Item}

theorem count_insertJob (job : BlockJob Item) (heap : List (BlockJob Item)) (index : Nat) :
    ((insertJob job heap).map BlockJob.index).count index =
      ((job :: heap).map BlockJob.index).count index :=
  ((List.perm_orderedInsert _ job heap).map _).count_eq index

theorem count_placed (index : Nat) :
    ((fetcher.placed ++ floating).map BlockJob.index).count index =
      (fetcher.inHeap.map BlockJob.index).count index +
        (fetcher.active.map BlockJob.index).count index +
        (fetcher.out.map BlockJob.index).count index +
        (fetcher.stream.map BlockJob.index).count index +
        (fetcher.written.map BlockJob.index).count index +
        (floating.map BlockJob.index).count index := by
  simp only [placed, List.map_append, List.count_append]
  omega

/-- Only the indices of the jobs between two places matter. -/
theorem Accounted.congr (h : Accounted floating dequeued fetcher)
    (heq : floating.map BlockJob.index = floating'.map BlockJob.index) :
    Accounted floating' dequeued fetcher := by
  refine { h with places := fun index => ?_ }
  rw [← h.places index, List.map_append, List.map_append, heq]

theorem Accounted.enqueue {again : Bool}
    (h : Accounted (job :: floating) (dequeued + again.toNat) fetcher)
    (hrunning : fetcher.running = true) :
    Accounted floating dequeued (fetcher.enqueue again job) := by
  rw [JobPipeline.enqueue, if_pos hrunning]
  refine { h with places := fun index => ?_, processed := ?_ }
  · have hplaces := h.places index
    rw [count_placed] at hplaces ⊢
    simp only [count_insertJob, List.map_cons, List.count_cons] at hplaces ⊢
    simp only [JobPipeline.active] at hplaces ⊢
    omega
  · have hprocessed := h.processed
    cases again
    · simpa using hprocessed
    · simp only [Bool.toNat_true, Nat.cast_add, Nat.cast_one] at hprocessed
      simp only [if_true]
      omega

theorem running_enqueue (again : Bool) (fetcher : JobPipeline Item) (job : BlockJob Item) :
    (fetcher.enqueue again job).running = fetcher.running := by
  rw [JobPipeline.enqueue]
  split <;> rfl

/-- The jobs that a writer or a request gives back go to the heap `in` one after the other. -/
theorem Accounted.enqueueAll {again : Bool} (jobs : List (BlockJob Item))
    (h : Accounted (jobs ++ floating) (dequeued + jobs.length * again.toNat) fetcher)
    (hrunning : fetcher.running = true) :
    Accounted floating dequeued (jobs.foldl (JobPipeline.enqueue again) fetcher) := by
  induction jobs generalizing fetcher with
  | nil => simpa using h
  | cons job jobs ih =>
    have hlength : dequeued + (job :: jobs).length * again.toNat =
        dequeued + jobs.length * again.toNat + again.toNat := by
      rw [List.length_cons, Nat.add_mul, Nat.one_mul, Nat.add_assoc]
    rw [hlength] at h
    exact ih (Accounted.enqueue h hrunning) (by rw [running_enqueue, hrunning])

theorem Accounted.insertOut (h : Accounted (job :: floating) dequeued fetcher)
    (hactive : job.state = .active) :
    Accounted floating dequeued { fetcher with out := insertJob job fetcher.out } := by
  refine { h with places := fun index => ?_, active := fun other hother => ?_ }
  · have hplaces := h.places index
    rw [count_placed] at hplaces ⊢
    simp only [count_insertJob, List.map_cons, List.count_cons] at hplaces ⊢
    simp only [JobPipeline.active] at hplaces ⊢
    omega
  · obtain hother | hother := List.mem_append.mp hother
    · obtain rfl | hother := List.mem_cons.mp ((List.perm_orderedInsert _ _ _).mem_iff.mp hother)
      · exact hactive
      · exact h.active other (List.mem_append_left _ hother)
    · exact h.active other (List.mem_append_right _ hother)

/-- A request that comes to an end gives its job back, unless that has expired before. -/
theorem Accounted.takeRequest (h : Accounted floating dequeued fetcher) {request : Nat}
    (htake : fetcher.takeRequest request = some (job, fetcher')) :
    Accounted (if job.state = .active then job :: floating else floating) dequeued fetcher' ∧
      fetcher'.running = fetcher.running := by
  obtain ⟨other, hother, heq⟩ := Option.map_eq_some_iff.mp htake
  cases heq
  obtain ⟨hlt, rfl⟩ := List.getElem?_eq_some_iff.mp hother
  refine ⟨{ h with places := fun index => ?_ }, rfl⟩
  have hplaces := h.places index
  have hperm := ((List.getElem_cons_eraseIdx_perm hlt).filter
    fun job => job.state = .active).map BlockJob.index
  have hcount := hperm.count_eq index
  rw [count_placed] at hplaces ⊢
  simp only [JobPipeline.active] at hplaces ⊢
  split
  · next hactive =>
    simp only [List.filter_cons, hactive, decide_true, if_true, List.map_cons,
      List.count_cons] at hcount ⊢
    omega
  · next hactive =>
    simp only [List.filter_cons, hactive, decide_false] at hcount ⊢
    simp only [Bool.false_eq_true, if_false] at hcount
    omega

theorem Accounted.dequeueNext (h : Accounted [] 0 fetcher)
    (hnext : fetcher.dequeueNext = some fetcher') :
    Accounted [] 0 fetcher' ∧ fetcher'.running = fetcher.running := by
  rw [JobPipeline.dequeueNext] at hnext
  split at hnext
  · cases hnext
  · next job out hout =>
    split at hnext
    · next hle =>
      cases hnext
      have hnodup : ((fetcher.stream ++ fetcher.written).map BlockJob.index).Nodup := by
        rw [List.nodup_iff_count_le_one]
        intro index
        have hplaces := h.places index
        have hrange := List.nodup_iff_count_le_one.mp (List.nodup_range (n := fetcher.total)) index
        rw [count_placed] at hplaces
        simp only [List.map_append, List.count_append]
        omega
      have hlower : ∀ lower < job.index, lower ∈ fetcher.entered := by
        intro lower hlt
        refine h.inOrder.mem_of_lt hnodup ?_ ?_
        · intro index hindex
          obtain ⟨other, hother, rfl⟩ := List.mem_map.mp hindex
          exact h.entered other hother
        · have hprocessed := h.processed
          rw [List.length_map, List.length_append]
          omega
      refine
        ⟨{ h with
            places := fun index => ?_, processed := ?_, active := ?_
            inOrder := h.inOrder.concat hlower, entered := ?_ }, rfl⟩
      · have hplaces := h.places index
        rw [count_placed] at hplaces ⊢
        simp only [hout, List.map_append, List.count_append, List.map_cons, List.map_nil,
          List.count_cons, List.count_nil] at hplaces ⊢
        simp only [JobPipeline.active] at hplaces ⊢
        omega
      · have hprocessed := h.processed
        simp only [List.length_append, List.length_singleton]
        push_cast
        omega
      · intro other hother
        apply h.active
        rw [hout]
        simp only [List.mem_append, List.mem_cons, List.not_mem_nil, or_false] at hother ⊢
        tauto
      · intro other hother
        simp only [List.mem_append, List.mem_cons, List.not_mem_nil, or_false] at hother ⊢
        obtain (hother | rfl) | hother := hother
        · exact .inl (h.entered other (List.mem_append_left _ hother))
        · exact .inr rfl
        · exact .inl (h.entered other (List.mem_append_right _ hother))
    · cases hnext

theorem Accounted.dequeue (room : Nat) {fetcher : JobPipeline Item} (h : Accounted [] 0 fetcher) :
    Accounted [] 0 (fetcher.dequeue room) ∧ (fetcher.dequeue room).running = fetcher.running := by
  induction room generalizing fetcher with
  | zero =>
    rw [JobPipeline.dequeue]
    split
    · exact ⟨h, rfl⟩
    · next hnext => exact h.dequeueNext hnext
  | succ room ih =>
    rw [JobPipeline.dequeue]
    split
    · exact ⟨h, rfl⟩
    · next hnext =>
      obtain ⟨hself, hrunning⟩ := h.dequeueNext hnext
      obtain ⟨hrest, hrest'⟩ := ih hself
      exact ⟨hrest, hrest'.trans hrunning⟩

theorem Accounted.enqueueTask (h : Accounted floating dequeued fetcher) (task : JobTask) :
    Accounted floating dequeued (fetcher.enqueueTask task) := by
  rw [JobPipeline.enqueueTask]
  split
  · exact h
  · refine { h with places := fun index => ?_, created := ?_ }
    · have hplaces := h.places index
      rw [count_placed] at hplaces ⊢
      simp only [count_insertJob, List.map_cons, List.count_cons, List.range_succ,
        List.count_append, List.count_nil] at hplaces ⊢
      simp only [JobPipeline.active] at hplaces ⊢
      omega
    · rw [h.created, List.range_succ]

theorem Accounted.enqueueTasks (h : Accounted floating dequeued fetcher) (tasks : List JobTask) :
    Accounted floating dequeued (tasks.foldl JobPipeline.enqueueTask fetcher) := by
  induction tasks generalizing fetcher with
  | nil => exact h
  | cons task tasks ih => exact ih (h.enqueueTask task)

theorem Accounted.tasks (h : Accounted floating dequeued fetcher) :
    Accounted floating dequeued (fetcher.tasks config).2 := by
  unfold JobPipeline.tasks
  dsimp only
  split <;> exact { h with }

theorem Accounted.nextTasks (h : Accounted floating dequeued fetcher) :
    Accounted floating dequeued (fetcher.nextTasks config) := by
  rw [JobPipeline.nextTasks]
  split
  · exact h.tasks.enqueueTasks _
  · exact h

theorem Accounted.next (h : Accounted floating dequeued fetcher) (surroundings : Surroundings) :
    Accounted floating dequeued (fetcher.next config surroundings) := by
  have h : Accounted floating dequeued (fetcher.nextTasks config) := h.nextTasks
  rw [JobPipeline.next]
  generalize fetcher.nextTasks config = fetcher at h
  split
  · split
    · exact h
    · exact { h with }
  · next job rest hheap =>
    split_ifs
    · exact h
    · exact h
    · exact h
    · refine { h with places := fun index => ?_ }
      have hplaces := h.places index
      rw [count_placed] at hplaces ⊢
      simp only [JobPipeline.active, hheap, List.filter_append, List.map_append, List.count_append,
        List.map_cons, List.count_cons, List.filter_cons, decide_true, if_true, List.filter_nil,
        List.map_nil, List.count_nil] at hplaces ⊢
      omega
    · exact h

theorem Accounted.settle (h : Accounted [job] 0 fetcher) (hactive : job.state = .active)
    (hrunning : fetcher.running = true) (room : Nat) (result : Option Reply) :
    Accounted [] 0 (fetcher.settle config room job result) := by
  have hagain : ∀ job', job'.index = job.index →
      Accounted [] 0 (fetcher.enqueue false job') := by
    intro job' hindex
    have hcopy : Accounted [job'] 0 fetcher := h.congr (by simp [hindex])
    exact Accounted.enqueue hcopy hrunning
  cases result with
  | none => exact hagain job rfl
  | some reply =>
    rw [JobPipeline.settle]
    split
    · exact hagain job rfl
    · dsimp only
      split
      · refine (Accounted.dequeue room (Accounted.insertOut (h.congr ?_) ?_)).1
        · rfl
        · exact hactive
      · exact hagain _ rfl

theorem Accounted.failure {again : Bool} {jobItems : List (BlockJob Item)}
    (h : Accounted (jobItems.filter fun job => job.state = .active)
      ((jobItems.filter fun job => job.state = .active).length * again.toNat) fetcher)
    (hrunning : fetcher.running = true) (surroundings : Surroundings) :
    Accounted [] 0 (fetcher.failure config surroundings again jobItems) := by
  apply Accounted.next
  apply Accounted.enqueueAll _ _ hrunning
  rwa [List.append_nil, Nat.zero_add]

theorem Accounted.expire (h : Accounted [] 0 fetcher) {request : Nat}
    (hjob : fetcher.requests[request]? = some job) (hactive : job.state = .active)
    (hrunning : fetcher.running = true) : Accounted [] 0 (fetcher.expire request job) := by
  obtain ⟨hlt, rfl⟩ := List.getElem?_eq_some_iff.mp hjob
  refine Accounted.enqueue ?_ hrunning
  refine { h with places := fun index => ?_ }
  have hplaces := h.places index
  have hold := (((List.getElem_cons_eraseIdx_perm hlt).filter
    fun job => job.state = .active).map BlockJob.index).count_eq index
  have hnew := (((List.set_perm_cons_eraseIdx hlt
    { fetcher.requests[request] with state := .expired }).filter
      fun job => job.state = .active).map BlockJob.index).count_eq index
  rw [count_placed] at hplaces ⊢
  simp only [List.filter_cons, hactive, decide_true, if_true, List.map_cons, List.count_cons,
    reduceCtorEq, decide_false, Bool.false_eq_true, if_false, List.map_nil,
    List.count_nil] at hold hnew hplaces ⊢
  simp only [JobPipeline.active] at hplaces ⊢
  omega

theorem Accounted.writeSucceeds (h : Accounted [] 0 fetcher) (jobs : Nat) :
    Accounted [] 0 (fetcher.writeSucceeds jobs) := by
  have hsplit := List.take_append_drop jobs fetcher.stream
  refine
    { h with
      places := fun index => ?_, finished := ?_, processed := ?_, active := ?_, entered := ?_ }
  · have hplaces := h.places index
    rw [count_placed] at hplaces ⊢
    rw [← hsplit] at hplaces
    simp only [JobPipeline.writeSucceeds, List.map_append, List.count_append] at hplaces ⊢
    simp only [JobPipeline.active] at hplaces ⊢
    omega
  · simp only [JobPipeline.writeSucceeds, h.finished, List.length_append]
  · have hlength := congrArg List.length hsplit
    have hprocessed := h.processed
    simp only [JobPipeline.writeSucceeds, List.length_append] at hlength hprocessed ⊢
    omega
  · intro other hother
    apply h.active
    obtain hother | hother := List.mem_append.mp hother
    · exact List.mem_append_left _ hother
    · exact List.mem_append_right _ (List.mem_of_mem_drop hother)
  · intro other hother
    apply h.entered
    rw [← hsplit]
    simp only [JobPipeline.writeSucceeds, List.mem_append] at hother ⊢
    tauto

theorem map_index_stepBackFirst (stepBack : Int) (jobs : List (BlockJob Item)) :
    (stepBackFirst stepBack jobs).map BlockJob.index = jobs.map BlockJob.index := by
  cases jobs <;> rfl

theorem active_stepBackFirst {stepBack : Int} {jobs : List (BlockJob Item)}
    (h : ∀ job ∈ jobs, job.state = .active) :
    ∀ job ∈ stepBackFirst stepBack jobs, job.state = .active := by
  cases jobs with
  | nil => exact h
  | cons first jobs => exact List.forall_mem_cons.mpr (List.forall_mem_cons.mp h)

theorem Accounted.writeFails (h : Accounted [] 0 fetcher) {jobs : Nat}
    (hjobs : jobs ≤ fetcher.stream.length) (hrunning : fetcher.running = true)
    (surroundings : Surroundings) (stepBack : Int) :
    Accounted [] 0 (fetcher.writeFails config surroundings jobs stepBack) := by
  have hsplit := List.take_append_drop jobs fetcher.stream
  have hbatch : ∀ job ∈ fetcher.stream.take jobs, job.state = .active := fun job hjob =>
    h.active job (List.mem_append_right _ (List.mem_of_mem_take hjob))
  have hfilter : (stepBackFirst stepBack (fetcher.stream.take jobs)).filter
      (fun job => job.state = .active) = stepBackFirst stepBack (fetcher.stream.take jobs) :=
    List.filter_eq_self.mpr fun job hjob => decide_eq_true (active_stepBackFirst hbatch job hjob)
  have hlength : (stepBackFirst stepBack (fetcher.stream.take jobs)).length = jobs := by
    have hmap := congrArg List.length
      (map_index_stepBackFirst stepBack (fetcher.stream.take jobs))
    simp only [List.length_map, List.length_take] at hmap
    omega
  rw [JobPipeline.writeFails]
  refine Accounted.failure ?_ ?_ surroundings
  case refine_2 => exact hrunning
  rw [hfilter, hlength, Bool.toNat_true, Nat.mul_one]
  refine { h with places := fun index => ?_, processed := ?_, active := ?_, entered := ?_ }
  · have hplaces := h.places index
    rw [count_placed] at hplaces ⊢
    rw [← hsplit] at hplaces
    simp only [map_index_stepBackFirst, List.map_append, List.count_append, List.map_nil,
      List.count_nil] at hplaces ⊢
    simp only [JobPipeline.active] at hplaces ⊢
    omega
  · have hprocessed := h.processed
    simp only [List.length_drop]
    omega
  · intro other hother
    apply h.active
    obtain hother | hother := List.mem_append.mp hother
    · exact List.mem_append_left _ hother
    · exact List.mem_append_right _ (List.mem_of_mem_drop hother)
  · intro other hother
    apply h.entered
    obtain hother | hother := List.mem_append.mp hother
    · exact List.mem_append_left _ (List.mem_of_mem_drop hother)
    · exact List.mem_append_right _ hother

theorem Accounted.clear (h : Accounted [] 0 fetcher) (hheap : fetcher.inHeap = []) :
    Accounted [] 0 fetcher.clear := by
  simp only [JobPipeline.clear, JobPipeline.clearHeap]
  refine { h with places := fun index => ?_ }
  have hplaces := h.places index
  rw [count_placed] at hplaces ⊢
  simp only [hheap] at hplaces
  exact hplaces

theorem accounted_start (first count : Int) (reverse : Bool) :
    Accounted [] 0 (start config first count reverse : JobPipeline Item) := by
  apply Accounted.nextTasks
  constructor
  · intro index
    rfl
  · rfl
  · rfl
  · rfl
  · intro job hjob
    cases hjob
  · intro n index hindex
    cases hindex
  · intro job hjob
    cases hjob

end Moves

section Runs

variable {fetcher fetcher' : JobPipeline Item}

theorem Accounted.kept (h : Accounted [] 0 fetcher) : Kept fetcher := by
  have hplaces := h.places
  simp only [List.append_nil] at hplaces
  constructor
  · intro index hcreated _
    rw [hplaces, List.count_eq_one_of_mem List.nodup_range]
    rwa [← h.created]
  · have hperm := (List.perm_iff_count.mpr hplaces).length_eq
    have hprocessed := h.processed
    simp only [placed, List.length_map, List.length_append, List.length_range] at hperm
    omega
  · have hprocessed := h.processed
    have hfinished := h.finished
    omega
  · exact h.inOrder

/-- A step keeps the books if it is no `clear` that removes jobs. -/
theorem Accounted.step (h : Accounted [] 0 fetcher) {event : PipelineEvent Reply}
    (hstep : fetcher.step config event = some fetcher')
    (hclear : event = .clear → fetcher.inHeap = []) : Accounted [] 0 fetcher' := by
  unfold JobPipeline.step at hstep
  split at hstep
  · next hrunning =>
    cases event with
    | enqueueTask task =>
      cases hstep
      exact h.enqueueTask task
    | next surroundings =>
      cases hstep
      exact h.next surroundings
    | answer request result surroundings =>
      obtain ⟨⟨job, taken⟩, htake, rfl⟩ := Option.map_eq_some_iff.mp hstep
      obtain ⟨htaken, hsame⟩ := h.takeRequest htake
      dsimp only [JobPipeline.success]
      split
      · next hstate => rwa [if_neg hstate] at htaken
      · next hstate =>
        rw [not_not] at hstate
        rw [if_pos hstate] at htaken
        exact (htaken.settle hstate (hsame.trans hrunning) _ _).next surroundings
    | reject request surroundings =>
      obtain ⟨⟨job, taken⟩, htake, rfl⟩ := Option.map_eq_some_iff.mp hstep
      obtain ⟨htaken, hsame⟩ := h.takeRequest htake
      refine Accounted.failure ?_ (hsame.trans hrunning) surroundings
      rw [Bool.toNat_false, Nat.mul_zero, List.filter_cons, List.filter_nil]
      simpa only [decide_eq_true_eq] using htaken
    | expire request =>
      dsimp only at hstep
      split at hstep
      · next job hjob =>
        split at hstep
        · next hactive =>
          cases hstep
          exact h.expire hjob hactive hrunning
        · cases hstep
      · cases hstep
    | dequeue room =>
      cases hstep
      exact (h.dequeue room).1
    | writeSucceeds jobs =>
      dsimp only at hstep
      split at hstep
      · cases hstep
        exact h.writeSucceeds jobs
      · cases hstep
    | writeFails jobs stepBack surroundings =>
      dsimp only at hstep
      split at hstep
      · next hjobs =>
        cases hstep
        exact h.writeFails hjobs.2 hrunning surroundings stepBack
      · cases hstep
    | clear =>
      cases hstep
      exact h.clear (hclear rfl)
  · cases hstep

/-- No `clear` of the run removes a job. -/
def ClearsNothing (config : PipelineConfig Reply Item) (fetcher : JobPipeline Item) :
    List (PipelineEvent Reply) → Prop
  | [] => True
  | event :: events =>
    ∀ fetcher', fetcher.step config event = some fetcher' →
      (event = .clear → fetcher.inHeap = []) ∧ ClearsNothing config fetcher' events

/-- The jobs are kept in every state of a run. -/
def KeptThroughout (config : PipelineConfig Reply Item) (fetcher : JobPipeline Item)
    (events : List (PipelineEvent Reply)) : Prop :=
  ∀ prior, prior <+: events → ∀ fetcher', fetcher.run config prior = some fetcher' →
    Kept fetcher'

/-- A `clear` that removes jobs leaves the total too high. -/
theorem Kept.inHeap_eq_nil (h : Kept fetcher) (hclear : Kept fetcher.clear) :
    fetcher.inHeap = [] := by
  have htotal := h.total
  have htotal' := hclear.total
  simp only [JobPipeline.clear, clearHeap, List.length_nil, JobPipeline.active,
    Nat.sub_zero] at htotal htotal'
  exact List.eq_nil_of_length_eq_zero (by omega)

theorem Accounted.keptThroughout_iff (h : Accounted [] 0 fetcher)
    (events : List (PipelineEvent Reply)) :
    KeptThroughout config fetcher events ↔ ClearsNothing config fetcher events := by
  induction events generalizing fetcher with
  | nil =>
    refine iff_of_true (fun prior hprior fetcher' hrun => ?_) trivial
    rw [List.prefix_nil.mp hprior] at hrun
    cases hrun
    exact h.kept
  | cons event events ih =>
    constructor
    · intro hkept fetcher' hstep
      have hclear : event = .clear → fetcher.inHeap = [] := by
        rintro rfl
        have hnext := hkept [.clear] (List.prefix_append [.clear] events) fetcher'
          (by rw [JobPipeline.run, hstep]; rfl)
        have hcleared : fetcher' = fetcher.clear := by
          rw [JobPipeline.step] at hstep
          split at hstep
          · cases hstep
            rfl
          · cases hstep
        exact h.kept.inHeap_eq_nil (hcleared ▸ hnext)
      refine ⟨hclear, (ih (h.step hstep hclear)).mp fun prior hprior last hrun => ?_⟩
      apply hkept (event :: prior) (List.cons_prefix_cons.mpr ⟨rfl, hprior⟩) last
      rw [JobPipeline.run, hstep]
      exact hrun
    · intro hclears prior hprior last hrun
      cases prior with
      | nil =>
        cases hrun
        exact h.kept
      | cons first prior =>
        obtain ⟨rfl, hprefix⟩ := List.cons_prefix_cons.mp hprior
        obtain ⟨fetcher', hstep, hrest⟩ := Option.bind_eq_some_iff.mp hrun
        obtain ⟨hclear, hclears⟩ := hclears fetcher' hstep
        exact (ih (h.step hstep hclear)).mpr hclears prior hprefix last hrest

/-- The jobs are kept in all states of a run iff no `clear` of it removes a job. -/
theorem jobs_kept_iff (config : PipelineConfig Reply Item) (first count : Int) (reverse : Bool)
    (events : List (PipelineEvent Reply)) :
    KeptThroughout config (start config first count reverse) events ↔
      ClearsNothing config (start config first count reverse) events :=
  (accounted_start first count reverse).keptThroughout_iff events

def fiveEach : PipelineConfig Unit Unit where
  maxPerRequest := 5
  maxFetcherJobs := 100
  maxFetcherRequests := 10
  maxQueue := 4
  length _ := none
  process _ _ := (none, some [])

/-- Two jobs are created and cleared, and the total is still two. -/
theorem not_jobs_kept :
    ¬ ∀ (config : PipelineConfig Unit Unit) (first count : Int) (reverse : Bool)
      (events : List (PipelineEvent Unit)),
      KeptThroughout config (start config first count reverse) events := by
  intro h
  have htotal := (h fiveEach 1 10 false [.clear] [.clear] (List.prefix_refl _) _ rfl).total
  revert htotal
  decide

end Runs

end EthereumJS.Client.JobPipeline
