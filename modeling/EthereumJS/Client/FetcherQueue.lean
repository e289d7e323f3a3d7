import EthereumJS.Client.Fetcher

/-! # The order of the jobs

The jobs of a fetcher are numbered without gaps: those that are being written come first, and each
operation but the end of a write keeps all of them.
-/

namespace EthereumJS.Client.Fetcher

open Ordered

variable {Task Partial Result Sink : Type}

def allJobs (fetcher : Fetcher Task Partial Result) : List (Job Task Partial Result) :=
  fetcher.writing ++ fetcher.jobs

structure Orderly (fetcher : Fetcher Task Partial Result) : Prop where
  healthy : fetcher.syncErrored = false
  numbered : Numbered Job.index fetcher.finished fetcher.allJobs
  processed : fetcher.processed = fetcher.finished + fetcher.writing.length
  total : fetcher.total = fetcher.processed + fetcher.jobs.length
  written : ∀ job ∈ fetcher.writing, job.state = .processed
  stopped : fetcher.running = false → ∀ job ∈ fetcher.jobs, job.state = .idle

variable {fetcher : Fetcher Task Partial Result} {old new job : Job Task Partial Result}

theorem create_orderly : (create : Fetcher Task Partial Result).Orderly := by
  constructor <;> simp [create, allJobs]

theorem Orderly.fetch (h : fetcher.Orderly) : fetcher.fetch.Orderly := by
  simp only [Fetcher.fetch]
  split
  · exact h
  · exact { h with stopped := fun hstopped => by cases hstopped }

theorem Orderly.jobs_numbered (h : fetcher.Orderly) :
    Numbered Job.index fetcher.processed fetcher.jobs := by
  rw [h.processed]
  exact h.numbered.right

theorem Orderly.running (h : fetcher.Orderly) (hjob : job ∈ fetcher.jobs)
    (hstate : job.state ≠ .idle) : fetcher.running = true := by
  cases hrunning : fetcher.running with
  | true => rfl
  | false => exact absurd (h.stopped hrunning job hjob) hstate

theorem mem_allJobs (hjob : job ∈ fetcher.jobs) : job ∈ fetcher.allJobs :=
  List.mem_append_right _ hjob

section SetJob

theorem mem_setJob (hold : old ∈ fetcher.jobs) (hindex : new.index = old.index) :
    new ∈ (fetcher.setJob new).jobs := by
  refine List.mem_map.mpr ⟨old, hold, ?_⟩
  rw [if_pos hindex.symm]

theorem Orderly.mem_setJob_iff (h : fetcher.Orderly) (hold : old ∈ fetcher.jobs)
    (hindex : new.index = old.index) :
    job ∈ (fetcher.setJob new).jobs ↔ job = new ∨ job ∈ fetcher.jobs ∧ job ≠ old :=
  h.jobs_numbered.mem_replace hold hindex

/-- What `new` has in common with the job whose place it takes stays as it is. -/
theorem Orderly.map_setJob (h : fetcher.Orderly) (hold : old ∈ fetcher.jobs)
    (hindex : new.index = old.index) {β : Type} {f : Job Task Partial Result → β}
    (hf : f new = f old) :
    (fetcher.setJob new).allJobs.map f = fetcher.allJobs.map f := by
  simp only [allJobs, List.map_append, setJob]
  rw [h.jobs_numbered.map_replace hold hindex hf]

theorem Orderly.setJob (h : fetcher.Orderly) (hold : old ∈ fetcher.jobs)
    (hindex : new.index = old.index) (hrunning : old.state ≠ .idle ∨ new.state = .idle ∨
      fetcher.running = true) : (fetcher.setJob new).Orderly where
  healthy := h.healthy
  numbered := by
    rw [Numbered, h.map_setJob hold hindex hindex]
    simpa [allJobs, Fetcher.setJob, Numbered] using h.numbered
  processed := h.processed
  total := by
    rw [Fetcher.setJob, length_replace]
    exact h.total
  written := h.written
  stopped hstopped job hjob := by
    obtain rfl | ⟨hjob, -⟩ := (h.mem_setJob_iff hold hindex).mp hjob
    · obtain hstate | hstate | hstate := hrunning
      · exact absurd (h.stopped hstopped old hold) hstate
      · exact hstate
      · rw [show fetcher.running = false from hstopped] at hstate
        cases hstate
    · exact h.stopped hstopped job hjob

/-- A job stays, unless it is the one whose place is taken. -/
theorem Orderly.mem_allJobs_setJob (h : fetcher.Orderly) (hold : old ∈ fetcher.jobs)
    (hindex : new.index = old.index) (hjob : job ∈ fetcher.allJobs) :
    job = old ∨ job ∈ (fetcher.setJob new).allJobs := by
  obtain hwriting | hjobs := List.mem_append.mp hjob
  · exact .inr (List.mem_append_left _ hwriting)
  · by_cases heq : job = old
    · exact .inl heq
    · exact .inr (mem_allJobs ((h.mem_setJob_iff hold hindex).mpr (.inr ⟨hjobs, heq⟩)))

theorem Orderly.of_mem_setJob (h : fetcher.Orderly) (hold : old ∈ fetcher.jobs)
    (hindex : new.index = old.index) (hjob : job ∈ (fetcher.setJob new).allJobs) :
    job = new ∨ job ∈ fetcher.allJobs := by
  obtain hwriting | hjobs := List.mem_append.mp hjob
  · exact .inr (List.mem_append_left _ hwriting)
  · exact ((h.mem_setJob_iff hold hindex).mp hjobs).imp_right fun hmem => mem_allJobs hmem.1

theorem enqueue_eq (hrunning : fetcher.running = true) (job : Job Task Partial Result) :
    fetcher.enqueue job = fetcher.setJob { job with state := .idle } := if_pos hrunning

end SetJob

section Dequeue

theorem Orderly.dequeueNext (h : fetcher.Orderly) {fetcher' : Fetcher Task Partial Result}
    (hnext : fetcher.dequeueNext = some fetcher') :
    fetcher'.Orderly ∧ fetcher'.allJobs = fetcher.allJobs ∧ fetcher'.running = fetcher.running := by
  unfold Fetcher.dequeueNext at hnext
  split at hnext
  · next job hfind =>
    split at hnext
    · next hle =>
      obtain rfl := Option.some.inj hnext
      obtain ⟨rest, hjobs, herase⟩ := h.jobs_numbered.find_first hfind hle
      have hstate : job.state = .processed := by simpa using List.find?_some hfind
      have hmem : job ∈ fetcher.jobs := by simp [hjobs]
      -- the job only goes over the border between the two lists
      have hall : fetcher.writing ++ [job] ++ rest = fetcher.allJobs := by
        rw [allJobs, hjobs, List.append_assoc, List.singleton_append]
      rw [herase]
      refine
        ⟨{ healthy := h.healthy, numbered := ?_, processed := ?_, total := ?_, written := ?_
           stopped := ?_ }, hall, rfl⟩
      · rw [allJobs, hall]
        exact h.numbered
      · rw [h.processed, List.length_append, List.length_singleton, Nat.add_assoc]
      · show fetcher.total = fetcher.processed + 1 + rest.length
        rw [h.total, hjobs, List.length_cons]
        omega
      · intro other hother
        obtain hother | hother := List.mem_append.mp hother
        · exact h.written other hother
        · rw [List.mem_singleton.mp hother, hstate]
      · intro hrunning
        rw [h.running hmem (by simp [hstate])] at hrunning
        cases hrunning
    · cases hnext
  · cases hnext

theorem Orderly.dequeue (room : Nat) :
    ∀ {fetcher : Fetcher Task Partial Result}, fetcher.Orderly →
      (fetcher.dequeue room).Orderly ∧ (fetcher.dequeue room).allJobs = fetcher.allJobs ∧
        (fetcher.dequeue room).running = fetcher.running := by
  induction room with
  | zero =>
    intro fetcher h
    rw [Fetcher.dequeue]
    split
    · exact ⟨h, rfl, rfl⟩
    · next hnext => exact h.dequeueNext hnext
  | succ room ih =>
    intro fetcher h
    rw [Fetcher.dequeue]
    split
    · exact ⟨h, rfl, rfl⟩
    · next hnext =>
      obtain ⟨hnextOrderly, hall, hrunning⟩ := h.dequeueNext hnext
      obtain ⟨horderly, hallRest, hrunningRest⟩ := ih hnextOrderly
      exact ⟨horderly, hallRest.trans hall, hrunningRest.trans hrunning⟩

end Dequeue

section Tasks

theorem Orderly.enqueueTask (h : fetcher.Orderly) {autoRestart : Bool}
    (hruns : fetcher.running = true ∨ autoRestart = true) (task : Task) :
    (fetcher.enqueueTask autoRestart task).Orderly ∧
    (fetcher.enqueueTask autoRestart task).allJobs =
      fetcher.allJobs ++ [fetcher.newJob task] ∧
    (fetcher.running = true → (fetcher.enqueueTask autoRestart task).running = true) := by
  have hlength : fetcher.allJobs.length = fetcher.writing.length + fetcher.jobs.length :=
    List.length_append
  have hguard : ¬ (fetcher.syncErrored || (!fetcher.running && !autoRestart)) = true := by
    obtain hruns | hruns := hruns <;> simp [h.healthy, hruns]
  rw [Fetcher.enqueueTask, if_neg hguard]
  dsimp only
  generalize (!fetcher.running && autoRestart && !fetcher.fetching) = restart
  refine
    ⟨{ healthy := h.healthy, numbered := ?_, processed := h.processed, total := ?_
       written := h.written, stopped := ?_ }, (List.append_assoc ..).symm,
      fun hrunning => by simp [hrunning]⟩
  · have hnumbered := h.numbered.snoc (a := fetcher.newJob task)
      (by rw [newJob, h.total, h.processed, hlength, Nat.add_assoc])
    rw [allJobs, List.append_assoc] at hnumbered
    exact hnumbered
  · simp only [List.length_append, List.length_singleton]
    rw [h.total, Nat.add_assoc]
  · intro hstopped job hjob
    obtain hjob | hjob := List.mem_append.mp hjob
    · exact h.stopped (Bool.or_eq_false_iff.mp hstopped).1 job hjob
    · rw [List.mem_singleton.mp hjob]
      rfl

/-- The jobs of some tasks of a running fetcher come after the jobs that are there. -/
theorem Orderly.enqueueTasks (h : fetcher.Orderly) (hrunning : fetcher.running = true)
    (tasks : List Task) :
    (tasks.foldl (Fetcher.enqueueTask false) fetcher).allJobs.map (·.task) =
      fetcher.allJobs.map (·.task) ++ tasks := by
  induction tasks generalizing fetcher with
  | nil => simp
  | cons task tasks ih =>
    obtain ⟨horderly, hall, hruns⟩ := h.enqueueTask (.inl hrunning) task
    rw [List.foldl_cons, ih horderly (hruns hrunning), hall]
    simp [newJob]

end Tasks

section Pick

theorem peek_spec (h : fetcher.peek = some job) : job ∈ fetcher.jobs ∧ job.state = .idle :=
  ⟨List.mem_of_find?_eq_some h, by simpa using List.find?_some h⟩

/-- `next` does nothing, stops a fetcher without jobs or starts the request of a job. -/
theorem Orderly.pick_cases (h : fetcher.Orderly) (maxQueue : Nat) (surroundings : Surroundings) :
    fetcher.pick maxQueue surroundings = fetcher ∨
    (fetcher.jobs = [] ∧ fetcher.writing = [] ∧
      fetcher.pick maxQueue surroundings = { fetcher with running := false }) ∨
    ∃ job ∈ fetcher.jobs, job.state = .idle ∧
      fetcher.pick maxQueue surroundings = fetcher.setJob { job with state := .active } := by
  simp only [pick]
  cases hpeek : fetcher.peek with
  | none =>
    dsimp only
    split
    · exact .inl rfl
    · next hall =>
      have htotal := h.total
      have hprocessed := h.processed
      rw [not_not] at hall
      exact .inr (.inl ⟨List.eq_nil_of_length_eq_zero (by omega),
        List.eq_nil_of_length_eq_zero (by omega), rfl⟩)
  | some job =>
    obtain ⟨hmem, hidle⟩ := peek_spec hpeek
    dsimp only
    split_ifs
    · exact .inl rfl
    · exact .inl rfl
    · exact .inl rfl
    · exact .inr (.inr ⟨job, hmem, hidle, rfl⟩)
    · exact .inl rfl

theorem findJob_spec {index : Nat} {state : JobState}
    (h : fetcher.findJob index state = some job) :
    job ∈ fetcher.jobs ∧ job.index = index ∧ job.state = state := by
  refine ⟨List.mem_of_find?_eq_some h, ?_⟩
  simpa using List.find?_some h

theorem openJob_spec {index : Nat} (h : fetcher.openJob index = some job) :
    job ∈ fetcher.jobs ∧ job.state ≠ .idle ∧ job.state ≠ .processed := by
  obtain hactive | ⟨-, hrequested⟩ := Option.or_eq_some_iff.mp h
  · obtain ⟨hmem, -, hstate⟩ := findJob_spec hactive
    exact ⟨hmem, by simp [hstate], by simp [hstate]⟩
  · obtain ⟨hmem, -, hstate⟩ := findJob_spec hrequested
    exact ⟨hmem, by simp [hstate], by simp [hstate]⟩

end Pick

section Write

/-- The fetcher when the first jobs are written, and `rest` is to be written. -/
def wrote (rest : List (Job Task Partial Result)) (jobs : Nat)
    (fetcher : Fetcher Task Partial Result) : Fetcher Task Partial Result :=
  { fetcher with writing := rest, finished := fetcher.finished + jobs }

theorem Orderly.wrote (h : fetcher.Orderly) {batch rest : List (Job Task Partial Result)}
    (hwriting : fetcher.writing = batch ++ rest) :
    (fetcher.wrote rest batch.length).Orderly ∧
      fetcher.allJobs = batch ++ (fetcher.wrote rest batch.length).allJobs := by
  have hall : fetcher.allJobs = batch ++ (fetcher.wrote rest batch.length).allJobs := by
    rw [allJobs, hwriting, List.append_assoc]
    rfl
  refine
    ⟨{ healthy := h.healthy, numbered := ?_, processed := ?_, total := h.total, written := ?_
       stopped := h.stopped }, hall⟩
  · have hnumbered := h.numbered
    rw [hall] at hnumbered
    exact hnumbered.right
  · show fetcher.processed = fetcher.finished + batch.length + rest.length
    rw [h.processed, hwriting, List.length_append, Nat.add_assoc]
  · intro job hjob
    exact h.written job (by rw [hwriting]; exact List.mem_append_right _ hjob)

theorem Orderly.write_cases (h : fetcher.Orderly) (store : Result → Sink → Sink × Bool)
    (nothing : Result) (jobs : Nat) (sink : Sink) :
    ∃ batch rest, fetcher.writing = batch ++ rest ∧
      ((∃ sink', storeJobs store nothing batch sink = (sink', true) ∧
        fetcher.write store nothing jobs sink = (fetcher.wrote rest batch.length, sink')) ∨
      ∃ sink', storeJobs store nothing batch sink = (sink', false) ∧
        fetcher.write store nothing jobs sink =
          ({ fetcher with running := false, syncErrored := true }, sink')) := by
  have hguard : ¬ fetcher.syncErrored = true := by simp [h.healthy]
  refine ⟨_, _, (List.take_append_drop jobs fetcher.writing).symm, ?_⟩
  cases hstore : storeJobs store nothing (fetcher.writing.take jobs) sink with
  | mk sink' stored =>
    cases stored with
    | true =>
      refine .inl ⟨sink', rfl, ?_⟩
      rw [Fetcher.write, if_neg hguard]
      dsimp only
      rw [hstore]
      rfl
    | false =>
      refine .inr ⟨sink', rfl, ?_⟩
      rw [Fetcher.write, if_neg hguard]
      dsimp only
      rw [hstore]

end Write

section Errors

theorem syncErrored_enqueue (job : Job Task Partial Result) :
    (fetcher.enqueue job).syncErrored = fetcher.syncErrored := by
  simp only [enqueue]
  split <;> rfl

theorem syncErrored_dequeueNext {fetcher' : Fetcher Task Partial Result}
    (h : fetcher.dequeueNext = some fetcher') : fetcher'.syncErrored = fetcher.syncErrored := by
  simp only [dequeueNext] at h
  split at h
  · split at h
    · obtain rfl := Option.some.inj h
      rfl
    · cases h
  · cases h

theorem syncErrored_dequeue (room : Nat) :
    ∀ fetcher : Fetcher Task Partial Result,
      (fetcher.dequeue room).syncErrored = fetcher.syncErrored := by
  induction room with
  | zero =>
    intro fetcher
    rw [dequeue]
    split
    · rfl
    · next hnext => exact syncErrored_dequeueNext hnext
  | succ room ih =>
    intro fetcher
    rw [dequeue]
    split
    · rfl
    · next hnext => exact (ih _).trans (syncErrored_dequeueNext hnext)

theorem syncErrored_complete (room : Nat) (job : Job Task Partial Result) :
    (fetcher.complete room job).syncErrored = fetcher.syncErrored := syncErrored_dequeue room _

theorem syncErrored_enqueueTask (autoRestart : Bool) (task : Task) :
    (fetcher.enqueueTask autoRestart task).syncErrored = fetcher.syncErrored := by
  simp only [enqueueTask]
  split <;> rfl

theorem syncErrored_enqueueTasks (autoRestart : Bool) (tasks : List Task) :
    ∀ fetcher : Fetcher Task Partial Result,
      (tasks.foldl (enqueueTask autoRestart) fetcher).syncErrored = fetcher.syncErrored := by
  induction tasks with
  | nil => exact fun fetcher => rfl
  | cons task tasks ih =>
    intro fetcher
    rw [List.foldl_cons, ih, syncErrored_enqueueTask]

theorem syncErrored_pick (maxQueue : Nat) (surroundings : Surroundings) :
    (fetcher.pick maxQueue surroundings).syncErrored = fetcher.syncErrored := by
  simp only [pick]
  split
  · split <;> rfl
  · split_ifs <;> rfl

end Errors

end EthereumJS.Client.Fetcher
