import EthereumJS.Client.AccountFetcher
import EthereumJS.Client.FetcherQueue

/-! # Where the accounts of a range are

Each account is stored, held by a job or still to be fetched, and tasks and jobs keep it so.
-/

namespace EthereumJS.Client

/-- What a verification against the root of the trie `T` says is so. -/
structure Sound (T : Nat → Option Bytes)
    (verifyMerkleRangeProof : AccountFetcher.RangeVerifier) : Prop where
  key_lt : ∀ key value, T key = some value → key < 2 ^ 256
  range : ∀ origin last keys values proof more,
    verifyMerkleRangeProof origin (some last) keys values proof = .ok more →
    origin ≤ last ∧ (∀ entry ∈ keys.zip values, T entry.1 = some entry.2) ∧
    (∀ key value, T key = some value → origin ≤ key → key ≤ last →
      (key, value) ∈ keys.zip values) ∧
    (more = true ↔ ∃ key value, last < key ∧ T key = some value)
  zeroElement : ∀ origin proof,
    verifyMerkleRangeProof origin none [] [] proof = .ok false → ∀ key, origin ≤ key → T key = none

variable (H : HashKeysFunction) (T : Nat → Option Bytes)

namespace AccountJob

/-- What the job has received. -/
def items (job : AccountJob) : List ResultItem :=
  match job.state with
  | .processed => job.result.getD []
  | _ => job.partialResult.getD []

def Has (job : AccountJob) (key : Nat) (value : Bytes) : Prop :=
  job.task.first ≤ key ∧ ∃ body, .account ⟨key, body⟩ ∈ job.items ∧ accountBodyToRLP H body = value

/-- The job has the hash still to request. -/
def Asks (job : AccountJob) (key : Nat) : Prop :=
  job.state ≠ .processed ∧ ∃ origin, job.getOrigin = .ok origin ∧ origin ≤ key ∧ key ≤ job.getLimit

/-- A job as the answers of peers make it. -/
structure Fits (job : AccountJob) : Prop where
  values : ∀ data, .account data ∈ job.items → T data.hash = some (accountBodyToRLP H data.body)
  partialEnds : job.state ≠ .processed → ∀ result, job.partialResult = some result →
    ∃ head last, result.head? = some (.account head) ∧ result.getLast? = some (.account last) ∧
      job.task.first ≤ last.hash
  marker : job.state = .processed → ∀ item, job.items.head? = some item → item.hash = none →
    job.items = [item]
  final : job.state = .processed → job.items.head? = some .final →
    ∀ key, job.task.first ≤ key → T key = none

theorem items_of_ne {job : AccountJob} (h : job.state ≠ .processed) :
    job.items = job.partialResult.getD [] := by
  unfold items
  split
  · contradiction
  · rfl

section Restate

variable {H T} {job : AccountJob} {state : JobState}

/-- An open job is the same in each of the states of an open job. -/
theorem items_restate (hjob : job.state ≠ .processed) (hstate : state ≠ .processed) :
    items { job with state := state } = items job := by
  rw [items_of_ne hjob]
  exact items_of_ne hstate

theorem Fits.restate (h : Fits H T job) (hjob : job.state ≠ .processed)
    (hstate : state ≠ .processed) : Fits H T { job with state := state } where
  values := by
    rw [items_restate hjob hstate]
    exact h.values
  partialEnds _ := h.partialEnds hjob
  marker heq := absurd heq hstate
  final heq := absurd heq hstate

theorem Has.restate {key : Nat} {value : Bytes} (h : Has H job key value)
    (hjob : job.state ≠ .processed) (hstate : state ≠ .processed) :
    Has H { job with state := state } key value := by
  rw [Has, items_restate hjob hstate]
  exact h

theorem Asks.restate {key : Nat} (h : Asks job key) (hstate : state ≠ .processed) :
    Asks { job with state := state } key := ⟨hstate, h.2⟩

end Restate

end AccountJob

namespace AccountFetcher

/-- The entry is stored or a job has it. -/
def Kept (fetcher : AccountFetcher) (key : Nat) (value : Bytes) : Prop :=
  fetcher.accountTrie key = some value ∨ ∃ job ∈ fetcher.allJobs, AccountJob.Has H job key value

/-- The fetcher with the job in the place of the one with its index. -/
def withJob (fetcher : AccountFetcher) (job : AccountJob) : AccountFetcher :=
  { fetcher with toFetcher := fetcher.setJob job }

/-- All entries of the range are stored once the final range is. -/
def DoneStored (T : Nat → Option Bytes) (first count : Nat) (store : AccountStore) : Prop :=
  store.done = true → ∀ key value, T key = some value → first ≤ key → key < first + count →
    store.accountTrie key = some value

variable (config : AccountFetcherConfig) (first count : Nat)

/-- What holds of a fetcher whose writer is not destroyed, after answers over the `spans`. -/
structure Tracked (fetcher : AccountFetcher) (spans : List (Nat × Nat)) : Prop where
  orderly : fetcher.Orderly
  ascending : (fetcher.allJobs.map (·.task.first)).Pairwise (· ≤ ·)
  before : ∀ n ∈ fetcher.allJobs.map (·.task.first), n ≤ fetcher.first
  range : fetcher.first + fetcher.count = first + count
  fits : ∀ job ∈ fetcher.allJobs, AccountJob.Fits H T job
  spans : ∀ span ∈ spans, ∀ key value, T key = some value → span.1 ≤ key → key ≤ span.2 →
    fetcher.Kept H key value
  covered : ∀ key value, T key = some value → first ≤ key → key < first + count →
    fetcher.Kept H key value ∨ (∃ job ∈ fetcher.allJobs, AccountJob.Asks job key) ∨
      fetcher.first ≤ key
  stopped : fetcher.running = false → fetcher.allJobs = [] ∧
    (fetcher.count = 0 ∨ config.maxFetcherRequests = 0 ∨ config.maxFetcherJobs = 0)
  done : DoneStored T first count fetcher.toAccountStore

section Jobs

variable {H T config first count} {fetcher : AccountFetcher} {spans : List (Nat × Nat)}

theorem Tracked.running (h : Tracked H T config first count fetcher spans) {job : AccountJob}
    (hjob : job ∈ fetcher.jobs) : fetcher.running = true := by
  cases hrunning : fetcher.running with
  | true => rfl
  | false =>
    have hmem := Fetcher.mem_allJobs hjob
    rw [(h.stopped hrunning).1] at hmem
    cases hmem

/-- The queue may hold the same jobs in another way. -/
theorem Tracked.same_jobs (h : Tracked H T config first count fetcher spans)
    {queue : Fetcher AccountTask (List ResultItem) (List ResultItem)} (horderly : queue.Orderly)
    (hall : queue.allJobs = fetcher.allJobs) (hrunning : queue.running = fetcher.running) :
    Tracked H T config first count { fetcher with toFetcher := queue } spans where
  orderly := horderly
  ascending := hall ▸ h.ascending
  before := hall ▸ h.before
  range := h.range
  fits := hall ▸ h.fits
  spans := by
    simp only [Kept, hall]
    exact h.spans
  covered := by
    simp only [Kept, hall]
    exact h.covered
  stopped := by
    rw [hall, hrunning]
    exact h.stopped
  done := h.done

/-- A job takes the place of one that has less and asks for no more than is kept. -/
theorem Tracked.setJob (h : Tracked H T config first count fetcher spans) {old new : AccountJob}
    (hold : old ∈ fetcher.jobs) (hindex : new.index = old.index) (htask : new.task = old.task)
    (hfits : AccountJob.Fits H T new)
    (hhas : ∀ key value, AccountJob.Has H old key value → AccountJob.Has H new key value)
    (hasks : ∀ key value, T key = some value → AccountJob.Asks old key →
      fetcher.Kept H key value ∨ AccountJob.Has H new key value ∨ AccountJob.Asks new key) :
    Tracked H T config first count (fetcher.withJob new) spans := by
  have hrunning := h.running hold
  have hnew : new ∈ (fetcher.setJob new).allJobs :=
    Fetcher.mem_allJobs (Fetcher.mem_setJob hold hindex)
  have hfirst : (fetcher.setJob new).allJobs.map (·.task.first) =
      fetcher.allJobs.map (·.task.first) :=
    h.orderly.map_setJob hold hindex (by rw [htask])
  have hkept : ∀ key value, fetcher.Kept H key value →
      (fetcher.withJob new).Kept H key value := by
    rintro key value (hstored | ⟨job, hjob, hhave⟩)
    · exact .inl hstored
    · obtain rfl | hjob := h.orderly.mem_allJobs_setJob hold hindex hjob
      · exact .inr ⟨new, hnew, hhas key value hhave⟩
      · exact .inr ⟨job, hjob, hhave⟩
  refine
    { orderly := h.orderly.setJob hold hindex (.inr (.inr hrunning)), ascending := ?_
      before := ?_, range := h.range, fits := ?_, spans := ?_, covered := ?_, stopped := ?_
      done := h.done }
  · rw [withJob, hfirst]
    exact h.ascending
  · rw [withJob, hfirst]
    exact h.before
  · intro job hjob
    obtain rfl | hjob := h.orderly.of_mem_setJob hold hindex hjob
    · exact hfits
    · exact h.fits job hjob
  · intro span hspan key value hT hle hge
    exact hkept key value (h.spans span hspan key value hT hle hge)
  · intro key value hT hle hlt
    obtain hk | ⟨job, hjob, hjobAsks⟩ | hremaining := h.covered key value hT hle hlt
    · exact .inl (hkept key value hk)
    · obtain rfl | hjob := h.orderly.mem_allJobs_setJob hold hindex hjob
      · obtain hk | hhave | hnewAsks := hasks key value hT hjobAsks
        · exact .inl (hkept key value hk)
        · exact .inl (.inr ⟨new, hnew, hhave⟩)
        · exact .inr (.inl ⟨new, hnew, hnewAsks⟩)
      · exact .inr (.inl ⟨job, hjob, hjobAsks⟩)
    · exact .inr (.inr hremaining)
  · intro hstopped
    rw [show fetcher.running = false from hstopped] at hrunning
    cases hrunning

theorem Tracked.restate (h : Tracked H T config first count fetcher spans) {job : AccountJob}
    (hmem : job ∈ fetcher.jobs) (hjob : job.state ≠ .processed) {state : JobState}
    (hstate : state ≠ .processed) :
    Tracked H T config first count (fetcher.withJob { job with state := state }) spans := by
  refine h.setJob hmem rfl rfl ?_ ?_ ?_
  · exact (h.fits job (Fetcher.mem_allJobs hmem)).restate hjob hstate
  · intro key value hhave
    exact hhave.restate hjob hstate
  · intro key value _ hasks
    exact .inr (.inr (hasks.restate hstate))

theorem Tracked.requeue (h : Tracked H T config first count fetcher spans) {job : AccountJob}
    (hmem : job ∈ fetcher.jobs) (hjob : job.state ≠ .processed) :
    Tracked H T config first count { fetcher with toFetcher := fetcher.enqueue job } spans := by
  rw [Fetcher.enqueue_eq (h.running hmem)]
  exact h.restate hmem hjob (by simp)

theorem Tracked.dequeue (h : Tracked H T config first count fetcher spans) (room : Nat) :
    Tracked H T config first count { fetcher with toFetcher := fetcher.dequeue room } spans := by
  obtain ⟨horderly, hall, hrunning⟩ := h.orderly.dequeue room
  exact h.same_jobs horderly hall hrunning

end Jobs

section Tasks

variable {H T config first count} {fetcher : AccountFetcher} {spans : List (Nat × Nat)}

/-- The next part of the remaining range becomes a task. -/
def splitTask (size : Nat) (fetcher : AccountFetcher) : AccountFetcher :=
  { fetcher with
    toFetcher := fetcher.enqueueTask false { first := fetcher.first, count := size }
    first := fetcher.first + size, count := fetcher.count - size }

theorem Tracked.splitTask (h : Tracked H T config first count fetcher spans)
    (hend : first + count ≤ 2 ^ 256) (hrunning : fetcher.running = true) {size : Nat}
    (hsize : size ≤ fetcher.count) :
    Tracked H T config first count (fetcher.splitTask size) spans ∧
      (fetcher.splitTask size).running = true := by
  have hrange := h.range
  obtain ⟨horderly, hall, hruns⟩ :=
    h.orderly.enqueueTask (.inl hrunning) { first := fetcher.first, count := size }
  refine ⟨?_, hruns hrunning⟩
  have hkept : ∀ key value, fetcher.Kept H key value →
      (fetcher.splitTask size).Kept H key value := by
    rintro key value (hstored | ⟨other, hother, hhas⟩)
    · exact .inl hstored
    · refine .inr ⟨other, ?_, hhas⟩
      rw [AccountFetcher.splitTask, hall]
      exact List.mem_append_left _ hother
  refine
    { orderly := horderly, ascending := ?_, before := ?_, range := ?_, fits := ?_, spans := ?_
      covered := ?_, stopped := ?_, done := h.done }
  · rw [AccountFetcher.splitTask, hall, List.map_append, List.pairwise_append]
    refine ⟨h.ascending, by simp, ?_⟩
    intro n hn m hm
    obtain rfl : m = fetcher.first := by simpa [Fetcher.newJob] using hm
    exact h.before n hn
  · rw [AccountFetcher.splitTask, hall]
    intro n hn
    rw [List.map_append, List.mem_append] at hn
    show n ≤ fetcher.first + size
    obtain hn | hn := hn
    · exact (h.before n hn).trans (Nat.le_add_right _ _)
    · obtain rfl : n = fetcher.first := by simpa [Fetcher.newJob] using hn
      exact Nat.le_add_right _ _
  · show fetcher.first + size + (fetcher.count - size) = first + count
    omega
  · rw [AccountFetcher.splitTask, hall]
    intro other hother
    obtain hother | hother := List.mem_append.mp hother
    · exact h.fits other hother
    · obtain rfl := List.mem_singleton.mp hother
      constructor <;> simp [AccountJob.items, Fetcher.newJob]
  · intro span hspan key value hT hle hge
    exact hkept key value (h.spans span hspan key value hT hle hge)
  · intro key value hT hge hlt
    obtain hk | ⟨other, hother, hasks⟩ | hremaining := h.covered key value hT hge hlt
    · exact .inl (hkept key value hk)
    · refine .inr (.inl ⟨other, ?_, hasks⟩)
      rw [AccountFetcher.splitTask, hall]
      exact List.mem_append_left _ hother
    · by_cases htask : key < fetcher.first + size
      · refine .inr (.inl ⟨fetcher.newJob { first := fetcher.first, count := size }, ?_,
          by simp [Fetcher.newJob], fetcher.first, ?_, hremaining, ?_⟩)
        · rw [AccountFetcher.splitTask, hall]
          exact List.mem_append_right _ (List.mem_singleton.mpr rfl)
        · simp only [AccountJob.getOrigin, AccountJob.setLengthLeft, Fetcher.newJob]
          exact if_pos (by omega)
        · simp only [AccountJob.getLimit, Fetcher.newJob]
          rw [Nat.mod_eq_of_lt (by omega)]
          omega
      · exact .inr (.inr (not_lt.mp htask))
  · intro hstopped
    rw [AccountFetcher.splitTask, hruns hrunning] at hstopped
    cases hstopped

/-- The full tasks of the loop, as they are enqueued. -/
theorem Tracked.fullTasks (hend : first + count ≤ 2 ^ 256) (max : Nat) :
    ∀ (jobs : Nat) {fetcher : AccountFetcher}, Tracked H T config first count fetcher spans →
      fetcher.running = true → ∀ {tasks first' count'},
      fullTasks max jobs fetcher.first fetcher.count = (tasks, first', count') →
      Tracked H T config first count
        { fetcher.enqueueTasks tasks with first := first', count := count' } spans ∧
      (fetcher.enqueueTasks tasks).running = true := by
  intro jobs
  induction jobs with
  | zero =>
    intro fetcher h hrunning tasks first' count' htasks
    simp only [AccountFetcher.fullTasks, Prod.mk.injEq] at htasks
    obtain ⟨rfl, rfl, rfl⟩ := htasks
    exact ⟨h, hrunning⟩
  | succ jobs ih =>
    intro fetcher h hrunning tasks first' count' htasks
    simp only [AccountFetcher.fullTasks] at htasks
    split at htasks
    · next hmax =>
      simp only [Prod.mk.injEq] at htasks
      obtain ⟨rfl, rfl, rfl⟩ := htasks
      obtain ⟨hsplit, hruns⟩ := h.splitTask hend hrunning hmax
      exact ih hsplit hruns rfl
    · simp only [Prod.mk.injEq] at htasks
      obtain ⟨rfl, rfl, rfl⟩ := htasks
      exact ⟨h, hrunning⟩

theorem Tracked.tasks (hend : first + count ≤ 2 ^ 256)
    (h : Tracked H T config first count fetcher spans) (hrunning : fetcher.running = true) :
    Tracked H T config first count
      ((fetcher.tasks config).2.enqueueTasks (fetcher.tasks config).1) spans := by
  obtain ⟨htracked, hruns⟩ :=
    h.fullTasks hend config.maxAccountRange config.maxFetcherJobs hrunning rfl
  simp only [AccountFetcher.tasks]
  split
  · have hlast := (htracked.splitTask hend hruns le_rfl).1
    simp only [AccountFetcher.splitTask, Nat.sub_self] at hlast
    simp only [enqueueTasks, List.foldl_append, List.foldl_cons, List.foldl_nil]
    exact hlast
  · exact htracked

/-- A fetcher that has stopped makes no tasks. -/
theorem Tracked.nextTasks_eq (h : Tracked H T config first count fetcher spans)
    (hrunning : fetcher.running = false) : fetcher.nextTasks config = fetcher := by
  simp only [AccountFetcher.nextTasks]
  split
  · next hmakes =>
    simp only [Bool.and_eq_true, decide_eq_true_eq] at hmakes
    obtain ⟨-, hnone | hnone | hnone⟩ := h.stopped hrunning
    · omega
    · omega
    · simp [AccountFetcher.tasks, AccountFetcher.fullTasks, enqueueTasks, hnone]
  · rfl

theorem Tracked.nextTasks (hend : first + count ≤ 2 ^ 256)
    (h : Tracked H T config first count fetcher spans) :
    Tracked H T config first count (fetcher.nextTasks config) spans := by
  cases hrunning : fetcher.running with
  | true =>
    simp only [AccountFetcher.nextTasks]
    split
    · exact h.tasks hend hrunning
    · exact h
  | false =>
    rw [h.nextTasks_eq hrunning]
    exact h

theorem tasks_ne_nil (hcount : 0 < fetcher.count) (hjobs : 0 < config.maxFetcherJobs) :
    (fetcher.tasks config).1 ≠ [] := by
  obtain ⟨jobs, hjobs⟩ := Nat.exists_eq_succ_of_ne_zero hjobs.ne'
  simp only [AccountFetcher.tasks, hjobs, fullTasks]
  by_cases hmax : fetcher.count ≥ config.maxAccountRange
  · rw [if_pos hmax]
    dsimp only
    split_ifs <;> simp
  · rw [if_neg hmax]
    simp [hcount]

/-- A fetcher that has no job after `nextTasks` has no more tasks to make. -/
theorem Tracked.exhausted (h : Tracked H T config first count fetcher spans)
    (hrunning : fetcher.running = true) (hjobs : (fetcher.nextTasks config).allJobs = []) :
    (fetcher.nextTasks config).count = 0 ∨ config.maxFetcherRequests = 0 ∨
      config.maxFetcherJobs = 0 := by
  by_contra hmore
  simp only [not_or] at hmore
  obtain ⟨hcount, hrequests, hmaxJobs⟩ := hmore
  simp only [AccountFetcher.nextTasks] at hjobs hcount
  split at hjobs
  · next hmakes =>
    simp only [Bool.and_eq_true, decide_eq_true_eq] at hmakes
    have hne : (fetcher.tasks config).1 ≠ [] := tasks_ne_nil hmakes.1.2 (by omega)
    have hqueue : (fetcher.tasks config).2.toFetcher = fetcher.toFetcher := by
      simp only [AccountFetcher.tasks]
      split <;> rfl
    have hgrows := h.orderly.enqueueTasks hrunning (fetcher.tasks config).1
    simp only [enqueueTasks, hqueue] at hjobs
    rw [hjobs] at hgrows
    exact hne (List.append_eq_nil_iff.mp hgrows.symm).2
  · next hmakes =>
    rw [if_neg hmakes] at hcount
    have hwriting := (List.append_eq_nil_iff.mp hjobs).1
    have hnone := (List.append_eq_nil_iff.mp hjobs).2
    have hprocessed := h.orderly.processed
    rw [hwriting, List.length_nil] at hprocessed
    apply hmakes
    simp [Fetcher.peek, hnone, hprocessed, Nat.pos_of_ne_zero hcount,
      Nat.pos_of_ne_zero hrequests]

theorem Tracked.stop (h : Tracked H T config first count fetcher spans)
    (hjobs : fetcher.allJobs = []) (hnone : fetcher.count = 0 ∨ config.maxFetcherRequests = 0 ∨
      config.maxFetcherJobs = 0) :
    Tracked H T config first count
      { fetcher with toFetcher := { fetcher.toFetcher with running := false } } spans :=
  { h with
    orderly :=
      { h.orderly with
        stopped := fun _ job hjob => by
          have hmem : job ∈ fetcher.allJobs := Fetcher.mem_allJobs hjob
          rw [hjobs] at hmem
          cases hmem }
    stopped := fun _ => ⟨hjobs, hnone⟩ }

theorem Tracked.next (hend : first + count ≤ 2 ^ 256)
    (h : Tracked H T config first count fetcher spans) (surroundings : Surroundings) :
    Tracked H T config first count (fetcher.next config surroundings) spans := by
  have hnext := h.nextTasks hend
  simp only [AccountFetcher.next]
  obtain hpick | ⟨hjobs, hwriting, hpick⟩ | ⟨job, hmem, hidle, hpick⟩ :=
    hnext.orderly.pick_cases config.maxQueue surroundings
  · rw [hpick]
    exact hnext
  · rw [hpick]
    have hall : (fetcher.nextTasks config).allJobs = [] := by
      rw [Fetcher.allJobs, hjobs, hwriting, List.append_nil]
    refine hnext.stop hall ?_
    cases hrunning : fetcher.running with
    | true => exact h.exhausted hrunning hall
    | false =>
      rw [h.nextTasks_eq hrunning]
      exact (h.stopped hrunning).2
  · rw [hpick]
    exact hnext.restate hmem (by simp [hidle]) (by simp)

end Tasks

end AccountFetcher

end EthereumJS.Client
