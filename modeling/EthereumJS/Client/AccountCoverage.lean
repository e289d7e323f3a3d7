import EthereumJS.Client.AccountAnswers

/-! # No account is lost

A fetcher loses no account of a trie as long as it skips no job but those that one accepted answer
covers.
-/

namespace EthereumJS.Client.AccountFetcher

variable (H : HashKeysFunction) (T : Nat → Option Bytes) (config : AccountFetcherConfig)
  (first count : Nat)

section Writes

variable {H T} {config : AccountFetcherConfig} {first count : Nat} {fetcher : AccountFetcher}
  {spans : List (Nat × Nat)}

theorem storeAccounts_spec (result : List ResultItem) :
    ∀ {sink sink' : AccountStore} {stored : Bool},
      (∀ data, .account data ∈ result → T data.hash = some (accountBodyToRLP H data.body)) →
      AccountStore.storeAccounts H result sink = (sink', stored) →
      (∀ key value, T key = some value → sink.accountTrie key = some value →
        sink'.accountTrie key = some value) ∧
      (stored = true → ∀ data, .account data ∈ result →
        sink'.accountTrie data.hash = T data.hash) ∧ sink'.done = sink.done := by
  induction result with
  | nil =>
    intro sink sink' stored hvalues hstore
    obtain ⟨rfl, rfl⟩ := Prod.mk.inj hstore
    exact ⟨fun key value _ h => h, fun _ data hdata => absurd hdata (by simp), rfl⟩
  | cons item result ih =>
    intro sink sink' stored hvalues hstore
    cases item with
    | account data =>
      obtain ⟨hkeeps, hputs, hdone⟩ := ih
        (fun other hother => hvalues other (List.mem_cons_of_mem _ hother)) hstore
      have hdata := hvalues data (by simp)
      have hput : (sink.putAccount H data).accountTrie data.hash = T data.hash := by
        rw [hdata]
        exact Function.update_self ..
      refine ⟨fun key value hT hkey => hkeeps key value hT ?_, fun hstored other hother => ?_,
        hdone⟩
      · by_cases heq : key = data.hash
        · rw [heq, hput, ← heq, hT]
        · simp [AccountStore.putAccount, heq, hkey]
      · obtain heq | hother := List.mem_cons.mp hother
        · cases heq
          rw [hdata]
          exact hkeeps _ _ hdata (by rw [hput, hdata])
        · exact hputs hstored other hother
    | skipped | final =>
      obtain ⟨rfl, rfl⟩ := Prod.mk.inj hstore
      exact ⟨fun key value _ h => h, fun h => absurd h (by simp), rfl⟩

/-- What a store of the items changes; `stored` says whether it ended. -/
structure Stored (T : Nat → Option Bytes) (items : List ResultItem) (before after : AccountStore)
    (stored : Bool) : Prop where
  keeps : ∀ key value, T key = some value → before.accountTrie key = some value →
    after.accountTrie key = some value
  puts : stored = true → ∀ data, .account data ∈ items →
    after.accountTrie data.hash = T data.hash
  done : after.done = true → before.done = true ∨ stored = true ∧ items = [.final]

theorem store_stored {job : AccountJob} (hfits : AccountJob.Fits H T job)
    (hstate : job.state = .processed) {sink sink' : AccountStore} {stored : Bool}
    (hstore : AccountStore.store H (job.result.getD []) sink = (sink', stored)) :
    Stored T job.items sink sink' stored := by
  have hitems : job.items = job.result.getD [] := by simp [AccountJob.items, hstate]
  have hmarker := hfits.marker hstate
  simp only [AccountStore.store] at hstore
  split at hstore
  · next hhead =>
    obtain ⟨rfl, rfl⟩ := Prod.mk.inj hstore
    rw [hmarker .skipped (hitems ▸ hhead) rfl]
    constructor <;> simp
  · next hhead =>
    obtain ⟨rfl, rfl⟩ := Prod.mk.inj hstore
    rw [hmarker .final (hitems ▸ hhead) rfl]
    constructor <;> simp
  · cases haccounts : AccountStore.storeAccounts H (job.result.getD []) sink with
    | mk after ended =>
      obtain ⟨hkeeps, hputs, hdone⟩ := storeAccounts_spec _ (hitems ▸ hfits.values) haccounts
      rw [← hitems] at hputs
      rw [haccounts] at hstore
      cases ended
      all_goals
        obtain ⟨rfl, rfl⟩ := Prod.mk.inj hstore
        exact { keeps := hkeeps, puts := hputs, done := fun h => .inl (hdone ▸ h) }

/-- A write of the first job moves what it has to the trie. -/
theorem Tracked.store (h : Tracked H T config first count fetcher spans) {job : AccountJob}
    {rest : List AccountJob} (hwriting : fetcher.writing = job :: rest) {sink : AccountStore}
    (hstored : Stored T job.items fetcher.toAccountStore sink true) :
    Tracked H T config first count
      { fetcher with toFetcher := fetcher.wrote rest 1, toAccountStore := sink } spans := by
  have hsplit : fetcher.writing = [job] ++ rest := hwriting
  obtain ⟨horderly, hall⟩ := h.orderly.wrote hsplit
  rw [List.length_singleton, List.singleton_append] at hall
  have hfits := h.fits job (by simp [hall])
  have hstate := h.orderly.written job (by simp [hwriting])
  have hascending := h.ascending
  rw [hall, List.map_cons, List.pairwise_cons] at hascending
  have hkept : ∀ key value, T key = some value → fetcher.Kept H key value →
      Kept H { fetcher with toFetcher := fetcher.wrote rest 1, toAccountStore := sink } key
        value := by
    rintro key value hT (hkey | ⟨other, hother, hhas⟩)
    · exact .inl (hstored.keeps key value hT hkey)
    · rw [hall] at hother
      obtain rfl | hother := List.mem_cons.mp hother
      · obtain ⟨-, body, hbody, -⟩ := hhas
        exact .inl ((hstored.puts rfl _ hbody).trans hT)
      · exact .inr ⟨other, hother, hhas⟩
  have hcovered : ∀ key value, T key = some value → first ≤ key → key < first + count →
      Kept H { fetcher with toFetcher := fetcher.wrote rest 1, toAccountStore := sink } key
          value ∨
        (∃ other ∈ (fetcher.wrote rest 1).allJobs, AccountJob.Asks other key) ∨
          fetcher.first ≤ key := by
    intro key value hT hge hlt
    obtain hk | ⟨other, hother, hasks⟩ | hremaining := h.covered key value hT hge hlt
    · exact .inl (hkept key value hT hk)
    · rw [hall] at hother
      obtain rfl | hother := List.mem_cons.mp hother
      · exact absurd hstate hasks.1
      · exact .inr (.inl ⟨other, hother, hasks⟩)
    · exact .inr (.inr hremaining)
  refine
    { orderly := horderly, ascending := hascending.2, before := ?_, range := h.range, fits := ?_
      spans := ?_, covered := hcovered, stopped := ?_, done := ?_ }
  · intro n hn
    exact h.before n (by rw [hall]; exact List.mem_cons_of_mem _ hn)
  · intro other hother
    exact h.fits other (by rw [hall]; exact List.mem_cons_of_mem _ hother)
  · intro span hspan key value hT hge hle
    exact hkept key value hT (h.spans span hspan key value hT hge hle)
  · intro hrunning
    have hnone := (h.stopped hrunning).1
    rw [hall] at hnone
    cases hnone
  · intro hdone key value hT hge hlt
    obtain hdone | ⟨-, hfinal⟩ := hstored.done hdone
    · exact hstored.keeps key value hT (h.done hdone key value hT hge hlt)
    · -- nothing is left from the first hash of this job on, and the jobs after it begin later
      have hbelow : key < job.task.first := by
        by_contra hle
        rw [hfits.final hstate (by rw [hfinal]; rfl) key (not_lt.mp hle)] at hT
        cases hT
      have hlater : ∀ other ∈ (fetcher.wrote rest 1).allJobs,
          job.task.first ≤ other.task.first := fun other hother =>
        hascending.1 _ (List.mem_map_of_mem hother)
      obtain (hkey | ⟨other, hother, hle, -⟩) | ⟨other, hother, hne, origin, horigin, hle, -⟩ |
        hremaining := hcovered key value hT hge hlt
      · exact hkey
      · have hfirst := hlater other hother
        omega
      · have hfirst := hlater other hother
        have horigin_ge := first_le_origin
          (h.fits other (by rw [hall]; exact List.mem_cons_of_mem _ hother)) hne horigin
        omega
      · have hfirst := h.before job.task.first (by simp [hall])
        omega

/-- The batch of a write, one job after the other. -/
theorem Tracked.storeJobs (batch rest : List AccountJob) :
    ∀ {fetcher : AccountFetcher} {sink : AccountStore},
      Tracked H T config first count fetcher spans → fetcher.writing = batch ++ rest →
      Fetcher.storeJobs (AccountStore.store H) [] batch fetcher.toAccountStore = (sink, true) →
      Tracked H T config first count
        { fetcher with toFetcher := fetcher.wrote rest batch.length, toAccountStore := sink }
        spans := by
  induction batch with
  | nil =>
    intro fetcher sink h hwriting hstore
    obtain rfl := (Prod.mk.inj hstore).1
    obtain rfl := hwriting
    exact h
  | cons job batch ih =>
    intro fetcher sink h hwriting hstore
    simp only [Fetcher.storeJobs] at hstore
    split at hstore
    · cases hstore
    · next after hafter =>
      have hmem : job ∈ fetcher.writing := by simp [hwriting]
      have hstored := store_stored (h.fits job (List.mem_append_left _ hmem))
        (h.orderly.written job hmem) hafter
      have hnext := ih (h.store hwriting hstored) rfl hstore
      simp only [Fetcher.wrote, Nat.add_assoc, Nat.add_comm 1] at hnext
      exact hnext

theorem Tracked.storeJobs_failed (batch rest : List AccountJob) :
    ∀ {fetcher : AccountFetcher} {sink : AccountStore},
      Tracked H T config first count fetcher spans → fetcher.writing = batch ++ rest →
      Fetcher.storeJobs (AccountStore.store H) [] batch fetcher.toAccountStore = (sink, false) →
      DoneStored T first count sink := by
  induction batch with
  | nil =>
    intro fetcher sink h hwriting hstore
    cases hstore
  | cons job batch ih =>
    intro fetcher sink h hwriting hstore
    have hmem : job ∈ fetcher.writing := by simp [hwriting]
    have hfits := h.fits job (List.mem_append_left _ hmem)
    simp only [Fetcher.storeJobs] at hstore
    split at hstore
    · next after hafter =>
      obtain rfl := (Prod.mk.inj hstore).1
      have hstored := store_stored hfits (h.orderly.written job hmem) hafter
      intro hdone key value hT hge hlt
      obtain hdone | ⟨hfalse, -⟩ := hstored.done hdone
      · exact hstored.keeps key value hT (h.done hdone key value hT hge hlt)
      · cases hfalse
    · next after hafter =>
      have hstored := store_stored hfits (h.orderly.written job hmem) hafter
      exact ih (h.store hwriting hstored) rfl hstore

theorem Tracked.write (h : Tracked H T config first count fetcher spans) (jobs : Nat) :
    DoneStored T first count (fetcher.write H jobs).toAccountStore ∧
    ((fetcher.write H jobs).syncErrored = false →
      Tracked H T config first count (fetcher.write H jobs) spans) := by
  obtain ⟨batch, rest, hwriting, ⟨sink, hstore, hwrite⟩ | ⟨sink, hstore, hwrite⟩⟩ :=
    h.orderly.write_cases (AccountStore.store H) [] jobs fetcher.toAccountStore
  · have htracked := h.storeJobs batch rest hwriting hstore
    simp only [AccountFetcher.write, hwrite]
    exact ⟨htracked.done, fun _ => htracked⟩
  · simp only [AccountFetcher.write, hwrite]
    refine ⟨h.storeJobs_failed batch rest hwriting hstore, fun hhealthy => ?_⟩
    cases hhealthy

end Writes

section Runs

variable (verifyMerkleRangeProof : RangeVerifier)

/-- The hashes that the answer of an event covers, if it is accepted. -/
def answered (fetcher : AccountFetcher) : Event → List (Nat × Nat)
  | .answer index rangeResult _ =>
    match fetcher.findJob index .requested with
    | some job =>
      match AccountJob.getOrigin job, request H verifyMerkleRangeProof job rangeResult with
      | .ok origin, .ok (some response) => spanOf origin response
      | _, _ => []
    | none => []
  | _ => []

/-- The job lies in what one accepted answer covers, if it would be skipped. -/
def SkipCovered (fetcher : AccountFetcher) (spans : List (Nat × Nat)) (job : AccountJob) : Prop :=
  ∀ origin ∈ (AccountJob.getOrigin job).toOption, fetcher.skips job = true →
    ∃ span ∈ spans, span.1 ≤ origin ∧ AccountJob.getLimit job ≤ span.2

instance (fetcher : AccountFetcher) (spans : List (Nat × Nat)) (job : AccountJob) :
    Decidable (fetcher.SkipCovered spans job) :=
  inferInstanceAs (Decidable (∀ origin ∈ (AccountJob.getOrigin job).toOption, _ → _))

def Meets (fetcher : AccountFetcher) (spans : List (Nat × Nat)) : Event → Prop
  | .request index _ => ∀ job ∈ fetcher.findJob index .active, fetcher.SkipCovered spans job
  | _ => True

instance (fetcher : AccountFetcher) (spans : List (Nat × Nat)) (event : Event) :
    Decidable (fetcher.Meets spans event) :=
  match event with
  | .request index _ =>
    inferInstanceAs
      (Decidable (∀ job ∈ fetcher.findJob index .active, fetcher.SkipCovered spans job))
  | .next _ | .read _ | .answer _ _ _ | .reject _ _ | .expire _ | .write _ => isTrue trivial

/-- A fetcher with what the accepted answers cover, after an event. -/
def traced (state : AccountFetcher × List (Nat × Nat)) (event : Event) :
    AccountFetcher × List (Nat × Nat) :=
  (state.1.step config H verifyMerkleRangeProof event,
    state.1.answered H verifyMerkleRangeProof event ++ state.2)

def MeetsRun (state : AccountFetcher × List (Nat × Nat)) : List Event → Prop
  | [] => True
  | event :: events =>
    state.1.Meets state.2 event ∧
      MeetsRun (traced H config verifyMerkleRangeProof state event) events

instance decidableMeetsRun (state : AccountFetcher × List (Nat × Nat)) :
    (events : List Event) → Decidable (MeetsRun H config verifyMerkleRangeProof state events)
  | [] => inferInstanceAs (Decidable True)
  | event :: events =>
    have := decidableMeetsRun (traced H config verifyMerkleRangeProof state event) events
    inferInstanceAs (Decidable (_ ∧ _))

/-- What the accepted answers of a run cover. -/
def spansAfter (events : List Event) : List (Nat × Nat) :=
  (events.foldl (traced H config verifyMerkleRangeProof) (start config first count, [])).2

variable {H T config first count verifyMerkleRangeProof} {fetcher : AccountFetcher}
  {spans : List (Nat × Nat)}

theorem covers_skipped (h : Tracked H T config first count fetcher spans) {job : AccountJob}
    {origin : Nat} (horigin : AccountJob.getOrigin job = .ok origin) {span : Nat × Nat}
    (hspan : span ∈ spans) (hle : span.1 ≤ origin)
    (hlimit : AccountJob.getLimit job ≤ span.2) (key : Nat)
    (value : Bytes) (hT : T key = some value) (hasks : AccountJob.Asks job key) :
    fetcher.Kept H key value := by
  obtain ⟨-, origin', horigin', hge, hkey⟩ := hasks
  rw [horigin] at horigin'
  obtain rfl := Except.ok.inj horigin'
  exact h.spans span hspan key value hT (hle.trans hge) (hkey.trans hlimit)

/-- An event that meets the condition keeps track of all accounts, if it does not destroy the
writer. -/
theorem Tracked.step (hsound : Sound T verifyMerkleRangeProof) (hend : first + count ≤ 2 ^ 256)
    (h : Tracked H T config first count fetcher spans) (event : Event)
    (hmeets : fetcher.Meets spans event)
    (hhealthy : (fetcher.step config H verifyMerkleRangeProof event).syncErrored = false) :
    Tracked H T config first count (fetcher.step config H verifyMerkleRangeProof event)
      (fetcher.answered H verifyMerkleRangeProof event ++ spans) := by
  cases event with
  | next surroundings => exact h.next hend surroundings
  | read room => exact h.dequeue room
  | request index surroundings =>
    simp only [AccountFetcher.step, AccountFetcher.answered, List.nil_append]
    cases hfind : fetcher.findJob index .active with
    | none => exact h
    | some job =>
      obtain ⟨hmem, -, hstate⟩ := Fetcher.findJob_spec hfind
      have hopen : job.state ≠ .processed := by simp [hstate]
      simp only [beginRequest]
      cases horigin : AccountJob.getOrigin job with
      | error e => exact h.failure hend hmem hopen surroundings
      | ok origin =>
        dsimp only
        split
        · next hskips =>
          obtain ⟨span, hspan, hle, hlimit⟩ :=
            hmeets job hfind origin (by rw [horigin]; rfl) hskips
          exact h.skipped hend hmem hopen (covers_skipped h horigin hspan hle hlimit) surroundings
        · exact h.restate hmem hopen (by simp)
  | answer index rangeResult surroundings =>
    simp only [AccountFetcher.step, AccountFetcher.answered]
    cases hfind : fetcher.findJob index .requested with
    | none => exact h
    | some job =>
      obtain ⟨hmem, -, hstate⟩ := Fetcher.findJob_spec hfind
      have hopen : job.state ≠ .processed := by simp [hstate]
      dsimp only
      cases hrequest : request H verifyMerkleRangeProof job rangeResult with
      | error e =>
        cases AccountJob.getOrigin job <;> exact h.failure hend hmem hopen surroundings
      | ok result =>
        cases result with
        | none =>
          cases AccountJob.getOrigin job <;> exact (h.requeue hmem hopen).next hend surroundings
        | some response =>
          obtain ⟨origin, horigin, hanswer⟩ := request_answer hsound hrequest
          rw [horigin]
          exact h.answered hend hsound.key_lt hmem hopen horigin hanswer surroundings
  | reject index surroundings =>
    simp only [AccountFetcher.step, AccountFetcher.answered, List.nil_append]
    cases hfind : fetcher.openJob index with
    | none => exact h.next hend surroundings
    | some job =>
      obtain ⟨hmem, -, hopen⟩ := Fetcher.openJob_spec hfind
      exact h.failure hend hmem hopen surroundings
  | expire index =>
    simp only [AccountFetcher.step, AccountFetcher.answered, List.nil_append]
    cases hfind : fetcher.openJob index with
    | none => exact h
    | some job =>
      obtain ⟨hmem, -, hopen⟩ := Fetcher.openJob_spec hfind
      exact h.requeue hmem hopen
  | write jobs => exact (h.write jobs).2 hhealthy

/-- What a fetcher whose writer is destroyed does not change any more. -/
def outcome (fetcher : AccountFetcher) : AccountStore × Bool :=
  (fetcher.toAccountStore, fetcher.syncErrored)

theorem outcome_queue (queue : Fetcher AccountTask (List ResultItem) (List ResultItem))
    (h : queue.syncErrored = fetcher.syncErrored) :
    ({ fetcher with toFetcher := queue } : AccountFetcher).outcome = fetcher.outcome := by
  simp only [outcome, h]

theorem outcome_nextTasks : (fetcher.nextTasks config).outcome = fetcher.outcome := by
  simp only [nextTasks]
  split
  · refine (outcome_queue _ (Fetcher.syncErrored_enqueueTasks _ _ _)).trans ?_
    simp only [tasks]
    split <;> rfl
  · rfl

theorem outcome_next (surroundings : Surroundings) :
    (fetcher.next config surroundings).outcome = fetcher.outcome :=
  (outcome_queue _ (Fetcher.syncErrored_pick _ _)).trans outcome_nextTasks

theorem outcome_knowHighest (highestReceivedhash : Option Nat) :
    (fetcher.knowHighest highestReceivedhash).outcome = fetcher.outcome := by
  rw [outcome, knowHighest_queue, knowHighest_trie]
  rfl

theorem outcome_enqueue (job : AccountJob) :
    ({ fetcher with toFetcher := fetcher.enqueue job } : AccountFetcher).outcome =
      fetcher.outcome :=
  outcome_queue _ (Fetcher.syncErrored_enqueue job)

theorem outcome_settle (surroundings : Surroundings) (job : AccountJob)
    (result : Except FetchError (Option AccountDataResponse)) :
    (fetcher.settle config surroundings job result).outcome = fetcher.outcome := by
  cases result with
  | error e => exact (outcome_next surroundings).trans (outcome_enqueue job)
  | ok result =>
    simp only [settle, success]
    rw [outcome_next]
    cases result with
    | none => exact outcome_enqueue job
    | some response =>
      dsimp only
      split
      · exact outcome_enqueue job
      · have hprocess : (fetcher.process job response).1.outcome = fetcher.outcome := by
          simp only [process]
          split <;> exact outcome_knowHighest _
        split
        · exact (outcome_queue _ (Fetcher.syncErrored_complete _ _)).trans hprocess
        · exact (outcome_enqueue _).trans hprocess

theorem outcome_beginRequest (surroundings : Surroundings) (job : AccountJob) :
    (fetcher.beginRequest config surroundings job).outcome = fetcher.outcome := by
  simp only [beginRequest]
  split
  · exact outcome_settle ..
  · split
    · exact outcome_settle ..
    · rfl

/-- A fetcher whose writer is destroyed stores nothing more. -/
theorem outcome_step (event : Event) (hevent : (∀ jobs, event ≠ .write jobs) ∨
    fetcher.syncErrored = true) :
    (fetcher.step config H verifyMerkleRangeProof event).outcome = fetcher.outcome := by
  cases event with
  | next surroundings => exact outcome_next surroundings
  | read room => exact outcome_queue _ (Fetcher.syncErrored_dequeue room _)
  | request index surroundings =>
    simp only [step]
    split
    · exact outcome_beginRequest ..
    · rfl
  | answer index rangeResult surroundings =>
    simp only [step]
    split
    · exact outcome_settle ..
    · rfl
  | reject index surroundings =>
    simp only [step]
    split
    · exact (outcome_next surroundings).trans (outcome_enqueue _)
    · exact outcome_next surroundings
  | expire index =>
    simp only [step]
    split
    · exact outcome_enqueue _
    · rfl
  | write jobs =>
    obtain hevent | herrored := hevent
    · exact absurd rfl (hevent jobs)
    · simp only [step, write, Fetcher.write, herrored, if_true]

/-- A fetcher that is being created has everything to fetch. -/
theorem tracked_start (hend : first + count ≤ 2 ^ 256) :
    Tracked H T config first count (start config first count) [] := by
  have horderly : (create first count).fetch.Orderly := Fetcher.create_orderly.fetch
  refine Tracked.nextTasks hend ?_
  constructor
  case orderly => exact horderly
  case covered => exact fun key value _ hge _ => .inr (.inr hge)
  all_goals simp [create, AccountStore.empty, Fetcher.create, Fetcher.fetch, Fetcher.allJobs,
    DoneStored]

/-- What holds of the states of a run that meets the condition. -/
def Sane (H : HashKeysFunction) (T : Nat → Option Bytes) (config : AccountFetcherConfig)
    (first count : Nat) (state : AccountFetcher × List (Nat × Nat)) : Prop :=
  DoneStored T first count state.1.toAccountStore ∧
    (state.1.syncErrored = false → Tracked H T config first count state.1 state.2)

theorem sane_traced (hsound : Sound T verifyMerkleRangeProof) (hend : first + count ≤ 2 ^ 256)
    {state : AccountFetcher × List (Nat × Nat)} (h : Sane H T config first count state)
    (event : Event) (hmeets : state.1.Meets state.2 event) :
    Sane H T config first count (traced H config verifyMerkleRangeProof state event) := by
  obtain ⟨hdone, htracked⟩ := h
  cases herrored : state.1.syncErrored with
  | false =>
    refine ⟨?_, (htracked herrored).step hsound hend event hmeets⟩
    by_cases hwrite : ∃ jobs, event = .write jobs
    · obtain ⟨jobs, rfl⟩ := hwrite
      exact ((htracked herrored).write jobs).1
    · have houtcome : (state.1.step config H verifyMerkleRangeProof event).outcome =
          state.1.outcome := outcome_step event (.inl fun jobs heq => hwrite ⟨jobs, heq⟩)
      have hstore : (state.1.step config H verifyMerkleRangeProof event).toAccountStore =
          state.1.toAccountStore := congrArg Prod.fst houtcome
      rw [traced, hstore]
      exact hdone
  | true =>
    have houtcome : (state.1.step config H verifyMerkleRangeProof event).outcome =
        state.1.outcome := outcome_step event (.inr herrored)
    have hstore : (state.1.step config H verifyMerkleRangeProof event).toAccountStore =
        state.1.toAccountStore := congrArg Prod.fst houtcome
    have hsame : (state.1.step config H verifyMerkleRangeProof event).syncErrored =
        state.1.syncErrored := congrArg Prod.snd houtcome
    rw [Sane, traced, hstore]
    refine ⟨hdone, fun hhealthy => ?_⟩
    rw [hsame, herrored] at hhealthy
    cases hhealthy

theorem sane_run (hsound : Sound T verifyMerkleRangeProof) (hend : first + count ≤ 2 ^ 256)
    (events : List Event) :
    ∀ {state : AccountFetcher × List (Nat × Nat)}, Sane H T config first count state →
      MeetsRun H config verifyMerkleRangeProof state events →
      Sane H T config first count
        (events.foldl (traced H config verifyMerkleRangeProof) state) := by
  induction events with
  | nil => exact fun h _ => h
  | cons event events ih =>
    intro state h hmeets
    exact ih (sane_traced hsound hend h event hmeets.1) hmeets.2

theorem foldl_traced (events : List Event) :
    ∀ state : AccountFetcher × List (Nat × Nat),
      (events.foldl (traced H config verifyMerkleRangeProof) state).1 =
        events.foldl (step config H verifyMerkleRangeProof) state.1 := by
  induction events with
  | nil => exact fun state => rfl
  | cons event events ih => exact fun state => ih _

/-- In a run whose steps meet the condition no account of the range is lost: each is stored, held
by a job or still to be fetched; all are stored once the final empty range is; and of a job that
is skipped each account is stored or held. -/
theorem accounts_kept (hsound : Sound T verifyMerkleRangeProof) (hend : first + count ≤ 2 ^ 256)
    (events : List Event)
    (hmeets : MeetsRun H config verifyMerkleRangeProof (start config first count, []) events) :
    let fetcher := run config H verifyMerkleRangeProof first count events
    let spans := spansAfter H config first count verifyMerkleRangeProof events
    (fetcher.done = true → ∀ key value, T key = some value → first ≤ key →
      key < first + count → fetcher.accountTrie key = some value) ∧
    (fetcher.syncErrored = false → ∀ key value, T key = some value → first ≤ key →
      key < first + count →
        fetcher.Kept H key value ∨ (∃ job ∈ fetcher.jobs, AccountJob.Asks job key) ∨
        (fetcher.first ≤ key ∧ key < fetcher.first + fetcher.count)) ∧
    ∀ index surroundings job origin, fetcher.Meets spans (.request index surroundings) →
      fetcher.syncErrored = false → fetcher.findJob index .active = some job →
      AccountJob.getOrigin job = .ok origin → fetcher.skips job = true →
      ∀ key value, T key = some value → origin ≤ key → key ≤ AccountJob.getLimit job →
        fetcher.Kept H key value := by
  intro fetcher spans
  have hstart : Tracked H T config first count (start config first count) [] :=
    tracked_start hend
  have hsane := sane_run hsound hend events ⟨hstart.done, fun _ => hstart⟩ hmeets
  rw [Sane, foldl_traced] at hsane
  have htracked : fetcher.syncErrored = false →
      Tracked H T config first count fetcher spans := hsane.2
  refine ⟨hsane.1, fun hhealthy key value hT hge hlt => ?_, ?_⟩
  · rw [(htracked hhealthy).range]
    obtain hkept | ⟨job, hjob, hasks⟩ | hremaining :=
      (htracked hhealthy).covered key value hT hge hlt
    · exact .inl hkept
    · obtain hwriting | hjobs := List.mem_append.mp hjob
      · exact absurd ((htracked hhealthy).orderly.written job hwriting) hasks.1
      · exact .inr (.inl ⟨job, hjobs, hasks⟩)
    · exact .inr (.inr ⟨hremaining, hlt⟩)
  · intro index surroundings job origin hnext hhealthy hfind horigin hskips key value hT hge hle
    obtain ⟨span, hspan, hspanLe, hlimit⟩ :=
      hnext job hfind origin (by rw [horigin]; rfl) hskips
    exact (htracked hhealthy).spans span hspan key value hT (hspanLe.trans hge) (hle.trans hlimit)

end Runs

section Examples

/-- A peer's proof of a range stands for the check against the entries of the trie. -/
def verifyEntries (entries : List (Nat × Bytes)) : RangeVerifier :=
  fun origin last keys values _ =>
    match last with
    | some last =>
      if origin ≤ last ∧
          keys.zip values = entries.filter (fun entry => origin ≤ entry.1 ∧ entry.1 ≤ last) then
        .ok (entries.any fun entry => last < entry.1)
      else .error .invalidRangeProof
    | none =>
      if entries.all fun entry => entry.1 < origin then .ok false else .error .invalidRangeProof

theorem lookup_iff_mem {entries : List (Nat × Bytes)} {key : Nat} {value : Bytes}
    (hnodup : (entries.map Prod.fst).Nodup) :
    entries.lookup key = some value ↔ (key, value) ∈ entries := by
  induction entries with
  | nil => simp
  | cons entry entries ih =>
    obtain ⟨key', value'⟩ := entry
    obtain ⟨hnew, hnodup⟩ := List.nodup_cons.mp hnodup
    rw [List.lookup_cons, List.mem_cons]
    cases heq : key == key' with
    | true =>
      obtain rfl := beq_iff_eq.mp heq
      have hnot : (key, value) ∉ entries := by
        intro hmem
        exact hnew (List.mem_map.mpr ⟨_, hmem, rfl⟩)
      simp [hnot, eq_comm]
    | false =>
      rw [beq_eq_false_iff_ne] at heq
      simp [ih hnodup, heq]

theorem verifyEntries_sound {entries : List (Nat × Bytes)}
    (hnodup : (entries.map Prod.fst).Nodup) (hlt : ∀ entry ∈ entries, entry.1 < 2 ^ 256) :
    Sound (fun key => entries.lookup key) (verifyEntries entries) := by
  have hlookup : ∀ key value, entries.lookup key = some value ↔ (key, value) ∈ entries :=
    fun _ _ => lookup_iff_mem hnodup
  constructor
  · intro key value hT
    exact hlt _ ((hlookup key value).mp hT)
  · intro origin last keys values proof more hverify
    simp only [verifyEntries] at hverify
    split at hverify
    · next hrange =>
      obtain rfl := Except.ok.inj hverify
      refine ⟨hrange.1, ?_, ?_, ?_⟩
      · intro entry hentry
        rw [hrange.2, List.mem_filter] at hentry
        exact (hlookup _ _).mpr hentry.1
      · intro key value hT hge hle
        rw [hrange.2, List.mem_filter]
        exact ⟨(hlookup key value).mp hT, by simp [hge, hle]⟩
      · rw [List.any_eq_true]
        constructor
        · rintro ⟨entry, hentry, hgt⟩
          exact ⟨entry.1, entry.2, of_decide_eq_true hgt, (hlookup _ _).mpr hentry⟩
        · rintro ⟨key, value, hgt, hT⟩
          exact ⟨(key, value), (hlookup key value).mp hT, decide_eq_true hgt⟩
    · cases hverify
  · intro origin proof hverify key hge
    simp only [verifyEntries] at hverify
    split at hverify
    · next hall =>
      cases hT : entries.lookup key with
      | none => rfl
      | some value =>
        have hbelow := List.all_eq_true.mp hall _ ((hlookup key value).mp hT)
        have := of_decide_eq_true hbelow
        omega
    · cases hverify

def smallRanges : AccountFetcherConfig :=
  { maxAccountRange := 10, maxFetcherJobs := 10, maxFetcherRequests := 10, maxQueue := 4
    maxAccountRange_pos := by decide }

def someBody : AccountBody := { nonce := [], balance := [7], storageRoot := [1], codeHash := [2] }

def entriesAt (hashes : List Nat) : List (Nat × Bytes) :=
  hashes.map fun hash => (hash, accountBodyToRLP polynomialHash someBody)

/-- The answer of a peer with the accounts at these hashes. -/
def accountsAt (hashes : List Nat) : Option AccountRange :=
  some { accounts := hashes.map fun hash => ⟨hash, someBody⟩, proof := [[0]] }

/-- The answer to the first job covers the second one, which is skipped. -/
def coveringEvents : List Event :=
  [.next allIdle, .request 0 allIdle, .answer 0 (accountsAt [5, 25]) allIdle, .request 1 allIdle,
    .request 2 allIdle, .answer 2 (accountsAt [25]) allIdle, .request 3 allIdle,
    .answer 3 (accountsAt []) allIdle, .write 4]

theorem accounts_kept_covering :
    (run smallRanges polynomialHash (verifyEntries (entriesAt [5, 25])) 0 40
      coveringEvents).accountTrie 25 = some (accountBodyToRLP polynomialHash someBody) :=
  (accounts_kept (verifyEntries_sound (by decide) (by decide)) (by decide) coveringEvents
    (by decide)).1 (by decide) 25 _ (by decide) (by decide) (by decide)

/-- The second job is answered before the first, which times out and is skipped. -/
def lateEvents : List Event :=
  [.next allIdle, .next allIdle, .request 0 allIdle, .request 1 allIdle,
    .answer 1 (accountsAt [15]) allIdle, .expire 0, .next allIdle, .request 0 allIdle,
    .request 2 allIdle, .answer 2 (accountsAt []) allIdle, .write 3, .next allIdle]

theorem not_accounts_kept :
    ¬ ∀ (H : HashKeysFunction) (T : Nat → Option Bytes) (verifyMerkleRangeProof : RangeVerifier)
      (config : AccountFetcherConfig) (first count : Nat) (events : List Event),
      Sound T verifyMerkleRangeProof → first + count ≤ 2 ^ 256 →
      let fetcher := run config H verifyMerkleRangeProof first count events
      fetcher.done = true → fetcher.jobs = [] → fetcher.writing = [] → fetcher.count = 0 →
      ∀ key value, T key = some value → first ≤ key → key < first + count →
        fetcher.accountTrie key = some value := by
  intro h
  have hsound : Sound (fun key => (entriesAt [5, 15]).lookup key)
      (verifyEntries (entriesAt [5, 15])) := verifyEntries_sound (by decide) (by decide)
  have hstored := h polynomialHash _ _ smallRanges 0 30 lateEvents hsound (by decide)
    (by decide) (by decide) (by decide) (by decide) 5
    (accountBodyToRLP polynomialHash someBody) (by decide) (by decide) (by decide)
  revert hstored
  decide

end Examples

end EthereumJS.Client.AccountFetcher
