import EthereumJS.Client.AccountTracking

/-! # What an answer brings

A proof-valid answer, or one answer over all that a job asks for, leaves no account behind.
-/

namespace EthereumJS.Client.AccountFetcher

variable (H : HashKeysFunction) (T : Nat → Option Bytes)

section Answers

variable {H T}

theorem first_le_origin {job : AccountJob} (h : AccountJob.Fits H T job)
    (hstate : job.state ≠ .processed)
    {origin : Nat} (horigin : AccountJob.getOrigin job = .ok origin) : job.task.first ≤ origin := by
  simp only [AccountJob.getOrigin] at horigin
  cases hpart : job.partialResult with
  | none =>
    simp only [hpart, AccountJob.setLengthLeft] at horigin
    split at horigin
    · exact (Except.ok.inj horigin).le
    · cases horigin
  | some result =>
    obtain ⟨head, last, hhead, hlast, hle⟩ := h.partialEnds hstate result hpart
    simp only [hpart, hlast, AccountJob.setLengthLeft] at horigin
    split at horigin
    · rw [← Except.ok.inj horigin]
      exact Nat.le_succ_of_le hle
    · cases horigin

variable (H T)

/-- What `request` resolves with after it asked the peer. -/
inductive Answer (job : AccountJob) (origin : Nat) : AccountDataResponse → Prop
  | final : (∀ key, origin ≤ key → T key = none) →
      Answer job origin { items := [.final], completed := true }
  | accounts {accounts : List AccountData} {last : AccountData} {completed : Bool} :
      accounts.getLast? = some last → origin ≤ last.hash →
      (∀ data ∈ accounts, T data.hash = some (accountBodyToRLP H data.body)) →
      (∀ key value, T key = some value → origin ≤ key → key ≤ last.hash →
        ∃ body, ⟨key, body⟩ ∈ accounts ∧ accountBodyToRLP H body = value) →
      (completed = true → ∀ key value, T key = some value → key ≤ AccountJob.getLimit job →
        key ≤ last.hash) →
      Answer job origin { items := accounts.map .account, completed := completed }

variable {H T}

theorem zip_map_mem {accounts : List AccountData} {entry : Nat × Bytes} :
    entry ∈ (accounts.map (·.hash)).zip
        (accounts.map fun account => accountBodyToRLP H account.body) ↔
      ∃ data ∈ accounts, (data.hash, accountBodyToRLP H data.body) = entry := by
  rw [List.zip_map', List.mem_map]

theorem request_answer {verifyMerkleRangeProof : RangeVerifier}
    (hsound : Sound T verifyMerkleRangeProof) {job : AccountJob}
    {rangeResult : Option AccountRange} {response : AccountDataResponse}
    (h : request H verifyMerkleRangeProof job rangeResult = .ok (some response)) :
    ∃ origin, AccountJob.getOrigin job = .ok origin ∧ Answer H T job origin response := by
  simp only [request] at h
  cases horigin : AccountJob.getOrigin job with
  | error e => simp [horigin, bind, Except.bind] at h
  | ok origin =>
    refine ⟨origin, rfl, ?_⟩
    simp only [horigin, bind, Except.bind] at h
    cases rangeResult with
    | none => cases h
    | some range =>
      simp only at h
      split at h
      · split at h
        · next hverify =>
          obtain rfl := Option.some.inj (Except.ok.inj h)
          exact .final (hsound.zeroElement origin _ hverify)
        · cases h
      · cases hrange : verifyRangeProof H verifyMerkleRangeProof origin range with
        | error e => simp [hrange] at h
        | ok isMissing =>
          simp only [hrange] at h
          obtain rfl := Option.some.inj (Except.ok.inj h)
          simp only [verifyRangeProof, List.getLast?_map] at hrange
          cases hlast : range.accounts.getLast? with
          | none => simp [hlast] at hrange
          | some last =>
            simp only [hlast, Option.map_some] at hrange
            split at hrange
            · obtain ⟨hle, hvalues, hcovers, hmore⟩ := hsound.range _ _ _ _ _ _ hrange
              refine .accounts hlast hle ?_ ?_ ?_
              · intro data hdata
                exact hvalues _ (zip_map_mem.mpr ⟨data, hdata, rfl⟩)
              · intro key value hT hge hle
                obtain ⟨data, hdata, heq⟩ := zip_map_mem.mp (hcovers key value hT hge hle)
                obtain ⟨rfl, rfl⟩ := Prod.mk.inj heq
                exact ⟨data.body, hdata, rfl⟩
              · intro hcompleted key value hT hlimit
                by_contra hlt
                have hmissing : isMissing = true := hmore.mpr ⟨key, value, not_le.mp hlt, hT⟩
                simp only [hmissing, isMissingRightRange, hlast, Bool.true_and, Bool.not_not,
                  decide_eq_true_eq] at hcompleted
                omega
            · cases hrange

variable {config : AccountFetcherConfig} {first count : Nat} {fetcher : AccountFetcher}
  {spans : List (Nat × Nat)}

theorem Tracked.knowHighest (h : Tracked H T config first count fetcher spans)
    (highestReceivedhash : Option Nat) :
    Tracked H T config first count (fetcher.knowHighest highestReceivedhash) spans := by
  simp only [AccountFetcher.knowHighest]
  split
  · split
    · exact { h with }
    · exact h
  · exact h
  · exact { h with }

/-- The job with its whole result. -/
def completed (job : AccountJob) (items : List ResultItem) : AccountJob :=
  { job with result := some (job.partialResult.getD [] ++ items), state := .processed }

theorem completed_items (job : AccountJob) (items : List ResultItem) :
    AccountJob.items (completed job items) = job.partialResult.getD [] ++ items := rfl

theorem has_completed {job : AccountJob} (hstate : job.state ≠ .processed)
    (items : List ResultItem) {key : Nat} {value : Bytes} (h : AccountJob.Has H job key value) :
    AccountJob.Has H (completed job items) key value := by
  obtain ⟨hle, body, hbody, hvalue⟩ := h
  rw [AccountJob.items_of_ne hstate] at hbody
  exact ⟨hle, body, List.mem_append_left _ hbody, hvalue⟩

theorem completed_fits {job : AccountJob} (h : AccountJob.Fits H T job)
    (hstate : job.state ≠ .processed)
    {items : List ResultItem}
    (hvalues : ∀ data, .account data ∈ items → T data.hash = some (accountBodyToRLP H data.body))
    (hmarker : ∀ item, items.head? = some item → item.hash = none → items = [item])
    (hfinal : items.head? = some .final → job.partialResult = none →
      ∀ key, job.task.first ≤ key → T key = none) : AccountJob.Fits H T (completed job items) := by
  have hhead : ∀ item, (AccountJob.items (completed job items)).head? = some item →
      item.hash = none → job.partialResult = none ∧ items.head? = some item := by
    intro item hitem hnone
    rw [completed_items] at hitem
    cases hresult : job.partialResult with
    | none =>
      rw [hresult] at hitem
      exact ⟨rfl, hitem⟩
    | some result =>
      -- the partial result begins with an account
      obtain ⟨head, -, hfirst, -, -⟩ := h.partialEnds hstate result hresult
      simp only [hresult, Option.getD_some, List.head?_append, hfirst, Option.some_or] at hitem
      obtain rfl := Option.some.inj hitem
      cases hnone
  refine { values := ?_, partialEnds := fun hne => absurd rfl hne, marker := ?_, final := ?_ }
  · intro data hdata
    rw [completed_items] at hdata
    obtain hdata | hdata := List.mem_append.mp hdata
    · exact h.values data (by rwa [AccountJob.items_of_ne hstate])
    · exact hvalues data hdata
  · intro _ item hitem hnone
    obtain ⟨hresult, hitem⟩ := hhead item hitem hnone
    rw [completed_items, hresult, hmarker item hitem hnone]
    rfl
  · intro _ hitem
    obtain ⟨hresult, hitem⟩ := hhead .final hitem rfl
    exact hfinal hitem hresult

/-- The job with a partial result, to be requested again. -/
def continued (job : AccountJob) (items : List ResultItem) : AccountJob :=
  { job with
    partialResult := some (job.partialResult.getD [] ++ items), result := none, state := .idle }

theorem continued_items (job : AccountJob) (items : List ResultItem) :
    AccountJob.items (continued job items) = job.partialResult.getD [] ++ items := rfl

theorem getLast_fullResult {accounts : List AccountData} {last : AccountData}
    (hlast : accounts.getLast? = some last) (result : List ResultItem) :
    (result ++ accounts.map ResultItem.account).getLast? = some (.account last) := by
  rw [List.getLast?_append, List.getLast?_map, hlast]
  rfl

theorem continued_origin {job : AccountJob} {accounts : List AccountData} {last : AccountData}
    (hlast : accounts.getLast? = some last) (hlt : last.hash + 1 < 2 ^ 256) :
    AccountJob.getOrigin (continued job (accounts.map .account)) = .ok (last.hash + 1) := by
  simp only [continued, AccountJob.getOrigin, AccountJob.setLengthLeft]
  rw [getLast_fullResult hlast]
  exact if_pos hlt

theorem continued_fits {job : AccountJob} (h : AccountJob.Fits H T job)
    (hstate : job.state ≠ .processed)
    {accounts : List AccountData} {last : AccountData} (hlast : accounts.getLast? = some last)
    (hle : job.task.first ≤ last.hash)
    (hvalues : ∀ data ∈ accounts, T data.hash = some (accountBodyToRLP H data.body)) :
    AccountJob.Fits H T (continued job (accounts.map .account)) := by
  refine
    { values := ?_, partialEnds := ?_, marker := fun heq => ?_, final := fun heq => ?_ }
  · intro data hdata
    rw [continued_items] at hdata
    obtain hdata | hdata := List.mem_append.mp hdata
    · exact h.values data (by rwa [AccountJob.items_of_ne hstate])
    · obtain ⟨other, hother, heq⟩ := List.mem_map.mp hdata
      cases heq
      exact hvalues _ hother
  · intro _ result hresult
    obtain rfl := Option.some.inj hresult
    cases hpart : job.partialResult with
    | none =>
      cases accounts with
      | nil => cases hlast
      | cons head rest => exact ⟨head, last, rfl, getLast_fullResult hlast [], hle⟩
    | some partialResult =>
      obtain ⟨head, -, hhead, -, -⟩ := h.partialEnds hstate partialResult hpart
      exact ⟨head, last, by simp [hhead], getLast_fullResult hlast _, hle⟩
  · cases heq
  · cases heq

theorem account_mem_map {accounts : List AccountData} {data : AccountData} :
    ResultItem.account data ∈ accounts.map ResultItem.account ↔ data ∈ accounts := by
  simp

theorem head_account {accounts : List AccountData} {item : ResultItem}
    (h : (accounts.map ResultItem.account).head? = some item) :
    ∃ data ∈ accounts, item = .account data := by
  rw [List.head?_map, Option.map_eq_some_iff] at h
  obtain ⟨data, hdata, heq⟩ := h
  exact ⟨data, List.mem_of_head? hdata, heq.symm⟩

theorem Kept.of_mem {job : AccountJob} {key : Nat} {value : Bytes}
    (hjob : job ∈ fetcher.allJobs) (h : AccountJob.Has H job key value) :
    fetcher.Kept H key value :=
  .inr ⟨job, hjob, h⟩

/-- The hashes that an answer covers: from the origin to the last hash. -/
def spanOf (origin : Nat) (response : AccountDataResponse) : List (Nat × Nat) :=
  ((response.items.getLast?.bind ResultItem.hash).map (origin, ·)).toList

/-- The job that `process` makes of a job with an answer. -/
def answeredJob (job : AccountJob) (response : AccountDataResponse) : AccountJob :=
  if response.completed then completed job response.items else continued job response.items

/-- An answer puts the job with what it brings in the place of the job. -/
theorem Tracked.answer (hsound : ∀ key value, T key = some value → key < 2 ^ 256)
    (h : Tracked H T config first count fetcher spans) {job : AccountJob}
    (hmem : job ∈ fetcher.jobs) (hstate : job.state ≠ .processed) {origin : Nat}
    (horigin : AccountJob.getOrigin job = .ok origin) {response : AccountDataResponse}
    (hanswer : Answer H T job origin response) :
    Tracked H T config first count (fetcher.withJob (answeredJob job response))
      (spanOf origin response ++ spans) := by
  have hfits := h.fits job (Fetcher.mem_allJobs hmem)
  have hfirst := first_le_origin hfits hstate horigin
  cases hanswer with
  | final hnone =>
    refine h.setJob hmem rfl rfl (completed_fits hfits hstate (by simp) (by simp) ?_) ?_ ?_
    · intro _ hpart key hle
      refine hnone key ?_
      simp only [AccountJob.getOrigin, hpart, AccountJob.setLengthLeft] at horigin
      split at horigin
      · rwa [← Except.ok.inj horigin]
      · cases horigin
    · exact fun key value => has_completed hstate _
    · rintro key value hT ⟨-, origin', horigin', hle, -⟩
      rw [horigin] at horigin'
      obtain rfl := Except.ok.inj horigin'
      rw [hnone key hle] at hT
      cases hT
  | @accounts accounts last isCompleted hlast hle hvalues hcovers hlimit =>
    have hspan : spanOf origin { items := accounts.map .account, completed := isCompleted } =
        [(origin, last.hash)] := by
      simp [spanOf, hlast, ResultItem.hash]
    have hbrings : ∀ key value, T key = some value → origin ≤ key → key ≤ last.hash →
        (answeredJob job { items := accounts.map .account, completed := isCompleted }).Has H
          key value := by
      intro key value hT hge hkey
      obtain ⟨body, hbody, hvalue⟩ := hcovers key value hT hge hkey
      cases isCompleted
      all_goals exact ⟨hfirst.trans hge, body,
        List.mem_append_right _ (account_mem_map.mpr hbody), hvalue⟩
    have htracked : Tracked H T config first count (fetcher.withJob
        (answeredJob job { items := accounts.map .account, completed := isCompleted })) spans := by
      cases isCompleted with
      | true =>
        refine h.setJob hmem rfl rfl (completed_fits hfits hstate ?_ ?_ ?_) ?_ ?_
        · exact fun data hdata => hvalues data (account_mem_map.mp hdata)
        · rintro item hhead hnone
          obtain ⟨data, -, rfl⟩ := head_account hhead
          cases hnone
        · intro hhead
          obtain ⟨data, -, hdata⟩ := head_account hhead
          cases hdata
        · exact fun key value => has_completed hstate _
        · rintro key value hT ⟨-, origin', horigin', hge, hkey⟩
          rw [horigin] at horigin'
          obtain rfl := Except.ok.inj horigin'
          exact .inr (.inl (hbrings key value hT hge (hlimit rfl key value hT hkey)))
      | false =>
        refine h.setJob hmem rfl rfl
          (continued_fits hfits hstate hlast (hfirst.trans hle) hvalues) ?_ ?_
        · rintro key value ⟨hge, body, hbody, hvalue⟩
          rw [AccountJob.items_of_ne hstate] at hbody
          exact ⟨hge, body, List.mem_append_left _ hbody, hvalue⟩
        · rintro key value hT ⟨-, origin', horigin', hge, hkey⟩
          rw [horigin] at horigin'
          obtain rfl := Except.ok.inj horigin'
          by_cases hlt : key ≤ last.hash
          · exact .inr (.inl (hbrings key value hT hge hlt))
          · -- the hash is still to be requested, from the one after the last received
            have hkey_lt := hsound key value hT
            exact .inr (.inr ⟨by simp [answeredJob, continued], last.hash + 1,
              continued_origin hlast (by omega), by omega, hkey⟩)
    rw [hspan]
    refine { htracked with spans := ?_ }
    intro span hmemSpan key value hT hge hkey
    obtain rfl | hmemSpan := List.mem_cons.mp hmemSpan
    · refine Kept.of_mem (Fetcher.mem_allJobs (Fetcher.mem_setJob hmem ?_))
        (hbrings key value hT hge hkey)
      cases isCompleted <;> rfl
    · exact htracked.spans span hmemSpan key value hT hge hkey

theorem knowHighest_queue (highestReceivedhash : Option Nat) :
    (fetcher.knowHighest highestReceivedhash).toFetcher = fetcher.toFetcher := by
  simp only [knowHighest]
  split
  · split <;> rfl
  · rfl
  · rfl

theorem knowHighest_trie (highestReceivedhash : Option Nat) :
    (fetcher.knowHighest highestReceivedhash).toAccountStore = fetcher.toAccountStore := by
  simp only [knowHighest]
  split
  · split <;> rfl
  · rfl
  · rfl

theorem Tracked.success (hend : first + count ≤ 2 ^ 256) (surroundings : Surroundings)
    (hrunning : fetcher.running = true) {job : AccountJob} {response : AccountDataResponse}
    (hitems : response.items ≠ [])
    (h : Tracked H T config first count
      ((fetcher.knowHighest (response.items.getLast?.bind ResultItem.hash)).withJob
        (answeredJob job response)) spans) :
    Tracked H T config first count (fetcher.success config surroundings job (some response))
      spans := by
  simp only [AccountFetcher.success, AccountFetcher.process, List.length_eq_zero_iff]
  rw [if_neg hitems]
  simp only [answeredJob] at h
  apply Tracked.next hend
  cases hcompleted : response.completed with
  | true =>
    rw [hcompleted] at h
    exact h.dequeue _
  | false =>
    rw [hcompleted] at h
    simp only [Bool.false_eq_true, if_false] at h ⊢
    rw [knowHighest_queue, Fetcher.enqueue_eq hrunning, ← knowHighest_queue]
    exact h

theorem Tracked.answered (hend : first + count ≤ 2 ^ 256)
    (hkey : ∀ key value, T key = some value → key < 2 ^ 256)
    (h : Tracked H T config first count fetcher spans) {job : AccountJob}
    (hmem : job ∈ fetcher.jobs) (hstate : job.state ≠ .processed) {origin : Nat}
    (horigin : AccountJob.getOrigin job = .ok origin) {response : AccountDataResponse}
    (hanswer : Answer H T job origin response) (surroundings : Surroundings) :
    Tracked H T config first count (fetcher.success config surroundings job (some response))
      (spanOf origin response ++ spans) := by
  refine Tracked.success hend surroundings (h.running hmem) ?_ ?_
  · cases hanswer with
    | final hnone => simp
    | accounts hlast hle hvalues hcovers hlimit =>
      intro hnil
      rw [List.map_eq_nil_iff.mp hnil] at hlast
      cases hlast
  · refine (h.knowHighest _).answer hkey ?_ hstate horigin hanswer
    rw [knowHighest_queue]
    exact hmem

/-- A job is skipped when all that it asks for is kept. -/
theorem Tracked.skipped (hend : first + count ≤ 2 ^ 256)
    (h : Tracked H T config first count fetcher spans) {job : AccountJob}
    (hmem : job ∈ fetcher.jobs) (hstate : job.state ≠ .processed)
    (hasks : ∀ key value, T key = some value → AccountJob.Asks job key →
      fetcher.Kept H key value) (surroundings : Surroundings) :
    Tracked H T config first count (fetcher.success config surroundings job
      (some { items := [.skipped], completed := true })) spans := by
  have hfits := h.fits job (Fetcher.mem_allJobs hmem)
  refine Tracked.success hend surroundings (h.running hmem) (by simp) ?_
  have hknown : job ∈ (fetcher.knowHighest none).jobs := by
    rw [knowHighest_queue]
    exact hmem
  refine (h.knowHighest none).setJob hknown rfl rfl
    (completed_fits hfits hstate (by simp) (by simp) (by simp)) ?_ ?_
  · exact fun key value => has_completed hstate _
  · intro key value hT hkey
    refine .inl ?_
    rw [Kept, knowHighest_trie, knowHighest_queue]
    exact hasks key value hT hkey

theorem Tracked.failure (hend : first + count ≤ 2 ^ 256)
    (h : Tracked H T config first count fetcher spans) {job : AccountJob}
    (hmem : job ∈ fetcher.jobs) (hstate : job.state ≠ .processed) (surroundings : Surroundings) :
    Tracked H T config first count (fetcher.failure config surroundings job) spans :=
  (h.requeue hmem hstate).next hend surroundings

end Answers

end EthereumJS.Client.AccountFetcher
