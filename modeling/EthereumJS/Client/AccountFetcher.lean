import EthereumJS.Client.Fetcher
import EthereumJS.Util.Account

/-! # Ranges of accounts to fetch

`AccountFetcher` of `client/src/sync/fetcher/accountfetcher.ts`. Hashes are the numbers that their
32 bytes stand for.
-/

namespace EthereumJS

open RLP

/-- The body of an account in an answer to `getAccountRange`. -/
structure AccountBody where
  nonce : Bytes
  balance : Bytes
  storageRoot : Bytes
  codeHash : Bytes
  deriving DecidableEq

def accountBodyFromSlim (H : HashKeysFunction) (body : AccountBody) : AccountBody :=
  { body with
    storageRoot := if body.storageRoot.length = 0 then keccakRlp H else body.storageRoot
    codeHash := if body.codeHash.length = 0 then keccakNull H else body.codeHash }

def accountBodyToRLP (H : HashKeysFunction) (body : AccountBody) : Bytes :=
  let body := accountBodyFromSlim H body
  encode (.list [.bytes body.nonce, .bytes body.balance, .bytes body.storageRoot,
    .bytes body.codeHash])

namespace Client

structure AccountData where
  hash : Nat
  body : AccountBody
  deriving DecidableEq

/-- An element of a result: an account, `{ skipped: true }` or the empty object. -/
inductive ResultItem
  | account (data : AccountData)
  | skipped
  | final
  deriving DecidableEq

def ResultItem.hash : ResultItem → Option Nat
  | account data => some data.hash
  | skipped | final => none

/-- What `request` resolves with. -/
structure AccountDataResponse where
  items : List ResultItem
  completed : Bool
  deriving DecidableEq

/-- What a peer answers. -/
structure AccountRange where
  accounts : List AccountData
  proof : List Bytes

structure AccountTask where
  first : Nat
  count : Nat
  deriving DecidableEq

abbrev AccountJob := Job AccountTask (List ResultItem) (List ResultItem)

inductive FetchError
  | notBytes
  | tooLong
  | notMonotonic
  | invalidRangeProof
  deriving DecidableEq

namespace AccountJob

/-- `setLengthLeft` to 32 bytes. -/
def setLengthLeft (n : Nat) : Except FetchError Nat :=
  if n < 2 ^ 256 then .ok n else .error .tooLong

def getOrigin (job : AccountJob) : Except FetchError Nat :=
  match job.partialResult with
  | some result =>
    match result.getLast? with
    | some (.account data) => setLengthLeft (data.hash + 1)
    | _ => .error .notBytes
  | none => setLengthLeft job.task.first

/-- With `allowTruncate`, only the last 32 bytes are kept. -/
def getLimit (job : AccountJob) : Nat := (job.task.first + job.task.count - 1) % 2 ^ 256

end AccountJob

structure StorageRequest where
  accountHash : Nat
  storageRoot : Bytes
  first : Nat
  count : Nat
  deriving DecidableEq

structure AccountFetcherConfig where
  maxAccountRange : Nat
  maxFetcherJobs : Nat
  maxFetcherRequests : Nat
  maxQueue : Nat
  maxAccountRange_pos : 0 < maxAccountRange

/-- What `store` writes: the trie, the requests for the other fetchers, and `first` and `done` of
the `fetcherDoneFlags`. -/
structure AccountStore where
  accountTrie : Nat → Option Bytes
  storageRequests : List StorageRequest
  byteCodeRequests : List Bytes
  doneFirst : Nat
  done : Bool

structure AccountFetcher extends
    Fetcher AccountTask (List ResultItem) (List ResultItem), AccountStore where
  first : Nat
  count : Nat
  highestKnownHash : Option Nat

namespace AccountStore

variable (H : HashKeysFunction)

def empty : AccountStore :=
  { accountTrie := fun _ => none, storageRequests := [], byteCodeRequests := [], doneFirst := 0
    done := false }

def putAccount (sink : AccountStore) (data : AccountData) : AccountStore :=
  { sink with
    accountTrie :=
      Function.update sink.accountTrie data.hash (some (accountBodyToRLP H data.body)) }

/-- The loop of `store`; `false` when it throws. -/
def storeAccounts : List ResultItem → AccountStore → AccountStore × Bool
  | [], sink => (sink, true)
  | .account data :: result, sink => storeAccounts result (sink.putAccount H data)
  | .skipped :: _, sink | .final :: _, sink => (sink, false)

def storageFetchRequest : ResultItem → Option StorageRequest
  | .account data =>
    if data.body.storageRoot = keccakRlp H then none
    else some { accountHash := data.hash, storageRoot := data.body.storageRoot, first := 0
                count := 2 ^ 256 - 1 }
  | .skipped | .final => none

def byteCodeFetchRequest : ResultItem → Option Bytes
  | .account data => if data.body.codeHash = keccakNull H then none else some data.body.codeHash
  | .skipped | .final => none

/-- `store`; `false` when it throws. -/
def store (result : List ResultItem) (sink : AccountStore) : AccountStore × Bool :=
  match result.head? with
  | some .skipped => (sink, true)
  | some .final => ({ sink with done := true, doneFirst := 2 ^ 256 }, true)
  | _ =>
    match storeAccounts H result sink with
    | (sink, false) => (sink, false)
    | (sink, true) =>
      ({ sink with
          doneFirst := (result.getLast?.bind ResultItem.hash).getD sink.doneFirst
          storageRequests := sink.storageRequests ++ result.filterMap (storageFetchRequest H)
          byteCodeRequests :=
            sink.byteCodeRequests ++ result.filterMap (byteCodeFetchRequest H) }, true)

end AccountStore

namespace AccountFetcher

/-- The verification of a range against the root of the fetcher: the first key, the last key, the
keys, the values and the proof. -/
abbrev RangeVerifier :=
  Nat → Option Nat → List Nat → List Bytes → List Bytes → Except FetchError Bool

def create (first count : Nat) : AccountFetcher :=
  { toFetcher := .create, toAccountStore := .empty, first := first, count := count
    highestKnownHash := none }

/-- The loop over full tasks, of which `jobs` more may be made. -/
def fullTasks (max : Nat) : Nat → Nat → Nat → List AccountTask × Nat × Nat
  | 0, first, count => ([], first, count)
  | jobs + 1, first, count =>
    if count ≥ max then
      let (tasks, first', count') := fullTasks max jobs (first + max) (count - max)
      ({ first := first, count := max } :: tasks, first', count')
    else ([], first, count)

section Config

variable (config : AccountFetcherConfig)

/-- `tasks` with its default arguments. -/
def tasks (fetcher : AccountFetcher) : List AccountTask × AccountFetcher :=
  let maxTasks := config.maxFetcherJobs
  let (tasks, first, count) :=
    fullTasks config.maxAccountRange maxTasks fetcher.first fetcher.count
  if count > 0 && tasks.length < maxTasks then
    (tasks ++ [{ first := first, count := count }],
      { fetcher with first := first + count, count := 0 })
  else (tasks, { fetcher with first := first, count := count })

def enqueueTasks (fetcher : AccountFetcher) (tasks : List AccountTask) : AccountFetcher :=
  { fetcher with toFetcher := tasks.foldl (Fetcher.enqueueTask false) fetcher.toFetcher }

def nextTasks (fetcher : AccountFetcher) : AccountFetcher :=
  if fetcher.peek = none && fetcher.count > 0 &&
      fetcher.processed - fetcher.finished < config.maxFetcherRequests then
    let (tasks, fetcher) := fetcher.tasks config
    fetcher.enqueueTasks tasks
  else fetcher

def next (surroundings : Surroundings) (fetcher : AccountFetcher) : AccountFetcher :=
  let fetcher := fetcher.nextTasks config
  { fetcher with toFetcher := fetcher.pick config.maxQueue surroundings }

/-- `_fetch` as far as the first round of its loop. -/
def start (first count : Nat) : AccountFetcher :=
  let fetcher := create first count
  { fetcher with toFetcher := fetcher.fetch }.nextTasks config

end Config

/-- Whether the limit of the job is lower than the highest known hash. -/
def skips (fetcher : AccountFetcher) (job : AccountJob) : Bool :=
  match fetcher.highestKnownHash with
  | some hash => job.getLimit < hash
  | none => false

section Request

variable (H : HashKeysFunction) (verifyMerkleRangeProof : RangeVerifier)

def verifyRangeProof (origin : Nat) (range : AccountRange) : Except FetchError Bool :=
  let keys := range.accounts.map (·.hash)
  let values := range.accounts.map fun account => accountBodyToRLP H account.body
  -- the last key of no accounts is no byte array
  match keys.getLast? with
  | none => .error .notBytes
  | some last =>
    if keys.IsChain (· ≤ ·) then
      verifyMerkleRangeProof origin (some last) keys values range.proof
    else .error .notMonotonic

def isMissingRightRange (limit : Nat) (accounts : List AccountData) : Bool :=
  match accounts.getLast? with
  | some account => !(account.hash ≥ limit)
  | none => true

/-- `request` from the answer of the peer on. -/
def request (job : AccountJob) (rangeResult : Option AccountRange) :
    Except FetchError (Option AccountDataResponse) := do
  let origin ← job.getOrigin
  let limit := job.getLimit
  match rangeResult with
  | none => return none
  | some range =>
    if (range.accounts.length = 0 ∨ limit = 2 ^ 256) ∧ range.proof.length > 0 then
      match verifyMerkleRangeProof origin none [] [] range.proof with
      | .ok false => return some { items := [.final], completed := true }
      | _ => return none
    else
      let isMissing ← verifyRangeProof H verifyMerkleRangeProof origin range
      return some
        { items := range.accounts.map .account
          completed := !(isMissing && isMissingRightRange limit range.accounts) }

end Request

def knowHighest (fetcher : AccountFetcher) (highestReceivedhash : Option Nat) : AccountFetcher :=
  match fetcher.highestKnownHash, highestReceivedhash with
  | some known, some received =>
    if received > known then { fetcher with highestKnownHash := some received } else fetcher
  | some _, none => fetcher
  | none, received => { fetcher with highestKnownHash := received }

/-- The fetcher and the job after `process`; the job has no result if it is to be requested
again. -/
def process (fetcher : AccountFetcher) (job : AccountJob) (response : AccountDataResponse) :
    AccountFetcher × AccountJob :=
  let fullResult := job.partialResult.getD [] ++ response.items
  let fetcher := fetcher.knowHighest (response.items.getLast?.bind ResultItem.hash)
  if response.completed then (fetcher, { job with result := some fullResult })
  else (fetcher, { job with partialResult := some fullResult, result := none })

section Steps

variable (config : AccountFetcherConfig) (H : HashKeysFunction)
  (verifyMerkleRangeProof : RangeVerifier)

/-- `success` for an active job. -/
def success (surroundings : Surroundings) (fetcher : AccountFetcher) (job : AccountJob)
    (result : Option AccountDataResponse) : AccountFetcher :=
  let fetcher : AccountFetcher :=
    match result with
    | none => { fetcher with toFetcher := fetcher.enqueue job }
    | some response =>
      if response.items.length = 0 then { fetcher with toFetcher := fetcher.enqueue job }
      else
        let (fetcher, job) := fetcher.process job response
        match job.result with
        | some _ => { fetcher with toFetcher := fetcher.complete surroundings.room job }
        | none => { fetcher with toFetcher := fetcher.enqueue job }
  fetcher.next config surroundings

/-- `failure` for an active job that was not dequeued. -/
def failure (surroundings : Surroundings) (fetcher : AccountFetcher) (job : AccountJob) :
    AccountFetcher :=
  { fetcher with toFetcher := fetcher.enqueue job }.next config surroundings

/-- The rejection or the result of a request. -/
def settle (surroundings : Surroundings) (fetcher : AccountFetcher) (job : AccountJob)
    (result : Except FetchError (Option AccountDataResponse)) : AccountFetcher :=
  match result with
  | .ok result => fetcher.success config surroundings job result
  | .error _ => fetcher.failure config surroundings job

/-- `request` up to the question to the peer. -/
def beginRequest (surroundings : Surroundings) (fetcher : AccountFetcher) (job : AccountJob) :
    AccountFetcher :=
  match job.getOrigin with
  | .error e => fetcher.settle config surroundings job (.error e)
  | .ok _ =>
    if fetcher.skips job then
      fetcher.settle config surroundings job
        (.ok (some { items := [.skipped], completed := true }))
    else { fetcher with toFetcher := fetcher.setJob { job with state := .requested } }

def write (jobs : Nat) (fetcher : AccountFetcher) : AccountFetcher :=
  let (queue, sink) :=
    fetcher.toFetcher.write (AccountStore.store H) [] jobs fetcher.toAccountStore
  { fetcher with toFetcher := queue, toAccountStore := sink }

/-- What may happen next: a round of the loop of `_fetch`, a read of the stream, the begin and the
answer of a request, the rejection of it, its timeout, and a write. -/
inductive Event
  | next (surroundings : Surroundings)
  | read (room : Nat)
  | request (index : Nat) (surroundings : Surroundings)
  | answer (index : Nat) (rangeResult : Option AccountRange) (surroundings : Surroundings)
  | reject (index : Nat) (surroundings : Surroundings)
  | expire (index : Nat)
  | write (jobs : Nat)

def step (fetcher : AccountFetcher) : Event → AccountFetcher
  | .next surroundings => fetcher.next config surroundings
  | .read room => { fetcher with toFetcher := fetcher.dequeue room }
  | .request index surroundings =>
    match fetcher.findJob index .active with
    | some job => fetcher.beginRequest config surroundings job
    | none => fetcher
  | .answer index rangeResult surroundings =>
    match fetcher.findJob index .requested with
    | some job =>
      fetcher.settle config surroundings job (request H verifyMerkleRangeProof job rangeResult)
    | none => fetcher
  | .reject index surroundings =>
    match fetcher.openJob index with
    | some job => fetcher.failure config surroundings job
    | none => fetcher.next config surroundings
  | .expire index =>
    match fetcher.openJob index with
    | some job => { fetcher with toFetcher := fetcher.enqueue job }
    | none => fetcher
  | .write jobs => fetcher.write H jobs

/-- The fetcher of a range after some events. -/
def run (first count : Nat) (events : List Event) : AccountFetcher :=
  events.foldl (step config H verifyMerkleRangeProof) (start config first count)

end Steps

end AccountFetcher

end Client

end EthereumJS
