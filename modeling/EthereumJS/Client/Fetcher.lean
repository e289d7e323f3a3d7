import EthereumJS.Ordered.Numbered

/-! # Jobs of a fetcher

`Fetcher` of `client/src/sync/fetcher/fetcher.ts` without what its subclasses define. The heaps
`in` and `out` and the jobs under request are one list in the order of the indices, and the state
of a job says where it is. Peers are left out: what depends on them comes with the event.
-/

namespace EthereumJS.Client

open Ordered

/-- Where a job is: in the heap `in`, before its request, under request, in the heap `out`. -/
inductive JobState
  | idle
  | active
  | requested
  | processed
  deriving DecidableEq

structure Job (Task Partial Result : Type) where
  task : Task
  index : Nat
  state : JobState
  partialResult : Option Partial
  result : Option Result
  deriving DecidableEq

/-- What the code finds out about peers and streams: whether a peer is idle, whether the readable
stream is over `maxQueue`, and how many more jobs it takes after the next. -/
structure Surroundings where
  idlePeer : Bool
  readableFull : Bool
  room : Nat

/-- A peer is idle and the streams take all jobs. -/
def allIdle : Surroundings := { idlePeer := true, readableFull := false, room := 4 }

/-- A fetcher; `writing` are the jobs between the readable stream and the end of their write, and
`fetching` says whether there is a `fetchPromise`. -/
structure Fetcher (Task Partial Result : Type) where
  jobs : List (Job Task Partial Result)
  writing : List (Job Task Partial Result)
  total : Nat
  processed : Nat
  finished : Nat
  running : Bool
  syncErrored : Bool
  fetching : Bool

namespace Fetcher

variable {Task Partial Result Sink : Type}

def create : Fetcher Task Partial Result :=
  { jobs := [], writing := [], total := 0, processed := 0, finished := 0, running := false
    syncErrored := false, fetching := false }

/-- The job takes the place of the one with its index. -/
def setJob (fetcher : Fetcher Task Partial Result) (job : Job Task Partial Result) :
    Fetcher Task Partial Result :=
  { fetcher with jobs := replace Job.index job fetcher.jobs }

def dropJob (fetcher : Fetcher Task Partial Result) (job : Job Task Partial Result) :
    Fetcher Task Partial Result :=
  { fetcher with jobs := fetcher.jobs.filter fun other => other.index ≠ job.index }

def findJob (fetcher : Fetcher Task Partial Result) (index : Nat) (state : JobState) :
    Option (Job Task Partial Result) :=
  fetcher.jobs.find? fun job => job.index = index ∧ job.state = state

/-- The job of a request that has not come to an end. -/
def openJob (fetcher : Fetcher Task Partial Result) (index : Nat) :
    Option (Job Task Partial Result) :=
  (fetcher.findJob index .active).or (fetcher.findJob index .requested)

/-- The first job of the heap `in`. -/
def peek (fetcher : Fetcher Task Partial Result) : Option (Job Task Partial Result) :=
  fetcher.jobs.find? fun job => job.state = .idle

def enqueue (fetcher : Fetcher Task Partial Result) (job : Job Task Partial Result) :
    Fetcher Task Partial Result :=
  if fetcher.running then fetcher.setJob { job with state := .idle } else fetcher.dropJob job

/-- One round of the loop of `dequeue`. -/
def dequeueNext (fetcher : Fetcher Task Partial Result) : Option (Fetcher Task Partial Result) :=
  match fetcher.jobs.find? fun job => job.state = .processed with
  | some job =>
    if job.index ≤ fetcher.processed then
      some { fetcher with
        processed := fetcher.processed + 1
        jobs := fetcher.jobs.eraseP fun job => job.state = .processed
        writing := fetcher.writing ++ [job] }
    else none
  | none => none

/-- `dequeue`, which stops when the readable stream takes no more jobs. -/
def dequeue (room : Nat) (fetcher : Fetcher Task Partial Result) : Fetcher Task Partial Result :=
  match fetcher.dequeueNext with
  | none => fetcher
  | some fetcher =>
    match room with
    | 0 => fetcher
    | room + 1 => dequeue room fetcher

def newJob (fetcher : Fetcher Task Partial Result) (task : Task) : Job Task Partial Result :=
  { task := task, index := fetcher.total, state := .idle, partialResult := none, result := none }

/-- The rounds of a loop that `autoRestart` starts come as later events. -/
def enqueueTask (autoRestart : Bool) (fetcher : Fetcher Task Partial Result) (task : Task) :
    Fetcher Task Partial Result :=
  if fetcher.syncErrored || (!fetcher.running && !autoRestart) then fetcher
  else
    let restart := !fetcher.running && autoRestart && !fetcher.fetching
    { fetcher with
      jobs := fetcher.jobs ++ [fetcher.newJob task]
      total := fetcher.total + 1
      running := fetcher.running || restart
      fetching := fetcher.fetching || restart }

/-- `next` after `nextTasks`. -/
def pick (maxQueue : Nat) (surroundings : Surroundings) (fetcher : Fetcher Task Partial Result) :
    Fetcher Task Partial Result :=
  match fetcher.peek with
  | none =>
    if fetcher.finished ≠ fetcher.total then fetcher else { fetcher with running := false }
  | some job =>
    if surroundings.readableFull then fetcher
    else if job.index > fetcher.finished + maxQueue then fetcher
    else if fetcher.processed = fetcher.total then fetcher
    else if surroundings.idlePeer then fetcher.setJob { job with state := .active }
    else fetcher

/-- A processed job goes to the heap `out`, and `dequeue` follows. -/
def complete (room : Nat) (fetcher : Fetcher Task Partial Result) (job : Job Task Partial Result) :
    Fetcher Task Partial Result :=
  (fetcher.setJob { job with state := .processed }).dequeue room

/-- `fetch` as far as the first round of its loop. -/
def fetch (fetcher : Fetcher Task Partial Result) : Fetcher Task Partial Result :=
  if fetcher.running || fetcher.fetching then fetcher
  else { fetcher with running := true, fetching := true }

/-- The end of the loop of an earlier `fetch`, which does not run any more. -/
def fetchEnds (fetcher : Fetcher Task Partial Result) : Fetcher Task Partial Result :=
  if fetcher.running then fetcher else { fetcher with fetching := false }

/-- The stores of a write, one job after the other; `false` when one throws. -/
def storeJobs (store : Result → Sink → Sink × Bool) (nothing : Result) :
    List (Job Task Partial Result) → Sink → Sink × Bool
  | [], sink => (sink, true)
  | job :: jobs, sink =>
    match store (job.result.getD nothing) sink with
    | (sink, false) => (sink, false)
    | (sink, true) => storeJobs store nothing jobs sink

/-- A write of the next so many jobs. An error destroys the writer and the fetcher. -/
def write (store : Result → Sink → Sink × Bool) (nothing : Result) (jobs : Nat)
    (fetcher : Fetcher Task Partial Result) (sink : Sink) : Fetcher Task Partial Result × Sink :=
  if fetcher.syncErrored then (fetcher, sink)
  else
    let jobItems := fetcher.writing.take jobs
    match storeJobs store nothing jobItems sink with
    | (sink, true) =>
      ({ fetcher with
          writing := fetcher.writing.drop jobs
          finished := fetcher.finished + jobItems.length }, sink)
    | (sink, false) => ({ fetcher with running := false, syncErrored := true }, sink)

end Fetcher

end EthereumJS.Client
