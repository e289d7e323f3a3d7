import EthereumJS.Client.BlockFetcher
import EthereumJS.Client.Fetcher
import Mathlib.Data.List.Sort

/-! # The pipeline of a block fetcher

`Fetcher` with the overrides of `BlockFetcherBase`, from the heap `in` over the requests and the
heap `out` to the stream of the writer. A job under request is an object of its own: when it
expires a copy goes back to `in`, and its answer may still come. A write that fails, but not for
good, gives its jobs back.
-/

namespace EthereumJS.Client

inductive JobStatus
  | idle
  | expired
  | active
  deriving DecidableEq

structure BlockJob (Item : Type) where
  task : JobTask
  index : Nat
  state : JobStatus
  partialResult : Option (List Item)
  result : Option (List Item)
  deriving DecidableEq

/-- The options, and what the subclasses define: the length of a reply that has one, and
`process` with the `partialResult` that it leaves. -/
structure PipelineConfig (Reply Item : Type) where
  maxPerRequest : Nat
  maxFetcherJobs : Nat
  maxFetcherRequests : Nat
  maxQueue : Nat
  length : Reply → Option Nat
  process : BlockJob Item → Reply → Option (List Item) × Option (List Item)

/-- A fetcher. The last four fields are not kept by the code: the jobs whose write succeeded, the
indices of the jobs that were created and of those that `clear` removed, and the index of each job
that was pushed to the stream, in this order. -/
structure JobPipeline (Item : Type) where
  first : Int
  count : Int
  reverse : Bool
  inHeap : List (BlockJob Item)
  requests : List (BlockJob Item)
  out : List (BlockJob Item)
  stream : List (BlockJob Item)
  total : Nat
  processed : Int
  finished : Nat
  running : Bool
  syncErrored : Bool
  written : List (BlockJob Item)
  created : List Nat
  cleared : List Nat
  entered : List Nat
  deriving DecidableEq

namespace JobPipeline

variable {Reply Item : Type}

/-- The constructor. -/
def create (first count : Int) (reverse : Bool) : JobPipeline Item :=
  { first := first, count := count, reverse := reverse, inHeap := [], requests := [], out := []
    stream := [], total := 0, processed := 0, finished := 0, running := false
    syncErrored := false, written := [], created := [], cleared := [], entered := [] }

/-- The heap with a further job; its first job has the least index. -/
def insertJob (job : BlockJob Item) (heap : List (BlockJob Item)) : List (BlockJob Item) :=
  heap.orderedInsert (fun a b => a.index ≤ b.index) job

def enqueue (dequeued : Bool) (self : JobPipeline Item) (job : BlockJob Item) :
    JobPipeline Item :=
  if self.running then
    { self with
      processed := if dequeued then self.processed - 1 else self.processed
      inHeap := insertJob { job with state := .idle } self.inHeap }
  else self

/-- One round of the loop of `dequeue`. -/
def dequeueNext (self : JobPipeline Item) : Option (JobPipeline Item) :=
  match self.out with
  | [] => none
  | job :: out =>
    if job.index ≤ self.processed then
      some { self with
        processed := self.processed + 1
        out := out
        stream := self.stream ++ [job]
        entered := self.entered ++ [job.index] }
    else none

/-- `dequeue`, with the number of jobs that the stream takes before it is full. -/
def dequeue : Nat → JobPipeline Item → JobPipeline Item
  | room, self =>
    match self.dequeueNext with
    | none => self
    | some self =>
      match room with
      | 0 => self
      | room + 1 => dequeue room self

/-- `autoRestart` makes no difference to a fetcher that runs. -/
def enqueueTask (self : JobPipeline Item) (task : JobTask) : JobPipeline Item :=
  if self.syncErrored || !self.running then self
  else
    { self with
      inHeap := insertJob
        { task := task, index := self.total, state := .idle, partialResult := none
          result := none } self.inHeap
      total := self.total + 1
      created := self.created ++ [self.total] }

variable (config : PipelineConfig Reply Item)

/-- `tasks` with its default arguments. -/
def tasks (self : JobPipeline Item) : List JobTask × JobPipeline Item :=
  let maxTasks := config.maxFetcherJobs
  let (tasks, first, count) :=
    BlockFetcherBase.fullTasks self.reverse config.maxPerRequest maxTasks self.first self.count
  if count > 0 && tasks.length < maxTasks then
    (tasks ++ [{ first := first, count := count }],
      { self with first := BlockFetcherBase.advance self.reverse first count, count := 0 })
  else (tasks, { self with first := first, count := count })

def nextTasks (self : JobPipeline Item) : JobPipeline Item :=
  if self.inHeap.length = 0 && self.count > 0 &&
      self.processed - self.finished < config.maxFetcherRequests then
    let (tasks, self) := self.tasks config
    tasks.foldl enqueueTask self
  else self

def next (surroundings : Surroundings) (self : JobPipeline Item) : JobPipeline Item :=
  let self := self.nextTasks config
  match self.inHeap with
  | [] => if self.finished ≠ self.total then self else { self with running := false }
  | job :: rest =>
    if surroundings.readableFull then self
    else if job.index > self.finished + config.maxQueue then self
    else if self.processed = self.total then self
    else if surroundings.idlePeer then
      { self with
        inHeap := rest
        requests := self.requests ++ [{ job with state := .active }] }
    else self

/-- The part of `success` between the check of the state and `next`. -/
def settle (room : Nat) (self : JobPipeline Item) (job : BlockJob Item) :
    Option Reply → JobPipeline Item
  | none => self.enqueue false job
  | some reply =>
    if config.length reply = some 0 then self.enqueue false job
    else
      let (partialResult, result) := config.process job reply
      let job := { job with partialResult := partialResult, result := result }
      match result with
      | some _ => { self with out := insertJob job self.out }.dequeue room
      | none => self.enqueue false job

def success (surroundings : Surroundings) (self : JobPipeline Item) (job : BlockJob Item)
    (result : Option Reply) : JobPipeline Item :=
  if job.state ≠ .active then self
  else (self.settle config surroundings.room job result).next config surroundings

/-- `failure` of jobs that are not lost for good. -/
def failure (surroundings : Surroundings) (dequeued : Bool) (self : JobPipeline Item)
    (jobItems : List (BlockJob Item)) : JobPipeline Item :=
  ((jobItems.filter fun jobItem => jobItem.state = .active).foldl (enqueue dequeued) self).next
    config surroundings

/-- The job of a request whose promise is settled, and the fetcher without the request. Its timer
is cleared in the same turn. -/
def takeRequest (self : JobPipeline Item) (request : Nat) :
    Option (BlockJob Item × JobPipeline Item) :=
  self.requests[request]?.map fun job =>
    (job, { self with requests := self.requests.eraseIdx request })

/-- `expire`: the job object stays with its request. -/
def expire (self : JobPipeline Item) (request : Nat) (job : BlockJob Item) : JobPipeline Item :=
  { self with requests := self.requests.set request { job with state := .expired } }.enqueue
    false { job with state := .expired }

/-- `_write` of the next jobs when all are stored. -/
def writeSucceeds (self : JobPipeline Item) (jobs : Nat) : JobPipeline Item :=
  { self with
    finished := self.finished + (self.stream.take jobs).length
    written := self.written ++ self.stream.take jobs
    stream := self.stream.drop jobs }

/-- The first job of a write that failed begins earlier. -/
def stepBackFirst (stepBack : Int) : List (BlockJob Item) → List (BlockJob Item)
  | [] => []
  | job :: jobs =>
    { job with
      task := { first := job.task.first - stepBack, count := job.task.count + stepBack } } :: jobs

/-- `_write` of the next jobs when an error is not fatal. -/
def writeFails (surroundings : Surroundings) (self : JobPipeline Item) (jobs : Nat)
    (stepBack : Int) : JobPipeline Item :=
  { self with stream := self.stream.drop jobs }.failure config surroundings true
    (stepBackFirst stepBack (self.stream.take jobs))

/-- `clear` of `Fetcher`. -/
def clearHeap (self : JobPipeline Item) : JobPipeline Item :=
  { self with total := self.total - self.inHeap.length, inHeap := [] }

/-- The least first block and the greatest last block of the range and the jobs. -/
def firstAndLast (self : JobPipeline Item) : Int × Int :=
  self.inHeap.foldl
    (fun range job =>
      (min range.1 job.task.first, max range.2 (job.task.first + job.task.count - 1)))
    (self.first, self.first + self.count - 1)

/-- `clear` of `BlockFetcherBase`, which leaves an empty heap to that of `Fetcher`. -/
def clear (self : JobPipeline Item) : JobPipeline Item :=
  let (first, last) := self.firstAndLast
  { self with
    first := first
    count := last - first + 1
    cleared := self.cleared ++ self.inHeap.map BlockJob.index
    inHeap := [] }.clearHeap

/-- What can happen to a fetcher; a request or a number of jobs that is not there is none. -/
inductive PipelineEvent (Reply : Type)
  | enqueueTask (task : JobTask)
  | next (surroundings : Surroundings)
  | answer (request : Nat) (result : Option Reply) (surroundings : Surroundings)
  | reject (request : Nat) (surroundings : Surroundings)
  | expire (request : Nat)
  | dequeue (room : Nat)
  | writeSucceeds (jobs : Nat)
  | writeFails (jobs : Nat) (stepBack : Int) (surroundings : Surroundings)
  | clear

/-- A step of a fetcher that runs. -/
def step (self : JobPipeline Item) (event : PipelineEvent Reply) : Option (JobPipeline Item) :=
  if self.running then
    match event with
    | .enqueueTask task => some (self.enqueueTask task)
    | .next surroundings => some (self.next config surroundings)
    | .answer request result surroundings =>
      (self.takeRequest request).map fun (job, self) => self.success config surroundings job result
    | .reject request surroundings =>
      (self.takeRequest request).map fun (job, self) =>
        self.failure config surroundings false [job]
    | .expire request =>
      match self.requests[request]? with
      | some job =>
        -- the timer has run out already when the state is `expired`
        if job.state = .active then some (self.expire request job) else none
      | none => none
    | .dequeue room => some (self.dequeue room)
    | .writeSucceeds jobs =>
      if 0 < jobs ∧ jobs ≤ self.stream.length then some (self.writeSucceeds jobs) else none
    | .writeFails jobs stepBack surroundings =>
      if 0 < jobs ∧ jobs ≤ self.stream.length then
        some (self.writeFails config surroundings jobs stepBack)
      else none
    | .clear => some self.clear
  else none

/-- `_fetch` as far as its loop. -/
def start (first count : Int) (reverse : Bool) : JobPipeline Item :=
  { create first count reverse with running := true }.nextTasks config

/-- The state after some events, if they can happen. -/
def run (self : JobPipeline Item) : List (PipelineEvent Reply) → Option (JobPipeline Item)
  | [] => some self
  | event :: events => (self.step config event).bind fun self => run self events

end JobPipeline

end EthereumJS.Client
