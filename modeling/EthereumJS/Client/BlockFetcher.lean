import Mathlib.Tactic

/-! # Ranges of blocks to fetch

`BlockFetcherBase` of `client/src/sync/fetcher/blockfetcherbase.ts` with what it takes from
`fetcher.ts`, as long as no peer is idle and so no job is taken from the `in` queue. Of a job only
the task is kept: the order in which the heap gives jobs away does not matter to `clear`.
-/

namespace EthereumJS.Client

structure JobTask where
  first : Int
  count : Int
  deriving DecidableEq

structure FetcherConfig where
  maxPerRequest : Nat
  maxFetcherJobs : Nat
  maxFetcherRequests : Nat
  maxPerRequest_pos : 1 ≤ maxPerRequest
  maxFetcherJobs_pos : 1 ≤ maxFetcherJobs

/-- A fetcher; `fetching` says whether there is a `fetchPromise`. -/
structure BlockFetcherBase where
  first : Int
  count : Int
  reverse : Bool
  inQueue : List JobTask
  total : Int
  processed : Int
  finished : Int
  running : Bool
  syncErrored : Bool
  fetching : Bool
  deriving DecidableEq

namespace BlockFetcherBase

def create (first count : Int) (reverse : Bool) : BlockFetcherBase :=
  { first := first, count := count, reverse := reverse, inQueue := [], total := 0, processed := 0
    finished := 0, running := false, syncErrored := false, fetching := false }

def enqueueTask (self : BlockFetcherBase) (autoRestart : Bool) (task : JobTask) :
    BlockFetcherBase :=
  if self.syncErrored || (!self.running && !autoRestart) then self
  else
    -- `fetch` does nothing while the promise of an earlier call is there
    let restart := !self.running && autoRestart && !self.fetching
    { self with
      inQueue := self.inQueue ++ [task]
      total := self.total + 1
      running := self.running || restart
      fetching := self.fetching || restart }

def enqueueTasks (self : BlockFetcherBase) (autoRestart : Bool) (tasks : List JobTask) :
    BlockFetcherBase :=
  tasks.foldl (fun self task => self.enqueueTask autoRestart task) self

def advance (reverse : Bool) (first count : Int) : Int :=
  if !reverse then first + count else first - count

/-- The loop over full tasks, of which `jobs` more may be made. -/
def fullTasks (reverse : Bool) (max : Int) : Nat → Int → Int → List JobTask × Int × Int
  | 0, first, count => ([], first, count)
  | jobs + 1, first, count =>
    if count ≥ max then
      let (tasks, first', count') :=
        fullTasks reverse max jobs (advance reverse first max) (count - max)
      ({ first := first, count := max } :: tasks, first', count')
    else ([], first, count)

variable (config : FetcherConfig)

/-- `tasks` with its default arguments. -/
def tasks (self : BlockFetcherBase) : List JobTask × BlockFetcherBase :=
  let maxTasks := config.maxFetcherJobs
  let (tasks, first, count) :=
    fullTasks self.reverse config.maxPerRequest maxTasks self.first self.count
  if count > 0 && tasks.length < maxTasks then
    (tasks ++ [{ first := first, count := count }],
      { self with first := advance self.reverse first count, count := 0 })
  else (tasks, { self with first := first, count := count })

/-- Whether `nextTasks` makes tasks. -/
def makesTasks (self : BlockFetcherBase) : Bool :=
  self.inQueue.length = 0 && self.count > 0 &&
    self.processed - self.finished < config.maxFetcherRequests

def nextTasks (self : BlockFetcherBase) : BlockFetcherBase :=
  if self.makesTasks config then
    let (tasks, self) := self.tasks config
    self.enqueueTasks false tasks
  else self

/-- `next` when no peer is idle. -/
def next (self : BlockFetcherBase) : BlockFetcherBase :=
  let self := self.nextTasks config
  if self.inQueue.length = 0 && self.finished = self.total then { self with running := false }
  else self

/-- `fetch` as far as its first wait. -/
def fetch (self : BlockFetcherBase) : BlockFetcherBase :=
  if self.running || self.fetching then self
  else ({ self with running := true, fetching := true }.nextTasks config).next config

/-- The end of the loop of an earlier `fetch`, which does not run any more. -/
def fetchEnds (self : BlockFetcherBase) : BlockFetcherBase :=
  if self.running then self else { self with fetching := false }

/-- The least first block and the greatest last block of the range and the jobs. -/
def firstAndLast (self : BlockFetcherBase) : Int × Int :=
  self.inQueue.foldl
    (fun range task => (Min.min range.1 task.first, Max.max range.2 (task.first + task.count - 1)))
    (self.first, self.first + self.count - 1)

def clear (self : BlockFetcherBase) : BlockFetcherBase :=
  let (first, last) := self.firstAndLast
  { self with first := first, count := last - first + 1, inQueue := [] }

/-- Whether each of so many numbers from `seqCheckNum` on is in the list. -/
def bulkCheck (numberList : List Int) : Nat → Int → Bool
  | 0, _ => true
  | rounds + 1, seqCheckNum =>
    decide (seqCheckNum ∈ numberList) && bulkCheck numberList rounds (seqCheckNum + 1)

/-- The tasks that `enqueueByNumberList` makes of the numbers to fetch again. -/
def numberTasks (numberList : List Int) (min : Int) : List JobTask :=
  let numBlocks := numberList.length
  if bulkCheck numberList numBlocks min && numBlocks > 0 then
    [{ first := min, count := numBlocks }]
  else numberList.map fun first => { first := first, count := 1 }

def updateHeight (self : BlockFetcherBase) (max : Int) : BlockFetcherBase :=
  let last := self.first + self.count - 1
  if max > last then { self with count := self.count + (max - last) } else self

def enqueueByNumberList (self : BlockFetcherBase) (numberList : List Int) (min max : Int) :
    BlockFetcherBase :=
  let self := self.updateHeight max
  let numberList := numberList.filter fun num => num ≤ self.first
  let self := self.enqueueTasks true (numberTasks numberList min)
  if self.inQueue.length = 0 then self.nextTasks config else self

inductive Call
  | fetch
  | next
  | fetchEnds
  | nextTasks
  | enqueueByNumberList (numberList : List Int) (min max : Int)
  | clear

def step (self : BlockFetcherBase) : Call → BlockFetcherBase
  | .fetch => self.fetch config
  | .next => self.next config
  | .fetchEnds => self.fetchEnds
  | .nextTasks => self.nextTasks config
  | .enqueueByNumberList numberList min max => self.enqueueByNumberList config numberList min max
  | .clear => self.clear

def run (self : BlockFetcherBase) (calls : List Call) : BlockFetcherBase :=
  calls.foldl (step config) self

end BlockFetcherBase

end EthereumJS.Client
