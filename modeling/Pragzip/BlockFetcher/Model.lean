import Pragzip.BlockFetcher.Cache
import Pragzip.ThreadPool.Model

/-!
# Block fetcher — the model

`BlockFetcher` decodes blocks on its thread pool: `get` on the owner thread takes a block from the
caches or from the prefetches in flight, or submits an on-demand decode, and `prefetchNewBlocks`
submits decodes of the blocks the fetching strategy predicts. The workers run the tasks meanwhile.

Owner and workers share only the pool, under its mutex, and the futures. So one owner step runs
from one access to these to the next: `get` up to its first `prefetchNewBlocks`, one turn of each
loop of `prefetchNewBlocks`, its closing `unprocessedTasksCount` check, one `wait_for` of `get`.
Between any two steps a worker may take a task or finish one. What the block finder, the fetching
strategy and `getPartitionOffsetFromOffset` answer is part of the event; they throw nothing.

* `BlockData`, `GetResult`, `Request`, `Stage`, `Owner`, `BlockFetcher`, `BlockFetcher.new`;
* `isInCacheOrQueue`, `insertIntoCache`, `takeFromPrefetchQueue`, `getFromCaches`,
  `submitOnDemandTask`, `processReadyPrefetch`, `threadPoolSaturated`, `touchInCacheIfExists`,
  `prefetchBlock`, `get`: the members of `BlockFetcher`;
* `Event`, `BlockFetcher.step`, `BlockFetcher.Reachable`: the runs, with the events a run may take
  as a parameter; `Reachable.of_foldlM`: a sequence of events from a reachable state.
-/

namespace Pragzip

/-- `std::numeric_limits<size_t>::max()`, the next block offset given for the last block. -/
def sizeMax : Nat := 2 ^ 64 - 1

/-- What `decodeAndMeasureBlock(blockOffset, nextBlockOffset)` returns: the block decoded from
`blockOffset` up to `nextBlockOffset`, named by the two offsets. -/
structure BlockData where
  blockOffset : Nat
  nextBlockOffset : Nat
  deriving DecidableEq, Repr

/-- How a call of `get` ended. -/
inductive GetResult
  /-- It returned the block. -/
  | blockData (blockData : BlockData)
  /-- `return {}`: only the caches were to be checked, and they missed. -/
  | empty
  /-- `queuedResult.get()` rethrew the exception of the decode. -/
  | decodeFailed
  /-- `prefetchNewBlocks` threw its `std::logic_error`. -/
  | logicError (what : String)
  deriving DecidableEq, Repr

/-- The locals of a call of `get`: the offset, the block found in a cache and the task of the
future of the block. -/
structure Request where
  blockOffset : Nat
  cachedResult : Option BlockData
  queuedResult : Option Nat
  deriving DecidableEq, Repr

/-- Where a call of `get` is. -/
inductive Stage
  /-- In the loop of `processReadyPrefetches`, with the offsets of `m_prefetching` still to visit. -/
  | processReadyPrefetches (blockOffsets : List Nat)
  /-- In the loop of `prefetchNewBlocks` over the predicted indexes still to try. -/
  | prefetchLoop (blockIndexesToPrefetch blockOffsetsToPrefetch : List Nat)
  /-- In the loop of `get` that waits on `queuedResult`. -/
  | waitFor
  deriving DecidableEq, Repr

/-- The owner thread: outside `get`, or in a call of it. -/
inductive Owner
  | idle
  | get (request : Request) (stage : Stage)
  deriving DecidableEq, Repr

/-- The task of the future that `get` holds. -/
def Owner.queuedResult : Owner → Option Nat
  | .idle => none
  | .get request _ => request.queuedResult

/-- The offset `get` fetches. -/
def Owner.blockOffset : Owner → Option Nat
  | .idle => none
  | .get request _ => some request.blockOffset

/-- `m_prefetching.emplace(blockOffset, task)` on the map as a list in increasing order of the
offset: nothing is inserted where the offset is present. -/
def emplace (blockOffset task : Nat) : List (Nat × Nat) → List (Nat × Nat)
  | [] => [(blockOffset, task)]
  | (o, t) :: rest =>
    if blockOffset < o then (blockOffset, task) :: (o, t) :: rest
    else if blockOffset = o then (o, t) :: rest
    else (o, t) :: emplace blockOffset task rest

/-- The members of `BlockFetcher` that `get` reads, the pool's workers, and what the calls of
`get` returned. A task is named as in `ThreadPool`; the futures are named by their tasks. -/
structure BlockFetcher where
  /-- `m_parallelization`. -/
  parallelization : Nat
  /-- `m_cache`, the blocks returned by `get`. -/
  cache : Cache BlockData
  /-- `m_prefetchCache`, the prefetched blocks. -/
  prefetchCache : Cache BlockData
  /-- `m_prefetching`: the offset of each prefetch in flight and the task of its future, in
  increasing order of the offset. -/
  prefetching : List (Nat × Nat)
  /-- `m_threadPool`. -/
  threadPool : ThreadPool
  /-- `m_threadPool.size()`: the workers, none after `stop`. -/
  threadCount : Nat
  /-- The offsets each decode task was submitted with, by task. -/
  decodes : List (Nat × BlockData)
  /-- The tasks the workers run. -/
  running : List Nat
  /-- The finished tasks and what their futures hold: the block, or `none` where the task
  threw. -/
  finished : List (Nat × Option BlockData)
  /-- The owner thread. -/
  owner : Owner
  /-- The offset and the result of each call of `get` that returned or threw. -/
  results : List (Nat × GetResult)
  deriving DecidableEq, Repr

namespace BlockFetcher

/-- The constructor: `parallelization` threads, or one per core where it is `0`; an on-demand
cache of `max(16, m_parallelization)` blocks and a prefetch cache of `2 * m_parallelization`. -/
def new (parallelization availableCores : Nat) : BlockFetcher :=
  let parallelization := if parallelization = 0 then max 1 availableCores else parallelization
  { parallelization
    cache := ⟨max 16 parallelization, []⟩
    prefetchCache := ⟨2 * parallelization, []⟩
    prefetching := []
    threadPool := ThreadPool.init
    threadCount := parallelization
    decodes := []
    running := []
    finished := []
    owner := .idle
    results := [] }

variable (s : BlockFetcher)

/-- `isInCacheOrQueue(blockOffset)`. -/
def isInCacheOrQueue (blockOffset : Nat) : Bool :=
  (s.prefetching.lookup blockOffset).isSome || s.cache.test blockOffset ||
    s.prefetchCache.test blockOffset

/-- `insertIntoCache(blockOffset, blockData)`, with `sequential` what `isSequential()` of the
fetching strategy answers. -/
def insertIntoCache (sequential : Bool) (blockOffset : Nat) (blockData : BlockData) :
    BlockFetcher :=
  { s with cache := (if sequential then s.cache.clear else s.cache).insert blockOffset blockData }

/-- `takeFromPrefetchQueue(blockOffset)`: the future of the prefetch of `blockOffset`, taken out
of `m_prefetching`. -/
def takeFromPrefetchQueue (blockOffset : Nat) : Option Nat × BlockFetcher :=
  match s.prefetching.lookup blockOffset with
  | some task => (some task, { s with prefetching := s.prefetching.filter (·.1 != blockOffset) })
  | none => (none, s)

/-- `getFromCaches(blockOffset)`: the future of a prefetch in flight, else the block of the
on-demand cache, else the block of the prefetch cache, which moves to the on-demand cache. -/
def getFromCaches (sequential : Bool) (blockOffset : Nat) :
    (Option BlockData × Option Nat) × BlockFetcher :=
  match s.takeFromPrefetchQueue blockOffset with
  | (some task, s) => ((none, some task), s)
  | (none, s) =>
    match s.cache.get blockOffset with
    | (some blockData, cache) => ((some blockData, none), { s with cache })
    | (none, cache) =>
      match s.prefetchCache.get blockOffset with
      | (some blockData, prefetchCache) =>
        ((some blockData, none),
          insertIntoCache { s with cache, prefetchCache := prefetchCache.evict blockOffset }
            sequential blockOffset blockData)
      | (none, prefetchCache) => ((none, none), { s with cache, prefetchCache })

/-- `m_threadPool.submit(..., 0)` of a task that decodes from `blockOffset` up to
`nextBlockOffset`, and the task. -/
def submitDecode (blockOffset nextBlockOffset : Nat) : Nat × BlockFetcher :=
  let (threadPool, task) := s.threadPool.submit 0
  (task, { s with threadPool, decodes := s.decodes ++ [(task, ⟨blockOffset, nextBlockOffset⟩)] })

/-- `submitOnDemandTask(blockOffset, nextBlockOffset)`. -/
def submitOnDemandTask (blockOffset : Nat) (nextBlockOffset : Option Nat) : Nat × BlockFetcher :=
  s.submitDecode blockOffset (nextBlockOffset.getD sizeMax)

/-- One turn of the loop of `processReadyPrefetches`, at the prefetch of `blockOffset`: a finished
prefetch leaves `m_prefetching`, and its block, unless it threw, goes to the prefetch cache. -/
def processReadyPrefetch (blockOffset : Nat) : BlockFetcher :=
  match s.prefetching.lookup blockOffset with
  | some task =>
    match s.finished.lookup task with
    | some result =>
      let s := { s with prefetching := s.prefetching.filter (·.1 != blockOffset) }
      match result with
      | some blockData => { s with prefetchCache := s.prefetchCache.insert blockOffset blockData }
      | none => s
    | none => s
  | none => s

/-- `threadPoolSaturated()`: one worker is kept for the block `get` waits on. -/
def threadPoolSaturated : Bool := decide (s.prefetching.length + 1 ≥ s.threadCount)

/-- `touchInCacheIfExists(blockOffset)`. -/
def touchInCacheIfExists (blockOffset : Nat) : BlockFetcher :=
  { s with
    prefetchCache :=
      if s.prefetchCache.test blockOffset then s.prefetchCache.touch blockOffset else s.prefetchCache
    cache := if s.cache.test blockOffset then s.cache.touch blockOffset else s.cache }

/-- One turn of the loop of `prefetchNewBlocks` over the predicted indexes, and whether it breaks
the loop. What the block finder answers for the index is given: whether it lies past the end of a
finalized block finder, the offsets of the index and of the next one, and the partition offset of
the offset (`none` without `getPartitionOffsetFromOffset`). -/
def prefetchBlock (blockOffsetsToPrefetch : List Nat) (beyondEnd : Bool)
    (prefetchBlockOffset nextPrefetchBlockOffset partitionOffset : Option Nat) :
    Bool × BlockFetcher :=
  if s.threadPoolSaturated then (true, s)
  else if beyondEnd then (false, s)
  else match prefetchBlockOffset, nextPrefetchBlockOffset with
    | some blockOffset, some nextBlockOffset =>
      if s.isInCacheOrQueue blockOffset || (partitionOffset.map s.isInCacheOrQueue).getD false then
        (false, s)
      else if (s.prefetchCache.nextNthEviction (s.prefetching.length + 1)).any
          blockOffsetsToPrefetch.contains then
        (true, s)
      else
        let (task, s) := s.submitDecode blockOffset nextBlockOffset
        (false, { s with prefetching := emplace blockOffset task s.prefetching })
    | _, _ => (false, s)

/-- The owner enters `prefetchNewBlocks`, whose first loop visits the prefetches in flight. -/
def prefetchNewBlocks (request : Request) : BlockFetcher :=
  { s with owner := .get request (.processReadyPrefetches (s.prefetching.map Prod.fst)) }

/-- `prefetchNewBlocks` returns to `get`, which returns a cached block or else waits on its
future. -/
def afterPrefetchNewBlocks (request : Request) : BlockFetcher :=
  match request.cachedResult with
  | some blockData =>
    { s with owner := .idle, results := s.results ++ [(request.blockOffset, .blockData blockData)] }
  | none => { s with owner := .get request .waitFor }

/-- `get(blockOffset, ...)` up to its first `prefetchNewBlocks`. The block finder gives
`nextBlockOffset` for the next index, and `isSequential()` answers `sequential`. -/
def get (blockOffset : Nat) (onlyCheckCaches : Bool) (nextBlockOffset : Option Nat)
    (sequential : Bool) : BlockFetcher :=
  let ((cachedResult, queuedResult), s) := s.getFromCaches sequential blockOffset
  if cachedResult.isNone && queuedResult.isNone then
    if onlyCheckCaches then { s with results := s.results ++ [(blockOffset, .empty)] }
    else
      let (task, s) := s.submitOnDemandTask blockOffset nextBlockOffset
      s.prefetchNewBlocks ⟨blockOffset, cachedResult, some task⟩
  else s.prefetchNewBlocks ⟨blockOffset, cachedResult, queuedResult⟩

/-- The text of the `std::logic_error` at the end of `prefetchNewBlocks`. -/
def tooManyTasks : String :=
  "The thread pool should not have more tasks than there are prefetching futures!"

end BlockFetcher

/-- A step of the owner or of a worker, with what the block finder, the fetching strategy and
`getPartitionOffsetFromOffset` answer in it. -/
inductive Event
  /-- `get(blockOffset, ..., onlyCheckCaches)` up to `prefetchNewBlocks`. -/
  | get (blockOffset : Nat) (onlyCheckCaches : Bool) (nextBlockOffset : Option Nat)
      (sequential : Bool)
  /-- A turn of the loop of `processReadyPrefetches`. -/
  | processReadyPrefetch
  /-- `prefetchNewBlocks` after `processReadyPrefetches`: the saturation check, the indexes the
  strategy predicts and the offsets the block finder has for them, and the touches. -/
  | prefetch (blockIndexesToPrefetch blockOffsetsFound : List Nat)
  /-- A turn of the loop of `prefetchNewBlocks` over the predicted indexes. -/
  | prefetchIndex (beyondEnd : Bool)
      (prefetchBlockOffset nextPrefetchBlockOffset partitionOffset : Option Nat)
  /-- The `unprocessedTasksCount(0)` check closing `prefetchNewBlocks`. -/
  | checkUnprocessedTasks
  /-- A `wait_for` of `get` on its future, and the rest of `get` once the future is ready. -/
  | waitFor (sequential : Bool)
  /-- `submitTaskWithHighPriority`, from any thread. -/
  | submitTaskWithHighPriority
  /-- `stopThreadPool()` of the owner, which joins the workers. -/
  | stopThreadPool
  /-- `clearCache()` of the owner between calls of `get`. -/
  | clearCache
  /-- A free worker takes a task. -/
  | dequeue
  /-- A worker finishes its task, which may throw. -/
  | finish (task : Nat) (threw : Bool)

namespace BlockFetcher

/-- The fetcher after an event, or `none` where the event cannot happen. -/
def step (s : BlockFetcher) : Event → Option BlockFetcher
  | .get blockOffset onlyCheckCaches nextBlockOffset sequential =>
    match s.owner with
    | .idle => some (s.get blockOffset onlyCheckCaches nextBlockOffset sequential)
    | .get _ _ => none
  | .processReadyPrefetch =>
    match s.owner with
    | .get request (.processReadyPrefetches (blockOffset :: blockOffsets)) =>
      some { s.processReadyPrefetch blockOffset with
        owner := .get request (.processReadyPrefetches blockOffsets) }
    | _ => none
  | .prefetch blockIndexesToPrefetch blockOffsetsFound =>
    match s.owner with
    | .get request (.processReadyPrefetches []) =>
      if s.threadPoolSaturated then some (s.afterPrefetchNewBlocks request)
      else
        let blockOffsetsToPrefetch :=
          List.replicate blockIndexesToPrefetch.length 0 ++ blockOffsetsFound
        let s := blockOffsetsToPrefetch.reverse.foldl touchInCacheIfExists s
        some { s with owner := .get request (.prefetchLoop blockIndexesToPrefetch blockOffsetsToPrefetch) }
    | _ => none
  | .prefetchIndex beyondEnd prefetchBlockOffset nextPrefetchBlockOffset partitionOffset =>
    match s.owner with
    | .get request (.prefetchLoop (_ :: blockIndexes) blockOffsetsToPrefetch) =>
      let (stop, s) := s.prefetchBlock blockOffsetsToPrefetch beyondEnd prefetchBlockOffset
        nextPrefetchBlockOffset partitionOffset
      some { s with
        owner := .get request (.prefetchLoop (if stop then [] else blockIndexes) blockOffsetsToPrefetch) }
    | _ => none
  | .checkUnprocessedTasks =>
    match s.owner with
    | .get request (.prefetchLoop [] _) =>
      if s.threadPool.unprocessedTasksCount (some 0) > s.parallelization then
        some { s with
          owner := .idle, results := s.results ++ [(request.blockOffset, .logicError tooManyTasks)] }
      else some (s.afterPrefetchNewBlocks request)
    | _ => none
  | .waitFor sequential =>
    match s.owner with
    | .get request .waitFor =>
      match request.queuedResult with
      | some task =>
        match s.finished.lookup task with
        | none => some (s.prefetchNewBlocks request)
        | some none =>
          some { s with owner := .idle, results := s.results ++ [(request.blockOffset, .decodeFailed)] }
        | some (some blockData) =>
          some { s.insertIntoCache sequential request.blockOffset blockData with
            owner := .idle, results := s.results ++ [(request.blockOffset, .blockData blockData)] }
      | none => none
    | _ => none
  | .submitTaskWithHighPriority => some { s with threadPool := (s.threadPool.submit (-1)).1 }
  | .stopThreadPool =>
    if s.owner = .idle ∧ s.running = [] then
      some { s with threadPool := s.threadPool.stop, threadCount := 0 }
    else none
  | .clearCache =>
    match s.owner with
    | .idle => some { s with cache := s.cache.clear }
    | .get _ _ => none
  | .dequeue =>
    if s.running.length < s.threadCount then
      s.threadPool.dequeue.map fun (task, threadPool) =>
        { s with threadPool, running := s.running ++ [task] }
    else none
  | .finish task threw =>
    if task ∈ s.running then
      some { s with
        running := s.running.erase task
        finished := s.finished ++ [(task, if threw then none else s.decodes.lookup task)] }
    else none

/-- The states that runs from a new fetcher reach, taking only events that `Allowed` admits. -/
inductive Reachable (Allowed : BlockFetcher → Event → Prop) : BlockFetcher → Prop
  | new (parallelization availableCores : Nat) :
      Reachable Allowed (BlockFetcher.new parallelization availableCores)
  | step {s s' : BlockFetcher} (event : Event) :
      Reachable Allowed s → Allowed s event → s.step event = some s' → Reachable Allowed s'

theorem Reachable.of_foldlM {s s' : BlockFetcher} :
    ∀ (events : List Event), Reachable (fun _ _ => True) s →
      events.foldlM BlockFetcher.step s = some s' → Reachable (fun _ _ => True) s'
  | [], hs, h => by
    cases h
    exact hs
  | event :: events, hs, h => by
    rw [List.foldlM_cons, Option.bind_eq_bind, Option.bind_eq_some] at h
    obtain ⟨s₁, h₁, h⟩ := h
    exact Reachable.of_foldlM events (hs.step event trivial h₁) h

end BlockFetcher

end Pragzip
