import Pragzip.BlockFetcher.Invariant

/-!
# Block fetcher — what a call of `get` waits on

A call of `get` that holds a future loops in `queuedResult.wait_for(1ms)` until the decode of the
future has finished, running `prefetchNewBlocks` between two waits. The owner's own steps end the
call once the future has finished; until then the call waits on the workers, which take the front
of the first non-empty deque, in increasing order of the priority. `stopThreadPool` joins the
workers, and then nothing finishes any more: a later call of `get` whose future was not finished
waits forever.

* `queued`: the tasks in the deques of the pool, in the order the workers take them; a decode,
  of the greatest priority, is queued last (`queued_emplaceBack_of_le`);
* `Live`, `Live.step`, `Live.of_reachable`: every decode is queued, running or finished, the
  running tasks are at most the workers, a pool with workers runs, and no priority is above `0`;
* `Event.byOwner`, `worker_step`: the events of the workers and of other threads;
* `KeepsWorkers`, `CallStep`, `Stage.rank`, **`owner_step`**: an owner step leaves the workers
  alone, and lowers the stage of a call or ends it once its future has finished;
* `hang_step`, **`blockFetcher_get_hangs_after_stop`**: after `stopThreadPool`, a call waiting
  on an unfinished decode never ends.
-/

namespace Pragzip

/-! ## The queued tasks -/

/-- The tasks in the deques, in increasing order of the priority, each deque front first: the
order in which the workers take them. -/
def queued : TaskMap → List Nat
  | [] => []
  | (_, d) :: m => d ++ queued m

theorem mem_queued_emplaceBack {p : Int} {t t' : Nat} :
    ∀ {m : TaskMap}, t' ∈ queued (emplaceBack p t m) ↔ t' = t ∨ t' ∈ queued m
  | [] => by simp [emplaceBack, queued]
  | (q, d) :: m => by
    simp only [emplaceBack]
    split_ifs
    · simp [queued]
    · simp [queued, or_comm, or_left_comm]
    · simp only [queued, List.mem_append, mem_queued_emplaceBack, or_left_comm]

theorem queued_emplaceBack_of_le {p : Int} {t : Nat} :
    ∀ {m : TaskMap}, (m.map Prod.fst).Sorted (· < ·) → (∀ q ∈ m.map Prod.fst, q ≤ p) →
      queued (emplaceBack p t m) = queued m ++ [t]
  | [], _, _ => rfl
  | (q, d) :: m, hs, hle => by
    rw [List.map_cons, List.sorted_cons] at hs
    simp only [List.map_cons, List.mem_cons, forall_eq_or_imp] at hle
    simp only [emplaceBack, if_neg (not_lt.2 hle.1)]
    split_ifs with he
    · have hm : m = [] := List.eq_nil_iff_forall_not_mem.2 fun e he' => by
        have h₁ := hs.1 e.1 (List.mem_map_of_mem _ he')
        have h₂ := hle.2 e.1 (List.mem_map_of_mem _ he')
        omega
      subst hm
      simp [queued]
    · simp only [queued, queued_emplaceBack_of_le hs.2 hle.2, List.append_assoc]

theorem queued_of_popFront : ∀ {m : TaskMap} {t : Nat} {m' : TaskMap},
    popFront m = some (t, m') → queued m = t :: queued m' ∧ m'.map Prod.fst = m.map Prod.fst
  | [], _, _, h => by cases h
  | (_, []) :: rest, _, _, h => by
    simp only [popFront, Option.map_eq_some'] at h
    obtain ⟨⟨_, _⟩, hr, ⟨⟩⟩ := h
    obtain ⟨hq, hk⟩ := queued_of_popFront hr
    exact ⟨hq, by rw [List.map_cons, List.map_cons, hk]⟩
  | (_, _ :: _) :: _, _, _, h => by
    cases h
    exact ⟨rfl, rfl⟩

theorem queued_of_popFront_none : ∀ {m : TaskMap}, popFront m = none → queued m = []
  | [], _ => rfl
  | (_, []) :: rest, h => by
    simp only [popFront, Option.map_eq_none'] at h
    exact (queued_of_popFront_none h : queued rest = [])
  | (_, _ :: _) :: _, h => by cases h

theorem ThreadPool.dequeue_eq_some' {pool pool' : ThreadPool} {t : Nat}
    (h : pool.dequeue = some (t, pool')) :
    pool.threadPoolRunning = true ∧ ∃ tasks, popFront pool.tasks = some (t, tasks) ∧
      pool' = { pool with tasks } := by
  simp only [ThreadPool.dequeue] at h
  split_ifs at h with hrun
  obtain ⟨⟨_, tasks⟩, hp, ⟨⟩⟩ := Option.map_eq_some'.1 h
  exact ⟨hrun, tasks, hp, rfl⟩

/-- Whether the owner thread takes the event: all but the workers' steps and
`submitTaskWithHighPriority`, which any thread may call. -/
def Event.byOwner : Event → Bool
  | .submitTaskWithHighPriority | .dequeue | .finish _ _ => false
  | _ => true

/-- How far a call of `get` whose future has finished is from its end: the loops of
`prefetchNewBlocks` still to run, then the turns left in the current one, in lexicographic order.
The turns of the second loop are the strategy's prediction, which nothing bounds. -/
def Stage.rank : Stage → Nat × Nat
  | .processReadyPrefetches blockOffsets => (2, blockOffsets.length)
  | .prefetchLoop blockIndexesToPrefetch _ => (1, blockIndexesToPrefetch.length)
  | .waitFor => (0, 0)

namespace BlockFetcher

variable {s s' : BlockFetcher}

/-! ## What keeps a call able to end -/

/-- What holds in every state a run reaches: every decode is in a deque of the pool, taken by a
worker, or finished; there are no more running tasks than workers; a pool with workers runs; and
no deque has a priority above the decodes' `0`. -/
structure Live (s : BlockFetcher) : Prop where
  decodes : ∀ x ∈ s.decodes,
    x.1 ∈ queued s.threadPool.tasks ∨ x.1 ∈ s.running ∨ x.1 ∈ s.finished.map Prod.fst
  running_le : s.running.length ≤ s.threadCount
  threadPoolRunning : 0 < s.threadCount → s.threadPool.threadPoolRunning = true
  priority_le : ∀ q ∈ s.threadPool.tasks.map Prod.fst, q ≤ 0

theorem Live.new (parallelization availableCores : Nat) :
    Live (BlockFetcher.new parallelization availableCores) :=
  ⟨(fun _ h => by cases h), Nat.zero_le _, fun _ => rfl, fun _ h => by cases h⟩

theorem Live.of_eq (h : Live s) (hp : s'.threadPool = s.threadPool) (hd : s'.decodes = s.decodes)
    (hr : s'.running = s.running) (hf : s'.finished = s.finished)
    (hc : s'.threadCount = s.threadCount) : Live s' := by
  obtain ⟨h₁, h₂, h₃, h₄⟩ := h
  rw [← hp, ← hd, ← hr, ← hf] at h₁
  rw [← hr, ← hc] at h₂
  rw [← hc, ← hp] at h₃
  rw [← hp] at h₄
  exact ⟨h₁, h₂, h₃, h₄⟩

theorem Live.submit (h : Live s) {priority : Int} (hp : priority ≤ 0)
    {decodes : List (Nat × BlockData)}
    (hd : ∀ x ∈ decodes, x ∈ s.decodes ∨ x.1 = s.threadPool.taskCount) :
    Live { s with threadPool := (s.threadPool.submit priority).1, decodes } := by
  refine ⟨fun x hx => ?_, h.running_le, h.threadPoolRunning, fun q hq => ?_⟩
  · simp only [ThreadPool.submit, mem_queued_emplaceBack]
    rcases hd x hx with hx | hx
    · exact (h.decodes x hx).imp_left .inr
    · exact .inl (.inl hx)
  · rcases mem_keys_emplaceBack hq with rfl | hq
    exacts [hp, h.priority_le q hq]

theorem Live.submitDecode (h : Live s) (blockOffset nextBlockOffset : Nat) :
    Live (s.submitDecode blockOffset nextBlockOffset).2 :=
  h.submit le_rfl fun _ hx => (List.mem_append.1 hx).imp_right fun hx => by
    rw [List.mem_singleton.1 hx]

theorem Live.afterPrefetchNewBlocks (h : Live s) (request : Request) :
    Live (s.afterPrefetchNewBlocks request) := by
  obtain ⟨_, _, heq, -⟩ := @afterPrefetchNewBlocks_spec s request
  rw [heq]
  exact h.of_eq rfl rfl rfl rfl rfl

theorem Live.get (h : Live s) (blockOffset : Nat) (onlyCheckCaches : Bool)
    (nextBlockOffset : Option Nat) (sequential : Bool) :
    Live (s.get blockOffset onlyCheckCaches nextBlockOffset sequential) := by
  rcases hg : s.getFromCaches sequential blockOffset with ⟨⟨cachedResult, queuedResult⟩, s₁⟩
  obtain ⟨-, -, cache, prefetchCache, rfl, -⟩ := getFromCaches_spec hg
  unfold BlockFetcher.get
  rw [hg]
  dsimp only
  split
  · split
    · exact h.of_eq rfl rfl rfl rfl rfl
    · exact (h.submitDecode _ _).of_eq rfl rfl rfl rfl rfl
  · exact h.of_eq rfl rfl rfl rfl rfl

theorem Live.dequeue (h : Live s) (hs : s.step .dequeue = some s') : Live s' := by
  obtain ⟨task, threadPool, hlt, hd, rfl⟩ := step_dequeue hs
  obtain ⟨hrun, tasks, hp, rfl⟩ := ThreadPool.dequeue_eq_some' hd
  obtain ⟨hq, hkeys⟩ := queued_of_popFront hp
  refine ⟨fun x hx => ?_, by simpa using hlt, fun _ => hrun, fun q hk => h.priority_le q (hkeys ▸ hk)⟩
  rcases h.decodes x hx with hq' | hr | hf
  · rw [hq, List.mem_cons] at hq'
    rcases hq' with rfl | hq'
    · exact .inr (.inl (by simp))
    · exact .inl hq'
  · exact .inr (.inl (List.mem_append_left _ hr))
  · exact .inr (.inr hf)

theorem Live.finish (h : Live s) {task : Nat} (threw : Bool) :
    Live { s with
      running := s.running.erase task
      finished := s.finished ++ [(task, if threw then none else s.decodes.lookup task)] } := by
  refine ⟨fun x hx => ?_, (List.length_erase_le _ _).trans h.running_le, h.threadPoolRunning,
    h.priority_le⟩
  rw [List.map_append, List.mem_append]
  rcases h.decodes x hx with hq | hr | hf
  · exact .inl hq
  · by_cases he : x.1 = task
    · exact .inr (.inr (.inr (he ▸ List.mem_singleton_self _)))
    · exact .inr (.inl ((List.mem_erase_of_ne he).2 hr))
  · exact .inr (.inr (.inl hf))

theorem Live.step (h : Live s) {event : Event} (hs : s.step event = some s') : Live s' := by
  cases event with
  | get =>
    obtain ⟨-, rfl⟩ := step_get hs
    exact h.get _ _ _ _
  | processReadyPrefetch =>
    obtain ⟨_, blockOffset, _, -, rfl⟩ := step_processReadyPrefetch hs
    rcases @processReadyPrefetch_spec s blockOffset with heq | ⟨_, _, _, -, -, heq, -⟩ <;>
      (rw [heq]; exact h.of_eq rfl rfl rfl rfl rfl)
  | prefetch =>
    obtain ⟨_, -, rfl | ⟨_, _, _, rfl, -, -⟩⟩ := step_prefetch hs
    · exact h.afterPrefetchNewBlocks _
    · exact h.of_eq rfl rfl rfl rfl rfl
  | prefetchIndex =>
    obtain ⟨_, _, _, _, -, -, rfl | ⟨o, n, -, -, -, rfl⟩⟩ := step_prefetchIndex hs
    · exact h.of_eq rfl rfl rfl rfl rfl
    · exact (h.submitDecode o n).of_eq rfl rfl rfl rfl rfl
  | checkUnprocessedTasks =>
    obtain ⟨_, _, -, ⟨-, rfl⟩ | rfl⟩ := step_checkUnprocessedTasks hs
    · exact h.of_eq rfl rfl rfl rfl rfl
    · exact h.afterPrefetchNewBlocks _
  | waitFor =>
    obtain ⟨_, _, -, -, ⟨-, rfl⟩ | ⟨-, rfl⟩ | ⟨_, -, rfl⟩⟩ := step_waitFor hs <;>
      exact h.of_eq rfl rfl rfl rfl rfl
  | submitTaskWithHighPriority =>
    obtain rfl := Option.some.inj (step_submitTaskWithHighPriority.symm.trans hs)
    exact h.submit (by decide) fun x hx => .inl hx
  | stopThreadPool =>
    obtain ⟨-, hr, rfl⟩ := step_stopThreadPool hs
    exact ⟨h.decodes, by simp [hr], fun h0 => absurd h0 (lt_irrefl 0), h.priority_le⟩
  | clearCache =>
    obtain ⟨-, rfl⟩ := step_clearCache hs
    exact h.of_eq rfl rfl rfl rfl rfl
  | dequeue => exact h.dequeue hs
  | finish =>
    obtain ⟨-, rfl⟩ := step_finish hs
    exact h.finish _

theorem Live.of_reachable {Allowed : BlockFetcher → Event → Prop} (hs : Reachable Allowed s) :
    Live s := by
  induction hs with
  | new parallelization availableCores => exact Live.new parallelization availableCores
  | step _ _ _ hstep ih => exact ih.step hstep

/-! ## The steps of a call -/

theorem worker_step {event : Event} (hb : event.byOwner = false) (hs : s.step event = some s') :
    (∃ task threadPool, event = .dequeue ∧ s.running.length < s.threadCount ∧
        s.threadPool.dequeue = some (task, threadPool) ∧
        s' = { s with threadPool, running := s.running ++ [task] }) ∨
      (∃ task threw, event = .finish task threw ∧ task ∈ s.running ∧ s' = { s with
        running := s.running.erase task
        finished := s.finished ++ [(task, if threw then none else s.decodes.lookup task)] }) ∨
      event = .submitTaskWithHighPriority ∧
        s' = { s with threadPool := (s.threadPool.submit (-1)).1 } := by
  cases event <;> cases hb
  · exact .inr (.inr ⟨rfl, (Option.some.inj (step_submitTaskWithHighPriority.symm.trans hs)).symm⟩)
  · obtain ⟨task, threadPool, hlt, hd, rfl⟩ := step_dequeue hs
    exact .inl ⟨_, _, rfl, hlt, hd, rfl⟩
  · obtain ⟨hmem, rfl⟩ := step_finish hs
    exact .inr (.inl ⟨_, _, rfl, hmem, rfl⟩)

/-- What an owner step leaves to the workers: the running and the finished tasks, the workers,
and the queue but for a decode it submits, with priority `0`. -/
structure KeepsWorkers (s s' : BlockFetcher) : Prop where
  running : s'.running = s.running
  finished : s'.finished = s.finished
  threadCount : s'.threadCount = s.threadCount
  tasks : s'.threadPool.tasks = s.threadPool.tasks ∨
    s'.threadPool.tasks = emplaceBack 0 s.threadPool.taskCount s.threadPool.tasks

/-- What an owner step does to a call of `get` at `stage`: it keeps the call and its results,
lowering the stage, or going from `wait_for` back to `prefetchNewBlocks` where the future has not
finished; or it ends the call with one result, where the call holds a cached block or its future
has finished. -/
inductive CallStep (request : Request) (stage : Stage) (s s' : BlockFetcher) : Prop
  | next (stage' : Stage) : s'.owner = .get request stage' → s'.results = s.results →
      (Prod.Lex (· < ·) (· < ·) stage'.rank stage.rank ∨ stage = .waitFor ∧
        ∃ task, request.queuedResult = some task ∧ task ∉ s.finished.map Prod.fst) →
      CallStep request stage s s'
  | ends (result : GetResult) : s'.owner = .idle →
      s'.results = s.results ++ [(request.blockOffset, result)] →
      (request.cachedResult.isSome ∨
        ∃ task, request.queuedResult = some task ∧ task ∈ s.finished.map Prod.fst) →
      CallStep request stage s s'

theorem afterPrefetchNewBlocks_step {request : Request} {stage : Stage} (hpos : 0 < stage.rank.1) :
    KeepsWorkers s (s.afterPrefetchNewBlocks request) ∧
      CallStep request stage s (s.afterPrefetchNewBlocks request) := by
  refine ⟨?_, ?_⟩ <;> unfold afterPrefetchNewBlocks <;> cases hc : request.cachedResult
  · exact ⟨rfl, rfl, rfl, .inl rfl⟩
  · exact ⟨rfl, rfl, rfl, .inl rfl⟩
  · exact .next _ rfl rfl (.inl (Prod.Lex.left _ _ hpos))
  · exact .ends _ rfl rfl (.inl (by simp [hc]))

/-- **What an owner step does in a call of `get`.** It leaves the workers alone but for a decode
it submits, and it lowers the stage of the call, goes back from `wait_for` to `prefetchNewBlocks`
while the future has not finished, or ends the call, where it holds a cached block or its future
has finished. The answers of the block finder and of the strategy in the event do not matter. -/
theorem owner_step (hinv : Inv s) {request : Request} {stage : Stage}
    (ho : s.owner = .get request stage) {event : Event} (hb : event.byOwner = true)
    (hs : s.step event = some s') : KeepsWorkers s s' ∧ CallStep request stage s s' := by
  cases event with
  | get =>
    obtain ⟨hidle, -⟩ := step_get hs
    cases ho.symm.trans hidle
  | processReadyPrefetch =>
    obtain ⟨_, blockOffset, _, ho', rfl⟩ := step_processReadyPrefetch hs
    rw [ho] at ho'
    cases ho'
    rcases @processReadyPrefetch_spec s blockOffset with heq | ⟨_, _, _, -, -, heq, -⟩ <;>
      exact ⟨by rw [heq]; exact ⟨rfl, rfl, rfl, .inl rfl⟩,
        .next _ rfl (by rw [heq]) (.inl (Prod.Lex.right _ (Nat.lt_succ_self _)))⟩
  | prefetch =>
    obtain ⟨_, ho', rfl | ⟨_, _, _, rfl, -, -⟩⟩ := step_prefetch hs <;> rw [ho] at ho' <;>
      cases ho'
    · exact afterPrefetchNewBlocks_step (by decide)
    · exact ⟨⟨rfl, rfl, rfl, .inl rfl⟩, .next _ rfl rfl (.inl (Prod.Lex.left _ _ (by decide)))⟩
  | prefetchIndex =>
    obtain ⟨_, _, _, _, ho', hlt, rfl | ⟨_, _, -, -, -, rfl⟩⟩ := step_prefetchIndex hs <;>
      rw [ho] at ho' <;> cases ho'
    · exact ⟨⟨rfl, rfl, rfl, .inl rfl⟩, .next _ rfl rfl (.inl (Prod.Lex.right _ hlt))⟩
    · exact ⟨⟨rfl, rfl, rfl, .inr rfl⟩, .next _ rfl rfl (.inl (Prod.Lex.right _ hlt))⟩
  | checkUnprocessedTasks =>
    obtain ⟨_, _, ho', ⟨hgt, -⟩ | rfl⟩ := step_checkUnprocessedTasks hs <;> rw [ho] at ho' <;>
      cases ho'
    · exact absurd hinv.unprocessedTasksCount_le (not_le.2 hgt)
    · exact afterPrefetchNewBlocks_step Nat.one_pos
  | waitFor =>
    obtain ⟨_, task, ho', hq, ⟨hf, rfl⟩ | hend⟩ := step_waitFor hs <;> rw [ho] at ho' <;> cases ho'
    · exact ⟨⟨rfl, rfl, rfl, .inl rfl⟩,
        .next _ rfl rfl (.inr ⟨rfl, task, hq, lookup_eq_none_iff_not_mem.1 hf⟩)⟩
    · rcases hend with ⟨hf, rfl⟩ | ⟨_, hf, rfl⟩ <;>
        exact ⟨⟨rfl, rfl, rfl, .inl rfl⟩,
          .ends _ rfl rfl (.inr ⟨task, hq, List.mem_map_of_mem _ (mem_of_lookup_eq_some hf)⟩)⟩
  | submitTaskWithHighPriority | dequeue | finish => cases hb
  | stopThreadPool =>
    obtain ⟨hidle, -⟩ := step_stopThreadPool hs
    cases ho.symm.trans hidle
  | clearCache =>
    obtain ⟨hidle, -⟩ := step_clearCache hs
    cases ho.symm.trans hidle

/-! ## After `stopThreadPool` -/

theorem hang_step (hinv : Inv s) (hlive : Live s) (hstop : s.threadCount = 0) {request : Request}
    {stage : Stage} {task : Nat} (ho : s.owner = .get request stage)
    (hq : request.queuedResult = some task) (hf : task ∉ s.finished.map Prod.fst) {event : Event}
    (hs : s.step event = some s') :
    s'.threadCount = 0 ∧ s'.finished = s.finished ∧ s'.results = s.results ∧
      ∃ stage', s'.owner = .get request stage' := by
  cases hb : event.byOwner
  · rcases worker_step hb hs with ⟨_, _, -, hlt, -, -⟩ | ⟨_, _, -, hmem, -⟩ | ⟨-, rfl⟩
    · exact absurd hlt (by omega)
    · exact absurd hlive.running_le (by have := List.length_pos_of_mem hmem; omega)
    · exact ⟨hstop, rfl, rfl, stage, ho⟩
  · obtain ⟨hkeep, hcall⟩ := owner_step hinv ho hb hs
    rcases hcall with ⟨stage', ho', hres, -⟩ | ⟨_, -, -, hc | ⟨task', hq', hf'⟩⟩
    · exact ⟨hkeep.threadCount.trans hstop, hkeep.finished, hres, stage', ho'⟩
    · exact Option.noConfusion (hq.symm.trans ((hinv.request request stage ho).1.1 hc))
    · rw [hq] at hq'
      cases hq'
      exact absurd hf' hf

/-- **After `stopThreadPool`, a call of `get` whose future has not finished never returns.** The
workers are joined, so no task is taken or finished any more, and the owner loops between
`wait_for` and `prefetchNewBlocks`: along every run, the call stays in progress and records no
result. -/
theorem blockFetcher_get_hangs_after_stop (hs : Reachable (fun _ _ => True) s)
    (hstop : s.threadCount = 0) {request : Request} {stage : Stage} {task : Nat}
    (ho : s.owner = .get request stage) (hq : request.queuedResult = some task)
    (hf : task ∉ s.finished.map Prod.fst) (events : List Event) {s' : BlockFetcher}
    (hrun : events.foldlM BlockFetcher.step s = some s') :
    s'.results = s.results ∧ ∃ stage', s'.owner = .get request stage' := by
  induction events generalizing s stage with
  | nil =>
    cases hrun
    exact ⟨rfl, stage, ho⟩
  | cons event events ih =>
    rw [List.foldlM_cons, Option.bind_eq_bind, Option.bind_eq_some] at hrun
    obtain ⟨s₁, hstep, hrun⟩ := hrun
    obtain ⟨hstop₁, hf₁, hres₁, stage₁, ho₁⟩ :=
      hang_step (Inv.of_reachable hs) (Live.of_reachable hs) hstop ho hq hf hstep
    obtain ⟨hres, hstage⟩ := ih (hs.step event trivial hstep) hstop₁ ho₁ (hf₁ ▸ hf) hrun
    exact ⟨hres.trans hres₁, hstage⟩

/-- The pool stopped, then a call of `get` on offset `0`, whose decode is queued. -/
def stoppedCall : List Event := [.stopThreadPool, .get 0 false (some 50) false]

/-- The call goes from `prefetchNewBlocks`, saturated without workers, to its `wait_for`, back to
`prefetchNewBlocks` and to `wait_for` again, and is still in progress. -/
theorem blockFetcher_get_hangs_after_stop_stopped :
    ∃ s s', Reachable (fun _ _ => True) s ∧ s.threadCount = 0 ∧
      s.owner = .get ⟨0, none, some 0⟩ (.processReadyPrefetches []) ∧
      (⟨0, none, some 0⟩ : Request).queuedResult = some 0 ∧ 0 ∉ s.finished.map Prod.fst ∧
      [.prefetch [] [], .waitFor false, .prefetch [] []].foldlM BlockFetcher.step s = some s' ∧
      (s'.results = s.results ∧ ∃ stage', s'.owner = .get ⟨0, none, some 0⟩ stage') := by
  have hs := Reachable.of_foldlM stoppedCall (.new 2 0) (Option.eq_some_of_isSome (by decide))
  exact ⟨_, _, hs, rfl, rfl, rfl, by decide, Option.eq_some_of_isSome (by decide),
    blockFetcher_get_hangs_after_stop hs rfl rfl rfl (by decide) _ (Option.eq_some_of_isSome (by decide))⟩

end BlockFetcher

end Pragzip
