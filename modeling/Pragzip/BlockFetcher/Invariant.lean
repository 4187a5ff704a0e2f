import Pragzip.BlockFetcher.Steps
import Pragzip.ThreadPool.Refinement

/-!
# Block fetcher — the invariant, and the bound on queued decodes

The accounting behind the check closing `prefetchNewBlocks`: every decode that has not finished
is a prefetch in `m_prefetching` or the future `get` waits on, a pending task of priority `0` is
such a decode, and `m_prefetching` stays below `m_threadPool.size()`. So the pool never holds more
than `m_parallelization` pending decodes, whatever the workers do in between.

* `PoolSpec.dequeue_eq_some`, `ThreadPool.Represents.dequeue`: a worker's turn, on the queue;
* `Tasks`: the pool and the fetcher's record of its tasks; `Tasks.submitDecode`, `Tasks.submit`,
  `Tasks.dequeue`, `Tasks.finish`, `Tasks.stop`;
* `Inv`, `Inv.new`, `Inv.step`, `Inv.of_reachable`: the invariant holds of every reachable state;
* `Inv.unprocessedTasksCount_le`: the pending decodes are at most `m_parallelization`;
* **`blockFetcher_bounds_queued_decodes`**: in every reachable state the pool holds at most
  `m_parallelization` pending tasks of priority `0`, and `get` has never thrown the
  `std::logic_error`.
-/

namespace Pragzip

/-! ## A worker's turn, on the queue -/

theorem PoolSpec.dequeue_eq_some {A B : PoolSpec} {t : Nat} (h : A.dequeue = some (t, B)) :
    ∃ p, (t, p) ∈ A.pending ∧ B = { A with pending := A.pending.erase (t, p) } := by
  simp only [PoolSpec.dequeue] at h
  split_ifs at h
  obtain ⟨⟨t', p⟩, hn, heq⟩ := Option.map_eq_some'.1 h
  simp only [Prod.mk.injEq] at heq
  obtain ⟨rfl, rfl⟩ := heq
  exact ⟨p, PoolSpec.next?_mem _ hn, rfl⟩

theorem ThreadPool.Represents.dequeue {pool pool' : ThreadPool} {A : PoolSpec}
    (hR : pool.Represents A) {t : Nat} (h : pool.dequeue = some (t, pool')) :
    ∃ p, (t, p) ∈ A.pending ∧ pool'.Represents { A with pending := A.pending.erase (t, p) } := by
  have hstep := hR.step .dequeue
  simp only [ThreadPool.step, h] at hstep
  cases hA : A.dequeue with
  | none => simp [PoolSpec.step, hA] at hstep
  | some r =>
    obtain ⟨t', B⟩ := r
    simp only [PoolSpec.step, hA, Option.some.injEq] at hstep
    obtain ⟨rfl, hR'⟩ := hstep
    obtain ⟨p, hp, rfl⟩ := PoolSpec.dequeue_eq_some hA
    exact ⟨p, hp, hR'⟩

namespace BlockFetcher

/-! ## The tasks -/

/-- The pool and the fetcher's record of its tasks: the decodes and the started tasks are named
below the submitted count, each decode once; the pool stands for a queue whose pending tasks have
not started and whose tasks of priority `0` are decodes. -/
structure Tasks (threadPool : ThreadPool) (decodes : List (Nat × BlockData)) (running : List Nat)
    (finished : List (Nat × Option BlockData)) : Prop where
  decodes_lt : ∀ x ∈ decodes, x.1 < threadPool.taskCount
  decodes_nodup : (decodes.map Prod.fst).Nodup
  started_lt : ∀ t ∈ running ++ finished.map Prod.fst, t < threadPool.taskCount
  pool : ∃ A, threadPool.Represents A ∧ A.WF ∧ ∀ x ∈ A.pending,
    x.1 ∉ running ++ finished.map Prod.fst ∧ (x.2 = 0 → x.1 ∈ decodes.map Prod.fst)

section Tasks

variable {threadPool : ThreadPool} {decodes : List (Nat × BlockData)} {running : List Nat}
  {finished : List (Nat × Option BlockData)}

theorem Tasks.not_started (h : Tasks threadPool decodes running finished) :
    threadPool.taskCount ∉ running ++ finished.map Prod.fst :=
  fun hm => lt_irrefl _ (h.started_lt _ hm)

theorem Tasks.submitDecode (h : Tasks threadPool decodes running finished) (blockData : BlockData) :
    Tasks (threadPool.submit 0).1 (decodes ++ [(threadPool.taskCount, blockData)]) running finished := by
  obtain ⟨A, hR, hWF, hA⟩ := h.pool
  have hfresh : threadPool.taskCount ∉ decodes.map Prod.fst := fun hm => by
    obtain ⟨x, hx, hxt⟩ := List.mem_map.1 hm
    exact lt_irrefl _ (hxt ▸ h.decodes_lt x hx)
  refine ⟨fun x hx => ?_, ?_, fun t ht => Nat.lt_succ_of_lt (h.started_lt t ht),
    A.submit 0, hR.submit 0, hWF.submit 0, fun x hx => ?_⟩
  · rcases List.mem_append.1 hx with hx | hx
    · exact Nat.lt_succ_of_lt (h.decodes_lt x hx)
    · rw [List.mem_singleton.1 hx]
      exact Nat.lt_succ_self _
  · rw [List.map_append, List.nodup_append]
    exact ⟨h.decodes_nodup, List.nodup_singleton _, List.disjoint_singleton.2 hfresh⟩
  · rcases List.mem_append.1 hx with hx | hx
    · exact ⟨(hA x hx).1, fun h0 => by
        rw [List.map_append]
        exact List.mem_append_left _ ((hA x hx).2 h0)⟩
    · rw [List.mem_singleton.1 hx, ← hR.taskCount_eq]
      exact ⟨h.not_started, fun _ => by simp⟩

theorem Tasks.submit (h : Tasks threadPool decodes running finished) {priority : Int}
    (hp : priority ≠ 0) : Tasks (threadPool.submit priority).1 decodes running finished := by
  obtain ⟨A, hR, hWF, hA⟩ := h.pool
  refine ⟨fun x hx => Nat.lt_succ_of_lt (h.decodes_lt x hx), h.decodes_nodup,
    fun t ht => Nat.lt_succ_of_lt (h.started_lt t ht), A.submit priority, hR.submit priority,
    hWF.submit priority, fun x hx => ?_⟩
  rcases List.mem_append.1 hx with hx | hx
  · exact hA x hx
  · rw [List.mem_singleton.1 hx, ← hR.taskCount_eq]
    exact ⟨h.not_started, fun h0 => absurd h0 hp⟩

theorem Tasks.dequeue (h : Tasks threadPool decodes running finished) {t : Nat}
    {threadPool' : ThreadPool} (hd : threadPool.dequeue = some (t, threadPool')) :
    Tasks threadPool' decodes (running ++ [t]) finished := by
  obtain ⟨A, hR, hWF, hA⟩ := h.pool
  obtain ⟨p, hp, hR'⟩ := hR.dequeue hd
  have htc : threadPool'.taskCount = threadPool.taskCount := by
    rw [hR'.taskCount_eq, hR.taskCount_eq]
  have hnodup : A.pending.Nodup := hWF.sorted.nodup.of_map _
  refine ⟨fun x hx => htc ▸ h.decodes_lt x hx, h.decodes_nodup, fun t' ht' => ?_,
    _, hR', hWF.erase (t, p), fun x hx => ?_⟩
  · rw [htc]
    simp only [List.mem_append, List.mem_singleton] at ht'
    rcases ht' with (ht' | rfl) | ht'
    · exact h.started_lt t' (List.mem_append_left _ ht')
    · exact hR.taskCount_eq ▸ hWF.lt_submitted _ hp
    · exact h.started_lt t' (List.mem_append_right _ ht')
  · obtain ⟨hne, hx⟩ := (hnodup.mem_erase_iff).1 hx
    have hxt : x.1 ≠ t := fun he =>
      hne (List.inj_on_of_nodup_map hWF.sorted.nodup hx hp he)
    refine ⟨fun hm => ?_, (hA x hx).2⟩
    simp only [List.mem_append, List.mem_singleton] at hm
    rcases hm with (hm | hm) | hm
    · exact (hA x hx).1 (List.mem_append_left _ hm)
    · exact hxt hm
    · exact (hA x hx).1 (List.mem_append_right _ hm)

theorem Tasks.finish (h : Tasks threadPool decodes running finished) {t : Nat} (ht : t ∈ running)
    (result : Option BlockData) :
    Tasks threadPool decodes (running.erase t) (finished ++ [(t, result)]) := by
  obtain ⟨A, hR, hWF, hA⟩ := h.pool
  have hsub : ∀ t', t' ∈ running.erase t ++ (finished ++ [(t, result)]).map Prod.fst →
      t' ∈ running ++ finished.map Prod.fst := by
    intro t' ht'
    simp only [List.map_append, List.map_cons, List.map_nil, List.mem_append,
      List.mem_singleton] at ht' ⊢
    rcases ht' with ht' | ht' | rfl
    · exact .inl (List.mem_of_mem_erase ht')
    · exact .inr ht'
    · exact .inl ht
  refine ⟨h.decodes_lt, h.decodes_nodup, fun t' ht' => h.started_lt t' (hsub t' ht'), A, hR, hWF,
    fun x hx => ⟨fun hm => (hA x hx).1 (hsub _ hm), (hA x hx).2⟩⟩

theorem Tasks.stop (h : Tasks threadPool decodes running finished) :
    Tasks threadPool.stop decodes running finished := by
  obtain ⟨A, hR, hWF, hA⟩ := h.pool
  exact ⟨h.decodes_lt, h.decodes_nodup, h.started_lt, _, (hR.step .stop).2,
    ⟨hWF.sorted, hWF.lt_submitted⟩, hA⟩

end Tasks

/-! ## The invariant -/

/-- What holds in every state a run reaches: `m_prefetching` is a map below the pool size whose
prefetches decode their offsets; every decode that has not finished is a prefetch in flight or the
future `get` waits on; a call of `get` holds a cached block or a future of its offset; and no call
has thrown the `std::logic_error`. -/
structure Inv (s : BlockFetcher) : Prop where
  parallelization_pos : 0 < s.parallelization
  threadCount_le : s.threadCount ≤ s.parallelization
  prefetching_lt : s.prefetching.length < s.parallelization
  sorted : (s.prefetching.map Prod.fst).Sorted (· < ·)
  tasks : Tasks s.threadPool s.decodes s.running s.finished
  prefetching_decodes : ∀ o t, (o, t) ∈ s.prefetching → ∃ n, (t, ⟨o, n⟩) ∈ s.decodes
  unfinished : ∀ x ∈ s.decodes, x.1 ∉ s.finished.map Prod.fst →
    (x.2.blockOffset, x.1) ∈ s.prefetching ∨ s.owner.queuedResult = some x.1
  request : ∀ r stage, s.owner = .get r stage →
    (r.cachedResult.isSome ↔ r.queuedResult = none) ∧
      ∀ t, r.queuedResult = some t → ∃ n, (t, ⟨r.blockOffset, n⟩) ∈ s.decodes
  results_ok : ∀ x ∈ s.results, ∀ what, x.2 ≠ .logicError what

variable {s s' : BlockFetcher}

theorem Inv.new (parallelization availableCores : Nat) :
    Inv (BlockFetcher.new parallelization availableCores) := by
  have hpos : 0 < (BlockFetcher.new parallelization availableCores).parallelization := by
    simp only [BlockFetcher.new]
    split_ifs <;> omega
  exact ⟨hpos, le_rfl, hpos, List.sorted_nil,
    ⟨(fun _ h => by cases h), List.nodup_nil, (fun _ h => by cases h), PoolSpec.init,
      ThreadPool.represents_init, ⟨List.sorted_nil, fun _ h => by cases h⟩, (fun _ h => by cases h)⟩,
    (fun _ _ h => by cases h), (fun _ h => by cases h), (fun _ _ h => by cases h),
    (fun _ h => by cases h)⟩

theorem results_ok_append {results : List (Nat × GetResult)} {result : Nat × GetResult}
    (h : ∀ x ∈ results, ∀ what, x.2 ≠ .logicError what) (hr : ∀ what, result.2 ≠ .logicError what) :
    ∀ x ∈ results ++ [result], ∀ what, x.2 ≠ .logicError what := fun x hx => by
  rcases List.mem_append.1 hx with hx | hx
  · exact h x hx
  · rw [List.mem_singleton.1 hx]
    exact hr

theorem Inv.of_owner (h : Inv s) {owner : Owner} {cache prefetchCache : Cache BlockData}
    {results : List (Nat × GetResult)}
    (hq : ∀ t, s.owner.queuedResult = some t → t ∉ s.finished.map Prod.fst →
      owner.queuedResult = some t)
    (hr : ∀ r stage, owner = .get r stage → ∃ stage', s.owner = .get r stage')
    (hres : ∀ x ∈ results, ∀ what, x.2 ≠ .logicError what) :
    Inv { s with owner, cache, prefetchCache, results } :=
  ⟨h.parallelization_pos, h.threadCount_le, h.prefetching_lt, h.sorted, h.tasks,
    h.prefetching_decodes, fun x hx hf => (h.unfinished x hx hf).imp_right (hq _ · hf),
    fun r stage ho => by
      obtain ⟨stage', ho'⟩ := hr r stage ho
      exact h.request r stage' ho',
    hres⟩

theorem Inv.stage (h : Inv s) {request : Request} {stage : Stage} (ho : s.owner = .get request stage)
    (stage' : Stage) (cache prefetchCache : Cache BlockData) :
    Inv { s with owner := .get request stage', cache, prefetchCache } :=
  h.of_owner (fun t ht _ => by rw [ho] at ht; exact ht)
    (fun r _ he => ⟨stage, by cases he; exact ho⟩) h.results_ok

theorem Inv.afterPrefetchNewBlocks (h : Inv s) {request : Request} {stage : Stage}
    (ho : s.owner = .get request stage) : Inv (s.afterPrefetchNewBlocks request) := by
  have hreq := h.request request stage ho
  unfold BlockFetcher.afterPrefetchNewBlocks
  cases hc : request.cachedResult with
  | none => exact h.stage ho .waitFor s.cache s.prefetchCache
  | some blockData =>
    refine h.of_owner (fun t ht _ => ?_) (fun _ _ he => by cases he) ?_
    · rw [ho] at ht
      exact absurd (hreq.1.1 (by simp [hc])) (by simp [Owner.queuedResult] at ht; simp [ht])
    · exact results_ok_append h.results_ok fun _ => GetResult.noConfusion

/-! ## The events -/

theorem Inv.get (h : Inv s) (hidle : s.owner = .idle) (blockOffset : Nat) (onlyCheckCaches : Bool)
    (nextBlockOffset : Option Nat) (sequential : Bool) :
    Inv (s.get blockOffset onlyCheckCaches nextBlockOffset sequential) := by
  rcases hg : s.getFromCaches sequential blockOffset with ⟨⟨cachedResult, queuedResult⟩, s₁⟩
  obtain ⟨hq, hcq, cache, prefetchCache, rfl, -, -, -, -, -⟩ := getFromCaches_spec hg
  have hflight : ∀ x ∈ s.decodes, x.1 ∉ s.finished.map Prod.fst →
      (x.2.blockOffset, x.1) ∈ s.prefetching := fun x hx hf =>
    (h.unfinished x hx hf).resolve_right (by simp [hidle, Owner.queuedResult])
  have hkeep : ∀ x ∈ s.decodes, x.1 ∉ s.finished.map Prod.fst → x.2.blockOffset ≠ blockOffset →
      (x.2.blockOffset, x.1) ∈ s.prefetching.filter (·.1 != blockOffset) := fun x hx hf hne =>
    mem_filter_ne.2 ⟨hflight x hx hf, hne⟩
  have htaken : ∀ x ∈ s.decodes, x.1 ∉ s.finished.map Prod.fst → x.2.blockOffset = blockOffset →
      queuedResult = some x.1 := fun x hx hf he =>
    hq.trans (lookup_eq_some_of_mem h.sorted (he ▸ hflight x hx hf))
  have hdec : ∀ o t, (o, t) ∈ s.prefetching.filter (·.1 != blockOffset) →
      ∃ n, (t, ⟨o, n⟩) ∈ s.decodes := fun o t hm =>
    h.prefetching_decodes o t (List.mem_of_mem_filter hm)
  have hlen : (s.prefetching.filter (·.1 != blockOffset)).length < s.parallelization :=
    lt_of_le_of_lt (List.length_filter_le _ _) h.prefetching_lt
  have hsorted := sorted_filter h.sorted (·.1 != blockOffset)
  unfold BlockFetcher.get
  rw [hg]
  dsimp only
  split
  · rename_i hnone
    simp only [Bool.and_eq_true, Option.isNone_iff_eq_none] at hnone
    obtain ⟨rfl, rfl⟩ := hnone
    have hother : ∀ x ∈ s.decodes, x.1 ∉ s.finished.map Prod.fst →
        (x.2.blockOffset, x.1) ∈ s.prefetching.filter (·.1 != blockOffset) := fun x hx hf =>
      hkeep x hx hf fun he => by simpa using htaken x hx hf he
    split
    · exact ⟨h.parallelization_pos, h.threadCount_le, hlen, hsorted, h.tasks, hdec,
        fun x hx hf => .inl (hother x hx hf), fun _ _ ho => Owner.noConfusion (hidle.symm.trans ho),
        results_ok_append h.results_ok fun _ => GetResult.noConfusion⟩
    · simp only [submitOnDemandTask, submitDecode_eq, prefetchNewBlocks]
      refine ⟨h.parallelization_pos, h.threadCount_le, hlen, hsorted, h.tasks.submitDecode _,
        fun o t hm => ?_, fun x hx hf => ?_, fun r _ ho => ?_, h.results_ok⟩
      · obtain ⟨n, hn⟩ := hdec o t hm
        exact ⟨n, List.mem_append_left _ hn⟩
      · rcases List.mem_append.1 hx with hx | hx
        · exact .inl (hother x hx hf)
        · rw [List.mem_singleton.1 hx]
          exact .inr rfl
      · cases ho
        refine ⟨by simp, fun t ht => ⟨nextBlockOffset.getD sizeMax, ?_⟩⟩
        cases ht
        exact List.mem_append_right _ (List.mem_singleton_self _)
  · rename_i hsome
    simp only [prefetchNewBlocks]
    refine ⟨h.parallelization_pos, h.threadCount_le, hlen, hsorted, h.tasks, hdec,
      fun x hx hf => ?_, fun r _ ho => ?_, h.results_ok⟩
    · by_cases he : x.2.blockOffset = blockOffset
      · exact .inr (htaken x hx hf he)
      · exact .inl (hkeep x hx hf he)
    · cases ho
      refine ⟨⟨hcq, fun hq0 => ?_⟩, fun t ht => h.prefetching_decodes _ _ ?_⟩
      · subst hq0
        cases cachedResult
        · exact absurd rfl hsome
        · rfl
      · exact mem_of_lookup_eq_some (hq ▸ ht)

theorem Inv.processReadyPrefetch (h : Inv s) {request : Request} {blockOffset : Nat}
    {blockOffsets : List Nat}
    (ho : s.owner = .get request (.processReadyPrefetches (blockOffset :: blockOffsets))) :
    Inv { s.processReadyPrefetch blockOffset with
      owner := .get request (.processReadyPrefetches blockOffsets) } := by
  rcases @processReadyPrefetch_spec s blockOffset with heq | ⟨task, result, prefetchCache, hp, hf, heq, -⟩
  · rw [heq]
    exact h.stage ho _ s.cache s.prefetchCache
  · rw [heq]
    have hfin : task ∈ s.finished.map Prod.fst :=
      List.mem_map_of_mem Prod.fst (mem_of_lookup_eq_some hf)
    refine ⟨h.parallelization_pos, h.threadCount_le,
      lt_of_le_of_lt (List.length_filter_le _ _) h.prefetching_lt,
      sorted_filter h.sorted _, h.tasks,
      fun o t hm => h.prefetching_decodes o t (List.mem_of_mem_filter hm), fun x hx hf' => ?_,
      fun r stage he => ?_, h.results_ok⟩
    · rcases h.unfinished x hx hf' with hm | hq
      · refine .inl (mem_filter_ne.2 ⟨hm, fun he => hf' ?_⟩)
        have he' : x.2.blockOffset = blockOffset := he
        rw [eq_of_mem_of_mem h.sorted (show (blockOffset, x.1) ∈ s.prefetching from he' ▸ hm)
          (mem_of_lookup_eq_some hp)]
        exact hfin
      · exact .inr (by rw [ho] at hq; exact hq)
    · cases he
      exact h.request _ _ ho

theorem Inv.prefetchDecode (h : Inv s) {request : Request} {stage : Stage}
    (ho : s.owner = .get request stage) (stage' : Stage) {blockOffset nextBlockOffset : Nat}
    (hsat : s.threadPoolSaturated = false) (hq : s.isInCacheOrQueue blockOffset = false) :
    Inv { s with
      threadPool := (s.threadPool.submit 0).1
      decodes := s.decodes ++ [(s.threadPool.taskCount, ⟨blockOffset, nextBlockOffset⟩)]
      prefetching := emplace blockOffset s.threadPool.taskCount s.prefetching
      owner := .get request stage' } := by
  have hperm := @emplace_perm s.prefetching blockOffset s.threadPool.taskCount
    (isInCacheOrQueue_eq_false hq).1
  refine ⟨h.parallelization_pos, h.threadCount_le, ?_, sorted_emplace h.sorted,
    h.tasks.submitDecode _, fun o t hm => ?_, fun x hx hf => ?_, fun r _ he => ?_, h.results_ok⟩
  · rw [hperm.length_eq, List.length_cons]
    exact lt_of_lt_of_le (threadPoolSaturated_eq_false hsat) h.threadCount_le
  · rcases List.mem_cons.1 (hperm.mem_iff.1 hm) with he | hm
    · cases he
      exact ⟨nextBlockOffset, List.mem_append_right _ (List.mem_singleton_self _)⟩
    · obtain ⟨n, hn⟩ := h.prefetching_decodes o t hm
      exact ⟨n, List.mem_append_left _ hn⟩
  · rcases List.mem_append.1 hx with hx | hx
    · rcases h.unfinished x hx hf with hm | hqr
      · exact .inl (hperm.mem_iff.2 (List.mem_cons_of_mem _ hm))
      · exact .inr (by rw [ho] at hqr; exact hqr)
    · rw [List.mem_singleton.1 hx]
      exact .inl (hperm.mem_iff.2 (List.mem_cons_self _ _))
  · cases he
    obtain ⟨hc, hd⟩ := h.request _ _ ho
    exact ⟨hc, fun t ht => (hd t ht).imp fun _ hn => List.mem_append_left _ hn⟩

/-- **The pending decodes are at most `m_parallelization`**: each is a decode that has not
finished, so a prefetch in flight or the future of `get`. -/
theorem Inv.unprocessedTasksCount_le (h : Inv s) :
    s.threadPool.unprocessedTasksCount (some 0) ≤ s.parallelization := by
  obtain ⟨A, hR, hWF, hA⟩ := h.tasks.pool
  rw [ThreadPool.unprocessedTasksCount_some, hR.deque_eq]
  have hnodup : ((A.pending.filter (·.2 = 0)).map Prod.fst).Nodup :=
    hWF.sorted.nodup.sublist ((List.filter_sublist _).map _)
  have hsub : (A.pending.filter (·.2 = 0)).map Prod.fst ⊆
      s.prefetching.map Prod.snd ++ s.owner.queuedResult.toList := by
    intro t ht
    obtain ⟨x, hx, rfl⟩ := List.mem_map.1 ht
    obtain ⟨hxp, hx0⟩ := List.mem_filter.1 hx
    obtain ⟨hstart, hdec⟩ := hA x hxp
    obtain ⟨y, hy, hyx⟩ := List.mem_map.1 (hdec (of_decide_eq_true hx0))
    rw [← hyx]
    rcases h.unfinished y hy fun hm => hstart (List.mem_append_right _ (hyx ▸ hm)) with hm | hq
    · exact List.mem_append_left _ (List.mem_map_of_mem Prod.snd hm)
    · simp [hq]
  calc ((A.pending.filter (·.2 = 0)).map Prod.fst).length
      ≤ (s.prefetching.map Prod.snd ++ s.owner.queuedResult.toList).length :=
        (hnodup.subperm hsub).length_le
    _ ≤ s.prefetching.length + 1 := by
        rw [List.length_append, List.length_map]
        cases s.owner.queuedResult <;> simp
    _ ≤ s.parallelization := h.prefetching_lt

theorem Inv.waitFor (h : Inv s) {sequential : Bool} (hs : s.step (.waitFor sequential) = some s') :
    Inv s' := by
  obtain ⟨request, task, ho, hq, hstep⟩ := step_waitFor hs
  have hdone : ∀ result, s.finished.lookup task = some result → ∀ t,
      s.owner.queuedResult = some t → t ∉ s.finished.map Prod.fst → Owner.idle.queuedResult = some t :=
    fun result hf t ht hnf => by
      rw [ho, Owner.queuedResult, hq, Option.some.injEq] at ht
      exact absurd (List.mem_map_of_mem Prod.fst (ht ▸ mem_of_lookup_eq_some hf)) hnf
  rcases hstep with ⟨-, rfl⟩ | ⟨hf, rfl⟩ | ⟨blockData, hf, rfl⟩
  · exact h.stage ho _ s.cache s.prefetchCache
  · exact h.of_owner (hdone _ hf) (fun _ _ he => by cases he)
      (results_ok_append h.results_ok fun _ => GetResult.noConfusion)
  · exact h.of_owner (hdone _ hf) (fun _ _ he => by cases he)
      (results_ok_append h.results_ok fun _ => GetResult.noConfusion)

theorem Inv.finish (h : Inv s) {task : Nat} (ht : task ∈ s.running) (result : Option BlockData) :
    Inv { s with running := s.running.erase task, finished := s.finished ++ [(task, result)] } :=
  ⟨h.parallelization_pos, h.threadCount_le, h.prefetching_lt, h.sorted, h.tasks.finish ht result,
    h.prefetching_decodes,
    fun x hx hf => h.unfinished x hx fun hm => hf (by
      rw [List.map_append]
      exact List.mem_append_left _ hm),
    h.request, h.results_ok⟩

/-- **Every step keeps the invariant.** -/
theorem Inv.step (h : Inv s) {event : Event} (hs : s.step event = some s') : Inv s' := by
  cases event with
  | get blockOffset onlyCheckCaches nextBlockOffset sequential =>
    obtain ⟨hidle, rfl⟩ := step_get hs
    exact h.get hidle _ _ _ _
  | processReadyPrefetch =>
    obtain ⟨_, _, _, ho, rfl⟩ := step_processReadyPrefetch hs
    exact h.processReadyPrefetch ho
  | prefetch =>
    obtain ⟨_, ho, rfl | ⟨_, cache, prefetchCache, rfl, -, -⟩⟩ := step_prefetch hs
    · exact h.afterPrefetchNewBlocks ho
    · exact h.stage ho _ cache prefetchCache
  | prefetchIndex =>
    obtain ⟨_, _, _, _, ho, -, rfl | ⟨_, _, -, hsat, hq, rfl⟩⟩ := step_prefetchIndex hs
    · exact h.stage ho _ s.cache s.prefetchCache
    · exact h.prefetchDecode ho _ hsat hq
  | checkUnprocessedTasks =>
    obtain ⟨_, _, ho, ⟨hgt, -⟩ | rfl⟩ := step_checkUnprocessedTasks hs
    · exact absurd h.unprocessedTasksCount_le (not_le.2 hgt)
    · exact h.afterPrefetchNewBlocks ho
  | waitFor => exact h.waitFor hs
  | submitTaskWithHighPriority =>
    obtain rfl := Option.some.inj (step_submitTaskWithHighPriority.symm.trans hs)
    exact ⟨h.parallelization_pos, h.threadCount_le, h.prefetching_lt, h.sorted,
      h.tasks.submit (by decide), h.prefetching_decodes, h.unfinished, h.request, h.results_ok⟩
  | stopThreadPool =>
    obtain ⟨-, -, rfl⟩ := step_stopThreadPool hs
    exact ⟨h.parallelization_pos, Nat.zero_le _, h.prefetching_lt, h.sorted, h.tasks.stop,
      h.prefetching_decodes, h.unfinished, h.request, h.results_ok⟩
  | clearCache =>
    obtain ⟨-, rfl⟩ := step_clearCache hs
    exact h.of_owner (fun t ht _ => ht) (fun r stage he => ⟨stage, he⟩) h.results_ok
  | dequeue =>
    obtain ⟨_, _, -, hd, rfl⟩ := step_dequeue hs
    exact ⟨h.parallelization_pos, h.threadCount_le, h.prefetching_lt, h.sorted, h.tasks.dequeue hd,
      h.prefetching_decodes, h.unfinished, h.request, h.results_ok⟩
  | finish =>
    obtain ⟨ht, rfl⟩ := step_finish hs
    exact h.finish ht _

theorem Inv.of_reachable {Allowed : BlockFetcher → Event → Prop} (hs : Reachable Allowed s) :
    Inv s := by
  induction hs with
  | new parallelization availableCores => exact Inv.new parallelization availableCores
  | step _ _ _ hstep ih => exact ih.step hstep

/-! ## The bound -/

/-- **Whatever the calls of `get`, the answers of the block finder and the fetching strategy, and
the interleaving of the workers, `m_prefetching` stays below `m_parallelization`, the pool holds at
most `m_parallelization` pending tasks of priority `0`, and no call of `get` throws the
`std::logic_error` of `prefetchNewBlocks`.** -/
theorem blockFetcher_bounds_queued_decodes (hs : Reachable (fun _ _ => True) s) :
    s.prefetching.length < s.parallelization ∧
      s.threadPool.unprocessedTasksCount (some 0) ≤ s.parallelization ∧
      ∀ result ∈ s.results, ∀ what, result.2 ≠ .logicError what :=
  have h := Inv.of_reachable hs
  ⟨h.prefetching_lt, h.unprocessedTasksCount_le, h.results_ok⟩

/-- A run with two decodes pending: `get` of offset `100` submits its on-demand decode, and the
prefetch loop submits the decode of offset `200`. -/
theorem blockFetcher_bounds_queued_decodes_example :
    ∃ s, Reachable (fun _ _ => True) s ∧ s.threadPool.unprocessedTasksCount (some 0) = 2 ∧
      (s.prefetching.length < s.parallelization ∧
        s.threadPool.unprocessedTasksCount (some 0) ≤ s.parallelization ∧
        ∀ result ∈ s.results, ∀ what, result.2 ≠ .logicError what) := by
  have hs : Reachable (fun _ _ => True) _ :=
    Reachable.step (.prefetchIndex false (some 200) (some 300) none)
      (Reachable.step (.prefetch [1] [200])
        (Reachable.step (.get 100 false (some 200) false) (Reachable.new 2 0) trivial rfl)
        trivial rfl)
      trivial rfl
  exact ⟨_, hs, by decide, blockFetcher_bounds_queued_decodes hs⟩

end BlockFetcher

end Pragzip
