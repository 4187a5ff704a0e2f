import Pragzip.BlockFetcher.Exclusive

/-!
# Block fetcher — every block is the block of its offset

Both caches are keyed by block offset, a prefetch is filed under the offset it decodes, and `get`
returns the block of its future or the block a cache holds under its offset. So whatever the
calls of `get`, the clears, the answers of the block finder and the fetching strategy, and the
interleaving of the workers, each cache entry is a block decoded from its key by a task that
finished, and so is every block that `get` returns.

* `Decoded`, `Decoded.mono`: a block decoded from an offset, held by a finished future;
* `Coherent`, `Coherent.new`, `Coherent.of_finished_eq`: the finished futures, the caches, the
  request and the results hold only such blocks;
* `Coherent.get`, `Coherent.processReadyPrefetch`, `Coherent.afterPrefetchNewBlocks`,
  `Coherent.waitFor`, `Coherent.finish`: the events that move blocks;
* `Coherent.step`, `Coherent.of_reachable`;
* **`blockFetcher_returns_requested_block`**: every block a call of `get` returns was decoded from
  the offset `get` was called with, by a decode task that finished, and every cache entry is the
  block of its key.
-/

namespace Pragzip

namespace BlockFetcher

variable {s s' : BlockFetcher}

/-- `blockData` was decoded from `blockOffset`, and a finished future holds it. -/
def Decoded (finished : List (Nat × Option BlockData)) (blockOffset : Nat) (blockData : BlockData) :
    Prop :=
  blockData.blockOffset = blockOffset ∧ ∃ task, (task, some blockData) ∈ finished

theorem Decoded.mono {finished finished' : List (Nat × Option BlockData)} {blockOffset : Nat}
    {blockData : BlockData} (h : Decoded finished blockOffset blockData)
    (hf : ∀ x ∈ finished, x ∈ finished') : Decoded finished' blockOffset blockData :=
  ⟨h.1, h.2.imp fun _ ht => hf _ ht⟩

/-- What holds in every state a run reaches: a finished future holds the block of its decode, and
the caches, the block `get` found in a cache and the blocks `get` returned are blocks decoded from
their offsets. -/
structure Coherent (s : BlockFetcher) : Prop where
  finished : ∀ task blockData, (task, some blockData) ∈ s.finished → (task, blockData) ∈ s.decodes
  cache : ∀ e ∈ s.cache.entries, Decoded s.finished e.1 e.2
  prefetchCache : ∀ e ∈ s.prefetchCache.entries, Decoded s.finished e.1 e.2
  request : ∀ r stage, s.owner = .get r stage → ∀ blockData, r.cachedResult = some blockData →
    Decoded s.finished r.blockOffset blockData
  results : ∀ blockOffset blockData, (blockOffset, GetResult.blockData blockData) ∈ s.results →
    Decoded s.finished blockOffset blockData

theorem Coherent.new (parallelization availableCores : Nat) :
    Coherent (BlockFetcher.new parallelization availableCores) :=
  ⟨(fun _ _ h => by cases h), (fun _ h => by cases h), (fun _ h => by cases h),
    (fun _ _ h => by cases h), fun _ _ h => by cases h⟩

theorem Coherent.of_finished_eq (h : Coherent s) (hf : s'.finished = s.finished)
    (hd : ∀ x ∈ s.decodes, x ∈ s'.decodes)
    (hc : ∀ e ∈ s'.cache.entries, Decoded s.finished e.1 e.2)
    (hpc : ∀ e ∈ s'.prefetchCache.entries, Decoded s.finished e.1 e.2)
    (hr : ∀ r stage, s'.owner = .get r stage → ∀ blockData, r.cachedResult = some blockData →
      Decoded s.finished r.blockOffset blockData)
    (hres : ∀ blockOffset blockData, (blockOffset, GetResult.blockData blockData) ∈ s'.results →
      Decoded s.finished blockOffset blockData) : Coherent s' := by
  rw [← hf] at hc hpc hr hres
  exact ⟨fun t d ht => hd _ (h.finished t d (hf ▸ ht)), hc, hpc, hr, hres⟩

theorem Coherent.request_of_owner (h : Coherent s) {request : Request} {stage : Stage}
    (ho : s.owner = .get request stage) (owner : Owner)
    (hr : ∀ r stage', owner = .get r stage' → r = request) :
    ∀ r stage', owner = .get r stage' → ∀ blockData, r.cachedResult = some blockData →
      Decoded s.finished r.blockOffset blockData := fun r stage' he =>
  hr r stage' he ▸ h.request request stage ho

theorem decoded_results_append {finished : List (Nat × Option BlockData)}
    {results : List (Nat × GetResult)}
    (h : ∀ blockOffset blockData, (blockOffset, GetResult.blockData blockData) ∈ results →
      Decoded finished blockOffset blockData) {blockOffset : Nat} {result : GetResult}
    (hr : ∀ blockData, result = .blockData blockData → Decoded finished blockOffset blockData) :
    ∀ o blockData, (o, GetResult.blockData blockData) ∈ results ++ [(blockOffset, result)] →
      Decoded finished o blockData := fun o blockData hm => by
  rcases List.mem_append.1 hm with hm | hm
  · exact h o blockData hm
  · obtain ⟨rfl, hres⟩ := Prod.mk.inj (List.mem_singleton.1 hm)
    exact hr blockData hres.symm

/-! ## The events that move blocks -/

/-- **A finished future of the decode of an offset holds a block decoded from the offset**: a
task has one decode. -/
theorem Coherent.decoded_of_lookup (h : Coherent s) (hinv : Inv s) {task blockOffset n : Nat}
    {blockData : BlockData} (hn : (task, ⟨blockOffset, n⟩) ∈ s.decodes)
    (hf : s.finished.lookup task = some (some blockData)) :
    Decoded s.finished blockOffset blockData := by
  have hfm := mem_of_lookup_eq_some hf
  cases List.inj_on_of_nodup_map hinv.tasks.decodes_nodup (h.finished task blockData hfm) hn rfl
  exact ⟨rfl, task, hfm⟩

theorem Coherent.get (h : Coherent s) (hidle : s.owner = .idle) (blockOffset : Nat)
    (onlyCheckCaches : Bool) (nextBlockOffset : Option Nat) (sequential : Bool) :
    Coherent (s.get blockOffset onlyCheckCaches nextBlockOffset sequential) := by
  rcases hg : s.getFromCaches sequential blockOffset with ⟨⟨cachedResult, queuedResult⟩, s₁⟩
  obtain ⟨-, -, cache, prefetchCache, rfl, hcache, hpcache, -, -, hcached⟩ := getFromCaches_spec hg
  have hc : ∀ e ∈ cache.entries, Decoded s.finished e.1 e.2 := fun e he =>
    (hcache e he).elim (h.cache e) fun he => h.prefetchCache e he.2
  have hpc : ∀ e ∈ prefetchCache.entries, Decoded s.finished e.1 e.2 := fun e he =>
    h.prefetchCache e (hpcache e he)
  have hcr : ∀ blockData, cachedResult = some blockData → Decoded s.finished blockOffset blockData :=
    fun blockData hb => (hcached blockData hb).elim (h.cache _) (h.prefetchCache _)
  have hreq : ∀ queuedResult stage, ∀ r stage', Owner.get ⟨blockOffset, cachedResult, queuedResult⟩
      stage = .get r stage' → ∀ blockData, r.cachedResult = some blockData →
      Decoded s.finished r.blockOffset blockData := by
    rintro _ _ r _ ⟨⟩
    exact hcr
  unfold BlockFetcher.get
  rw [hg]
  dsimp only
  split
  · split
    · exact h.of_finished_eq rfl (fun _ hx => hx) hc hpc
        (fun _ _ ho => Owner.noConfusion (hidle.symm.trans ho))
        (decoded_results_append h.results fun _ => GetResult.noConfusion)
    · exact h.of_finished_eq rfl (fun _ hx => List.mem_append_left _ hx) hc hpc (hreq _ _) h.results
  · exact h.of_finished_eq rfl (fun _ hx => hx) hc hpc (hreq _ _) h.results

theorem Coherent.processReadyPrefetch (h : Coherent s) (hinv : Inv s) {request : Request}
    {blockOffset : Nat} {blockOffsets : List Nat}
    (ho : s.owner = .get request (.processReadyPrefetches (blockOffset :: blockOffsets))) :
    Coherent { s.processReadyPrefetch blockOffset with
      owner := .get request (.processReadyPrefetches blockOffsets) } := by
  have hr := h.request_of_owner ho (.get request (.processReadyPrefetches blockOffsets))
    fun _ _ he => by cases he; rfl
  rcases @processReadyPrefetch_spec s blockOffset with heq | ⟨task, result, prefetchCache, hp, hf, heq, hpcache⟩
  · rw [heq]
    exact h.of_finished_eq rfl (fun _ hx => hx) h.cache h.prefetchCache hr h.results
  · rw [heq]
    obtain ⟨n, hn⟩ := hinv.prefetching_decodes blockOffset task (mem_of_lookup_eq_some hp)
    refine h.of_finished_eq rfl (fun _ hx => hx) h.cache (fun e he => ?_) hr h.results
    rcases hpcache e he with he | ⟨blockData, rfl, rfl⟩
    exacts [h.prefetchCache e he, h.decoded_of_lookup hinv hn hf]

theorem Coherent.afterPrefetchNewBlocks (h : Coherent s) {request : Request} {stage : Stage}
    (ho : s.owner = .get request stage) : Coherent (s.afterPrefetchNewBlocks request) := by
  unfold BlockFetcher.afterPrefetchNewBlocks
  cases hc : request.cachedResult with
  | none =>
    exact h.of_finished_eq rfl (fun _ hx => hx) h.cache h.prefetchCache
      (h.request_of_owner ho _ fun _ _ he => by cases he; rfl) h.results
  | some blockData =>
    exact h.of_finished_eq rfl (fun _ hx => hx) h.cache h.prefetchCache
      (fun _ _ he => Owner.noConfusion he)
      (decoded_results_append h.results fun _ he => by
        cases he
        exact h.request request stage ho _ hc)

theorem Coherent.waitFor (h : Coherent s) (hinv : Inv s) {sequential : Bool}
    (hs : s.step (.waitFor sequential) = some s') : Coherent s' := by
  obtain ⟨request, task, ho, hq, hstep⟩ := step_waitFor hs
  rcases hstep with ⟨-, rfl⟩ | ⟨-, rfl⟩ | ⟨blockData, hf, rfl⟩
  · exact h.of_finished_eq rfl (fun _ hx => hx) h.cache h.prefetchCache
      (h.request_of_owner ho _ fun _ _ he => by cases he; rfl) h.results
  · exact h.of_finished_eq rfl (fun _ hx => hx) h.cache h.prefetchCache
      (fun _ _ he => Owner.noConfusion he)
      (decoded_results_append h.results fun _ => GetResult.noConfusion)
  · obtain ⟨n, hn⟩ := (hinv.request request .waitFor ho).2 task hq
    have hdec := h.decoded_of_lookup hinv hn hf
    refine h.of_finished_eq rfl (fun _ hx => hx) (fun e he => ?_) h.prefetchCache
      (fun _ _ he => Owner.noConfusion he)
      (decoded_results_append h.results fun _ he => by cases he; exact hdec)
    rcases mem_entries_insertIntoCache he with rfl | he
    exacts [hdec, h.cache e he]

theorem Coherent.finish (h : Coherent s) {task : Nat} (threw : Bool) :
    Coherent { s with
      running := s.running.erase task
      finished := s.finished ++ [(task, if threw then none else s.decodes.lookup task)] } := by
  have hmono : ∀ x ∈ s.finished, x ∈ s.finished ++
      [(task, if threw then none else s.decodes.lookup task)] := fun _ hx => List.mem_append_left _ hx
  refine ⟨fun t d ht => ?_, fun e he => (h.cache e he).mono hmono,
    fun e he => (h.prefetchCache e he).mono hmono,
    fun r stage ho d hd => (h.request r stage ho d hd).mono hmono,
    fun o d hm => (h.results o d hm).mono hmono⟩
  rcases List.mem_append.1 ht with ht | ht
  · exact h.finished t d ht
  · obtain ⟨rfl, hd⟩ := Prod.mk.inj (List.mem_singleton.1 ht)
    cases threw
    · exact mem_of_lookup_eq_some hd.symm
    · cases hd

/-! ## Every step keeps coherence -/

/-- **Every step keeps coherence.** -/
theorem Coherent.step (h : Coherent s) (hinv : Inv s) {event : Event}
    (hs : s.step event = some s') : Coherent s' := by
  cases event with
  | get =>
    obtain ⟨hidle, rfl⟩ := step_get hs
    exact h.get hidle _ _ _ _
  | processReadyPrefetch =>
    obtain ⟨_, _, _, ho, rfl⟩ := step_processReadyPrefetch hs
    exact h.processReadyPrefetch hinv ho
  | prefetch =>
    obtain ⟨_, ho, rfl | ⟨_, _, _, rfl, hc, hpc⟩⟩ := step_prefetch hs
    · exact h.afterPrefetchNewBlocks ho
    · exact h.of_finished_eq rfl (fun _ hx => hx) (fun e he => h.cache e (hc e he))
        (fun e he => h.prefetchCache e (hpc e he))
        (h.request_of_owner ho _ fun _ _ he => by cases he; rfl) h.results
  | prefetchIndex =>
    obtain ⟨_, _, _, _, ho, -, rfl | ⟨_, _, -, -, -, rfl⟩⟩ := step_prefetchIndex hs
    · exact h.of_finished_eq rfl (fun _ hx => hx) h.cache h.prefetchCache
        (h.request_of_owner ho _ fun _ _ he => by cases he; rfl) h.results
    · exact h.of_finished_eq rfl (fun _ hx => List.mem_append_left _ hx) h.cache h.prefetchCache
        (h.request_of_owner ho _ fun _ _ he => by cases he; rfl) h.results
  | checkUnprocessedTasks =>
    obtain ⟨_, _, ho, ⟨-, rfl⟩ | rfl⟩ := step_checkUnprocessedTasks hs
    · exact h.of_finished_eq rfl (fun _ hx => hx) h.cache h.prefetchCache
        (fun _ _ he => Owner.noConfusion he)
        (decoded_results_append h.results fun _ => GetResult.noConfusion)
    · exact h.afterPrefetchNewBlocks ho
  | waitFor => exact h.waitFor hinv hs
  | submitTaskWithHighPriority =>
    obtain rfl := Option.some.inj (step_submitTaskWithHighPriority.symm.trans hs)
    exact ⟨h.finished, h.cache, h.prefetchCache, h.request, h.results⟩
  | stopThreadPool =>
    obtain ⟨-, -, rfl⟩ := step_stopThreadPool hs
    exact ⟨h.finished, h.cache, h.prefetchCache, h.request, h.results⟩
  | clearCache =>
    obtain ⟨-, rfl⟩ := step_clearCache hs
    exact ⟨h.finished, (fun _ he => by cases he), h.prefetchCache, h.request, h.results⟩
  | dequeue =>
    obtain ⟨_, _, -, -, rfl⟩ := step_dequeue hs
    exact ⟨h.finished, h.cache, h.prefetchCache, h.request, h.results⟩
  | finish =>
    obtain ⟨-, rfl⟩ := step_finish hs
    exact h.finish _

theorem Coherent.of_reachable {Allowed : BlockFetcher → Event → Prop} (hs : Reachable Allowed s) :
    Coherent s := by
  induction hs with
  | new parallelization availableCores => exact Coherent.new parallelization availableCores
  | step _ hs _ hstep ih => exact ih.step (Inv.of_reachable hs) hstep

/-! ## The blocks `get` returns -/

/-- **Whatever the calls of `get`, the clears of the cache, the answers of the block finder and the
fetching strategy, and the interleaving of the workers, every block a call of `get` returns was
decoded from the offset `get` was called with, by a decode task that finished, and both caches
hold under each offset only the block decoded from it.** -/
theorem blockFetcher_returns_requested_block (hs : Reachable (fun _ _ => True) s) :
    (∀ blockOffset blockData, (blockOffset, GetResult.blockData blockData) ∈ s.results →
      blockData.blockOffset = blockOffset ∧
        ∃ task, (task, some blockData) ∈ s.finished ∧ (task, blockData) ∈ s.decodes) ∧
      ∀ e ∈ s.cache.entries ++ s.prefetchCache.entries, e.2.blockOffset = e.1 := by
  have h := Coherent.of_reachable hs
  refine ⟨fun blockOffset blockData hm => ?_, fun e he => ?_⟩
  · obtain ⟨ho, task, ht⟩ := h.results blockOffset blockData hm
    exact ⟨ho, task, ht, h.finished task blockData ht⟩
  · rcases List.mem_append.1 he with he | he
    exacts [(h.cache e he).1, (h.prefetchCache e he).1]

/-- A call of `get` for offset `0` whose block is decoded on demand, up to the next offset `50`
the block finder gives. -/
def onDemandRun : List Event :=
  [.get 0 false (some 50) false, .prefetch [] [], .checkUnprocessedTasks, .dequeue,
    .finish 0 false, .waitFor false]

theorem blockFetcher_returns_requested_block_onDemand :
    ∃ s, Reachable (fun _ _ => True) s ∧ s.results = [(0, .blockData ⟨0, 50⟩)] ∧
      ((∀ blockOffset blockData, (blockOffset, GetResult.blockData blockData) ∈ s.results →
        blockData.blockOffset = blockOffset ∧
          ∃ task, (task, some blockData) ∈ s.finished ∧ (task, blockData) ∈ s.decodes) ∧
        ∀ e ∈ s.cache.entries ++ s.prefetchCache.entries, e.2.blockOffset = e.1) := by
  have hs := Reachable.of_foldlM onDemandRun (.new 2 0) (Option.eq_some_of_isSome (by decide))
  exact ⟨_, hs, rfl, blockFetcher_returns_requested_block hs⟩

end BlockFetcher

end Pragzip
