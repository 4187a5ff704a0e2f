import Pragzip.BlockFetcher.Model

/-!
# Block fetcher — what each step does

Each member of `BlockFetcher` and each event, said once as the fields it changes and how, so that
the invariants never unfold the step.

* `eq_of_mem_of_mem`, `lookup_eq_some_of_mem`, `emplace_perm`, `sorted_emplace`: `m_prefetching`
  as a map in increasing order of the offset;
* `getFromCaches_spec`, `processReadyPrefetch_spec`, `prefetchBlock_spec`,
  `foldl_touchInCacheIfExists`, `afterPrefetchNewBlocks_spec`: the members;
* `step_get`, `step_processReadyPrefetch`, `step_prefetch`, `step_prefetchIndex`,
  `step_checkUnprocessedTasks`, `step_waitFor`, `step_stopThreadPool`, `step_clearCache`,
  `step_dequeue`, `step_finish`: one inversion lemma per event;
* `step_prefetch_touches_zero`, **`prefetchNewBlocks_touches_offset_zero`**: `prefetchNewBlocks`
  collects the offsets it protects in `blockOffsetsToPrefetch`, a vector constructed with one
  element per predicted index, each `0`, to which the offsets found are appended; so offset `0`
  is touched whenever the prediction is not empty, whether it was predicted or not.
-/

namespace Pragzip

/-! ## `m_prefetching` -/

section Prefetching

variable {m : List (Nat × Nat)} {o t : Nat}

theorem eq_of_mem_of_mem (hm : (m.map Prod.fst).Sorted (· < ·)) {t₁ t₂ : Nat} (h₁ : (o, t₁) ∈ m)
    (h₂ : (o, t₂) ∈ m) : t₁ = t₂ :=
  (Prod.mk.inj (List.inj_on_of_nodup_map hm.nodup h₁ h₂ rfl)).2

theorem lookup_eq_some_of_mem (hm : (m.map Prod.fst).Sorted (· < ·)) (h : (o, t) ∈ m) :
    m.lookup o = some t := by
  cases hl : m.lookup o with
  | none => exact absurd (List.mem_map_of_mem Prod.fst h) (lookup_eq_none_iff_not_mem.1 hl)
  | some t' => rw [eq_of_mem_of_mem hm (mem_of_lookup_eq_some hl) h]

theorem filter_ne_eq_self (h : m.lookup o = none) : m.filter (·.1 != o) = m :=
  List.filter_eq_self.2 fun x hx => by
    have hne : x.1 ≠ o := fun he => lookup_eq_none_iff_not_mem.1 h (he ▸ List.mem_map_of_mem _ hx)
    simpa using hne

theorem sorted_filter (hm : (m.map Prod.fst).Sorted (· < ·)) (p : Nat × Nat → Bool) :
    ((m.filter p).map Prod.fst).Sorted (· < ·) :=
  hm.sublist ((List.filter_sublist m).map _)

theorem emplace_perm (h : o ∉ m.map Prod.fst) : (emplace o t m).Perm ((o, t) :: m) := by
  induction m with
  | nil => exact List.Perm.refl _
  | cons e m ih =>
    obtain ⟨o', t'⟩ := e
    simp only [List.map_cons, List.mem_cons, not_or] at h
    simp only [emplace, if_neg h.1]
    split_ifs
    · exact List.Perm.refl _
    · exact ((ih h.2).cons _).trans (List.Perm.swap _ _ _)

theorem mem_keys_emplace {k : Nat} (hk : k ∈ (emplace o t m).map Prod.fst) :
    k = o ∨ k ∈ m.map Prod.fst := by
  induction m with
  | nil => simpa [emplace] using hk
  | cons e m ih =>
    simp only [emplace] at hk
    split_ifs at hk <;> simp only [List.map_cons, List.mem_cons] at hk ⊢
    · tauto
    · tauto
    · rcases hk with hk | hk
      exacts [.inr (.inl hk), (ih hk).imp_right .inr]

theorem sorted_emplace (hm : (m.map Prod.fst).Sorted (· < ·)) :
    ((emplace o t m).map Prod.fst).Sorted (· < ·) := by
  induction m with
  | nil => exact List.sorted_singleton _
  | cons e m ih =>
    rw [List.map_cons, List.sorted_cons] at hm
    simp only [emplace]
    split_ifs with h₁ h₂
    · exact List.sorted_cons.2 ⟨fun k hk => by
        rcases List.mem_cons.1 hk with rfl | hk
        exacts [h₁, lt_trans h₁ (hm.1 k hk)], List.sorted_cons.2 hm⟩
    · exact List.sorted_cons.2 hm
    · refine List.sorted_cons.2 ⟨fun k hk => ?_, ih hm.2⟩
      rcases mem_keys_emplace hk with rfl | hk
      exacts [lt_of_le_of_ne (not_lt.1 h₁) (Ne.symm h₂), hm.1 k hk]

end Prefetching

namespace BlockFetcher

variable {s s' : BlockFetcher}

/-! ## The members -/

theorem submitDecode_eq (blockOffset nextBlockOffset : Nat) :
    s.submitDecode blockOffset nextBlockOffset = (s.threadPool.taskCount,
      { s with threadPool := (s.threadPool.submit 0).1,
               decodes := s.decodes ++ [(s.threadPool.taskCount, ⟨blockOffset, nextBlockOffset⟩)] }) :=
  rfl

theorem isInCacheOrQueue_eq_false {blockOffset : Nat} (h : s.isInCacheOrQueue blockOffset = false) :
    blockOffset ∉ s.prefetching.map Prod.fst ∧ blockOffset ∉ s.cache.keys ∧
      blockOffset ∉ s.prefetchCache.keys := by
  simp only [isInCacheOrQueue, Bool.or_eq_false_iff, Option.not_isSome, Option.isNone_iff_eq_none,
    Cache.test_eq, decide_eq_false_iff_not] at h
  exact ⟨lookup_eq_none_iff_not_mem.1 h.1.1, h.1.2, h.2⟩

theorem threadPoolSaturated_eq_false (h : s.threadPoolSaturated = false) :
    s.prefetching.length + 1 < s.threadCount := by
  simpa [threadPoolSaturated] using h

theorem mem_entries_insertIntoCache {sequential : Bool} {blockOffset : Nat} {blockData : BlockData}
    {e : Nat × BlockData} (h : e ∈ (s.insertIntoCache sequential blockOffset blockData).cache.entries) :
    e = (blockOffset, blockData) ∨ e ∈ s.cache.entries := by
  refine (Cache.mem_entries_insert h).imp_right fun he => ?_
  split at he
  · simp [Cache.clear] at he
  · exact he

/-- **What `getFromCaches` does**: it takes the prefetch of the offset out of `m_prefetching` and
returns a cached block only where there is none; it changes nothing else but the caches, whose
entries it takes from the caches, only the offset's moving from the prefetch cache to the cache;
where it finds nothing, no cache holds the offset and it changes no cache; a block it returns is
the entry of the offset in a cache. -/
theorem getFromCaches_spec {sequential : Bool} {blockOffset : Nat}
    {cachedResult : Option BlockData} {queuedResult : Option Nat}
    (h : s.getFromCaches sequential blockOffset = ((cachedResult, queuedResult), s')) :
    queuedResult = s.prefetching.lookup blockOffset ∧ (cachedResult.isSome → queuedResult = none) ∧
      ∃ cache prefetchCache,
        s' = { s with prefetching := s.prefetching.filter (·.1 != blockOffset), cache, prefetchCache } ∧
        (∀ e ∈ cache.entries, e ∈ s.cache.entries ∨ e.1 = blockOffset ∧ e ∈ s.prefetchCache.entries) ∧
        (∀ e ∈ prefetchCache.entries, e ∈ s.prefetchCache.entries) ∧
        (queuedResult.isSome → cache = s.cache ∧ prefetchCache = s.prefetchCache) ∧
        (cachedResult = none → queuedResult = none → blockOffset ∉ s.cache.keys ∧
          blockOffset ∉ s.prefetchCache.keys ∧ cache = s.cache ∧ prefetchCache = s.prefetchCache) ∧
        (∀ blockData, cachedResult = some blockData →
          (blockOffset, blockData) ∈ s.cache.entries ∨ (blockOffset, blockData) ∈ s.prefetchCache.entries) := by
  unfold getFromCaches takeFromPrefetchQueue at h
  cases hp : s.prefetching.lookup blockOffset with
  | some task =>
    simp only [hp, Prod.mk.injEq] at h
    obtain ⟨⟨rfl, rfl⟩, rfl⟩ := h
    exact ⟨rfl, by simp, s.cache, s.prefetchCache, rfl, fun _ he => .inl he, fun _ he => he,
      fun _ => ⟨rfl, rfl⟩, (fun _ h => by cases h), fun _ h => by cases h⟩
  | none =>
    simp only [hp, filter_ne_eq_self hp, Cache.get] at h ⊢
    cases hc : s.cache.entries.lookup blockOffset with
    | some blockData =>
      simp only [hc, Prod.mk.injEq] at h
      obtain ⟨⟨rfl, rfl⟩, rfl⟩ := h
      exact ⟨rfl, fun _ => rfl, _, s.prefetchCache, rfl,
        fun _ he => .inl (Cache.mem_entries_touch he), fun _ he => he, (fun h => by cases h),
        (fun h => by cases h), fun _ h => .inl (Option.some.inj h ▸ mem_of_lookup_eq_some hc)⟩
    | none =>
      rw [Cache.touch_of_lookup_eq_none hc] at h
      have hc' := Cache.lookup_eq_none_iff.1 hc
      cases hpc : s.prefetchCache.entries.lookup blockOffset with
      | some blockData =>
        simp only [hc, hpc, Prod.mk.injEq] at h
        obtain ⟨⟨rfl, rfl⟩, rfl⟩ := h
        have hmem := mem_of_lookup_eq_some hpc
        refine ⟨rfl, fun _ => rfl, _, _, rfl, fun e he => ?_,
          fun _ he => Cache.mem_entries_touch (Cache.mem_entries_evict he), (fun h => by cases h),
          (fun h => by cases h), fun _ h => .inr (Option.some.inj h ▸ hmem)⟩
        rcases mem_entries_insertIntoCache he with rfl | he
        exacts [.inr ⟨rfl, hmem⟩, .inl he]
      | none =>
        simp only [hc, hpc, Prod.mk.injEq, Cache.touch_of_lookup_eq_none hpc] at h
        obtain ⟨⟨rfl, rfl⟩, rfl⟩ := h
        exact ⟨rfl, by simp, s.cache, s.prefetchCache, rfl, fun _ he => .inl he,
          fun _ he => he, fun _ => ⟨rfl, rfl⟩, fun _ _ => ⟨hc', Cache.lookup_eq_none_iff.1 hpc, rfl, rfl⟩,
          fun _ h => by cases h⟩

/-- **What a turn of `processReadyPrefetches` does**: nothing, or it removes a finished prefetch
and, where its block came, puts the block under its offset in the prefetch cache, its only new
entry. -/
theorem processReadyPrefetch_spec (blockOffset : Nat) :
    s.processReadyPrefetch blockOffset = s ∨
      ∃ task result prefetchCache, s.prefetching.lookup blockOffset = some task ∧
        s.finished.lookup task = some result ∧
        s.processReadyPrefetch blockOffset =
          { s with prefetching := s.prefetching.filter (·.1 != blockOffset), prefetchCache } ∧
        ∀ e ∈ prefetchCache.entries, e ∈ s.prefetchCache.entries ∨
          ∃ blockData, result = some blockData ∧ e = (blockOffset, blockData) := by
  cases hp : s.prefetching.lookup blockOffset with
  | none => exact .inl (by simp [processReadyPrefetch, hp])
  | some task =>
    cases hf : s.finished.lookup task with
    | none => exact .inl (by simp [processReadyPrefetch, hp, hf])
    | some result =>
      cases result with
      | none =>
        exact .inr ⟨task, none, s.prefetchCache, rfl, hf, by simp [processReadyPrefetch, hp, hf],
          fun _ he => .inl he⟩
      | some blockData =>
        exact .inr ⟨task, some blockData, s.prefetchCache.insert blockOffset blockData, rfl, hf,
          by simp [processReadyPrefetch, hp, hf],
          fun _ he => (Cache.mem_entries_insert he).elim (fun he => .inr ⟨blockData, rfl, he⟩) .inl⟩

/-- **What a turn of the prefetch loop does**: nothing, or, in a pool that is not saturated, it
submits the decode of an offset that no cache holds and no prefetch has, and enters the prefetch
in `m_prefetching`. -/
theorem prefetchBlock_spec (blockOffsetsToPrefetch : List Nat) (beyondEnd : Bool)
    (prefetchBlockOffset nextPrefetchBlockOffset partitionOffset : Option Nat) :
    (s.prefetchBlock blockOffsetsToPrefetch beyondEnd prefetchBlockOffset nextPrefetchBlockOffset
        partitionOffset).2 = s ∨
      ∃ blockOffset nextBlockOffset, prefetchBlockOffset = some blockOffset ∧
        s.threadPoolSaturated = false ∧ s.isInCacheOrQueue blockOffset = false ∧
        (s.prefetchBlock blockOffsetsToPrefetch beyondEnd prefetchBlockOffset nextPrefetchBlockOffset
          partitionOffset).2 =
          { s with threadPool := (s.threadPool.submit 0).1,
                   decodes := s.decodes ++ [(s.threadPool.taskCount, ⟨blockOffset, nextBlockOffset⟩)],
                   prefetching := emplace blockOffset s.threadPool.taskCount s.prefetching } := by
  unfold prefetchBlock
  cases hsat : s.threadPoolSaturated
  · cases beyondEnd
    · match prefetchBlockOffset, nextPrefetchBlockOffset with
      | some blockOffset, some nextBlockOffset =>
        simp only [Bool.false_eq_true, if_false]
        cases hq : s.isInCacheOrQueue blockOffset
        · simp only [Bool.false_or]
          split_ifs
          · exact .inl rfl
          · exact .inl rfl
          · exact .inr ⟨blockOffset, nextBlockOffset, by simp, by simp, hq, rfl⟩
        · exact .inl (by simp)
      | none, _ => exact .inl (by simp)
      | some _, none => exact .inl (by simp)
    · exact .inl (by simp)
  · exact .inl (by simp)

theorem foldl_touchInCacheIfExists (blockOffsets : List Nat) (s : BlockFetcher) :
    ∃ cache prefetchCache, blockOffsets.foldl touchInCacheIfExists s = { s with cache, prefetchCache } ∧
      (∀ e ∈ cache.entries, e ∈ s.cache.entries) ∧
      (∀ e ∈ prefetchCache.entries, e ∈ s.prefetchCache.entries) := by
  induction blockOffsets generalizing s with
  | nil => exact ⟨s.cache, s.prefetchCache, rfl, fun _ he => he, fun _ he => he⟩
  | cons blockOffset blockOffsets ih =>
    obtain ⟨cache, prefetchCache, heq, hc, hpc⟩ := ih (s.touchInCacheIfExists blockOffset)
    refine ⟨cache, prefetchCache, heq, fun e he => ?_, fun e he => ?_⟩
    · have := hc e he
      simp only [touchInCacheIfExists] at this
      split at this
      exacts [Cache.mem_entries_touch this, this]
    · have := hpc e he
      simp only [touchInCacheIfExists] at this
      split at this
      exacts [Cache.mem_entries_touch this, this]

theorem afterPrefetchNewBlocks_spec (request : Request) :
    ∃ owner results, s.afterPrefetchNewBlocks request = { s with owner, results } ∧
      (owner = .idle ∧ request.cachedResult.isSome ∨ owner = .get request .waitFor) := by
  unfold afterPrefetchNewBlocks
  cases request.cachedResult
  · exact ⟨_, _, rfl, .inr rfl⟩
  · exact ⟨_, _, rfl, .inl ⟨rfl, rfl⟩⟩

/-! ## The events -/

theorem step_get {blockOffset : Nat} {onlyCheckCaches : Bool} {nextBlockOffset : Option Nat}
    {sequential : Bool} (h : s.step (.get blockOffset onlyCheckCaches nextBlockOffset sequential) = some s') :
    s.owner = .idle ∧ s' = s.get blockOffset onlyCheckCaches nextBlockOffset sequential := by
  simp only [step] at h
  split at h
  · exact ⟨‹_›, (Option.some.inj h).symm⟩
  · cases h

theorem step_processReadyPrefetch (h : s.step .processReadyPrefetch = some s') :
    ∃ request blockOffset blockOffsets,
      s.owner = .get request (.processReadyPrefetches (blockOffset :: blockOffsets)) ∧
      s' = { s.processReadyPrefetch blockOffset with
        owner := .get request (.processReadyPrefetches blockOffsets) } := by
  simp only [step] at h
  split at h
  · exact ⟨_, _, _, ‹_›, (Option.some.inj h).symm⟩
  · cases h

theorem step_prefetch {blockIndexesToPrefetch blockOffsetsFound : List Nat}
    (h : s.step (.prefetch blockIndexesToPrefetch blockOffsetsFound) = some s') :
    ∃ request, s.owner = .get request (.processReadyPrefetches []) ∧
      (s' = s.afterPrefetchNewBlocks request ∨
        ∃ blockOffsetsToPrefetch cache prefetchCache, s' = { s with
            cache, prefetchCache,
            owner := .get request (.prefetchLoop blockIndexesToPrefetch blockOffsetsToPrefetch) } ∧
          (∀ e ∈ cache.entries, e ∈ s.cache.entries) ∧
          (∀ e ∈ prefetchCache.entries, e ∈ s.prefetchCache.entries)) := by
  simp only [step] at h
  split at h
  · refine ⟨_, ‹_›, ?_⟩
    split_ifs at h
    · exact .inl (Option.some.inj h).symm
    · obtain ⟨cache, prefetchCache, heq, hc, hpc⟩ := foldl_touchInCacheIfExists
        (List.replicate blockIndexesToPrefetch.length 0 ++ blockOffsetsFound).reverse s
      rw [heq] at h
      exact .inr ⟨_, cache, prefetchCache, (Option.some.inj h).symm, hc, hpc⟩
  · cases h

theorem mem_keys_foldl_touchInCacheIfExists (blockOffsets : List Nat) (s : BlockFetcher) (k : Nat) :
    (k ∈ (blockOffsets.foldl touchInCacheIfExists s).cache.keys ↔ k ∈ s.cache.keys) ∧
      (k ∈ (blockOffsets.foldl touchInCacheIfExists s).prefetchCache.keys ↔ k ∈ s.prefetchCache.keys) := by
  induction blockOffsets generalizing s with
  | nil => exact ⟨Iff.rfl, Iff.rfl⟩
  | cons blockOffset blockOffsets ih =>
    rw [List.foldl_cons, (ih _).1, (ih _).2]
    constructor <;> simp only [touchInCacheIfExists] <;> split_ifs <;> simp

theorem foldl_touchInCacheIfExists_zero (blockOffsets : List Nat) (s : BlockFetcher) :
    (0 ∈ s.cache.keys → ((blockOffsets ++ [0]).foldl touchInCacheIfExists s).cache.keys.head? = some 0) ∧
      (0 ∈ s.prefetchCache.keys →
        ((blockOffsets ++ [0]).foldl touchInCacheIfExists s).prefetchCache.keys.head? = some 0) := by
  rw [List.foldl_append, List.foldl_cons, List.foldl_nil]
  obtain ⟨hc, hpc⟩ := mem_keys_foldl_touchInCacheIfExists blockOffsets s 0
  refine ⟨fun h => ?_, fun h => ?_⟩
  · simp only [touchInCacheIfExists, Cache.test_eq, hc.2 h, decide_True, if_true]
    exact Cache.head?_keys_touch (hc.2 h)
  · simp only [touchInCacheIfExists, Cache.test_eq, hpc.2 h, decide_True, if_true]
    exact Cache.head?_keys_touch (hpc.2 h)

/-- **A prediction touches offset `0`.** `blockOffsetsToPrefetch` starts with one `0` per
predicted index, and the touches run over it backwards, so a `prefetchNewBlocks` that is not
saturated and has a prediction leaves offset `0`, wherever a cache holds it, the most recently
used block of that cache, whatever offsets were predicted. -/
theorem step_prefetch_touches_zero {blockIndexesToPrefetch blockOffsetsFound : List Nat}
    (h : s.step (.prefetch blockIndexesToPrefetch blockOffsetsFound) = some s')
    (hsat : s.threadPoolSaturated = false) (hne : blockIndexesToPrefetch ≠ []) :
    (0 ∈ s.cache.keys → s'.cache.keys.head? = some 0) ∧
      (0 ∈ s.prefetchCache.keys → s'.prefetchCache.keys.head? = some 0) := by
  obtain ⟨k, hk⟩ := Nat.exists_eq_succ_of_ne_zero (List.length_pos.2 hne).ne'
  simp only [step, hsat] at h
  split at h
  · cases h
    rw [hk, List.reverse_append, List.reverse_replicate, List.replicate_succ', ← List.append_assoc]
    exact foldl_touchInCacheIfExists_zero _ s
  · cases h

/-- Two blocks fetched on demand, then a third whose prediction is one index at offset `200`. -/
def touchRun : List Event :=
  [.get 0 false (some 50) false, .prefetch [] [], .checkUnprocessedTasks, .dequeue,
    .finish 0 false, .waitFor false,
    .get 50 false (some 100) false, .prefetch [] [], .checkUnprocessedTasks, .dequeue,
    .finish 1 false, .waitFor false,
    .get 100 false (some 150) false]

/-- **The prediction refreshes offset `0`.** A fetcher of two threads decodes the blocks at `0`
and `50` on demand, so `m_cache` holds `50`, then `0`, the least recently used. In the next
`get`, the strategy predicts one index, whose offset is `200`; `prefetchNewBlocks` touches the
`0` its vector starts with, and `0` becomes the most recently used block although it was not
predicted. -/
theorem prefetchNewBlocks_touches_offset_zero :
    ∃ s s', Reachable (fun _ _ => True) s ∧ s.step (.prefetch [3] [200]) = some s' ∧
      s.cache.keys = [50, 0] ∧ s'.cache.keys = [0, 50] ∧ (0 : Nat) ∉ [200] :=
  ⟨_, _, Reachable.of_foldlM touchRun (.new 2 0) (Option.eq_some_of_isSome (by decide)), rfl, rfl,
    rfl, by decide⟩

theorem step_prefetchIndex {beyondEnd : Bool}
    {prefetchBlockOffset nextPrefetchBlockOffset partitionOffset : Option Nat}
    (h : s.step (.prefetchIndex beyondEnd prefetchBlockOffset nextPrefetchBlockOffset partitionOffset) =
      some s') :
    ∃ request blockIndexes blockOffsetsToPrefetch blockIndexes',
      s.owner = .get request (.prefetchLoop blockIndexes blockOffsetsToPrefetch) ∧
      blockIndexes'.length < blockIndexes.length ∧
      (s' = { s with owner := .get request (.prefetchLoop blockIndexes' blockOffsetsToPrefetch) } ∨
        ∃ blockOffset nextBlockOffset, prefetchBlockOffset = some blockOffset ∧
          s.threadPoolSaturated = false ∧ s.isInCacheOrQueue blockOffset = false ∧
          s' = { s with
            threadPool := (s.threadPool.submit 0).1
            decodes := s.decodes ++ [(s.threadPool.taskCount, ⟨blockOffset, nextBlockOffset⟩)]
            prefetching := emplace blockOffset s.threadPool.taskCount s.prefetching
            owner := .get request (.prefetchLoop blockIndexes' blockOffsetsToPrefetch) }) := by
  simp only [step] at h
  split at h
  · rename_i request _ blockIndexes blockOffsetsToPrefetch _
    refine ⟨request, _, blockOffsetsToPrefetch,
      if (s.prefetchBlock blockOffsetsToPrefetch beyondEnd prefetchBlockOffset
        nextPrefetchBlockOffset partitionOffset).1 then [] else blockIndexes, ‹_›, ?_, ?_⟩
    · split_ifs <;> simp
    rw [← Option.some.inj h]
    rcases @prefetchBlock_spec s blockOffsetsToPrefetch beyondEnd prefetchBlockOffset
      nextPrefetchBlockOffset partitionOffset with heq | ⟨o, n, hp, hsat, hq, heq⟩
    · exact .inl (by rw [heq])
    · exact .inr ⟨o, n, hp, hsat, hq, by rw [heq]⟩
  · cases h

theorem step_checkUnprocessedTasks (h : s.step .checkUnprocessedTasks = some s') :
    ∃ request blockOffsetsToPrefetch,
      s.owner = .get request (.prefetchLoop [] blockOffsetsToPrefetch) ∧
      (s.parallelization < s.threadPool.unprocessedTasksCount (some 0) ∧
          s' = { s with owner := .idle,
                        results := s.results ++ [(request.blockOffset, .logicError tooManyTasks)] } ∨
        s' = s.afterPrefetchNewBlocks request) := by
  simp only [step] at h
  split at h
  · refine ⟨_, _, ‹_›, ?_⟩
    split_ifs at h with hgt
    · exact .inl ⟨hgt, (Option.some.inj h).symm⟩
    · exact .inr (Option.some.inj h).symm
  · cases h

theorem step_waitFor {sequential : Bool} (h : s.step (.waitFor sequential) = some s') :
    ∃ request task, s.owner = .get request .waitFor ∧ request.queuedResult = some task ∧
      (s.finished.lookup task = none ∧ s' = s.prefetchNewBlocks request ∨
        s.finished.lookup task = some none ∧
          s' = { s with owner := .idle, results := s.results ++ [(request.blockOffset, .decodeFailed)] } ∨
        ∃ blockData, s.finished.lookup task = some (some blockData) ∧
          s' = { s.insertIntoCache sequential request.blockOffset blockData with
            owner := .idle
            results := s.results ++ [(request.blockOffset, .blockData blockData)] }) := by
  simp only [step] at h
  split at h
  · rename_i request _
    split at h
    · rename_i task hq
      refine ⟨request, task, ‹_›, hq, ?_⟩
      split at h <;> rename_i hf
      · exact .inl ⟨hf, (Option.some.inj h).symm⟩
      · exact .inr (.inl ⟨hf, (Option.some.inj h).symm⟩)
      · exact .inr (.inr ⟨_, hf, (Option.some.inj h).symm⟩)
    · cases h
  · cases h

theorem step_submitTaskWithHighPriority :
    s.step .submitTaskWithHighPriority = some { s with threadPool := (s.threadPool.submit (-1)).1 } :=
  rfl

theorem step_stopThreadPool (h : s.step .stopThreadPool = some s') :
    s.owner = .idle ∧ s.running = [] ∧ s' = { s with threadPool := s.threadPool.stop, threadCount := 0 } := by
  simp only [step] at h
  split_ifs at h with hc
  exact ⟨hc.1, hc.2, (Option.some.inj h).symm⟩

theorem step_clearCache (h : s.step .clearCache = some s') :
    s.owner = .idle ∧ s' = { s with cache := s.cache.clear } := by
  simp only [step] at h
  split at h
  · exact ⟨‹_›, (Option.some.inj h).symm⟩
  · cases h

theorem step_dequeue (h : s.step .dequeue = some s') :
    ∃ task threadPool, s.running.length < s.threadCount ∧ s.threadPool.dequeue = some (task, threadPool) ∧
      s' = { s with threadPool, running := s.running ++ [task] } := by
  simp only [step] at h
  split_ifs at h with hc
  obtain ⟨⟨task, threadPool⟩, hd, heq⟩ := Option.map_eq_some'.1 h
  exact ⟨task, threadPool, hc, hd, heq.symm⟩

theorem step_finish {task : Nat} {threw : Bool} (h : s.step (.finish task threw) = some s') :
    task ∈ s.running ∧ s' = { s with
      running := s.running.erase task
      finished := s.finished ++ [(task, if threw then none else s.decodes.lookup task)] } := by
  simp only [step] at h
  by_cases hc : task ∈ s.running
  · rw [if_pos hc] at h
    exact ⟨hc, (Option.some.inj h).symm⟩
  · rw [if_neg hc] at h
    cases h

end BlockFetcher

end Pragzip
