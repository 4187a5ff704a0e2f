import Pragzip.BlockFetcher.Invariant

/-!
# Block fetcher — one decode of an offset at a time

`get` submits the on-demand decode of its offset only where `getFromCaches` found the offset
neither in `m_prefetching` nor in a cache, and `prefetchNewBlocks` submits the decode of a
predicted offset only where `isInCacheOrQueue` is false. Neither check sees the future that `get`
holds; what keeps the prefetch loop off that offset is that the fetching strategy does not predict
it. Under that assumption no two unfinished decodes have one offset.

* `PredictsOtherOffsets`: the runs where the strategy never predicts the offset `get` fetches;
* `get_decodes`, `step_decodes`: the decodes a step submits, and that their offsets are new;
* `Inv.queuedResult_offset`: the future `get` holds decodes its offset;
* `Exclusive`, `Exclusive.step`, `Exclusive.of_reachable`;
* **`blockFetcher_decodes_each_offset_once`**: in every reachable state no two unfinished
  decodes have one offset, and no step submits the decode of an offset a cache holds.
-/

namespace Pragzip

namespace BlockFetcher

variable {s s' : BlockFetcher}

/-- The runs where the fetching strategy never predicts an index whose block offset is the one
`get` fetches. -/
def PredictsOtherOffsets (s : BlockFetcher) : Event → Prop
  | .prefetchIndex _ (some blockOffset) _ _ => s.owner.blockOffset ≠ some blockOffset
  | _ => True

/-! ## The decodes a step submits -/

theorem get_decodes (blockOffset : Nat) (onlyCheckCaches : Bool) (nextBlockOffset : Option Nat)
    (sequential : Bool) :
    (s.get blockOffset onlyCheckCaches nextBlockOffset sequential).finished = s.finished ∧
      ((s.get blockOffset onlyCheckCaches nextBlockOffset sequential).decodes = s.decodes ∨
        (s.get blockOffset onlyCheckCaches nextBlockOffset sequential).decodes =
            s.decodes ++ [(s.threadPool.taskCount, ⟨blockOffset, nextBlockOffset.getD sizeMax⟩)] ∧
          blockOffset ∉ s.prefetching.map Prod.fst ∧ blockOffset ∉ s.cache.keys ∧
          blockOffset ∉ s.prefetchCache.keys) := by
  rcases hg : s.getFromCaches sequential blockOffset with ⟨⟨cachedResult, queuedResult⟩, s₁⟩
  obtain ⟨hq, -, cache, prefetchCache, rfl, -, -, -, hmiss, -⟩ := getFromCaches_spec hg
  unfold BlockFetcher.get
  rw [hg]
  dsimp only
  split
  · rename_i hnone
    simp only [Bool.and_eq_true, Option.isNone_iff_eq_none] at hnone
    obtain ⟨rfl, rfl⟩ := hnone
    obtain ⟨hc, hpc, -, -⟩ := hmiss rfl rfl
    split
    · exact ⟨rfl, .inl rfl⟩
    · exact ⟨rfl, .inr ⟨rfl, lookup_eq_none_iff_not_mem.1 hq.symm, hc, hpc⟩⟩
  · exact ⟨rfl, .inl rfl⟩

/-- **What a step does to the decodes**: it finishes tasks only, and submits at most one decode,
of an offset that no prefetch, no cache and no prefetch cache has, from `get` called by an idle
owner or from the prefetch loop at a predicted offset. -/
theorem step_decodes {event : Event} (h : s.step event = some s') :
    (∀ t ∈ s.finished.map Prod.fst, t ∈ s'.finished.map Prod.fst) ∧
      (s'.decodes = s.decodes ∨
        ∃ blockOffset nextBlockOffset,
          s'.decodes = s.decodes ++ [(s.threadPool.taskCount, ⟨blockOffset, nextBlockOffset⟩)] ∧
          blockOffset ∉ s.prefetching.map Prod.fst ∧ blockOffset ∉ s.cache.keys ∧
          blockOffset ∉ s.prefetchCache.keys ∧
          (s.owner = .idle ∨ ∃ beyondEnd nextPrefetchBlockOffset partitionOffset,
            event = .prefetchIndex beyondEnd (some blockOffset) nextPrefetchBlockOffset partitionOffset)) := by
  cases event with
  | get blockOffset onlyCheckCaches nextBlockOffset sequential =>
    obtain ⟨hidle, rfl⟩ := step_get h
    obtain ⟨hf, hd | ⟨hd, hp, hc, hpc⟩⟩ := @get_decodes s blockOffset onlyCheckCaches nextBlockOffset
      sequential
    · exact ⟨fun t ht => hf ▸ ht, .inl hd⟩
    · exact ⟨fun t ht => hf ▸ ht, .inr ⟨_, _, hd, hp, hc, hpc, .inl hidle⟩⟩
  | processReadyPrefetch =>
    obtain ⟨_, blockOffset, _, -, rfl⟩ := step_processReadyPrefetch h
    rcases @processReadyPrefetch_spec s blockOffset with heq | ⟨_, _, _, -, -, heq, -⟩ <;>
      exact ⟨fun t ht => by rw [heq]; exact ht, .inl (by rw [heq])⟩
  | prefetch =>
    obtain ⟨request, -, rfl | ⟨_, _, _, rfl, -, -⟩⟩ := step_prefetch h
    · obtain ⟨_, _, heq, -⟩ := @afterPrefetchNewBlocks_spec s request
      exact ⟨fun t ht => by rw [heq]; exact ht, .inl (by rw [heq])⟩
    · exact ⟨fun t ht => ht, .inl rfl⟩
  | prefetchIndex beyondEnd prefetchBlockOffset nextPrefetchBlockOffset partitionOffset =>
    obtain ⟨_, _, _, _, -, -, rfl | ⟨blockOffset, _, rfl, -, hq, rfl⟩⟩ := step_prefetchIndex h
    · exact ⟨fun t ht => ht, .inl rfl⟩
    · obtain ⟨hp, hc, hpc⟩ := isInCacheOrQueue_eq_false hq
      exact ⟨fun t ht => ht, .inr ⟨_, _, rfl, hp, hc, hpc, .inr ⟨_, _, _, rfl⟩⟩⟩
  | checkUnprocessedTasks =>
    obtain ⟨request, _, -, ⟨-, rfl⟩ | rfl⟩ := step_checkUnprocessedTasks h
    · exact ⟨fun t ht => ht, .inl rfl⟩
    · obtain ⟨_, _, heq, -⟩ := @afterPrefetchNewBlocks_spec s request
      exact ⟨fun t ht => by rw [heq]; exact ht, .inl (by rw [heq])⟩
  | waitFor =>
    obtain ⟨_, _, -, -, ⟨-, rfl⟩ | ⟨-, rfl⟩ | ⟨_, -, rfl⟩⟩ := step_waitFor h <;>
      exact ⟨fun t ht => ht, .inl rfl⟩
  | submitTaskWithHighPriority =>
    obtain rfl := Option.some.inj (step_submitTaskWithHighPriority.symm.trans h)
    exact ⟨fun t ht => ht, .inl rfl⟩
  | stopThreadPool =>
    obtain ⟨-, -, rfl⟩ := step_stopThreadPool h
    exact ⟨fun t ht => ht, .inl rfl⟩
  | clearCache =>
    obtain ⟨-, rfl⟩ := step_clearCache h
    exact ⟨fun t ht => ht, .inl rfl⟩
  | dequeue =>
    obtain ⟨_, _, -, -, rfl⟩ := step_dequeue h
    exact ⟨fun t ht => ht, .inl rfl⟩
  | finish =>
    obtain ⟨-, rfl⟩ := step_finish h
    exact ⟨fun t ht => by rw [List.map_append]; exact List.mem_append_left _ ht, .inl rfl⟩

/-! ## One decode of an offset at a time -/

theorem Inv.queuedResult_offset (h : Inv s) {t : Nat} {blockData : BlockData}
    (ht : s.owner.queuedResult = some t) (hd : (t, blockData) ∈ s.decodes) :
    s.owner.blockOffset = some blockData.blockOffset := by
  cases ho : s.owner with
  | idle => rw [ho] at ht; cases ht
  | get request stage =>
    rw [ho] at ht
    obtain ⟨n, hn⟩ := (h.request request stage ho).2 t ht
    cases List.inj_on_of_nodup_map h.tasks.decodes_nodup hd hn rfl
    rfl

/-- No two decodes that have not finished have one offset. -/
def Exclusive (s : BlockFetcher) : Prop :=
  ∀ x ∈ s.decodes, ∀ y ∈ s.decodes, x.1 ∉ s.finished.map Prod.fst → y.1 ∉ s.finished.map Prod.fst →
    x.2.blockOffset = y.2.blockOffset → x.1 = y.1

theorem Inv.offset_ne_of_submitted (h : Inv s) {event : Event}
    (hallowed : PredictsOtherOffsets s event) {blockOffset : Nat}
    (hp : blockOffset ∉ s.prefetching.map Prod.fst)
    (hwho : s.owner = .idle ∨ ∃ beyondEnd nextPrefetchBlockOffset partitionOffset,
      event = .prefetchIndex beyondEnd (some blockOffset) nextPrefetchBlockOffset partitionOffset)
    {y : Nat × BlockData} (hy : y ∈ s.decodes) (hf : y.1 ∉ s.finished.map Prod.fst) :
    y.2.blockOffset ≠ blockOffset := by
  rintro rfl
  rcases h.unfinished y hy hf with hm | hq
  · exact hp (List.mem_map_of_mem Prod.fst hm)
  · rcases hwho with hidle | ⟨_, _, _, rfl⟩
    · rw [hidle] at hq
      cases hq
    · exact hallowed (h.queuedResult_offset hq hy)

theorem Exclusive.step (h : Exclusive s) (hinv : Inv s) {event : Event}
    (hallowed : PredictsOtherOffsets s event) (hs : s.step event = some s') : Exclusive s' := by
  obtain ⟨hfin, hd | ⟨blockOffset, n, hd, hp, -, -, hwho⟩⟩ := step_decodes hs
  · intro x hx y hy hxf hyf
    rw [hd] at hx hy
    exact h x hx y hy (fun hm => hxf (hfin _ hm)) (fun hm => hyf (hfin _ hm))
  · have hne : ∀ y ∈ s.decodes, y.1 ∉ s'.finished.map Prod.fst → y.2.blockOffset ≠ blockOffset :=
      fun y hy hyf => hinv.offset_ne_of_submitted hallowed hp hwho hy fun hm => hyf (hfin _ hm)
    intro x hx y hy hxf hyf he
    rw [hd] at hx hy
    rcases List.mem_append.1 hx with hx | hx <;> rcases List.mem_append.1 hy with hy | hy
    · exact h x hx y hy (fun hm => hxf (hfin _ hm)) (fun hm => hyf (hfin _ hm)) he
    · rw [List.mem_singleton.1 hy] at he
      exact absurd he (hne x hx hxf)
    · rw [List.mem_singleton.1 hx] at he
      exact absurd he.symm (hne y hy hyf)
    · rw [List.mem_singleton.1 hx, List.mem_singleton.1 hy]

theorem Exclusive.of_reachable (hs : Reachable PredictsOtherOffsets s) : Exclusive s := by
  induction hs with
  | new => intro x hx; cases hx
  | step _ hs hallowed hstep ih => exact ih.step (Inv.of_reachable hs) hallowed hstep

/-- **Where the fetching strategy never predicts the offset `get` fetches, whatever the calls of
`get`, the answers of the block finder and the interleaving of the workers: no two decodes that
have not finished have one offset, and no step submits the decode of an offset that the cache or
the prefetch cache holds.** -/
theorem blockFetcher_decodes_each_offset_once (hs : Reachable PredictsOtherOffsets s) :
    (∀ x ∈ s.decodes, ∀ y ∈ s.decodes, x.1 ∉ s.finished.map Prod.fst →
      y.1 ∉ s.finished.map Prod.fst → x.2.blockOffset = y.2.blockOffset → x.1 = y.1) ∧
      ∀ event s', s.step event = some s' → ∀ x ∈ s'.decodes, x ∉ s.decodes →
        x.2.blockOffset ∉ s.cache.keys ∧ x.2.blockOffset ∉ s.prefetchCache.keys := by
  refine ⟨Exclusive.of_reachable hs, fun event s' hstep x hx hnew => ?_⟩
  obtain ⟨-, hd | ⟨blockOffset, n, hd, -, hc, hpc, -⟩⟩ := step_decodes hstep
  · exact absurd (hd ▸ hx) hnew
  · rw [hd] at hx
    rcases List.mem_append.1 hx with hx | hx
    · exact absurd hx hnew
    · rw [List.mem_singleton.1 hx]
      exact ⟨hc, hpc⟩

/-- A run where `get` of offset `100` submits its on-demand decode and the prefetch loop the decode
of offset `200`: two decodes in flight, of two offsets. -/
theorem blockFetcher_decodes_each_offset_once_example :
    ∃ s, Reachable PredictsOtherOffsets s ∧ s.decodes.length = 2 ∧
      ((∀ x ∈ s.decodes, ∀ y ∈ s.decodes, x.1 ∉ s.finished.map Prod.fst →
        y.1 ∉ s.finished.map Prod.fst → x.2.blockOffset = y.2.blockOffset → x.1 = y.1) ∧
        ∀ event s', s.step event = some s' → ∀ x ∈ s'.decodes, x ∉ s.decodes →
          x.2.blockOffset ∉ s.cache.keys ∧ x.2.blockOffset ∉ s.prefetchCache.keys) := by
  have hs : Reachable PredictsOtherOffsets _ :=
    Reachable.step (.prefetchIndex false (some 200) (some 300) none)
      (Reachable.step (.prefetch [1] [200])
        (Reachable.step (.get 100 false (some 200) false) (Reachable.new 2 0) trivial rfl)
        trivial rfl)
      (show _ ≠ _ from by decide) rfl
  exact ⟨_, hs, rfl, blockFetcher_decodes_each_offset_once hs⟩

end BlockFetcher

end Pragzip
