import Pragzip.BlockFinder.Refinement

/-!
# Block finder — runs from the constructor

* `create_represents`: the constructor gives the set of the header's end alone;
* `SortedSetPlusGrid`: what the sorted-set-plus-grid model says of a block finder and its set;
* **`gzipBlockFinder_refines_sortedSetPlusGrid`**: it holds after every sequence of `insert`,
  `finalize` and `get` calls, for indexes whose grid point does not wrap, and past the confirmed
  offsets while the finder is not finalized; the table is increasing when the header ends before
  the file does;
* two runs where the model fails without those conditions: a file that is only a gzip header,
  and an index whose grid point wraps.
-/

namespace Pragzip

namespace GzipBlockFinder

theorem create_represents {fileSize spacing hardwareConcurrency headerEnd : Nat} {isBgzfFile : Bool}
    {st₀ : GzipBlockFinder}
    (h : create fileSize spacing isBgzfFile hardwareConcurrency (.ok headerEnd) = .ok st₀) :
    Represents st₀.config st₀ (FinderSpec.init headerEnd) ∧ 32 * 1024 ≤ st₀.spacingInBits ∧
      st₀.fileSizeInBits < 2 ^ 64 := by
  simp only [create] at h
  split_ifs at h with hS
  cases h
  exact ⟨⟨rfl, (Finset.sort_singleton _ headerEnd).symm, rfl⟩, not_lt.1 hS, Nat.mod_lt _ (by decide)⟩

end GzipBlockFinder

open GzipBlockFinder

/-- What the sorted-set-plus-grid model says of the block finder `st` standing for the set `A`,
from a header that ends at `headerEnd`: the offsets are the set in increasing order; `get`
answers from the table of the set after its gathering, at a confirmed index or, while the set
is not final and the header ends before the file, at any index whose grid point does not wrap
(past the confirmed offsets a final finder still guesses, see `finalized_get_grid`); the table
is strictly increasing; `insert` ignores a known offset or one past the end, and throws once the
set is final. -/
structure SortedSetPlusGrid (K : FinderConfig) (headerEnd : Nat) (st : GzipBlockFinder)
    (A : FinderSpec) : Prop where
  blockOffsets_eq : st.blockOffsets = A.confirmed.sort (· ≤ ·)
  get_eq : ∀ i scan, (st.call (.get i scan)).NoWrap i →
    i < (A.call K (.get i scan)).confirmed.card ∨
      headerEnd < K.fileSizeInBits ∧ A.finalized = false →
    st.get i scan = .ok (st.call (.get i scan), (A.call K (.get i scan)).lookup K i)
  table_sorted : headerEnd < K.fileSizeInBits → (A.table K).Sorted (· < ·)
  insert_ignored : ∀ o, K.fileSizeInBits ≤ o ∨ o ∈ A.confirmed → st.insert o = .ok st
  insert_finalized : A.finalized = true → ∀ o, o < K.fileSizeInBits → o ∉ A.confirmed →
    st.insert o =
      .error (.invalidArgument "Already finalized, may not insert further block offsets!")

/-- **After any calls from the constructor, the block finder is the sorted set of its confirmed
offsets followed by the grid.** -/
theorem gzipBlockFinder_refines_sortedSetPlusGrid
    {fileSize spacing hardwareConcurrency headerEnd : Nat} {isBgzfFile : Bool}
    {st₀ : GzipBlockFinder}
    (hcreate : create fileSize spacing isBgzfFile hardwareConcurrency (.ok headerEnd) = .ok st₀)
    (calls : List FinderCall) :
    SortedSetPlusGrid st₀.config headerEnd (st₀.run calls)
      ((FinderSpec.init headerEnd).run st₀.config calls) := by
  obtain ⟨hR₀, hS, -⟩ := create_represents hcreate
  have hR := hR₀.run calls
  have hS' : 0 < st₀.config.spacingInBits := by show 0 < st₀.spacingInBits; omega
  refine ⟨hR.blockOffsets_eq, fun i scan hw hb => ?_,
    fun hh => FinderSpec.table_sorted _ hS' (FinderSpec.run_lt_fileSize _ hh calls),
    fun o ho => ?_, fun hf o ho hn => insertUnsafe_of_finalized hR ho hn hf⟩
  · rw [hR.get i scan, (hR.call (.get i scan)).blockOffsetAt_eq hS' hw
      (hb.imp_right fun hh => (FinderSpec.run_lt_fileSize _ hh.1 calls).call _ _)]
  · rcases ho with ho | ho
    exacts [insertUnsafe_of_ge (by rw [hR.fileSizeInBits_eq]; exact ho), insertUnsafe_of_mem hR ho]

/-- A finder of a 10 000-byte file with a spacing of 4 KiB, after an insert and a `get`. -/
theorem gzipBlockFinder_refines_sortedSetPlusGrid_example :
    create 10000 4096 false 4 (.ok 80) = .ok ⟨80000, false, 32768, [80], false, 16⟩ ∧
      SortedSetPlusGrid (config ⟨80000, false, 32768, [80], false, 16⟩) 80
        (run ⟨80000, false, 32768, [80], false, 16⟩ [.insert 40000, .get 3 []])
        ((FinderSpec.init 80).run (config ⟨80000, false, 32768, [80], false, 16⟩)
          [.insert 40000, .get 3 []]) :=
  ⟨rfl, @gzipBlockFinder_refines_sortedSetPlusGrid 10000 4096 4 80 false _ rfl _⟩

/-- A file of ten bytes that hold only a gzip header: the header ends at the file size `80`, and
`get(0)` and `get(1)` both return it. With a file of `2 ^ 20` bits and the header ending at `80`,
`get(32)` returns the file size, but `get(2 ^ 49)` returns `0`: its grid point `2 ^ 64` wraps. -/
theorem gzipBlockFinder_get_counterexample :
    create 10 4096 false 4 (.ok 80) = .ok ⟨80, false, 32768, [80], false, 16⟩ ∧
      get ⟨80, false, 32768, [80], false, 16⟩ 0 [] =
        .ok (⟨80, false, 32768, [80], false, 16⟩, some 80) ∧
      get ⟨80, false, 32768, [80], false, 16⟩ 1 [] =
        .ok (⟨80, false, 32768, [80], false, 16⟩, some 80) ∧
      create (2 ^ 17) 4096 false 4 (.ok 80) = .ok ⟨2 ^ 20, false, 32768, [80], false, 16⟩ ∧
      get ⟨2 ^ 20, false, 32768, [80], false, 16⟩ 32 [] =
        .ok (⟨2 ^ 20, false, 32768, [80], false, 16⟩, some (2 ^ 20)) ∧
      get ⟨2 ^ 20, false, 32768, [80], false, 16⟩ (2 ^ 49) [] =
        .ok (⟨2 ^ 20, false, 32768, [80], false, 16⟩, some 0) :=
  ⟨rfl, rfl, rfl, rfl, rfl, rfl⟩

end Pragzip
