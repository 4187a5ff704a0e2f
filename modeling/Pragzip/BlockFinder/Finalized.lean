import Pragzip.BlockFinder.Refinement

/-!
# Block finder — after finalization

`get` reads `m_finalized` only to stop gathering BGZF blocks. Past the confirmed offsets it
answers from the spacing grid whether the finder is finalized or not, although its documentation
promises nothing for a block out of range once the finder is finalized.

* `get_of_finalized`: a finalized finder gathers nothing and answers `blockOffsetAt`;
* `finalized_get_grid`: a finalized finder whose last confirmed offset `L` leaves a grid point
  `k * S` with `L < k * S < F` returns it, at index `size() + k - (L / S + 1)`;
* **`finalized_get_makes_up_offset`**: after `finalize()` from the constructor, and after
  `setBlockOffsets` with a strictly increasing list, `get` returns a guess on the grid.
-/

namespace Pragzip

namespace GzipBlockFinder

@[simp]
theorem setBlockOffsets_finalized (st : GzipBlockFinder) (blockOffsets : List Nat) :
    (st.setBlockOffsets blockOffsets).finalized = true :=
  rfl

@[simp]
theorem setBlockOffsets_blockOffsets (st : GzipBlockFinder) (blockOffsets : List Nat) :
    (st.setBlockOffsets blockOffsets).blockOffsets = blockOffsets :=
  rfl

theorem get_of_finalized {st : GzipBlockFinder} (hf : st.finalized = true) (i : Nat)
    (scan : List Nat) : st.get i scan = .ok (st, st.blockOffsetAt i) := by
  simp only [get, hf, Bool.not_true, Bool.and_false]
  rfl

/-- **Guesses after finalization.** For every finalized finder, however it was finalized, each
grid point `k * S` strictly between the last confirmed offset and the file size is what `get`
returns at index `size() + k - (L / S + 1)`, unless the product wraps. -/
theorem finalized_get_grid {st : GzipBlockFinder} (hf : st.finalized = true)
    (hS : 0 < st.spacingInBits) {k : Nat} (hL : st.blockOffsets.getLastD 0 < k * st.spacingInBits)
    (hF : k * st.spacingInBits < st.fileSizeInBits) (hw : k * st.spacingInBits < 2 ^ 64)
    (scan : List Nat) :
    st.get (st.blockOffsets.length + (k - (st.blockOffsets.getLastD 0 / st.spacingInBits + 1)))
      scan = .ok (st, some (k * st.spacingInBits)) := by
  have hk : st.blockOffsets.getLastD 0 / st.spacingInBits + 1 + (k -
      (st.blockOffsets.getLastD 0 / st.spacingInBits + 1)) = k := by
    have := (Nat.div_lt_iff_lt_mul hS).2 hL
    omega
  rw [get_of_finalized hf, blockOffsetAt_of_le hS (Nat.le_add_right _ _)
    (by rwa [Nat.add_sub_cancel_left, hk]), Nat.add_sub_cancel_left, hk, if_pos hF]

/-- **A finalized finder makes up offsets.** A file of `2 ^ 20` bytes, not BGZF, with a spacing
of 4 KiB and the header ending at bit `80`: after `finalize()`, `get(1)` is the grid point
`32768`, neither the file size `2 ^ 23` nor nothing; after `setBlockOffsets({80, 40000})`,
`get(2)` is the grid point `65536`. -/
theorem finalized_get_makes_up_offset :
    create (2 ^ 20) 4096 false 4 (.ok 80) = .ok ⟨2 ^ 23, false, 32768, [80], false, 16⟩ ∧
      (run ⟨2 ^ 23, false, 32768, [80], false, 16⟩ [.finalize]).get 1 [] =
        .ok (⟨2 ^ 23, true, 32768, [80], false, 16⟩, some (1 * 32768)) ∧
      (setBlockOffsets ⟨2 ^ 23, false, 32768, [80], false, 16⟩ [80, 40000]).get 2 [] =
        .ok (⟨2 ^ 23, true, 32768, [80, 40000], false, 16⟩, some (2 * 32768)) ∧
      1 * 32768 ≠ 2 ^ 23 ∧ 2 * 32768 ≠ 2 ^ 23 :=
  ⟨rfl, rfl, rfl, by decide, by decide⟩

end GzipBlockFinder

end Pragzip
