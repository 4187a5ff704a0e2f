import Pragzip.PrecodeCheck.Sound

/-!
# Precode check — table bounds

`checkPrecode` reads three `std::array`s at indexes it computes from its arguments: the histogram
table once per chunk of four code lengths (the last chunk without the twelve-bit mask), the
special cases at the nonzero count, and the validity table at the high bits of the histogram.
`checkPrecodeChecked` is the one body of `checkPrecode` with each of these reads checked against
its array's size, failing where the index is outside it.

* `precodeChunk_lt`, `nonZeroCount_lt`, `elementIndex_lt`: the three indexes are in range;
* **`checkPrecode_reads_in_bounds`**: for every `next4Bits ≤ 15` and every `next57Bits`, no read
  fails and the checked check gives `checkPrecode`'s answer.
-/

namespace Pragzip.PrecodeCheck

/-! ## Checked reads -/

/-- `table[index]` on an array of `size` entries, failing where `index` is out of bounds. -/
def readAt {α : Type} (size : Nat) (table : Nat → α) (index : Nat) : Option α :=
  if index < size then some (table index) else none

theorem readAt_of_lt {α : Type} {size index : Nat} (table : Nat → α) (h : index < size) :
    readAt size table index = some (table index) :=
  if_pos h

/-- `checkPrecode` with its three table reads checked. -/
def checkPrecodeChecked (next4Bits next57Bits : BitVec 64) : Option Error :=
  checkPrecodeWith readAt next4Bits next57Bits

/-! ## The indexes -/

theorem foldlM_eq_some_foldl {α β : Type} (f : β → α → β) (g : β → α → Option β) :
    ∀ (l : List α) (init : β), (∀ state, ∀ x ∈ l, g state x = some (f state x)) →
      l.foldlM g init = some (l.foldl f init)
  | [], _, _ => rfl
  | x :: l, init, h => by
    rw [List.foldlM_cons, h init x (List.mem_cons_self x l), Option.bind_eq_bind, Option.some_bind]
    exact foldlM_eq_some_foldl f g l _ fun state y hy => h state y (List.mem_cons_of_mem x hy)

theorem precodeChunk_lt {precodeBits : BitVec 64} (h : precodeBits.toNat < 2 ^ 57) {chunk : Nat}
    (hc : chunk < 5) : precodeChunk precodeBits chunk < PRECODE_X4_TO_HISTOGRAM_LUT_SIZE := by
  rw [precodeChunk_eq h hc]
  exact Nat.mod_lt _ (by decide)

theorem checkPrecodeChunkWith_readAt {precodeBits : BitVec 64} (h : precodeBits.toNat < 2 ^ 57)
    (state : BitVec 32 × BitVec 32 × BitVec 32) {chunk : Nat} (hc : chunk < 5) :
    checkPrecodeChunkWith readAt precodeBits state chunk =
      some (checkPrecodeChunk precodeBits state chunk) := by
  have hread := readAt_of_lt PRECODE_X4_TO_HISTOGRAM_LUT (precodeChunk_lt h hc)
  rw [precodeChunk] at hread
  simp only [checkPrecodeChunkWith, hread]
  rfl

theorem nonZeroCount_lt (bitLengthFrequencies : BitVec 32) :
    (bitLengthFrequencies &&& nLowestBitsSet 32 5).toNat < POWER_OF_TWO_SPECIAL_CASES_SIZE := by
  rw [BitVec.toNat_and, nLowestBitsSet, BitVec.toNat_ofNat,
    show (2 ^ 5 - 1) % 2 ^ 32 = 2 ^ 5 - 1 from rfl, Nat.and_pow_two_sub_one_eq_mod]
  exact Nat.mod_lt _ (by decide)

theorem elementIndex_lt (histogramToLookUp : Nat) :
    histogramToLookUp / 64 &&& (2 ^ (HISTOGRAM_TO_LOOK_UP_BITS - 6) - 1) <
      PRECODE_HISTOGRAM_VALID_LUT_SIZE := by
  rw [Nat.and_pow_two_sub_one_eq_mod]
  exact Nat.mod_lt _ (by decide)

/-- **No read out of bounds.** For every `next4Bits` in `[0, 15]` and every `next57Bits`, every
table index `checkPrecode` computes is in range, so the checked check succeeds with
`checkPrecode`'s answer. -/
theorem checkPrecode_reads_in_bounds (next4Bits next57Bits : BitVec 64) (h4 : next4Bits.toNat < 16) :
    checkPrecodeChecked next4Bits next57Bits = some (checkPrecode next4Bits next57Bits) := by
  have hbits := precodeBits_toNat next57Bits h4
  have h57 : (next57Bits &&& nLowestBitsSet 64
      ((4 + next4Bits) * BitVec.ofNat 64 PRECODE_BITS).toNat).toNat < 2 ^ 57 := by
    rw [hbits]
    exact lt_of_lt_of_le (Nat.mod_lt _ (Nat.two_pow_pos _)) (Nat.pow_le_pow_right two_pos (by omega))
  simp only [checkPrecodeChecked, checkPrecode, checkPrecodeWith, Id.bind_eq, Id.pure_eq,
    foldlM_checkPrecodeChunkWith_readEntry]
  rw [readEntry_eq, readEntry_eq, foldlM_eq_some_foldl _ _ (List.range CHUNK_COUNT) _
    fun state chunk hc => checkPrecodeChunkWith_readAt h57 state (List.mem_range.1 hc)]
  generalize List.foldl (checkPrecodeChunk (next57Bits &&& nLowestBitsSet 64
    ((4 + next4Bits) * BitVec.ofNat 64 PRECODE_BITS).toNat)) (0, 0, 0) (List.range CHUNK_COUNT) = result
  obtain ⟨bitLengthFrequencies, overflowsInSum, overflowsInLUT⟩ := result
  simp only [Option.bind_eq_bind, Option.some_bind]
  rw [readAt_of_lt _ (nonZeroCount_lt _), Option.some_bind, readAt_of_lt _ (elementIndex_lt _),
    Option.some_bind]
  split_ifs <;> rfl

theorem checkPrecode_reads_in_bounds_example :
    (15#64).toNat < 16 ∧ checkPrecodeChecked 15#64 (BitVec.ofNat 64 (2 ^ 64 - 1)) =
      some (checkPrecode 15#64 (BitVec.ofNat 64 (2 ^ 64 - 1))) :=
  ⟨by decide, checkPrecode_reads_in_bounds _ _ (by decide)⟩

end Pragzip.PrecodeCheck
