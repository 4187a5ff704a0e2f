import Mathlib

/-!
# Precode check — the model

`PrecodeCheck::SingleLUT::checkPrecode` filters the candidate block headers of the block finder:
from the 4-bit precode count and the 57 bits of up to nineteen 3-bit precode code lengths it
decides, without building a Huffman tree, whether the lengths can form a valid code. The lengths
are counted into a bit-packed histogram, four lengths per table lookup; the five partial
histograms are added as plain 32-bit integers, and carries across a field boundary are caught by
comparing the sum with the carry-less sum.

* `MEMBER_BIT_WIDTHS`, `MEMBER_OFFSETS`: the packed layout, nonzero count first, then the counts
  of the lengths `1, …, 7`, then three overflow bits;
* `getCount`, `setCount`, `incrementCount`, `calculateHistogram`, `packHistogram`;
* `PRECODE_X4_TO_HISTOGRAM_LUT`, `PRECODE_HISTOGRAM_VALID_LUT`, `POWER_OF_TWO_SPECIAL_CASES`;
* `checkPrecodeChunkWith`, `checkPrecodeWith`: the check, its table reads a parameter;
  `checkPrecodeChunk`, `checkPrecode`: with the plain reads of the source (`readEntry`);
* `checkPrecode_rejects_lopsided`: the valid precode `1, 2, 3` and sixteen times `7` is
  rejected.

Code lengths, counts and table indexes are natural numbers; the histogram is a `uint32_t` and
the input bits and the validity table words are `uint64_t`, bit vectors here.
-/

namespace Pragzip.PrecodeCheck

/-- The values of `pragzip::Error` that `checkPrecode` returns. -/
inductive Error
  | NONE
  | INVALID_CODE_LENGTHS
  | BLOATING_HUFFMAN_CODING
  deriving DecidableEq, Repr

/-- Modelled from the spec: `deflate::PRECODE_BITS`, three bits per precode code length. -/
def PRECODE_BITS : Nat := 3

/-- Modelled from the spec: `deflate::MAX_PRECODE_COUNT`, nineteen precode code lengths. -/
def MAX_PRECODE_COUNT : Nat := 19

/-- Modelled from the spec: `nLowestBitsSet<T>(n)` of `BitManipulation.hpp` (not among the
sources) is the `T` with its `n` lowest bits set, as its name and its uses here say. -/
def nLowestBitsSet (w n : Nat) : BitVec w := BitVec.ofNat w (2 ^ n - 1)

/-! ## The packed histogram -/

/-- `MEMBER_BIT_WIDTHS`: the nonzero count, then the counts of the lengths `1, …, 7`. -/
def MEMBER_BIT_WIDTHS : List Nat := [5, 1, 2, 3, 4, 5, 5, 4]

/-- `MEMBER_OFFSETS`: member `i` starts after the widths of the members before it. -/
def MEMBER_OFFSETS : List Nat := (List.range 8).map fun i => (MEMBER_BIT_WIDTHS.take i).sum

/-- `OVERFLOW_MEMBER_OFFSET`: the overflow bits start after the last member. -/
def OVERFLOW_MEMBER_OFFSET : Nat := MEMBER_OFFSETS.getD 7 0 + MEMBER_BIT_WIDTHS.getD 7 0

/-- `LOWEST_MEMBER_BITS_MASK`: the lowest bit of every member. -/
def LOWEST_MEMBER_BITS_MASK : BitVec 32 :=
  MEMBER_OFFSETS.foldl (fun result offset => result ||| 1#32 <<< offset) 0

/-- `OVERFLOW_BITS_MASK`: the lowest bit of every member and all overflow bits. -/
def OVERFLOW_BITS_MASK : BitVec 32 := LOWEST_MEMBER_BITS_MASK ||| ~~~0#32 <<< OVERFLOW_MEMBER_OFFSET

/-- `getCount(histogram, value)`: the member of `value`. -/
def getCount (histogram : BitVec 32) (value : Nat) : Nat :=
  ((histogram >>> MEMBER_OFFSETS.getD value 0) &&&
    nLowestBitsSet 32 (MEMBER_BIT_WIDTHS.getD value 0)).toNat

/-- `setCount(histogram, value, count)`: replace the member of `value`; a count too large for its
member throws. -/
def setCount (histogram : BitVec 32) (value count : Nat) : Except String (BitVec 32) :=
  let bitWidth := MEMBER_BIT_WIDTHS.getD value 0
  if count ≥ 2 ^ bitWidth then .error "Overflow detected. Cannot set count to given value!"
  else .ok ((histogram &&& ~~~(nLowestBitsSet 32 bitWidth <<< MEMBER_OFFSETS.getD value 0)) |||
    BitVec.ofNat 32 count <<< MEMBER_OFFSETS.getD value 0)

/-- `incrementCount(histogram, value)`: a plain addition at the member of `value`, which carries
into the next member on overflow; an overflow also sets the lowest overflow bit. -/
def incrementCount (histogram : BitVec 32) (value : Nat) : BitVec 32 :=
  let oldCount := getCount histogram value
  let newHistogram := histogram + 1#32 <<< MEMBER_OFFSETS.getD value 0
  if oldCount + 1 < 2 ^ MEMBER_BIT_WIDTHS.getD value 0 then newHistogram
  else newHistogram ||| 1#32 <<< OVERFLOW_MEMBER_OFFSET

/-- `calculateHistogram<VALUE_BITS, VALUE_COUNT>(values)`: every nonzero value among the
`VALUE_COUNT` values of `VALUE_BITS` bits is counted, and so is the nonzero count. -/
def calculateHistogram (VALUE_BITS VALUE_COUNT values : Nat) : BitVec 32 :=
  (List.range VALUE_COUNT).foldl (fun histogram i =>
    let value := (values >>> (i * VALUE_BITS)) &&& (2 ^ VALUE_BITS - 1)
    if value > 0 then incrementCount histogram value + 1 else histogram) 0

/-- Entry `i` of `createHistogramLUT<VALUE_BITS, VALUE_COUNT>()`. -/
def createHistogramLUT (VALUE_BITS VALUE_COUNT i : Nat) : BitVec 32 :=
  calculateHistogram VALUE_BITS VALUE_COUNT i

/-- The loop of `packHistogram` from the code length `depth` on; it gives up on a count that
does not fit its member. -/
def packHistogramLoop : Nat → List Nat → BitVec 32 → Nat → Except String (Option (BitVec 32 × Nat))
  | _, [], packedHistogram, nonZeroCount => .ok (some (packedHistogram, nonZeroCount))
  | depth, count :: rest, packedHistogram, nonZeroCount =>
    let nonZeroCount := (nonZeroCount + count) % 256
    if count ≥ 2 ^ MEMBER_BIT_WIDTHS.getD depth 0 then .ok none
    else do
      let packedHistogram ← setCount packedHistogram depth count
      packHistogramLoop (depth + 1) rest packedHistogram nonZeroCount

/-- `packHistogram(histogram)` for the counts of the code lengths `1, …, 7`. -/
def packHistogram (histogram : List Nat) : Except String (Option (BitVec 32)) := do
  match ← packHistogramLoop 1 histogram 0 0 with
  | none => return none
  | some (packedHistogram, nonZeroCount) =>
    if nonZeroCount ≥ 2 ^ MEMBER_BIT_WIDTHS.getD 0 0 then
      throw "More total non-zero counts than permitted!"
    return some (← setCount packedHistogram 0 nonZeroCount)

/-! ## The tables -/

/-- `PRECODE_X4_TO_HISTOGRAM_LUT`: the histograms of four precode code lengths. -/
def PRECODE_X4_TO_HISTOGRAM_LUT (i : Nat) : BitVec 32 := createHistogramLUT PRECODE_BITS 4 i

/-- `HISTOGRAM_TO_LOOK_UP_BITS`: the counts of the lengths `1, …, 7` without the nonzero count. -/
def HISTOGRAM_TO_LOOK_UP_BITS : Nat :=
  MEMBER_OFFSETS.getD 7 0 - MEMBER_BIT_WIDTHS.getD 0 0 + MEMBER_BIT_WIDTHS.getD 7 0

/-- The Kraft sum of a histogram of the lengths `1, …, 7`, in units of `2⁻⁷`: it is `2 ^ 7`
exactly for a complete prefix code. -/
def kraftSum (histogram : List Nat) : Nat :=
  ((List.range 7).map fun i => histogram.getD i 0 * 2 ^ (6 - i)).sum

/-- Count vectors of length `k` whose total is at most `budget`. -/
def histogramsUpTo : Nat → Nat → List (List Nat)
  | 0, _ => [[]]
  | k + 1, budget =>
    (List.range (budget + 1)).flatMap fun count => (histogramsUpTo k (budget - count)).map (count :: ·)

/-- Modelled from the spec: `precode::VALID_HISTOGRAMS` of `precode.hpp` (not among the sources),
"the enumeration of all histograms corresponding to valid complete Huffman trees": the counts of
the lengths `1, …, 7` of at most nineteen codes whose Kraft sum is exactly one. -/
def VALID_HISTOGRAMS : List (List Nat) :=
  (histogramsUpTo 7 MAX_PRECODE_COUNT).filter fun histogram => kraftSum histogram = 2 ^ 7

/-- `PRECODE_HISTOGRAM_VALID_LUT[i]`: one bit for every packed valid histogram that fits the
packed layout, 64 to a word. -/
def PRECODE_HISTOGRAM_VALID_LUT : Nat → BitVec 64 :=
  VALID_HISTOGRAMS.foldl (fun result histogram =>
    match packHistogram histogram with
    | .ok (some packedHistogram) =>
      let histogramToSetValid := (packedHistogram >>> MEMBER_BIT_WIDTHS.getD 0 0).toNat
      Function.update result (histogramToSetValid / 64)
        (result (histogramToSetValid / 64) ||| 1#64 <<< (histogramToSetValid % 64))
    | _ => result) fun _ => 0

/-- `POWER_OF_TWO_SPECIAL_CASES[nonZeroCount]`: the one valid histogram for a nonzero count that
overflows the packed layout, or a value no lookup equals. The array has 32 entries of which the
source initialises 17; the others are zero. -/
def POWER_OF_TWO_SPECIAL_CASES (nonZeroCount : Nat) : BitVec 32 :=
  [~~~0#32, 0b1#32, 0b10#32, ~~~0#32, 0b1000#32, ~~~0#32, ~~~0#32, ~~~0#32, 0b1000000#32,
    ~~~0#32, ~~~0#32, ~~~0#32, ~~~0#32, ~~~0#32, ~~~0#32, ~~~0#32, 0b10000000000#32].getD
    nonZeroCount 0

/-! ## The check -/

/-- `CACHED_BITS`: four precode code lengths per lookup. -/
def CACHED_BITS : Nat := PRECODE_BITS * 4

/-- `CHUNK_COUNT`: `ceilDiv(MAX_PRECODE_COUNT, 4)` lookups. -/
def CHUNK_COUNT : Nat := (MAX_PRECODE_COUNT + 4 - 1) / 4

/-- The size of `PRECODE_X4_TO_HISTOGRAM_LUT`: `1ULL << (VALUE_COUNT * VALUE_BITS)` entries for
four values of `PRECODE_BITS` bits. -/
def PRECODE_X4_TO_HISTOGRAM_LUT_SIZE : Nat := 2 ^ (4 * PRECODE_BITS)

/-- The size of `POWER_OF_TWO_SPECIAL_CASES`: `MAX_PRECODE_COUNT` rounded up to 32. -/
def POWER_OF_TWO_SPECIAL_CASES_SIZE : Nat := 32

/-- The size of `PrecodeHistogramValidLUT`: `(1ULL << HISTOGRAM_TO_LOOK_UP_BITS) / 64U` words. -/
def PRECODE_HISTOGRAM_VALID_LUT_SIZE : Nat := 2 ^ HISTOGRAM_TO_LOOK_UP_BITS / 64

section Read

variable {m : Type → Type} [Monad m] (read : ∀ {α : Type}, Nat → (Nat → α) → Nat → m α)

/-- One round of the chunk loop of `checkPrecode` on
`(bitLengthFrequencies, overflowsInSum, overflowsInLUT)`, reading the table of `size` entries at
`index` as `read size table index`. -/
def checkPrecodeChunkWith (precodeBits : BitVec 64) (state : BitVec 32 × BitVec 32 × BitVec 32)
    (chunk : Nat) : m (BitVec 32 × BitVec 32 × BitVec 32) := do
  let (bitLengthFrequencies, overflowsInSum, overflowsInLUT) := state
  let precodeChunk := precodeBits >>> (chunk * CACHED_BITS)
  let precodeChunk :=
    if chunk ≠ CHUNK_COUNT - 1 then precodeChunk &&& nLowestBitsSet 64 CACHED_BITS else precodeChunk
  let partialHistogram ←
    read PRECODE_X4_TO_HISTOGRAM_LUT_SIZE PRECODE_X4_TO_HISTOGRAM_LUT precodeChunk.toNat
  let carrylessSum := bitLengthFrequencies ^^^ partialHistogram
  let bitLengthFrequencies := bitLengthFrequencies + partialHistogram
  return (bitLengthFrequencies, overflowsInSum ||| (carrylessSum ^^^ bitLengthFrequencies),
    overflowsInLUT ||| partialHistogram)

/-- `checkPrecode(next4Bits, next57Bits)`, reading its three tables as `read size table index`. -/
def checkPrecodeWith (next4Bits next57Bits : BitVec 64) : m Error := do
  let codeLengthCount := 4 + next4Bits
  let precodeBits :=
    next57Bits &&& nLowestBitsSet 64 (codeLengthCount * BitVec.ofNat 64 PRECODE_BITS).toNat
  let (bitLengthFrequencies, overflowsInSum, overflowsInLUT) ←
    (List.range CHUNK_COUNT).foldlM (checkPrecodeChunkWith read precodeBits) (0, 0, 0)
  let histogramToLookUp :=
    (bitLengthFrequencies >>> 5) &&& nLowestBitsSet 32 HISTOGRAM_TO_LOOK_UP_BITS
  let nonZeroCount := bitLengthFrequencies &&& nLowestBitsSet 32 5
  let specialCase ←
    read POWER_OF_TWO_SPECIAL_CASES_SIZE POWER_OF_TWO_SPECIAL_CASES nonZeroCount.toNat
  if specialCase = histogramToLookUp then return .NONE
  else if (overflowsInSum &&& OVERFLOW_BITS_MASK) ≠ 0 ∨
      (overflowsInLUT &&& ~~~0#32 <<< OVERFLOW_MEMBER_OFFSET) ≠ 0 then return .INVALID_CODE_LENGTHS
  else
    let bitToLookUp := 1#64 <<< (histogramToLookUp.toNat % 64)
    let elementIndex := (histogramToLookUp.toNat / 64) &&& (2 ^ (HISTOGRAM_TO_LOOK_UP_BITS - 6) - 1)
    let element ← read PRECODE_HISTOGRAM_VALID_LUT_SIZE PRECODE_HISTOGRAM_VALID_LUT elementIndex
    if (element &&& bitToLookUp) = 0 then return .BLOATING_HUFFMAN_CODING else return .NONE

end Read

/-- `table[index]` of a `std::array`, read without a check of the index. -/
def readEntry {α : Type} (_size : Nat) (table : Nat → α) (index : Nat) : Id α := table index

theorem readEntry_eq {α : Type} (size : Nat) (table : Nat → α) (index : Nat) :
    readEntry size table index = table index :=
  rfl

/-- One round of the chunk loop of `checkPrecode`. -/
def checkPrecodeChunk (precodeBits : BitVec 64) (state : BitVec 32 × BitVec 32 × BitVec 32)
    (chunk : Nat) : BitVec 32 × BitVec 32 × BitVec 32 :=
  checkPrecodeChunkWith readEntry precodeBits state chunk

/-- `checkPrecode(next4Bits, next57Bits)`. -/
def checkPrecode (next4Bits next57Bits : BitVec 64) : Error :=
  checkPrecodeWith readEntry next4Bits next57Bits

@[simp] theorem foldlM_checkPrecodeChunkWith_readEntry (precodeBits : BitVec 64) :
    ∀ (chunks : List Nat) (state : BitVec 32 × BitVec 32 × BitVec 32),
      chunks.foldlM (checkPrecodeChunkWith readEntry precodeBits) state =
        chunks.foldl (checkPrecodeChunk precodeBits) state
  | [], _ => rfl
  | chunk :: chunks, state => by
    rw [List.foldlM_cons, Id.bind_eq, foldlM_checkPrecodeChunkWith_readEntry precodeBits chunks]
    rfl

set_option maxRecDepth 8000 in
/-- The nineteen code lengths `1, 2, 3` and sixteen times `7` have Kraft sum one, yet
`checkPrecode` rejects them: the sixteen sevens carry out of their four-bit member into the
overflow bits, and entry 19 of `POWER_OF_TWO_SPECIAL_CASES`, which would accept the histogram, is
zero. -/
theorem checkPrecode_rejects_lopsided :
    (List.range 19).map (fun i => ((BitVec.ofNat 64 (2 ^ 57 - 303)) >>> (3 * i)).toNat % 8) =
        [1, 2, 3] ++ List.replicate 16 7 ∧
      kraftSum [1, 1, 1, 0, 0, 0, 16] = 2 ^ 7 ∧
      checkPrecode 15#64 (BitVec.ofNat 64 (2 ^ 57 - 303)) = .INVALID_CODE_LENGTHS := by
  decide

end Pragzip.PrecodeCheck
