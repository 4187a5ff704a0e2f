import Pragzip.PrecodeCheck.Sound

/-!
# Precode check — what it computes

`checkPrecode` adds packed partial histograms with bit tricks and judges the sum with two tables.
Read on the histogram of the code lengths it is a plain decision: a special case is accepted by
its nonzero count and key, counts that outgrow their members are invalid, and fitting counts are
judged by their Kraft sum. Soundness gives one direction of each branch; here fitting counts are
shown to leave both overflow words clear, and the validity table to hold every complete fitting
histogram. On the counts alone, the check accepts the single length `1` and every complete code
with fewer than sixteen lengths `7`, and of the others calls the fitting ones bloating and the
rest invalid.

* `carry_and_mask_eq_zero`, `foldl_addPartialHistogram_of_fits`: fitting counts leave both
  overflow words clear;
* `PRECODE_HISTOGRAM_VALID_LUT_complete`: the table has the bit of every complete histogram of
  fitting counts;
* `judgeHistogram`, `checkPrecode_eq_judgeHistogram`: the check read on the histogram;
* **`checkPrecode_accepts_only_valid`**: so it accepts only complete precodes and the precode of
  a single length `1`;
* `precodeVerdict`, **`checkPrecode_eq_precodeVerdict`**: the check read on the counts.
-/

namespace Pragzip.PrecodeCheck

/-! ## Fitting counts carry into no member -/

theorem noCarry_of_fits_add {a b c d e f g a' b' c' d' e' f' g' : Nat}
    (hf₁ : Fits [a, b, c, d, e, f, g]) (hf₂ : Fits [a', b', c', d', e', f', g'])
    (hf : Fits [a + a', b + b', c + c', d + d', e + e', f + f', g + g']) :
    ∀ m ∈ [1, 2, 8, 64, 1024, 32768, 1048576, 16777216],
      lookUpKey [a, b, c, d, e, f, g] % m + lookUpKey [a', b', c', d', e', f', g'] % m < m := by
  obtain ⟨k₁, k₂, k₃, k₄, k₅, k₆, k₇⟩ := lookUpKey_mod hf₁
  obtain ⟨k₁', k₂', k₃', k₄', k₅', k₆', k₇'⟩ := lookUpKey_mod hf₂
  simp only [List.mem_cons, List.not_mem_nil, or_false, forall_eq_or_imp, forall_eq]
  rw [k₁, k₁', k₂, k₂', k₃, k₃', k₄, k₄', k₅, k₅', k₆, k₆', k₇, k₇', lookUpKey_eq, lookUpKey_eq]
  clear k₁ k₂ k₃ k₄ k₅ k₆ k₇ k₁' k₂' k₃' k₄' k₅' k₆' k₇' hf₁ hf₂
  simp only [fits_iff] at hf
  refine ⟨?_, ?_, ?_, ?_, ?_, ?_, ?_, ?_⟩ <;> omega

theorem fits_of_fits_append {l₁ l₂ : List Nat} (h : Fits (histogramOf (l₁ ++ l₂))) :
    Fits (histogramOf l₁) ∧ Fits (histogramOf l₂) := by
  simp only [histogramOf_eq, List.count_append, fits_iff] at h ⊢
  omega

theorem histogramSum_lt {l : List Nat} (hl : ∀ x ∈ l, x < 8) (hlen : l.length < 32)
    (hf : Fits (histogramOf l)) : histogramSum l < 2 ^ 29 := by
  have hK := lookUpKey_lt (by simp [histogramOf]) hf
  have hN := sum_histogramOf_add_count_zero hl
  rw [histogramSum_eq hl]
  omega

/-- **Two histograms whose concatenation fits add with no carry into a member, nor into the nonzero
count**: the converse of `fits_append_of_noCarry`. -/
theorem noCarry_of_fits_append {l₁ l₂ : List Nat} (hl : ∀ x ∈ l₁ ++ l₂, x < 8)
    (hlen : (l₁ ++ l₂).length < 32) (hf : Fits (histogramOf (l₁ ++ l₂))) :
    ∀ m ∈ [1, 2, 8, 64, 1024, 32768, 1048576, 16777216],
      histogramSum l₁ % (32 * m) + histogramSum l₂ % (32 * m) < 32 * m := by
  have hl₁ : ∀ x ∈ l₁, x < 8 := fun x hx => hl x (List.mem_append_left _ hx)
  have hl₂ : ∀ x ∈ l₂, x < 8 := fun x hx => hl x (List.mem_append_right _ hx)
  obtain ⟨hf₁, hf₂⟩ := fits_of_fits_append hf
  have hN := congrArg₂ (· + ·) (sum_histogramOf_add_count_zero hl₁)
    (sum_histogramOf_add_count_zero hl₂)
  simp only [List.length_append] at hlen hN
  have hkey : ∀ m ∈ [1, 2, 8, 64, 1024, 32768, 1048576, 16777216],
      lookUpKey (histogramOf l₁) % m + lookUpKey (histogramOf l₂) % m < m := by
    rw [histogramOf_eq] at hf₁ ⊢
    rw [histogramOf_eq] at hf₂ ⊢
    refine noCarry_of_fits_add hf₁ hf₂ ?_
    simpa only [histogramOf_eq, List.count_append] using hf
  intro m hm
  have hm0 : 0 < m := by simp at hm; omega
  have := hkey m hm
  rw [histogramSum_eq hl₁, histogramSum_eq hl₂, mul_32_add_mod (by omega) hm0,
    mul_32_add_mod (by omega) hm0]
  omega

/-! ## Both overflow words stay clear -/

theorem or_and_eq_zero {x y M : BitVec 32} (hx : x &&& M = 0) (hy : y &&& M = 0) :
    (x ||| y) &&& M = 0 := by
  ext i
  have hx := congrArg (BitVec.getLsbD · i) hx
  have hy := congrArg (BitVec.getLsbD · i) hy
  simp only [BitVec.getLsbD_and, BitVec.getLsbD_or, BitVec.ofNat_eq_ofNat, BitVec.getLsbD_zero]
    at hx hy ⊢
  revert hx hy
  cases x.getLsbD i <;> cases y.getLsbD i <;> cases M.getLsbD i <;> simp

theorem and_overflowBits_eq_zero {x : BitVec 32} (h : x.toNat < 2 ^ 29) :
    x &&& ~~~0#32 <<< OVERFLOW_MEMBER_OFFSET = 0 := by
  ext ⟨p, hp⟩
  simp only [BitVec.getLsbD_and, BitVec.getLsbD_shiftLeft, BitVec.getLsbD_not,
    OVERFLOW_MEMBER_OFFSET_eq, BitVec.ofNat_eq_ofNat, BitVec.getLsbD_zero, ← BitVec.testBit_toNat]
  by_cases hp29 : p < 29
  · have hlow : ∀ q < 29, (3758096384 : Nat).testBit q = false := by decide
    simp [hlow p hp29]
  · simp [Nat.testBit_eq_false_of_lt
      (lt_of_lt_of_le h (Nat.pow_le_pow_right two_pos (by omega : 29 ≤ p)))]

/-- **Two words below the overflow bits that add with no carry into a member or the nonzero count
set no bit of `OVERFLOW_BITS_MASK` in their carries.** -/
theorem carry_and_mask_eq_zero {B P : BitVec 32} (hB : B.toNat < 2 ^ 29) (hP : P.toNat < 2 ^ 29)
    (hc : ∀ m ∈ [1, 2, 8, 64, 1024, 32768, 1048576, 16777216],
      B.toNat % (32 * m) + P.toNat % (32 * m) < 32 * m) :
    ((B ^^^ P) ^^^ (B + P)) &&& OVERFLOW_BITS_MASK = 0 := by
  have hmask : ∀ p < 32, (3792734561 : Nat).testBit p →
      p ∈ [0, 5, 6, 8, 11, 15, 20, 25, 29, 30, 31] := by decide
  simp only [List.mem_cons, List.not_mem_nil, or_false, forall_eq_or_imp, forall_eq] at hc
  obtain ⟨c5, c6, c8, c11, c15, c20, c25, c29⟩ := hc
  ext ⟨p, hp⟩
  simp only [BitVec.getLsbD_and, getLsbD_carry hp, OVERFLOW_BITS_MASK_eq, BitVec.getLsbD_ofNat,
    BitVec.ofNat_eq_ofNat, BitVec.getLsbD_zero, decide_eq_true hp, Bool.true_and]
  by_cases hb : (3792734561 : Nat).testBit p
  · rw [hb, Bool.and_true, Nat.zero_testBit, decide_eq_false_iff_not, not_le]
    simp only [List.mem_cons, List.not_mem_nil, or_false] at hmask
    rcases hmask p hp hb with rfl | rfl | rfl | rfl | rfl | rfl | rfl | rfl | rfl | rfl | rfl
    · simp [Nat.mod_one]
    -- the bits of the members' ends are the hypotheses; above bit `29` the words are below
    any_goals assumption
    all_goals clear c5 c6 c8 c11 c15 c20 c25 c29; omega
  · simp [hb]

/-- **While the counts of all the lengths fit, neither overflow word of the chunk loop gains a bit
of its mask**: the converse of `foldl_addPartialHistogram_of_noOverflow`. -/
theorem foldl_addPartialHistogram_of_fits : ∀ (chunks : List (List Nat)) (L : List Nat)
    (state : BitVec 32 × BitVec 32 × BitVec 32),
    (∀ chunk ∈ chunks, chunk.length ≤ 4) → (∀ x ∈ L ++ chunks.flatten, x < 8) →
    (L ++ chunks.flatten).length < 32 → state.1.toNat = histogramSum L →
    state.2.1 &&& OVERFLOW_BITS_MASK = 0 → state.2.2 &&& ~~~0#32 <<< OVERFLOW_MEMBER_OFFSET = 0 →
    Fits (histogramOf (L ++ chunks.flatten)) →
    ((chunks.map fun chunk => BitVec.ofNat 32 (lutHistogram chunk)).foldl addPartialHistogram
      state).2.1 &&& OVERFLOW_BITS_MASK = 0 ∧
    ((chunks.map fun chunk => BitVec.ofNat 32 (lutHistogram chunk)).foldl addPartialHistogram
      state).2.2 &&& ~~~0#32 <<< OVERFLOW_MEMBER_OFFSET = 0
  | [], _, _, _, _, _, _, hOS, hOL, _ => ⟨hOS, hOL⟩
  | chunk :: chunks, L, ⟨B, OS, OL⟩, hlen4, hl, hlen, hB, hOS, hOL, hf => by
    rw [List.map_cons, List.foldl_cons]
    simp only [List.flatten_cons, ← List.append_assoc] at hl hlen hf hB hOS hOL
    have hl' : ∀ x ∈ L ++ chunk, x < 8 := fun x hx => hl x (List.mem_append_left _ hx)
    have hlen' : (L ++ chunk).length < 32 := by
      have := List.length_append (L ++ chunk) chunks.flatten; omega
    have hf' := (fits_of_fits_append hf).1
    have hS : histogramSum L + histogramSum chunk < 2 ^ 29 :=
      histogramSum_append L chunk ▸ histogramSum_lt hl' hlen' hf'
    have hP : (BitVec.ofNat 32 (lutHistogram chunk)).toNat = histogramSum chunk := by
      rw [lutHistogram, if_pos (fits_of_fits_append hf').2, Nat.add_zero, BitVec.toNat_ofNat,
        Nat.mod_eq_of_lt (by omega)]
    have hc := noCarry_of_fits_append hl' hlen' hf'
    rw [← hB, ← hP] at hc
    refine foldl_addPartialHistogram_of_fits chunks (L ++ chunk) _
      (fun c hc => hlen4 c (List.mem_cons_of_mem _ hc)) hl hlen ?_
      (or_and_eq_zero hOS (carry_and_mask_eq_zero (by omega) (by omega) hc))
      (or_and_eq_zero hOL (and_overflowBits_eq_zero (by omega))) hf
    simp only [addPartialHistogram, BitVec.toNat_add, hB, hP, histogramSum_append]
    exact Nat.mod_eq_of_lt (by omega)

/-! ## The table holds every complete histogram that fits -/

theorem mem_histogramsUpTo_of : ∀ {k budget : Nat} {H : List Nat}, H.length = k → H.sum ≤ budget →
    H ∈ histogramsUpTo k budget
  | 0, _, [], _, _ => List.mem_singleton_self _
  | k + 1, budget, count :: H, hlen, hsum => by
    simp only [List.length_cons, List.sum_cons, Nat.add_right_cancel_iff] at hlen hsum
    simp only [histogramsUpTo, List.mem_flatMap, List.mem_range, List.mem_map]
    exact ⟨count, by omega, H, mem_histogramsUpTo_of hlen (by omega), rfl⟩

theorem packHistogramLoop_of_fitsFrom : ∀ {counts : List Nat} {depth : Nat} (packed : BitVec 32)
    (nonZeroCount : Nat), FitsFrom depth counts →
    ∃ result, packHistogramLoop depth counts packed nonZeroCount = .ok (some result)
  | [], _, _, _, _ => ⟨_, rfl⟩
  | count :: rest, depth, packed, nonZeroCount, ⟨hc, hrest⟩ => by
    obtain ⟨result, h⟩ := packHistogramLoop_of_fitsFrom
      ((packed &&& ~~~(nLowestBitsSet 32 (MEMBER_BIT_WIDTHS.getD depth 0) <<<
        MEMBER_OFFSETS.getD depth 0)) ||| BitVec.ofNat 32 count <<< MEMBER_OFFSETS.getD depth 0)
      ((nonZeroCount + count) % 256) hrest
    exact ⟨result, by simp only [packHistogramLoop, setCount, if_neg (Nat.not_le.2 hc)]; exact h⟩

/-- **`packHistogram` packs every histogram of fitting counts with fewer than thirty-two nonzero
lengths.** -/
theorem packHistogram_of_fits {H : List Nat} (hH : H.length = 7) (hf : Fits H) (hN : H.sum < 32) :
    ∃ packed, packHistogram H = .ok (some packed) := by
  match H, hH with
  | [a, b, c, d, e, f, g], _ =>
    obtain ⟨⟨packed, nonZeroCount⟩, hr⟩ :=
      packHistogramLoop_of_fitsFrom 0 0 (fitsFrom_one.2 hf)
    obtain ⟨-, -, hnz⟩ := packHistogramLoop_eq_some hr le_rfl (by simp) (by decide) (by decide)
    simp only [List.sum_cons, List.sum_nil] at hN hnz
    have hnz32 : nonZeroCount < 2 ^ MEMBER_BIT_WIDTHS.getD 0 0 := by
      simp only [MEMBER_BIT_WIDTHS, List.getD_cons_zero]; omega
    simp only [packHistogram, bind, Except.bind, hr, if_neg (Nat.not_le.2 hnz32), setCount]
    exact ⟨_, rfl⟩

theorem getLsbD_foldl_markValid_of_getLsbD {k j : Nat} : ∀ (histograms : List (List Nat))
    (result : Nat → BitVec 64), (result k).getLsbD j → ((histograms.foldl markValid result) k).getLsbD j
  | [], _, h => h
  | V :: histograms, result, h => by
    refine getLsbD_foldl_markValid_of_getLsbD histograms _ ?_
    rcases hp : packHistogram V with _ | _ | packed
    · simpa only [markValid, hp] using h
    · simpa only [markValid, hp] using h
    · simp only [markValid, hp, Function.update_apply]
      split_ifs with hk
      · rw [BitVec.getLsbD_or, ← hk, h, Bool.true_or]
      · exact h

theorem getLsbD_foldl_markValid_of_mem {V : List Nat} {packed : BitVec 32}
    (hp : packHistogram V = .ok (some packed)) : ∀ (histograms : List (List Nat))
    (result : Nat → BitVec 64), V ∈ histograms →
    ((histograms.foldl markValid result) ((packed >>> 5).toNat / 64)).getLsbD
      ((packed >>> 5).toNat % 64)
  | V' :: histograms, result, hmem => by
    rcases List.mem_cons.1 hmem with rfl | hmem
    · refine getLsbD_foldl_markValid_of_getLsbD histograms _ ?_
      simp only [markValid, hp, MEMBER_BIT_WIDTHS, List.getD_cons_zero, Function.update_same,
        BitVec.getLsbD_or, BitVec.getLsbD_shiftLeft, BitVec.getLsbD_ofNat]
      simp [Nat.mod_lt _ (by decide : 0 < 64)]
    · exact getLsbD_foldl_markValid_of_mem hp histograms _ hmem

/-- **`PRECODE_HISTOGRAM_VALID_LUT` has the bit of every complete histogram of at most nineteen
fitting counts**: the converse of `PRECODE_HISTOGRAM_VALID_LUT_sound`. -/
theorem PRECODE_HISTOGRAM_VALID_LUT_complete {H : List Nat} (hH : H.length = 7)
    (hN : H.sum ≤ 19) (hf : Fits H) (hk : kraftSum H = 2 ^ 7) :
    (PRECODE_HISTOGRAM_VALID_LUT (lookUpKey H / 64)).getLsbD (lookUpKey H % 64) := by
  obtain ⟨packed, hp⟩ := packHistogram_of_fits hH hf (by omega)
  have hmem : H ∈ VALID_HISTOGRAMS :=
    List.mem_filter.2 ⟨mem_histogramsUpTo_of hH hN, decide_eq_true hk⟩
  have hkey : (packed >>> 5).toNat = lookUpKey H := by
    rw [BitVec.toNat_ushiftRight, (packHistogram_eq_some hH hp).2, Nat.shiftRight_eq_div_pow]
    omega
  rw [PRECODE_HISTOGRAM_VALID_LUT_eq, ← hkey]
  exact getLsbD_foldl_markValid_of_mem hp _ _ hmem

theorem and_shiftLeft_ne_zero_of_getLsbD {x : BitVec 64} {m : Nat} (hm : m < 64)
    (h : x.getLsbD m) : x &&& 1#64 <<< m ≠ 0 := by
  intro h0
  have := congrArg (BitVec.getLsbD · m) h0
  simp [BitVec.getLsbD_and, BitVec.getLsbD_shiftLeft, hm, h] at this

/-! ## The check on the histogram -/

/-- What `checkPrecode` decides, on the histogram of the code lengths: a special case by its
nonzero count and key, then counts that outgrow their members, then the Kraft sum. -/
def judgeHistogram (histogram : List Nat) : Error :=
  if POWER_OF_TWO_SPECIAL_CASES histogram.sum =
      BitVec.ofNat 32 (lookUpKey histogram % 2 ^ HISTOGRAM_TO_LOOK_UP_BITS) then .NONE
  else if ¬ Fits histogram then .INVALID_CODE_LENGTHS
  else if kraftSum histogram = 2 ^ 7 then .NONE
  else .BLOATING_HUFFMAN_CODING

section Branches

variable {L : List Nat} {B : BitVec 32} (hL8 : ∀ x ∈ L, x < 8) (hN : (histogramOf L).sum ≤ 19)
  (hmod : B.toNat % 2 ^ 29 = histogramSum L % 2 ^ 29)
include hL8 hN hmod

theorem specialCase_iff :
    POWER_OF_TWO_SPECIAL_CASES (B &&& nLowestBitsSet 32 5).toNat =
        B >>> 5 &&& nLowestBitsSet 32 HISTOGRAM_TO_LOOK_UP_BITS ↔
      POWER_OF_TWO_SPECIAL_CASES (histogramOf L).sum =
        BitVec.ofNat 32 (lookUpKey (histogramOf L) % 2 ^ HISTOGRAM_TO_LOOK_UP_BITS) := by
  have hkey : B >>> 5 &&& nLowestBitsSet 32 HISTOGRAM_TO_LOOK_UP_BITS =
      BitVec.ofNat 32 (lookUpKey (histogramOf L) % 2 ^ HISTOGRAM_TO_LOOK_UP_BITS) := by
    apply BitVec.eq_of_toNat_eq
    rw [histogramToLookUp_toNat hL8 hN hmod, BitVec.toNat_ofNat, HISTOGRAM_TO_LOOK_UP_BITS_eq,
      Nat.mod_eq_of_lt (lt_trans (Nat.mod_lt _ (by decide)) (by decide))]
  rw [nonZeroCount_toNat hL8 hN hmod, hkey]

theorem validTable_iff (hfits : Fits (histogramOf L)) :
    PRECODE_HISTOGRAM_VALID_LUT
        ((B >>> 5 &&& nLowestBitsSet 32 HISTOGRAM_TO_LOOK_UP_BITS).toNat / 64 &&&
          2 ^ (HISTOGRAM_TO_LOOK_UP_BITS - 6) - 1) &&&
        1#64 <<< ((B >>> 5 &&& nLowestBitsSet 32 HISTOGRAM_TO_LOOK_UP_BITS).toNat % 64) ≠ 0 ↔
      kraftSum (histogramOf L) = 2 ^ 7 := by
  refine ⟨validTable_branch hL8 hN hmod hfits, fun hk => ?_⟩
  have hH7 : (histogramOf L).length = 7 := by simp [histogramOf]
  have hK := lookUpKey_lt hH7 hfits
  rw [histogramToLookUp_toNat hL8 hN hmod, Nat.mod_eq_of_lt hK, HISTOGRAM_TO_LOOK_UP_BITS_eq,
    show 2 ^ (24 - 6) - 1 = 2 ^ 18 - 1 from rfl, Nat.and_pow_two_sub_one_eq_mod,
    Nat.mod_eq_of_lt (by omega)]
  exact and_shiftLeft_ne_zero_of_getLsbD (Nat.mod_lt _ (by decide))
    (PRECODE_HISTOGRAM_VALID_LUT_complete hH7 hN hfits hk)

end Branches

/-- **`checkPrecode` decides on the histogram of the `4 + next4Bits` code lengths as
`judgeHistogram` does.** -/
theorem checkPrecode_eq_judgeHistogram (next4Bits next57Bits : BitVec 64)
    (h4 : next4Bits.toNat < 16) :
    checkPrecode next4Bits next57Bits =
      judgeHistogram (histogramOf (codeLengths next57Bits.toNat (4 + next4Bits.toNat))) := by
  have hpb := precodeBits_toNat next57Bits h4
  have hpb57 : (next57Bits &&& nLowestBitsSet 64
      ((4 + next4Bits) * BitVec.ofNat 64 PRECODE_BITS).toNat).toNat < 2 ^ 57 := by
    rw [hpb]
    exact lt_of_lt_of_le (Nat.mod_lt _ (Nat.two_pow_pos _)) (Nat.pow_le_pow_right two_pos (by omega))
  simp only [checkPrecode, checkPrecodeWith, Id.bind_eq, Id.pure_eq,
    foldlM_checkPrecodeChunkWith_readEntry]
  rw [readEntry_eq, readEntry_eq, foldl_checkPrecodeChunk hpb57]
  generalize (next57Bits &&& nLowestBitsSet 64
    ((4 + next4Bits) * BitVec.ofNat 64 PRECODE_BITS).toNat).toNat = x at hpb ⊢
  -- the five chunks of four lengths are the lengths, then zeros
  have hflat : ((List.range 5).map fun chunk => codeLengths (x >>> (chunk * 12)) 4).flatten =
      codeLengths next57Bits.toNat (4 + next4Bits.toNat) ++
        List.replicate (16 - next4Bits.toNat) 0 := by
    rw [flatten_chunks, hpb, show 4 * 5 = (4 + next4Bits.toNat) + (16 - next4Bits.toNat) by omega,
      codeLengths_mod_add]
  have hlen4 : ∀ chunk ∈ (List.range 5).map fun chunk => codeLengths (x >>> (chunk * 12)) 4,
      chunk.length ≤ 4 := by
    simp [codeLengths]
  generalize (List.range 5).map (fun chunk => codeLengths (x >>> (chunk * 12)) 4) = chunks
    at hflat hlen4 ⊢
  have hL8 := codeLengths_lt next57Bits.toNat (4 + next4Bits.toNat)
  have hLlen : (codeLengths next57Bits.toNat (4 + next4Bits.toNat)).length =
      4 + next4Bits.toNat := by
    simp [codeLengths]
  generalize codeLengths next57Bits.toNat (4 + next4Bits.toNat) = L at hflat hL8 hLlen ⊢
  have hW8 : ∀ y ∈ [] ++ chunks.flatten, y < 8 := by
    rw [List.nil_append, hflat]
    intro y hy
    rcases List.mem_append.1 hy with hy | hy
    exacts [hL8 y hy, by rw [List.eq_of_mem_replicate hy]; decide]
  have hW : ([] ++ chunks.flatten).length < 32 := by
    rw [List.nil_append, hflat, List.length_append, hLlen, List.length_replicate]; omega
  have hN : (histogramOf L).sum ≤ 19 := by
    have := sum_histogramOf_add_count_zero hL8; omega
  -- the sum of the partial histograms, and its overflow words both ways
  have hmod := foldl_addPartialHistogram_mod chunks (0, 0, 0)
  have hnov := foldl_addPartialHistogram_of_noOverflow chunks [] (0, 0, 0) hlen4 hW8 hW rfl
    (by simp [histogramOf_eq])
  have hfit := foldl_addPartialHistogram_of_fits chunks [] (0, 0, 0) hlen4 hW8 hW rfl
    (by decide) (by decide)
  generalize (chunks.map fun lengths => BitVec.ofNat 32 (lutHistogram lengths)).foldl
    addPartialHistogram (0, 0, 0) = state at hmod hnov hfit ⊢
  obtain ⟨B, OS, OL⟩ := state
  simp only [List.nil_append, hflat, histogramSum_append, histogramSum_replicate_zero,
    histogramOf_append_replicate_zero, Nat.add_zero, BitVec.ofNat_eq_ofNat, BitVec.toNat_ofNat,
    Nat.zero_mod, Nat.zero_add] at hmod hnov hfit
  dsimp only
  unfold judgeHistogram
  by_cases hspecial : POWER_OF_TWO_SPECIAL_CASES (histogramOf L).sum =
      BitVec.ofNat 32 (lookUpKey (histogramOf L) % 2 ^ HISTOGRAM_TO_LOOK_UP_BITS)
  · rw [if_pos ((specialCase_iff hL8 hN hmod).2 hspecial), if_pos hspecial]
  rw [if_neg (mt (specialCase_iff hL8 hN hmod).1 hspecial), if_neg hspecial]
  by_cases hfits : Fits (histogramOf L)
  · obtain ⟨hOS, hOL⟩ := hfit hfits
    rw [if_neg fun h => h.elim (· hOS) (· hOL), if_neg (not_not.2 hfits)]
    by_cases hk : PRECODE_HISTOGRAM_VALID_LUT
        ((B >>> 5 &&& nLowestBitsSet 32 HISTOGRAM_TO_LOOK_UP_BITS).toNat / 64 &&&
          2 ^ (HISTOGRAM_TO_LOOK_UP_BITS - 6) - 1) &&&
        1#64 <<< ((B >>> 5 &&& nLowestBitsSet 32 HISTOGRAM_TO_LOOK_UP_BITS).toNat % 64) = 0
    · rw [if_pos hk, if_neg fun hk' => (validTable_iff hL8 hN hmod hfits).2 hk' hk]
    · rw [if_neg hk, if_pos ((validTable_iff hL8 hN hmod hfits).1 hk)]
  · have hoverflow : ¬ (OS &&& OVERFLOW_BITS_MASK = 0 ∧
        OL &&& ~~~0#32 <<< OVERFLOW_MEMBER_OFFSET = 0) := fun h => hfits (hnov h.1 h.2).2
    rw [if_pos (by simpa only [not_and_or] using hoverflow), if_pos hfits]
/-- **`checkPrecode` accepts only precodes whose nonzero code lengths form a complete prefix code,
and the precode of a single length `1`.** -/
theorem checkPrecode_accepts_only_valid (next4Bits next57Bits : BitVec 64)
    (h4 : next4Bits.toNat < 16) (h : checkPrecode next4Bits next57Bits = .NONE) :
    kraftSum (histogramOf (codeLengths next57Bits.toNat (4 + next4Bits.toNat))) = 2 ^ 7 ∨
      histogramOf (codeLengths next57Bits.toNat (4 + next4Bits.toNat)) = [1, 0, 0, 0, 0, 0, 0] := by
  have hN := sum_histogramOf_add_count_zero (codeLengths_lt next57Bits.toNat (4 + next4Bits.toNat))
  have hlen : (codeLengths next57Bits.toNat (4 + next4Bits.toNat)).length = 4 + next4Bits.toNat := by
    simp [codeLengths]
  rw [checkPrecode_eq_judgeHistogram _ _ h4, judgeHistogram] at h
  split_ifs at h with hspecial _ hk
  · exact special_case_sound (by simp [histogramOf]) (by omega) hspecial
  · exact .inl hk

set_option maxRecDepth 8000 in
/-- The precode of the single length `1` and three zeros is accepted, through its special case. -/
theorem checkPrecode_accepts_only_valid_example :
    (0#64).toNat < 16 ∧ checkPrecode 0#64 1#64 = .NONE ∧
      histogramOf (codeLengths (1#64).toNat (4 + (0#64).toNat)) = [1, 0, 0, 0, 0, 0, 0] :=
  ⟨by decide, by decide,
    (checkPrecode_accepts_only_valid 0#64 1#64 (by decide) (by decide)).resolve_left (by decide)⟩

/-! ## The check on the counts -/

/-- The decision of `checkPrecode` stated on the counts of the lengths `1, …, 7` alone: the single
length `1`, and a complete code with fewer than sixteen lengths `7`, are accepted; of the others,
fitting counts are bloating and the rest invalid. -/
def precodeVerdict (histogram : List Nat) : Error :=
  if histogram = [1, 0, 0, 0, 0, 0, 0] ∨ kraftSum histogram = 2 ^ 7 ∧ histogram.getD 6 0 < 16 then
    .NONE
  else if Fits histogram then .BLOATING_HUFFMAN_CODING
  else .INVALID_CODE_LENGTHS

theorem special_counts_lt_sixteen {a b c d e f g N K : Nat} (hN : a + b + c + d + e + f + g = N)
    (hK : a + 2 * b + 8 * c + 64 * d + 1024 * e + 32768 * f + 1048576 * g = K) (h19 : N ≤ 19)
    (h : N = 1 ∧ K % 2 ^ 24 = 1 ∨ N = 2 ∧ K % 2 ^ 24 = 2 ∨ N = 4 ∧ K % 2 ^ 24 = 8 ∨
      N = 8 ∧ K % 2 ^ 24 = 64 ∨ N = 16 ∧ K % 2 ^ 24 = 1024 ∨ 17 ≤ N ∧ K % 2 ^ 24 = 0) :
    g < 16 := by
  subst hN hK
  by_contra hg
  rw [Nat.mod_eq_sub_mod (by omega), Nat.mod_eq_of_lt (by omega)] at h
  omega

theorem special_case_verdict {H : List Nat} (hH : H.length = 7) (hN : H.sum ≤ 19)
    (h : POWER_OF_TWO_SPECIAL_CASES H.sum =
      BitVec.ofNat 32 (lookUpKey H % 2 ^ HISTOGRAM_TO_LOOK_UP_BITS)) :
    H = [1, 0, 0, 0, 0, 0, 0] ∨ kraftSum H = 2 ^ 7 ∧ H.getD 6 0 < 16 := by
  rw [HISTOGRAM_TO_LOOK_UP_BITS_eq] at h
  have hcase := POWER_OF_TWO_SPECIAL_CASES_eq_ofNat hN (Nat.mod_lt _ (by decide)) h
  rcases special_case_sound hH hN h with hk | h1
  · refine .inr ⟨hk, ?_⟩
    match H, hH with
    | [a, b, c, d, e, f, g], _ =>
      simp only [List.sum_cons, List.sum_nil, Nat.add_zero, lookUpKey_eq] at hN hcase
      exact special_counts_lt_sixteen (by ac_rfl) rfl hN hcase
  · exact .inl h1

theorem fits_of_kraftSum {H : List Nat} (hH : H.length = 7) (hN : H.sum ≤ 19)
    (hk : kraftSum H = 2 ^ 7) (hg : H.getD 6 0 < 16)
    (hs : ¬ POWER_OF_TWO_SPECIAL_CASES H.sum =
      BitVec.ofNat 32 (lookUpKey H % 2 ^ HISTOGRAM_TO_LOOK_UP_BITS)) : Fits H := by
  match H, hH with
  | [a, b, c, d, e, f, g], _ =>
    have hspecial : ∀ V ∈ [[2, 0, 0, 0, 0, 0, 0], [0, 4, 0, 0, 0, 0, 0], [0, 0, 8, 0, 0, 0, 0],
        [0, 0, 0, 16, 0, 0, 0]], POWER_OF_TWO_SPECIAL_CASES V.sum =
          BitVec.ofNat 32 (lookUpKey V % 2 ^ HISTOGRAM_TO_LOOK_UP_BITS) := by
      decide
    by_contra hf
    refine hs (hspecial _ ?_)
    simp only [fits_iff, not_and_or, not_lt, kraftSum_eq, List.sum_cons, List.sum_nil,
      List.getD_cons_succ, List.getD_cons_zero] at hf hk hg hN
    simp only [List.mem_cons, List.cons.injEq, List.not_mem_nil, and_true, or_false]
    rcases hf with h | h | h | h | h | h | h
    · exact .inl (by clear hN hg; omega)
    · exact .inr (.inl (by clear hN hg; omega))
    · exact .inr (.inr (.inl (by clear hN hg; omega)))
    · exact .inr (.inr (.inr (by clear hN hg; omega)))
    all_goals omega

theorem judgeHistogram_eq_precodeVerdict {H : List Nat} (hH : H.length = 7) (hN : H.sum ≤ 19) :
    judgeHistogram H = precodeVerdict H := by
  unfold judgeHistogram precodeVerdict
  by_cases hs : POWER_OF_TWO_SPECIAL_CASES H.sum =
      BitVec.ofNat 32 (lookUpKey H % 2 ^ HISTOGRAM_TO_LOOK_UP_BITS)
  · rw [if_pos hs, if_pos (special_case_verdict hH hN hs)]
  have h1 : H ≠ [1, 0, 0, 0, 0, 0, 0] := by
    rintro rfl; exact hs (by simp only [HISTOGRAM_TO_LOOK_UP_BITS_eq, lookUpKey_eq]; decide)
  rw [if_neg hs]
  by_cases hf : Fits H
  · have hg : H.getD 6 0 < 16 := hf 6 (by decide)
    rw [if_neg (not_not.2 hf)]
    by_cases hk : kraftSum H = 2 ^ 7
    · rw [if_pos hk, if_pos (.inr ⟨hk, hg⟩)]
    · rw [if_neg hk, if_neg (by simp only [h1, hk, false_and, or_self, not_false_eq_true]), if_pos hf]
  · rw [if_pos hf, if_neg (by rintro (h | ⟨hk, hg⟩); exacts [h1 h, hf (fits_of_kraftSum hH hN hk hg hs)]),
      if_neg hf]

/-- **`checkPrecode` accepts exactly the precodes whose code lengths are the single length `1`, or
a complete prefix code with fewer than sixteen lengths `7`; of the others it calls those whose
counts fit the packed histogram bloating and the rest invalid.** -/
theorem checkPrecode_eq_precodeVerdict (next4Bits next57Bits : BitVec 64)
    (h4 : next4Bits.toNat < 16) :
    checkPrecode next4Bits next57Bits =
      precodeVerdict (histogramOf (codeLengths next57Bits.toNat (4 + next4Bits.toNat))) := by
  have hN := sum_histogramOf_add_count_zero (codeLengths_lt next57Bits.toNat (4 + next4Bits.toNat))
  have hlen : (codeLengths next57Bits.toNat (4 + next4Bits.toNat)).length = 4 + next4Bits.toNat := by
    simp [codeLengths]
  rw [checkPrecode_eq_judgeHistogram _ _ h4,
    judgeHistogram_eq_precodeVerdict (by simp [histogramOf]) (by omega)]

/-- The precode of the lengths `2, 2, 2, 2` is complete and accepted. -/
theorem checkPrecode_eq_precodeVerdict_complete :
    (0#64).toNat < 16 ∧ checkPrecode 0#64 (BitVec.ofNat 64 0b010010010010) =
      precodeVerdict (histogramOf (codeLengths 0b010010010010 (4 + (0#64).toNat))) :=
  ⟨by decide, checkPrecode_eq_precodeVerdict 0#64 (BitVec.ofNat 64 0b010010010010) (by decide)⟩

end Pragzip.PrecodeCheck
