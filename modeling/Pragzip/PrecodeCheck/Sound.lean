import Pragzip.PrecodeCheck.ValidTable

/-!
# Precode check — what the overflow words catch

`checkPrecode` adds the five partial histograms as plain 32-bit integers. Where a sum carries
into a member, the carry shows in the sum exclusive-or'ed with the carry-less sum, and
`OVERFLOW_BITS_MASK` catches it; a count that outgrew its member inside a table entry shows in the
entry's overflow bits. Without either, the sum is the packed histogram of all the lengths, which
the validity table then judges. A special case is judged from the nonzero count and the low bits
alone, and these can only be those of the histogram it names.

* `getLsbD_carry`: bit `p` of the sum exclusive-or'ed with the carry-less sum is the carry into it;
* `addPartialHistogram`, `foldl_checkPrecodeChunk`: the chunk loop adds the table entries of the
  five chunks of four lengths;
* `foldl_addPartialHistogram_mod`: the sum is that of all the lengths, below the overflow bits;
* `foldl_addPartialHistogram_of_noOverflow`: with no overflow caught, it is that sum, and the
  counts fit;
* `special_case_sound`: a histogram that a special case accepts is complete or one length `1`;
* `validTable_branch`: with fitting counts, the table accepts only complete histograms.
-/

namespace Pragzip.PrecodeCheck

/-! ## Carries -/

theorem testBit_carry (a b p : Nat) :
    ((a ^^^ b) ^^^ (a + b)).testBit p = decide (2 ^ p ≤ a % 2 ^ p + b % 2 ^ p) := by
  have hdiv := @Nat.add_div a b (2 ^ p) (Nat.two_pow_pos p)
  rw [Nat.testBit_xor, Nat.testBit_xor]
  simp only [Nat.testBit_to_div_mod, hdiv]
  rcases Nat.mod_two_eq_zero_or_one (a / 2 ^ p) with ha | ha <;>
    rcases Nat.mod_two_eq_zero_or_one (b / 2 ^ p) with hb | hb <;>
    by_cases h : 2 ^ p ≤ a % 2 ^ p + b % 2 ^ p <;> simp [h, ha, hb, Nat.add_mod]

theorem getLsbD_carry {B P : BitVec 32} {p : Nat} (hp : p < 32) :
    ((B ^^^ P) ^^^ (B + P)).getLsbD p = decide (2 ^ p ≤ B.toNat % 2 ^ p + P.toNat % 2 ^ p) := by
  rw [← BitVec.testBit_toNat, BitVec.toNat_xor, BitVec.toNat_xor, BitVec.toNat_add,
    Nat.testBit_xor, Nat.testBit_xor, Nat.testBit_mod_two_pow, decide_eq_true hp, Bool.true_and,
    ← Nat.testBit_xor, ← Nat.testBit_xor, testBit_carry]

theorem noCarry_of_and_eq_zero {B P : BitVec 32} {p : Nat} (hp : p < 32)
    (hM : OVERFLOW_BITS_MASK.getLsbD p) (h : ((B ^^^ P) ^^^ (B + P)) &&& OVERFLOW_BITS_MASK = 0) :
    B.toNat % 2 ^ p + P.toNat % 2 ^ p < 2 ^ p := by
  have := congrArg (BitVec.getLsbD · p) h
  simpa only [BitVec.getLsbD_and, getLsbD_carry hp, hM, Bool.and_true, BitVec.ofNat_eq_ofNat,
    BitVec.getLsbD_zero, decide_eq_false_iff_not, not_le] using this

theorem noCarry_members {B P : BitVec 32}
    (h : ((B ^^^ P) ^^^ (B + P)) &&& OVERFLOW_BITS_MASK = 0) :
    ∀ m ∈ [2, 8, 64, 1024, 32768, 1048576, 16777216],
      B.toNat % (32 * m) + P.toNat % (32 * m) < 32 * m := by
  have hc : ∀ p, p < 32 → (3792734561 : Nat).testBit p →
      B.toNat % 2 ^ p + P.toNat % 2 ^ p < 2 ^ p := fun p hp hb =>
    noCarry_of_and_eq_zero hp (by simpa [OVERFLOW_BITS_MASK_eq, BitVec.getLsbD_ofNat, hp] using hb) h
  simp only [List.mem_cons, List.not_mem_nil, or_false, forall_eq_or_imp, forall_eq]
  exact ⟨hc 6 (by decide) (by decide), hc 8 (by decide) (by decide), hc 11 (by decide) (by decide),
    hc 15 (by decide) (by decide), hc 20 (by decide) (by decide), hc 25 (by decide) (by decide),
    hc 29 (by decide) (by decide)⟩

theorem mul_32_add_mod {K N m : Nat} (hN : N < 32) (hm : 0 < m) :
    (32 * K + N) % (32 * m) = 32 * (K % m) + N := by
  have hK := Nat.mod_lt K hm
  rw [Nat.add_mod, Nat.mul_mod_mul_left, Nat.mod_eq_of_lt (by omega : N < 32 * m),
    Nat.mod_eq_of_lt (by omega)]

theorem lookUpKey_mod {a b c d e f g : Nat} (hf : Fits [a, b, c, d, e, f, g]) :
    lookUpKey [a, b, c, d, e, f, g] % 2 = a ∧
      lookUpKey [a, b, c, d, e, f, g] % 8 = a + 2 * b ∧
      lookUpKey [a, b, c, d, e, f, g] % 64 = a + 2 * b + 8 * c ∧
      lookUpKey [a, b, c, d, e, f, g] % 1024 = a + 2 * b + 8 * c + 64 * d ∧
      lookUpKey [a, b, c, d, e, f, g] % 32768 = a + 2 * b + 8 * c + 64 * d + 1024 * e ∧
      lookUpKey [a, b, c, d, e, f, g] % 1048576 =
        a + 2 * b + 8 * c + 64 * d + 1024 * e + 32768 * f ∧
      lookUpKey [a, b, c, d, e, f, g] % 16777216 = lookUpKey [a, b, c, d, e, f, g] := by
  simp only [fits_iff, lookUpKey_eq] at hf ⊢
  refine ⟨?_, ?_, ?_, ?_, ?_, ?_, ?_⟩ <;> omega

theorem fits_add_of_noCarry {a b c d e f g a' b' c' d' e' f' g' : Nat}
    (hf₁ : Fits [a, b, c, d, e, f, g]) (hf₂ : Fits [a', b', c', d', e', f', g'])
    (hkey : ∀ m ∈ [2, 8, 64, 1024, 32768, 1048576, 16777216],
      lookUpKey [a, b, c, d, e, f, g] % m + lookUpKey [a', b', c', d', e', f', g'] % m < m) :
    Fits [a + a', b + b', c + c', d + d', e + e', f + f', g + g'] := by
  obtain ⟨k₁, k₂, k₃, k₄, k₅, k₆, k₇⟩ := lookUpKey_mod hf₁
  obtain ⟨k₁', k₂', k₃', k₄', k₅', k₆', k₇'⟩ := lookUpKey_mod hf₂
  simp only [List.mem_cons, List.not_mem_nil, or_false, forall_eq_or_imp, forall_eq] at hkey
  rw [k₁, k₁', k₂, k₂', k₃, k₃', k₄, k₄', k₅, k₅', k₆, k₆', k₇, k₇', lookUpKey_eq, lookUpKey_eq]
    at hkey
  clear k₁ k₂ k₃ k₄ k₅ k₆ k₇ k₁' k₂' k₃' k₄' k₅' k₆' k₇'
  simp only [fits_iff] at hf₁ hf₂ ⊢
  omega

/-- **Two fitting histograms whose sum carries into no member add up to a fitting histogram.** -/
theorem fits_append_of_noCarry {l₁ l₂ : List Nat} (hl : ∀ x ∈ l₁ ++ l₂, x < 8)
    (hlen : (l₁ ++ l₂).length < 32) (hf₁ : Fits (histogramOf l₁)) (hf₂ : Fits (histogramOf l₂))
    (hc : ∀ m ∈ [2, 8, 64, 1024, 32768, 1048576, 16777216],
      histogramSum l₁ % (32 * m) + histogramSum l₂ % (32 * m) < 32 * m) :
    Fits (histogramOf (l₁ ++ l₂)) := by
  have hl₁ : ∀ x ∈ l₁, x < 8 := fun x hx => hl x (List.mem_append_left _ hx)
  have hl₂ : ∀ x ∈ l₂, x < 8 := fun x hx => hl x (List.mem_append_right _ hx)
  have hN := congrArg₂ (· + ·) (sum_histogramOf_add_count_zero hl₁)
    (sum_histogramOf_add_count_zero hl₂)
  simp only [List.length_append] at hlen hN
  have hkey : ∀ m ∈ [2, 8, 64, 1024, 32768, 1048576, 16777216],
      lookUpKey (histogramOf l₁) % m + lookUpKey (histogramOf l₂) % m < m := by
    intro m hm
    have := hc m hm
    rw [histogramSum_eq hl₁, histogramSum_eq hl₂, mul_32_add_mod (by omega) (by simp at hm; omega),
      mul_32_add_mod (by omega) (by simp at hm; omega)] at this
    omega
  rw [histogramOf_eq] at hf₁ hkey
  rw [histogramOf_eq] at hf₂ hkey
  simpa only [histogramOf_eq, List.count_append] using fits_add_of_noCarry hf₁ hf₂ hkey

/-! ## The chunk loop -/

/-- One round of the chunk loop of `checkPrecode`, on the partial histogram it adds. -/
def addPartialHistogram (state : BitVec 32 × BitVec 32 × BitVec 32)
    (partialHistogram : BitVec 32) : BitVec 32 × BitVec 32 × BitVec 32 :=
  let (bitLengthFrequencies, overflowsInSum, overflowsInLUT) := state
  let carrylessSum := bitLengthFrequencies ^^^ partialHistogram
  let bitLengthFrequencies := bitLengthFrequencies + partialHistogram
  (bitLengthFrequencies, overflowsInSum ||| (carrylessSum ^^^ bitLengthFrequencies),
    overflowsInLUT ||| partialHistogram)

/-- The table index of chunk `chunk` of the precode bits, as `checkPrecodeChunk` computes it. -/
def precodeChunk (precodeBits : BitVec 64) (chunk : Nat) : Nat :=
  (if chunk ≠ CHUNK_COUNT - 1 then
    (precodeBits >>> (chunk * CACHED_BITS)) &&& nLowestBitsSet 64 CACHED_BITS
  else precodeBits >>> (chunk * CACHED_BITS)).toNat

theorem checkPrecodeChunk_eq (precodeBits : BitVec 64) (state : BitVec 32 × BitVec 32 × BitVec 32)
    (chunk : Nat) :
    checkPrecodeChunk precodeBits state chunk =
      addPartialHistogram state (PRECODE_X4_TO_HISTOGRAM_LUT (precodeChunk precodeBits chunk)) :=
  rfl

theorem foldl_addPartialHistogram_or : ∀ (partials : List (BitVec 32))
    (state : BitVec 32 × BitVec 32 × BitVec 32),
    ∃ t u, (partials.foldl addPartialHistogram state).2.1 = state.2.1 ||| t ∧
      (partials.foldl addPartialHistogram state).2.2 = state.2.2 ||| u
  | [], state => ⟨0, 0, by simp, by simp⟩
  | P :: partials, ⟨B, OS, OL⟩ => by
    obtain ⟨t, u, ht, hu⟩ := foldl_addPartialHistogram_or partials (addPartialHistogram (B, OS, OL) P)
    exact ⟨_, _, by rw [List.foldl_cons, ht, addPartialHistogram, BitVec.or_assoc],
      by rw [List.foldl_cons, hu, addPartialHistogram, BitVec.or_assoc]⟩

theorem and_eq_zero_of_or_and_eq_zero {x t M : BitVec 32} (h : (x ||| t) &&& M = 0) :
    x &&& M = 0 := by
  ext i
  have := congrArg (BitVec.getLsbD · i) h
  simp only [BitVec.getLsbD_and, BitVec.getLsbD_or, BitVec.ofNat_eq_ofNat, BitVec.getLsbD_zero]
    at this ⊢
  revert this
  cases x.getLsbD i <;> cases t.getLsbD i <;> cases M.getLsbD i <;> simp

/-- **Below the overflow bits, the sum of the partial histograms is the unbounded sum of all the
lengths.** -/
theorem foldl_addPartialHistogram_mod : ∀ (chunks : List (List Nat))
    (state : BitVec 32 × BitVec 32 × BitVec 32),
    ((chunks.map fun chunk => BitVec.ofNat 32 (lutHistogram chunk)).foldl addPartialHistogram
        state).1.toNat % 2 ^ 29 = (state.1.toNat + histogramSum chunks.flatten) % 2 ^ 29
  | [], state => by simp
  | chunk :: chunks, ⟨B, OS, OL⟩ => by
    rw [List.map_cons, List.foldl_cons, foldl_addPartialHistogram_mod chunks]
    simp only [addPartialHistogram, BitVec.toNat_add, BitVec.toNat_ofNat, lutHistogram,
      OVERFLOW_MEMBER_OFFSET_eq, List.flatten_cons, histogramSum_append]
    split_ifs <;> omega

theorem fits_of_and_eq_zero {chunk : List Nat} (hl : ∀ x ∈ chunk, x < 8) (hlen : chunk.length ≤ 4)
    (h : BitVec.ofNat 32 (lutHistogram chunk) &&& ~~~0#32 <<< OVERFLOW_MEMBER_OFFSET = 0) :
    Fits (histogramOf chunk) ∧ (BitVec.ofNat 32 (lutHistogram chunk)).toNat = histogramSum chunk := by
  have hS : histogramSum chunk < 2 ^ 29 := by
    have := sum_histogramOf_add_count_zero hl
    rw [histogramOf_eq] at this
    simp only [List.sum_cons, List.sum_nil] at this
    rw [histogramSum_eq_counts hl]
    omega
  have hbit := congrArg (BitVec.getLsbD · 29) h
  by_cases hf : Fits (histogramOf chunk)
  · refine ⟨hf, ?_⟩
    rw [lutHistogram, if_pos hf, Nat.add_zero, BitVec.toNat_ofNat, Nat.mod_eq_of_lt (by omega)]
  · exfalso
    have : lutHistogram chunk = 2 ^ 29 * 1 + histogramSum chunk := by
      rw [lutHistogram, if_neg hf, OVERFLOW_MEMBER_OFFSET_eq]; omega
    simp only [this, BitVec.getLsbD_and, BitVec.getLsbD_ofNat, Nat.testBit_mul_pow_two_add _ hS,
      OVERFLOW_MEMBER_OFFSET_eq, BitVec.getLsbD_not, BitVec.getLsbD_shiftLeft,
      BitVec.ofNat_eq_ofNat, BitVec.getLsbD_zero] at hbit
    simp at hbit

/-- **While no overflow is caught, the sum of the partial histograms is the unbounded sum of all
the lengths, and their counts fit.** -/
theorem foldl_addPartialHistogram_of_noOverflow : ∀ (chunks : List (List Nat)) (L : List Nat)
    (state : BitVec 32 × BitVec 32 × BitVec 32),
    (∀ chunk ∈ chunks, chunk.length ≤ 4) → (∀ x ∈ L ++ chunks.flatten, x < 8) →
    (L ++ chunks.flatten).length < 32 → state.1.toNat = histogramSum L → Fits (histogramOf L) →
    ((chunks.map fun chunk => BitVec.ofNat 32 (lutHistogram chunk)).foldl addPartialHistogram
      state).2.1 &&& OVERFLOW_BITS_MASK = 0 →
    ((chunks.map fun chunk => BitVec.ofNat 32 (lutHistogram chunk)).foldl addPartialHistogram
      state).2.2 &&& ~~~0#32 <<< OVERFLOW_MEMBER_OFFSET = 0 →
    ((chunks.map fun chunk => BitVec.ofNat 32 (lutHistogram chunk)).foldl addPartialHistogram
      state).1.toNat = histogramSum (L ++ chunks.flatten) ∧
      Fits (histogramOf (L ++ chunks.flatten))
  | [], L, state, _, _, _, hB, hf, _, _ => by simpa using ⟨hB, hf⟩
  | chunk :: chunks, L, ⟨B, OS, OL⟩, hlen4, hl, hlen, hB, hf, hOS, hOL => by
    rw [List.map_cons, List.foldl_cons] at hOS hOL ⊢
    obtain ⟨t, u, ht, hu⟩ := foldl_addPartialHistogram_or
      (chunks.map fun chunk => BitVec.ofNat 32 (lutHistogram chunk))
      (addPartialHistogram (B, OS, OL) (BitVec.ofNat 32 (lutHistogram chunk)))
    have hcarry := and_eq_zero_of_or_and_eq_zero
      (by rw [BitVec.or_comm]; exact and_eq_zero_of_or_and_eq_zero (ht ▸ hOS))
    have hP := and_eq_zero_of_or_and_eq_zero
      (by rw [BitVec.or_comm]; exact and_eq_zero_of_or_and_eq_zero (hu ▸ hOL))
    simp only [List.flatten_cons, ← List.append_assoc] at hl hlen ⊢
    have hl' : ∀ x ∈ L ++ chunk, x < 8 := fun x hx => hl x (List.mem_append_left _ hx)
    have hlen' : (L ++ chunk).length < 32 := by
      have := List.length_append (L ++ chunk) chunks.flatten; omega
    obtain ⟨hfc, hPnat⟩ := fits_of_and_eq_zero (fun x hx => hl' x (List.mem_append_right _ hx))
      (hlen4 chunk (List.mem_cons_self _ _)) hP
    have hc := noCarry_members hcarry
    rw [hB, hPnat] at hc
    refine foldl_addPartialHistogram_of_noOverflow chunks (L ++ chunk) _
      (fun c hc => hlen4 c (List.mem_cons_of_mem _ hc)) hl hlen ?_
      (fits_append_of_noCarry hl' hlen' hf hfc hc) hOS hOL
    have hlt : histogramSum (L ++ chunk) < 2 ^ 32 := by
      rw [histogramSum_eq hl']
      have := lookUpKey_lt (by simp [histogramOf]) (fits_append_of_noCarry hl' hlen' hf hfc hc)
      have := sum_histogramOf_add_count_zero hl'
      omega
    simp only [addPartialHistogram, BitVec.toNat_add, hB, hPnat, ← histogramSum_append]
    exact Nat.mod_eq_of_lt hlt

/-! ## The special cases -/

theorem POWER_OF_TWO_SPECIAL_CASES_toNat : ∀ N ≤ 19,
    (POWER_OF_TWO_SPECIAL_CASES N).toNat = 2 ^ 32 - 1 ∨
      N = 1 ∧ (POWER_OF_TWO_SPECIAL_CASES N).toNat = 1 ∨
      N = 2 ∧ (POWER_OF_TWO_SPECIAL_CASES N).toNat = 2 ∨
      N = 4 ∧ (POWER_OF_TWO_SPECIAL_CASES N).toNat = 8 ∨
      N = 8 ∧ (POWER_OF_TWO_SPECIAL_CASES N).toNat = 64 ∨
      N = 16 ∧ (POWER_OF_TWO_SPECIAL_CASES N).toNat = 1024 ∨
      17 ≤ N ∧ (POWER_OF_TWO_SPECIAL_CASES N).toNat = 0 := by
  decide

theorem POWER_OF_TWO_SPECIAL_CASES_eq_ofNat {N x : Nat} (hN : N ≤ 19) (hx : x < 2 ^ 24)
    (h : POWER_OF_TWO_SPECIAL_CASES N = BitVec.ofNat 32 x) :
    N = 1 ∧ x = 1 ∨ N = 2 ∧ x = 2 ∨ N = 4 ∧ x = 8 ∨ N = 8 ∧ x = 64 ∨ N = 16 ∧ x = 1024 ∨
      17 ≤ N ∧ x = 0 := by
  rw [BitVec.toNat_eq, BitVec.toNat_ofNat, Nat.mod_eq_of_lt (by omega : x < 2 ^ 32)] at h
  rcases POWER_OF_TWO_SPECIAL_CASES_toNat N hN with h' | h' | h' | h' | h' | h' | h' <;>
    rw [h] at h'
  · omega
  · exact .inl h'
  · exact .inr (.inl h')
  · exact .inr (.inr (.inl h'))
  · exact .inr (.inr (.inr (.inl h')))
  · exact .inr (.inr (.inr (.inr (.inl h'))))
  · exact .inr (.inr (.inr (.inr (.inr h'))))

theorem special_counts {a b c d e f g N K : Nat} (hN : a + b + c + d + e + f + g = N)
    (hK : a + 2 * b + 8 * c + 64 * d + 1024 * e + 32768 * f + 1048576 * g = K) (h19 : N ≤ 19)
    (h : N = 1 ∧ K % 2 ^ 24 = 1 ∨ N = 2 ∧ K % 2 ^ 24 = 2 ∨ N = 4 ∧ K % 2 ^ 24 = 8 ∨
      N = 8 ∧ K % 2 ^ 24 = 64 ∨ N = 16 ∧ K % 2 ^ 24 = 1024 ∨ 17 ≤ N ∧ K % 2 ^ 24 = 0) :
    64 * a + 32 * b + 16 * c + 8 * d + 4 * e + 2 * f + g = 128 ∨
      a = 1 ∧ b = 0 ∧ c = 0 ∧ d = 0 ∧ e = 0 ∧ f = 0 ∧ g = 0 := by
  subst hN hK
  rcases Nat.lt_or_ge g 16 with hg | hg
  · -- below sixteen lengths `7` the key is below `2 ^ 24`; `omega` needs the counts of the longer
    -- lengths ruled out one at a time
    rw [Nat.mod_eq_of_lt (by omega)] at h
    rcases h with ⟨h1, h⟩ | ⟨h1, h⟩ | ⟨h1, h⟩ | ⟨h1, h⟩ | ⟨h1, h⟩ | ⟨h1, h⟩
    · right; omega
    · left; omega
    · have : g = 0 := by omega
      have : f = 0 := by omega
      have : e = 0 := by omega
      have : d = 0 := by omega
      left; omega
    · have : g = 0 := by omega
      have : f = 0 := by omega
      have : e = 0 := by omega
      have : d = 0 := by omega
      left; omega
    · have : g = 0 := by omega
      have : f = 0 := by omega
      have : e = 0 := by omega
      left; omega
    · omega
  · -- from sixteen lengths `7` on, the key wraps once, and what is left is no special case
    exfalso
    rw [Nat.mod_eq_sub_mod (by omega), Nat.mod_eq_of_lt (by omega)] at h
    omega

/-- **A histogram of at most nineteen lengths whose nonzero count and low key bits are those of a
special case is complete, or that of the single length `1`.** -/
theorem special_case_sound {H : List Nat} (hH : H.length = 7) (hN : H.sum ≤ 19)
    (h : POWER_OF_TWO_SPECIAL_CASES H.sum = BitVec.ofNat 32 (lookUpKey H % 2 ^ 24)) :
    kraftSum H = 2 ^ 7 ∨ H = [1, 0, 0, 0, 0, 0, 0] := by
  have hcase := POWER_OF_TWO_SPECIAL_CASES_eq_ofNat hN (Nat.mod_lt _ (by decide)) h
  match H, hH with
  | [a, b, c, d, e, f, g], _ =>
    simp only [List.sum_cons, List.sum_nil, Nat.add_zero, lookUpKey_eq, kraftSum_eq,
      List.cons.injEq, and_true] at hN hcase ⊢
    exact special_counts (by ac_rfl) rfl hN hcase

/-! ## Decoding -/

theorem precodeBits_toNat {next4Bits : BitVec 64} (next57Bits : BitVec 64)
    (h4 : next4Bits.toNat < 16) :
    (next57Bits &&& nLowestBitsSet 64 ((4 + next4Bits) * BitVec.ofNat 64 PRECODE_BITS).toNat).toNat =
      next57Bits.toNat % 2 ^ (3 * (4 + next4Bits.toNat)) := by
  have hcount : ((4 + next4Bits) * BitVec.ofNat 64 PRECODE_BITS).toNat = 3 * (4 + next4Bits.toNat) := by
    simp only [BitVec.toNat_mul, BitVec.toNat_add, BitVec.ofNat_eq_ofNat, BitVec.toNat_ofNat,
      PRECODE_BITS]
    omega
  have hmask : (2 ^ (3 * (4 + next4Bits.toNat)) - 1) % 2 ^ 64 = 2 ^ (3 * (4 + next4Bits.toNat)) - 1 :=
    Nat.mod_eq_of_lt (lt_of_lt_of_le (Nat.sub_lt (Nat.two_pow_pos _) one_pos)
      (Nat.pow_le_pow_right two_pos (by omega)))
  rw [hcount, BitVec.toNat_and, nLowestBitsSet, BitVec.toNat_ofNat, hmask,
    Nat.and_pow_two_sub_one_eq_mod]

theorem precodeChunk_eq {precodeBits : BitVec 64} (h : precodeBits.toNat < 2 ^ 57) {chunk : Nat}
    (hc : chunk < 5) : precodeChunk precodeBits chunk = precodeBits.toNat >>> (chunk * 12) % 2 ^ 12 := by
  rw [precodeChunk, show CHUNK_COUNT - 1 = 4 from rfl, show CACHED_BITS = 12 from rfl]
  split_ifs with h4
  · rw [BitVec.toNat_and, BitVec.toNat_ushiftRight, nLowestBitsSet, BitVec.toNat_ofNat,
      show (2 ^ 12 - 1) % 2 ^ 64 = 2 ^ 12 - 1 from rfl, Nat.and_pow_two_sub_one_eq_mod]
  · have h4 : chunk = 4 := by omega
    subst h4
    rw [BitVec.toNat_ushiftRight, Nat.shiftRight_eq_div_pow, Nat.mod_eq_of_lt]
    exact Nat.div_lt_of_lt_mul (by omega)

theorem foldl_checkPrecodeChunk {precodeBits : BitVec 64} (h : precodeBits.toNat < 2 ^ 57) :
    (List.range CHUNK_COUNT).foldl (checkPrecodeChunk precodeBits) (0, 0, 0) =
      (((List.range 5).map fun chunk => codeLengths (precodeBits.toNat >>> (chunk * 12)) 4).map
        fun lengths => BitVec.ofNat 32 (lutHistogram lengths)).foldl addPartialHistogram (0, 0, 0) := by
  rw [List.map_map, List.foldl_map, show CHUNK_COUNT = 5 from rfl]
  refine List.foldl_ext _ _ _ fun state chunk hc => ?_
  rw [checkPrecodeChunk_eq, PRECODE_X4_TO_HISTOGRAM_LUT_eq, precodeChunk_eq h (List.mem_range.1 hc),
    codeLengths_mod _ _ _ (by decide)]
  rfl

theorem flatten_chunks (x n : Nat) :
    ((List.range n).map fun chunk => codeLengths (x >>> (chunk * 12)) 4).flatten =
      codeLengths x (4 * n) := by
  induction n with
  | zero => rfl
  | succ n ih =>
    rw [List.range_succ, List.map_append, List.flatten_append, ih, Nat.mul_succ, codeLengths_add,
      List.map_singleton, List.flatten_singleton, PRECODE_BITS, show 4 * n * 3 = n * 12 by omega]

/-! ## The two accepting branches -/

section Branches

variable {L : List Nat} {B : BitVec 32} (hL8 : ∀ x ∈ L, x < 8) (hN : (histogramOf L).sum ≤ 19)
  (hmod : B.toNat % 2 ^ 29 = histogramSum L % 2 ^ 29)
include hL8 hN hmod

theorem nonZeroCount_toNat : (B &&& nLowestBitsSet 32 5).toNat = (histogramOf L).sum := by
  rw [BitVec.toNat_and, nLowestBitsSet, BitVec.toNat_ofNat, show (2 ^ 5 - 1) % 2 ^ 32 = 2 ^ 5 - 1
    from rfl, Nat.and_pow_two_sub_one_eq_mod, ← Nat.mod_mod_of_dvd B.toNat
    (show 2 ^ 5 ∣ 2 ^ 29 from Nat.pow_dvd_pow 2 (by decide)), hmod, histogramSum_eq hL8]
  omega

theorem histogramToLookUp_toNat :
    (B >>> 5 &&& nLowestBitsSet 32 HISTOGRAM_TO_LOOK_UP_BITS).toNat =
      lookUpKey (histogramOf L) % 2 ^ 24 := by
  rw [HISTOGRAM_TO_LOOK_UP_BITS_eq, BitVec.toNat_and, BitVec.toNat_ushiftRight, nLowestBitsSet,
    BitVec.toNat_ofNat, show (2 ^ 24 - 1) % 2 ^ 32 = 2 ^ 24 - 1 from rfl,
    Nat.and_pow_two_sub_one_eq_mod, Nat.shiftRight_eq_div_pow, ← Nat.mod_mul_right_div_self,
    show 2 ^ 5 * 2 ^ 24 = 2 ^ 29 from rfl, hmod, histogramSum_eq hL8]
  omega

/-- **The table branch, reached with fitting counts and no carry, accepts only a complete
histogram.** -/
theorem validTable_branch (hfits : Fits (histogramOf L))
    (h : PRECODE_HISTOGRAM_VALID_LUT
        ((B >>> 5 &&& nLowestBitsSet 32 HISTOGRAM_TO_LOOK_UP_BITS).toNat / 64 &&&
          2 ^ (HISTOGRAM_TO_LOOK_UP_BITS - 6) - 1) &&&
        1#64 <<< ((B >>> 5 &&& nLowestBitsSet 32 HISTOGRAM_TO_LOOK_UP_BITS).toNat % 64) ≠ 0) :
    kraftSum (histogramOf L) = 2 ^ 7 := by
  have hH7 : (histogramOf L).length = 7 := by simp [histogramOf]
  have hK := lookUpKey_lt hH7 hfits
  rw [histogramToLookUp_toNat hL8 hN hmod, Nat.mod_eq_of_lt hK, HISTOGRAM_TO_LOOK_UP_BITS_eq,
    show 2 ^ (24 - 6) - 1 = 2 ^ 18 - 1 from rfl, Nat.and_pow_two_sub_one_eq_mod,
    Nat.mod_eq_of_lt (by omega)] at h
  obtain ⟨V, hV, hVfits, hVkraft, hVkey⟩ :=
    PRECODE_HISTOGRAM_VALID_LUT_sound (getLsbD_of_and_shiftLeft_ne_zero h)
  exact eq_of_lookUpKey_eq hV hH7 hVfits hfits hVkey ▸ hVkraft

end Branches

end Pragzip.PrecodeCheck
