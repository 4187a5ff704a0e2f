import Pragzip.PrecodeCheck.Model

/-!
# Precode check — the packed histogram

What the packed histogram of `checkPrecode` holds. Counting a code length adds one to the nonzero
count and one to the member of the length. While every count fits its member, the packed word is
the plain sum of these, and its members read back the counts; `calculateHistogram` builds that sum
and sets the lowest overflow bit as soon as a count outgrows its member.

* `codeLengths`, `histogramOf`, `Fits`, `lookUpKey`, `histogramSum`: the code lengths of a bit
  string, the counts of the lengths `1, …, 7`, that they fit their members, the counts as
  `checkPrecode` looks them up, and the unbounded sum;
* `histogramSum_eq`: the sum is the key above the nonzero count;
* `getCount_histogramSum`: a member of a fitting histogram reads its count;
* `write_field`, `or_two_pow_of_lt`: the bit operations on the packed word as arithmetic;
* **`PRECODE_X4_TO_HISTOGRAM_LUT_eq`**: entry `i` of the table is the sum of the four lengths of
  `i`, with the lowest overflow bit set exactly when a count does not fit its member.
-/

namespace Pragzip.PrecodeCheck

/-! ## The layout -/

theorem MEMBER_OFFSETS_eq : MEMBER_OFFSETS = [0, 5, 6, 8, 11, 15, 20, 25] := by decide

theorem OVERFLOW_MEMBER_OFFSET_eq : OVERFLOW_MEMBER_OFFSET = 29 := by decide

theorem HISTOGRAM_TO_LOOK_UP_BITS_eq : HISTOGRAM_TO_LOOK_UP_BITS = 24 := by decide

theorem OVERFLOW_BITS_MASK_eq : OVERFLOW_BITS_MASK = 3792734561#32 := by decide

/-! ## Histograms -/

/-- The first `count` code lengths of `PRECODE_BITS` bits in `bits`, the first one lowest, as
`calculateHistogram` reads them. -/
def codeLengths (bits count : Nat) : List Nat :=
  (List.range count).map fun i => (bits >>> (i * PRECODE_BITS)) &&& (2 ^ PRECODE_BITS - 1)

/-- The counts of the code lengths `1, …, 7` among `lengths`. -/
def histogramOf (lengths : List Nat) : List Nat :=
  (List.range 7).map fun i => lengths.count (i + 1)

/-- Every count of the histogram fits its member. -/
def Fits (histogram : List Nat) : Prop :=
  ∀ i < 7, histogram.getD i 0 < 2 ^ MEMBER_BIT_WIDTHS.getD (i + 1) 0

instance : DecidablePred Fits := fun _ => Nat.decidableBallLT _ _

/-- The members of the counts of the lengths `1, …, 7` read as one number: a packed histogram
without its nonzero count, as `checkPrecode` looks it up. -/
def lookUpKey (histogram : List Nat) : Nat :=
  ((List.range 7).map fun i =>
    histogram.getD i 0 * 2 ^ (MEMBER_OFFSETS.getD (i + 1) 0 - MEMBER_BIT_WIDTHS.getD 0 0)).sum

/-- What counting one code length adds to the packed histogram: one to the nonzero count and one
to the member of the length. -/
def lengthWeight (length : Nat) : Nat :=
  if length = 0 then 0 else 2 ^ MEMBER_OFFSETS.getD length 0 + 1

/-- The packed histogram of `lengths` as an unbounded sum. -/
def histogramSum (lengths : List Nat) : Nat := (lengths.map lengthWeight).sum

theorem codeLengths_lt (bits count : Nat) : ∀ x ∈ codeLengths bits count, x < 8 := by
  simp only [codeLengths, List.mem_map]
  rintro x ⟨i, -, rfl⟩
  exact Nat.lt_of_le_of_lt Nat.and_le_right (by decide)

theorem codeLengths_mod (x count k : Nat) (h : count * PRECODE_BITS ≤ k) :
    codeLengths (x % 2 ^ k) count = codeLengths x count := by
  simp only [codeLengths, PRECODE_BITS, Nat.shiftRight_eq_div_pow] at h ⊢
  refine List.map_congr_left fun i hi => ?_
  have hi := List.mem_range.1 hi
  have h3 : 3 ≤ k - i * 3 := by
    have := Nat.mul_le_mul_right 3 hi
    omega
  rw [show (2 ^ 3 - 1 : Nat) = 2 ^ 3 - 1 from rfl, Nat.and_pow_two_sub_one_eq_mod,
    Nat.and_pow_two_sub_one_eq_mod, show k = i * 3 + (k - i * 3) by omega, Nat.pow_add,
    Nat.mod_mul_right_div_self, Nat.mod_mod_of_dvd]
  exact Nat.pow_dvd_pow 2 h3

theorem codeLengths_add (x a b : Nat) :
    codeLengths x (a + b) = codeLengths x a ++ codeLengths (x >>> (a * PRECODE_BITS)) b := by
  simp only [codeLengths, List.range_add, List.map_append, List.map_map]
  congr 1
  refine List.map_congr_left fun j _ => ?_
  simp only [Function.comp, ← Nat.shiftRight_add, Nat.add_mul]

theorem codeLengths_zero (count : Nat) : codeLengths 0 count = List.replicate count 0 := by
  simp [codeLengths]

theorem codeLengths_mod_add (x n m : Nat) :
    codeLengths (x % 2 ^ (3 * n)) (n + m) = codeLengths x n ++ List.replicate m 0 := by
  have hlt : x % 2 ^ (3 * n) < 2 ^ (n * PRECODE_BITS) := by
    rw [PRECODE_BITS, Nat.mul_comm]; exact Nat.mod_lt _ (Nat.two_pow_pos _)
  rw [codeLengths_add, codeLengths_mod _ _ _ (by simp [PRECODE_BITS, Nat.mul_comm]),
    Nat.shiftRight_eq_div_pow, Nat.div_eq_of_lt hlt, codeLengths_zero]

theorem histogramOf_eq (l : List Nat) :
    histogramOf l = [l.count 1, l.count 2, l.count 3, l.count 4, l.count 5, l.count 6, l.count 7] := by
  simp [histogramOf, List.range_succ]

@[simp] theorem fits_iff {a b c d e f g : Nat} :
    Fits [a, b, c, d, e, f, g] ↔ a < 2 ∧ b < 4 ∧ c < 8 ∧ d < 16 ∧ e < 32 ∧ f < 32 ∧ g < 16 := by
  constructor
  · intro h
    exact ⟨h 0 (by decide), h 1 (by decide), h 2 (by decide), h 3 (by decide), h 4 (by decide),
      h 5 (by decide), h 6 (by decide)⟩
  · rintro ⟨ha, hb, hc, hd, he, hf, hg⟩ i hi
    interval_cases i <;> assumption

@[simp] theorem lookUpKey_eq {a b c d e f g : Nat} :
    lookUpKey [a, b, c, d, e, f, g] =
      a + 2 * b + 8 * c + 64 * d + 1024 * e + 32768 * f + 1048576 * g := by
  simp [lookUpKey, List.range_succ, MEMBER_OFFSETS_eq, MEMBER_BIT_WIDTHS]
  omega

@[simp] theorem kraftSum_eq {a b c d e f g : Nat} :
    kraftSum [a, b, c, d, e, f, g] = 64 * a + 32 * b + 16 * c + 8 * d + 4 * e + 2 * f + g := by
  simp [kraftSum, List.range_succ]
  omega

theorem eq_of_lookUpKey_eq {H₁ H₂ : List Nat} (h₁ : H₁.length = 7) (h₂ : H₂.length = 7)
    (hf₁ : Fits H₁) (hf₂ : Fits H₂) (hk : lookUpKey H₁ = lookUpKey H₂) : H₁ = H₂ := by
  match H₁, H₂, h₁, h₂ with
  | [a, b, c, d, e, f, g], [a', b', c', d', e', f', g'], _, _ =>
    simp only [fits_iff, lookUpKey_eq] at hf₁ hf₂ hk
    simp only [List.cons.injEq, and_true]
    omega

theorem lookUpKey_lt {H : List Nat} (h : H.length = 7) (hf : Fits H) : lookUpKey H < 2 ^ 24 := by
  match H, h with
  | [a, b, c, d, e, f, g], _ =>
    simp only [fits_iff, lookUpKey_eq] at hf ⊢
    omega

theorem lookUpKey_read {H : List Nat} (h : H.length = 7) (hf : Fits H) {v : Nat} (h0 : 0 < v)
    (hv : v < 8) :
    lookUpKey H / 2 ^ (MEMBER_OFFSETS.getD v 0 - 5) % 2 ^ MEMBER_BIT_WIDTHS.getD v 0 =
      H.getD (v - 1) 0 := by
  match H, h with
  | [a, b, c, d, e, f, g], _ =>
    simp only [fits_iff, lookUpKey_eq] at hf ⊢
    interval_cases v <;> simp [MEMBER_OFFSETS_eq, MEMBER_BIT_WIDTHS] <;> omega

/-! ## The unbounded sum -/

@[simp] theorem histogramSum_nil : histogramSum [] = 0 := rfl

@[simp] theorem histogramSum_append (l₁ l₂ : List Nat) :
    histogramSum (l₁ ++ l₂) = histogramSum l₁ + histogramSum l₂ := by
  simp [histogramSum]

theorem histogramSum_cons (x : Nat) (l : List Nat) :
    histogramSum (x :: l) = lengthWeight x + histogramSum l := by
  simp [histogramSum]

theorem histogramSum_eq_counts {l : List Nat} (hl : ∀ x ∈ l, x < 8) :
    histogramSum l = 33 * l.count 1 + 65 * l.count 2 + 257 * l.count 3 + 2049 * l.count 4 +
      32769 * l.count 5 + 1048577 * l.count 6 + 33554433 * l.count 7 := by
  induction l with
  | nil => rfl
  | cons x l ih =>
    rw [histogramSum_cons, ih fun y hy => hl y (List.mem_cons_of_mem x hy)]
    have hx := hl x (List.mem_cons_self x l)
    simp only [List.count_cons, lengthWeight, MEMBER_OFFSETS_eq, beq_iff_eq]
    interval_cases x <;> simp <;> omega

/-- **The unbounded sum is the key above the nonzero count.** -/
theorem histogramSum_eq {l : List Nat} (hl : ∀ x ∈ l, x < 8) :
    histogramSum l = 32 * lookUpKey (histogramOf l) + (histogramOf l).sum := by
  rw [histogramSum_eq_counts hl, histogramOf_eq, lookUpKey_eq]
  simp only [List.sum_cons, List.sum_nil]
  omega

theorem sum_histogramOf_add_count_zero {l : List Nat} (hl : ∀ x ∈ l, x < 8) :
    (histogramOf l).sum + l.count 0 = l.length := by
  induction l with
  | nil => rfl
  | cons x l ih =>
    have hx := hl x (List.mem_cons_self x l)
    have := ih fun y hy => hl y (List.mem_cons_of_mem x hy)
    simp only [histogramOf_eq, List.sum_cons, List.sum_nil, List.count_cons, List.length_cons,
      beq_iff_eq] at this ⊢
    interval_cases x <;> simp <;> omega

@[simp] theorem histogramOf_append_replicate_zero (l : List Nat) (m : Nat) :
    histogramOf (l ++ List.replicate m 0) = histogramOf l := by
  simp [histogramOf_eq, List.count_append, List.count_replicate]

@[simp] theorem histogramSum_replicate_zero (m : Nat) : histogramSum (List.replicate m 0) = 0 := by
  simp [histogramSum, lengthWeight]

/-! ## Bit operations as arithmetic -/

theorem write_field {x : BitVec 32} {o w c lo hi : Nat} (hlo : lo < 2 ^ o) (hc : c < 2 ^ w)
    (hx : x.toNat = 2 ^ (o + w) * hi + lo) :
    (x &&& ~~~(BitVec.ofNat 32 (2 ^ w - 1) <<< o)) ||| BitVec.ofNat 32 c <<< o =
      BitVec.ofNat 32 (2 ^ (o + w) * hi + (2 ^ o * c + lo)) := by
  have hlow : 2 ^ o * c + lo < 2 ^ (o + w) := by
    rw [Nat.pow_add]
    calc 2 ^ o * c + lo < 2 ^ o * c + 2 ^ o := by omega
      _ = 2 ^ o * (c + 1) := (Nat.mul_succ _ _).symm
      _ ≤ 2 ^ o * 2 ^ w := Nat.mul_le_mul_left _ hc
  have hlo' : lo < 2 ^ (o + w) := lt_of_le_of_lt (Nat.le_add_left _ _) hlow
  ext i
  have hxi : x.getLsbD i = (2 ^ (o + w) * hi + lo).testBit i := by rw [← hx]; rfl
  simp only [BitVec.getLsbD_or, BitVec.getLsbD_and, BitVec.getLsbD_not, BitVec.getLsbD_shiftLeft,
    BitVec.getLsbD_ofNat, hxi, Nat.testBit_mul_pow_two_add _ hlo',
    Nat.testBit_mul_pow_two_add _ hlow, Nat.testBit_mul_pow_two_add _ hlo,
    Nat.testBit_two_pow_sub_one]
  obtain ⟨i, hi32⟩ := i
  simp only [hi32, decide_True, Bool.true_and]
  rcases Nat.lt_or_ge i o with h₁ | h₁
  · simp [h₁, Nat.lt_add_right w h₁]
  have hloi : lo.testBit i = false :=
    Nat.testBit_lt_two_pow (lt_of_lt_of_le hlo (Nat.pow_le_pow_right two_pos h₁))
  rcases Nat.lt_or_ge i (o + w) with h₂ | h₂
  · simp [h₁, h₂, hloi, show i - o < w by omega, show i - o < 32 by omega]
  · have hci : c.testBit (i - o) = false :=
      Nat.testBit_lt_two_pow (lt_of_lt_of_le hc (Nat.pow_le_pow_right two_pos (by omega)))
    simp [h₁, h₂, hci, show ¬ i < o + w by omega, show ¬ i - o < w by omega]

theorem or_two_pow_of_lt {S p f : Nat} (hS : S < 2 ^ p) (hf : f ≤ 1) :
    (2 ^ p * f + S) ||| 2 ^ p = 2 ^ p * 1 + S := by
  refine Nat.eq_of_testBit_eq fun j => ?_
  rw [Nat.testBit_or, Nat.testBit_mul_pow_two_add _ hS, Nat.testBit_mul_pow_two_add _ hS,
    Nat.testBit_two_pow]
  rcases Nat.lt_trichotomy j p with h | rfl | h
  · simp [h, h.ne']
  · simp
  · have h1 : ∀ g, g ≤ 1 → Nat.testBit g (j - p) = false := fun g hg =>
      Nat.testBit_lt_two_pow (lt_of_le_of_lt hg (Nat.one_lt_two_pow (by omega)))
    simp [h1 f hf, h1 1 le_rfl, h.ne, show ¬ j < p by omega]

theorem getCount_ofNat (X v : Nat) (hv : v < 8) :
    getCount (BitVec.ofNat 32 X) v =
      X % 2 ^ 32 / 2 ^ MEMBER_OFFSETS.getD v 0 % 2 ^ MEMBER_BIT_WIDTHS.getD v 0 := by
  have hw : 2 ^ MEMBER_BIT_WIDTHS.getD v 0 - 1 < 2 ^ 32 := by
    interval_cases v <;> decide
  simp only [getCount, nLowestBitsSet, BitVec.toNat_and, BitVec.toNat_ushiftRight,
    BitVec.toNat_ofNat, Nat.mod_eq_of_lt hw, Nat.and_pow_two_sub_one_eq_mod,
    Nat.shiftRight_eq_div_pow]

/-- **A member of the sum of fitting counts, with fewer than 32 nonzero lengths, reads the count
of its length.** -/
theorem getCount_histogramSum {l : List Nat} (hl : ∀ x ∈ l, x < 8) (hf : Fits (histogramOf l))
    (hN : (histogramOf l).sum < 32) {v : Nat} (h0 : 0 < v) (hv : v < 8) :
    getCount (BitVec.ofNat 32 (histogramSum l)) v = l.count v := by
  have hlen : (histogramOf l).length = 7 := by simp [histogramOf]
  have hK := lookUpKey_lt hlen hf
  have h5 : MEMBER_OFFSETS.getD v 0 = 5 + (MEMBER_OFFSETS.getD v 0 - 5) := by
    interval_cases v <;> decide
  have hlt : histogramSum l < 2 ^ 32 := by rw [histogramSum_eq hl]; omega
  have hdiv : histogramSum l / 2 ^ 5 = lookUpKey (histogramOf l) := by
    rw [histogramSum_eq hl]; omega
  rw [getCount_ofNat _ _ hv, Nat.mod_eq_of_lt hlt, h5,
    Nat.pow_add, ← Nat.div_div_eq_div_mul, hdiv, lookUpKey_read hlen hf h0 hv]
  simp [histogramOf, show v - 1 < 7 by omega, Nat.sub_add_cancel h0]

/-! ## The table of four lengths -/

/-- What `calculateHistogram` builds from `lengths`: their unbounded sum, with the lowest overflow
bit set when a count does not fit its member. -/
def lutHistogram (lengths : List Nat) : Nat :=
  histogramSum lengths + if Fits (histogramOf lengths) then 0 else 2 ^ OVERFLOW_MEMBER_OFFSET

/-- The loop body of `calculateHistogram` on one value. -/
def countValue (histogram : BitVec 32) (value : Nat) : BitVec 32 :=
  if value > 0 then incrementCount histogram value + 1 else histogram

theorem calculateHistogram_eq (count bits : Nat) :
    calculateHistogram PRECODE_BITS count bits = (codeLengths bits count).foldl countValue 0 := by
  simp only [calculateHistogram, codeLengths, List.foldl_map]
  rfl

theorem fits_append_singleton {l : List Nat} {v : Nat} (h0 : 0 < v) (hv : v < 8) :
    Fits (histogramOf (l ++ [v])) ↔
      Fits (histogramOf l) ∧ l.count v + 1 < 2 ^ MEMBER_BIT_WIDTHS.getD v 0 := by
  simp only [histogramOf_eq, fits_iff, List.count_append, List.count_singleton', beq_iff_eq]
  interval_cases v <;> simp [MEMBER_BIT_WIDTHS] <;> omega

theorem countValue_lutHistogram {l : List Nat} {v : Nat} (hl : ∀ x ∈ l, x < 8)
    (hlen : l.length < 4) (hv : v < 8) :
    countValue (BitVec.ofNat 32 (lutHistogram l)) v = BitVec.ofNat 32 (lutHistogram (l ++ [v])) := by
  rcases Nat.eq_zero_or_pos v with rfl | h0
  · simp [countValue, lutHistogram, histogramOf_eq, List.count_append, histogramSum_cons,
      lengthWeight]
  have hN : (histogramOf l).sum ≤ 3 := by have := sum_histogramOf_add_count_zero hl; omega
  have hS : histogramSum l + 2 ^ MEMBER_OFFSETS.getD v 0 + 1 < 2 ^ 29 := by
    have hoff : 2 ^ MEMBER_OFFSETS.getD v 0 ≤ 2 ^ 25 := by interval_cases v <;> decide
    have := histogramSum_eq_counts hl
    simp only [histogramOf_eq, List.sum_cons, List.sum_nil] at hN
    omega
  have hw := @fits_append_singleton l v h0 hv
  have hweight : histogramSum (l ++ [v]) = histogramSum l + (2 ^ MEMBER_OFFSETS.getD v 0 + 1) := by
    simp [histogramSum_cons, lengthWeight, h0.ne']
  have hread : Fits (histogramOf l) → getCount (BitVec.ofNat 32 (lutHistogram l)) v = l.count v :=
    fun hf => by
      rw [lutHistogram, if_pos hf, Nat.add_zero]
      exact getCount_histogramSum hl hf (by omega) h0 hv
  have hflag : ∀ l', lutHistogram l' =
      2 ^ 29 * (if Fits (histogramOf l') then 0 else 1) + histogramSum l' := by
    intro l'; rw [lutHistogram, OVERFLOW_MEMBER_OFFSET_eq]; split_ifs <;> omega
  apply BitVec.eq_of_toNat_eq
  simp only [countValue, if_pos h0, incrementCount]
  split_ifs with hov
  · have hfit : Fits (histogramOf (l ++ [v])) ↔ Fits (histogramOf l) :=
      ⟨fun h => (hw.1 h).1, fun hf => hw.2 ⟨hf, hread hf ▸ hov⟩⟩
    simp only [BitVec.toNat_add, BitVec.ofNat_eq_ofNat, BitVec.toNat_ofNat, BitVec.toNat_shiftLeft,
      Nat.shiftLeft_eq, hflag, hfit, hweight]
    split_ifs <;> omega
  · have hfit : ¬ Fits (histogramOf (l ++ [v])) := fun h =>
      hov ((hread (hw.1 h).1).symm ▸ (hw.1 h).2)
    have hf1 : (if Fits (histogramOf l) then 0 else 1) ≤ 1 := by split_ifs <;> omega
    simp only [BitVec.toNat_add, BitVec.ofNat_eq_ofNat, BitVec.toNat_ofNat, BitVec.toNat_shiftLeft,
      BitVec.toNat_or, Nat.shiftLeft_eq, OVERFLOW_MEMBER_OFFSET_eq, hflag, hfit, hweight, if_false]
    generalize (if Fits (histogramOf l) then 0 else 1) = f at hf1 ⊢
    rw [show ((2 ^ 29 * f + histogramSum l) % 2 ^ 32 + 1 % 2 ^ 32 * 2 ^ MEMBER_OFFSETS.getD v 0 %
        2 ^ 32) % 2 ^ 32 = 2 ^ 29 * f + (histogramSum l + 2 ^ MEMBER_OFFSETS.getD v 0) by omega,
      show 1 % 2 ^ 32 * 2 ^ 29 % 2 ^ 32 = 2 ^ 29 from rfl, or_two_pow_of_lt (by omega) hf1]
    omega

theorem foldl_countValue {l rest : List Nat} (hl : ∀ x ∈ l ++ rest, x < 8)
    (hlen : (l ++ rest).length ≤ 4) :
    rest.foldl countValue (BitVec.ofNat 32 (lutHistogram l)) =
      BitVec.ofNat 32 (lutHistogram (l ++ rest)) := by
  induction rest generalizing l with
  | nil => simp
  | cons v rest ih =>
    have hv : v < 8 := hl v (by simp)
    rw [List.foldl_cons, countValue_lutHistogram (fun x hx => hl x (List.mem_append_left _ hx))
      (by simp at hlen; omega) hv, ih (by simpa using hl) (by simpa using hlen)]
    simp

/-- **Entry `i` of `PRECODE_X4_TO_HISTOGRAM_LUT` is the unbounded sum of the four code lengths of
`i`, with the lowest overflow bit set exactly when a count does not fit its member.** -/
theorem PRECODE_X4_TO_HISTOGRAM_LUT_eq (i : Nat) :
    PRECODE_X4_TO_HISTOGRAM_LUT i = BitVec.ofNat 32 (lutHistogram (codeLengths i 4)) := by
  have h := @foldl_countValue [] (codeLengths i 4) (by simpa using codeLengths_lt i 4)
    (by simp [codeLengths])
  rw [PRECODE_X4_TO_HISTOGRAM_LUT, createHistogramLUT, calculateHistogram_eq, List.nil_append] at *
  rw [← h]
  rfl

end Pragzip.PrecodeCheck
