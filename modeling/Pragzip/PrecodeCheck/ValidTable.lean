import Pragzip.PrecodeCheck.Histogram

/-!
# Precode check — the table of valid histograms

`PRECODE_HISTOGRAM_VALID_LUT` has one bit for every complete histogram that `packHistogram` can
pack. A bit set in it names the key of such a histogram, and since the members of fitting counts
do not overlap, the key names the histogram.

* `mem_histogramsUpTo`: the enumerated count vectors have the asked length and total;
* `setCount_eq`, `packHistogramLoop_eq_some`: `setCount` and the loop of `packHistogram` as
  arithmetic on fitting counts;
* `packHistogram_eq_some`: a packed histogram is the key of its counts above their total;
* **`PRECODE_HISTOGRAM_VALID_LUT_sound`**: a bit set in the table is the key of a complete
  histogram of seven fitting counts.
-/

namespace Pragzip.PrecodeCheck

/-! ## The enumeration -/

theorem mem_histogramsUpTo : ∀ {k budget : Nat} {H : List Nat}, H ∈ histogramsUpTo k budget →
    H.length = k ∧ H.sum ≤ budget
  | 0, _, H, h => by simp [histogramsUpTo] at h; simp [h]
  | k + 1, budget, H, h => by
    simp only [histogramsUpTo, List.mem_flatMap, List.mem_range, List.mem_map] at h
    obtain ⟨count, hc, H', hH', rfl⟩ := h
    obtain ⟨hlen, hsum⟩ := mem_histogramsUpTo hH'
    simp only [List.length_cons, List.sum_cons, hlen, true_and]
    omega

/-! ## Packing -/

theorem setCount_eq {x : BitVec 32} {d c lo hi : Nat} (hlo : lo < 2 ^ MEMBER_OFFSETS.getD d 0)
    (hc : c < 2 ^ MEMBER_BIT_WIDTHS.getD d 0)
    (hx : x.toNat = 2 ^ (MEMBER_OFFSETS.getD d 0 + MEMBER_BIT_WIDTHS.getD d 0) * hi + lo) :
    setCount x d c = .ok (BitVec.ofNat 32
      (2 ^ (MEMBER_OFFSETS.getD d 0 + MEMBER_BIT_WIDTHS.getD d 0) * hi +
        (2 ^ MEMBER_OFFSETS.getD d 0 * c + lo))) := by
  rw [setCount, if_neg (Nat.not_le.2 hc), nLowestBitsSet, write_field hlo hc hx]

/-- The counts from the length `depth` on, each at its member. -/
def packedFrom : Nat → List Nat → Nat
  | _, [] => 0
  | depth, count :: rest => 2 ^ MEMBER_OFFSETS.getD depth 0 * count + packedFrom (depth + 1) rest

/-- The counts from the length `depth` on fit their members. -/
def FitsFrom : Nat → List Nat → Prop
  | _, [] => True
  | depth, count :: rest => count < 2 ^ MEMBER_BIT_WIDTHS.getD depth 0 ∧ FitsFrom (depth + 1) rest

theorem member_end {d : Nat} (h1 : 1 ≤ d) (h7 : d ≤ 7) :
    MEMBER_OFFSETS.getD (d - 1) 0 + MEMBER_BIT_WIDTHS.getD (d - 1) 0 = MEMBER_OFFSETS.getD d 0 := by
  interval_cases d <;> decide

theorem packHistogramLoop_eq_some : ∀ {counts : List Nat} {depth : Nat} {packed : BitVec 32}
    {nonZeroCount : Nat} {result : BitVec 32 × Nat},
    packHistogramLoop depth counts packed nonZeroCount = .ok (some result) → 1 ≤ depth →
    depth + counts.length ≤ 8 → nonZeroCount < 256 →
    packed.toNat <
      2 ^ (MEMBER_OFFSETS.getD (depth - 1) 0 + MEMBER_BIT_WIDTHS.getD (depth - 1) 0) →
    FitsFrom depth counts ∧ result.1.toNat = packed.toNat + packedFrom depth counts ∧
      result.2 = (nonZeroCount + counts.sum) % 256
  | [], _, _, _, _, h, _, _, hnz, _ => by
    simp only [packHistogramLoop, Except.ok.injEq, Option.some.injEq] at h
    subst h
    simp [FitsFrom, packedFrom, Nat.mod_eq_of_lt hnz]
  | count :: rest, depth, packed, nonZeroCount, result, h, h1, hlen, _, hpacked => by
    simp only [List.length_cons] at hlen
    rw [member_end h1 (by omega)] at hpacked
    simp only [packHistogramLoop] at h
    split_ifs at h with hc
    · simp at h
    have hc' := Nat.lt_of_not_le hc
    have hx : packed.toNat =
        2 ^ (MEMBER_OFFSETS.getD depth 0 + MEMBER_BIT_WIDTHS.getD depth 0) * 0 + packed.toNat := by
      omega
    have hlow : 2 ^ MEMBER_OFFSETS.getD depth 0 * count + packed.toNat <
        2 ^ (MEMBER_OFFSETS.getD depth 0 + MEMBER_BIT_WIDTHS.getD depth 0) := by
      rw [Nat.pow_add]
      calc 2 ^ MEMBER_OFFSETS.getD depth 0 * count + packed.toNat
          < 2 ^ MEMBER_OFFSETS.getD depth 0 * count + 2 ^ MEMBER_OFFSETS.getD depth 0 := by omega
        _ = 2 ^ MEMBER_OFFSETS.getD depth 0 * (count + 1) := (Nat.mul_succ _ _).symm
        _ ≤ _ := Nat.mul_le_mul_left _ hc'
    have h29 : 2 ^ (MEMBER_OFFSETS.getD depth 0 + MEMBER_BIT_WIDTHS.getD depth 0) ≤ 2 ^ 32 :=
      Nat.pow_le_pow_right two_pos (by have : depth ≤ 7 := by omega
                                       interval_cases depth <;> decide)
    have hnew : (BitVec.ofNat 32 (2 ^ (MEMBER_OFFSETS.getD depth 0 + MEMBER_BIT_WIDTHS.getD depth 0) * 0 +
        (2 ^ MEMBER_OFFSETS.getD depth 0 * count + packed.toNat))).toNat =
        2 ^ MEMBER_OFFSETS.getD depth 0 * count + packed.toNat := by
      rw [BitVec.toNat_ofNat, Nat.mul_zero, Nat.zero_add, Nat.mod_eq_of_lt (by omega)]
    rw [setCount_eq hpacked hc' hx] at h
    have ih := packHistogramLoop_eq_some h (by omega) (by omega) (Nat.mod_lt _ (by decide))
      (by rw [Nat.add_sub_cancel, hnew]; exact hlow)
    rw [hnew] at ih
    refine ⟨⟨hc', ih.1⟩, ?_, ?_⟩
    · rw [ih.2.1, packedFrom]; omega
    · rw [ih.2.2, List.sum_cons]; omega

@[simp] theorem packedFrom_one {a b c d e f g : Nat} :
    packedFrom 1 [a, b, c, d, e, f, g] = 32 * lookUpKey [a, b, c, d, e, f, g] := by
  simp [packedFrom, MEMBER_OFFSETS_eq]
  omega

@[simp] theorem fitsFrom_one {a b c d e f g : Nat} :
    FitsFrom 1 [a, b, c, d, e, f, g] ↔ Fits [a, b, c, d, e, f, g] := by
  simp [FitsFrom, MEMBER_BIT_WIDTHS]

/-- **`packHistogram` packs only fitting counts, into their key above their total.** -/
theorem packHistogram_eq_some {H : List Nat} (hH : H.length = 7) {packed : BitVec 32}
    (h : packHistogram H = .ok (some packed)) :
    Fits H ∧ packed.toNat = 32 * lookUpKey H + H.sum := by
  match H, hH with
  | [a, b, c, d, e, f, g], _ =>
    simp only [packHistogram, bind, Except.bind] at h
    split at h
    · cases h
    rename_i r hl
    cases r with
    | none => cases h
    | some r =>
      obtain ⟨hfits, hp, hnz⟩ :=
        packHistogramLoop_eq_some hl le_rfl (by simp) (by decide) (by decide)
      simp only [fitsFrom_one, packedFrom_one] at hfits hp
      have hfits' := fits_iff.1 hfits
      simp only [List.sum_cons, List.sum_nil] at hnz ⊢
      obtain ⟨p, nz⟩ := r
      simp only at h hp hnz
      split_ifs at h with h32
      have hset := @setCount_eq p 0 nz 0 (lookUpKey [a, b, c, d, e, f, g]) (by decide)
        (by simp [MEMBER_BIT_WIDTHS] at h32 ⊢; omega) (by simp [MEMBER_OFFSETS_eq, MEMBER_BIT_WIDTHS, hp])
      simp only [pure, Except.pure, hset, Except.ok.injEq, Option.some.injEq] at h
      subst h
      refine ⟨hfits, ?_⟩
      have hs : a + (b + (c + (d + (e + (f + g))))) < 256 := by omega
      simp [MEMBER_OFFSETS_eq, MEMBER_BIT_WIDTHS, hnz, Nat.mod_eq_of_lt hs]
      omega

/-! ## The table -/

/-- One round of the loop that builds `PRECODE_HISTOGRAM_VALID_LUT`: the bit of the histogram's
key is set, when the histogram packs. -/
def markValid (result : Nat → BitVec 64) (histogram : List Nat) : Nat → BitVec 64 :=
  match packHistogram histogram with
  | .ok (some packedHistogram) =>
    let histogramToSetValid := (packedHistogram >>> MEMBER_BIT_WIDTHS.getD 0 0).toNat
    Function.update result (histogramToSetValid / 64)
      (result (histogramToSetValid / 64) ||| 1#64 <<< (histogramToSetValid % 64))
  | _ => result

theorem PRECODE_HISTOGRAM_VALID_LUT_eq :
    PRECODE_HISTOGRAM_VALID_LUT = VALID_HISTOGRAMS.foldl markValid fun _ => 0 := rfl

theorem getLsbD_foldl_markValid {k j : Nat} (hj : j < 64) :
    ∀ (histograms : List (List Nat)) (result : Nat → BitVec 64),
    ((histograms.foldl markValid result) k).getLsbD j →
      (result k).getLsbD j ∨ ∃ V ∈ histograms, ∃ packed, packHistogram V = .ok (some packed) ∧
        (packed >>> 5).toNat = 64 * k + j
  | [], _, h => .inl h
  | V :: histograms, result, hfold => by
    rcases getLsbD_foldl_markValid hj histograms _ hfold with h | ⟨V', hV', packed, hp, hk⟩
    · cases hp : packHistogram V with
      | error e => simp only [markValid, hp] at h; exact .inl h
      | ok o =>
        cases o with
        | none => simp only [markValid, hp] at h; exact .inl h
        | some packed =>
          simp only [markValid, hp, Function.update_apply] at h
          split_ifs at h with hk
          · simp only [BitVec.getLsbD_or, BitVec.getLsbD_shiftLeft, BitVec.getLsbD_ofNat] at h
            subst hk
            rcases Bool.or_eq_true_iff.1 h with h | h
            · exact .inl h
            · simp only [Bool.and_eq_true, decide_eq_true_eq, Bool.not_eq_true', decide_eq_false_iff_not,
                Nat.testBit_one_eq_true_iff_self_eq_zero] at h
              refine .inr ⟨V, List.mem_cons_self _ _, packed, hp, ?_⟩
              rw [show j = (packed >>> MEMBER_BIT_WIDTHS.getD 0 0).toNat % 64 by omega,
                Nat.div_add_mod]
              rfl
          · exact .inl h
    · exact .inr ⟨V', List.mem_cons_of_mem _ hV', packed, hp, hk⟩

theorem getLsbD_of_and_shiftLeft_ne_zero {x : BitVec 64} {m : Nat}
    (h : x &&& 1#64 <<< m ≠ 0) : x.getLsbD m := by
  by_contra hm
  refine h (BitVec.eq_of_getLsbD_eq fun i => ?_)
  simp only [BitVec.getLsbD_and, BitVec.getLsbD_shiftLeft, BitVec.getLsbD_ofNat,
    Nat.testBit_one_eq_true_iff_self_eq_zero, BitVec.ofNat_eq_ofNat, BitVec.getLsbD_zero]
  by_cases hi : (i : Nat) = m
  · subst hi; simp [hm]
  · cases x.getLsbD i <;> simp
    exact fun h₁ _ => Nat.testBit_lt_two_pow (Nat.one_lt_two_pow (by omega))

/-- **A bit set in `PRECODE_HISTOGRAM_VALID_LUT` is the key of a complete histogram of seven
fitting counts.** -/
theorem PRECODE_HISTOGRAM_VALID_LUT_sound {key : Nat}
    (h : (PRECODE_HISTOGRAM_VALID_LUT (key / 64)).getLsbD (key % 64)) :
    ∃ V : List Nat, V.length = 7 ∧ Fits V ∧ kraftSum V = 2 ^ 7 ∧ lookUpKey V = key := by
  rw [PRECODE_HISTOGRAM_VALID_LUT_eq] at h
  rcases getLsbD_foldl_markValid (Nat.mod_lt _ (by decide)) _ _ h with h | ⟨V, hV, packed, hp, hk⟩
  · simp at h
  obtain ⟨hV, hkraft⟩ := List.mem_filter.1 hV
  obtain ⟨hlen, hsum⟩ := mem_histogramsUpTo hV
  obtain ⟨hfits, hpacked⟩ := packHistogram_eq_some hlen hp
  refine ⟨V, hlen, hfits, of_decide_eq_true hkraft, ?_⟩
  rw [Nat.div_add_mod, BitVec.toNat_ushiftRight, hpacked, Nat.shiftRight_eq_div_pow] at hk
  simp only [MAX_PRECODE_COUNT] at hsum
  omega

end Pragzip.PrecodeCheck
