import Pragzip.Crc32.Table

/-!
# CRC-32 — slicing by `N`

`crc32SliceByN<SLICE_SIZE>` consumes `SLICE_SIZE` bytes per round: the register is XORed into
the first four bytes of the round (a little-endian load), and the round's bytes are looked up in
`SLICE_SIZE` derived tables, the `j`-th of which runs a byte through `j` further zero bytes. The
`size % SLICE_SIZE` bytes left over go through `updateCRC32` one at a time.

* `CRC32_SLICE_BY_N_LUT`, `SliceSize` (the three `static_assert`s), `loadLE32`, `storeLE32`,
  `sliceBlock`, `sliceLoop`, `crc32SliceByN`;
* `sliceBlock_eq_foldl`: one round is `SLICE_SIZE` byte steps;
* `sliceLoop_eq_foldl`: the rounds consume the longest prefix whose length is a multiple of
  `SLICE_SIZE`;
* **`crc32SliceByN_eq_foldl`**: slicing by `N` is the byte-at-a-time CRC.
-/

namespace Pragzip

/-- `MAX_CRC32_SLICE_SIZE`, the number of tables in `CRC32_SLICE_BY_N_LUT`. -/
def MAX_CRC32_SLICE_SIZE : Nat := 64

/-- `CRC32_SLICE_BY_N_LUT[j][i]`: table `0` is `CRC32_TABLE`, and table `j + 1` runs the entries
of table `j` through one more zero byte. -/
def CRC32_SLICE_BY_N_LUT : Nat → Nat → BitVec 32
  | 0, i => CRC32_TABLE i
  | j + 1, i => updateCRC32 (CRC32_SLICE_BY_N_LUT j i) 0

/-- A `SLICE_SIZE` that passes the `static_assert`s of `crc32SliceByN`. -/
structure SliceSize where
  val : Nat
  mod_four : val % 4 = 0
  pos : 0 < val
  le_max : val ≤ MAX_CRC32_SLICE_SIZE

/-- The `memcpy` of four bytes into a `uint32_t` on a little-endian machine. -/
def loadLE32 (bytes : List (BitVec 8)) : BitVec 32 :=
  BitVec.ofNat 32 ((bytes.getD 0 0).toNat + 2 ^ 8 * (bytes.getD 1 0).toNat +
    2 ^ 16 * (bytes.getD 2 0).toNat + 2 ^ 24 * (bytes.getD 3 0).toNat)

/-- The `memcpy` of a `uint32_t` into four bytes on a little-endian machine. -/
def storeLE32 (w : BitVec 32) : List (BitVec 8) :=
  [w.setWidth 8, (w >>> 8).setWidth 8, (w >>> 16).setWidth 8, (w >>> 24).setWidth 8]

/-- One round of the slice loop on the bytes `block = data[i, i + SLICE_SIZE)`. -/
def sliceBlock (N : Nat) (crc : BitVec 32) (block : List (BitVec 8)) : BitVec 32 :=
  let firstDoubleWord := loadLE32 (block.take 4)
  let chunk := storeLE32 (crc ^^^ firstDoubleWord) ++ (block.drop 4).take (N - 4)
  (List.range N).foldl
    (fun result j => result ^^^ CRC32_SLICE_BY_N_LUT j (chunk.getD (N - 1 - j) 0).toNat) 0

/-- The loop `for (i = 0; i + SLICE_SIZE <= size; i += SLICE_SIZE)`, from offset `i`. -/
def sliceLoop (N : SliceSize) (data : List (BitVec 8)) (i : Nat) (crc : BitVec 32) : BitVec 32 :=
  if i + N.val ≤ data.length then
    sliceLoop N data (i + N.val) (sliceBlock N.val crc ((data.drop i).take N.val))
  else crc
termination_by data.length - i
decreasing_by have := N.pos; omega

/-- `crc32SliceByN<SLICE_SIZE>(crc, data, size)`, with `data` the `size` bytes of the buffer. -/
def crc32SliceByN (N : SliceSize) (crc : BitVec 32) (data : List (BitVec 8)) : BitVec 32 :=
  let crc := sliceLoop N data 0 (~~~crc)
  ~~~((data.drop (data.length - data.length % N.val)).foldl updateCRC32 crc)

/-! ## The byte-at-a-time CRC is linear -/

theorem foldl_updateCRC32_xor (a b : BitVec 32) (xs ys : List (BitVec 8))
    (h : xs.length = ys.length) :
    (List.zipWith (· ^^^ ·) xs ys).foldl updateCRC32 (a ^^^ b) =
      xs.foldl updateCRC32 a ^^^ ys.foldl updateCRC32 b := by
  induction xs generalizing a b ys with
  | nil => cases ys <;> simp_all
  | cons x xs ih =>
    cases ys with
    | nil => simp at h
    | cons y ys =>
      simp only [List.zipWith_cons_cons, List.foldl_cons, updateCRC32_xor]
      exact ih _ _ ys (by simpa using h)

@[simp] theorem foldl_updateCRC32_replicate_zero (n : Nat) :
    (List.replicate n 0#8).foldl updateCRC32 0#32 = 0#32 := by
  induction n with
  | zero => rfl
  | succ n ih => simpa [List.replicate_succ] using ih

/-! ## The register enters through the first four bytes -/

theorem updateCRC32_xor_shift (a y : BitVec 32) (k : Nat) :
    updateCRC32 (a ^^^ (y >>> k)) 0#8 =
      updateCRC32 a ((y >>> k).setWidth 8) ^^^ (y >>> (k + 8)) := by
  have hidx : (a ^^^ y >>> k ^^^ (0#8).setWidth 32) &&& 0xFF#32 =
      (a ^^^ ((y >>> k).setWidth 8).setWidth 32) &&& 0xFF#32 := by
    simp [and_0xFF]
  simp only [updateCRC32, hidx, BitVec.ushiftRight_xor_distrib, ← BitVec.shiftRight_add]
  ac_rfl

theorem foldl_zeros_four (c : BitVec 32) :
    (List.replicate 4 0#8).foldl updateCRC32 c = (storeLE32 c).foldl updateCRC32 0#32 := by
  have h32 : c >>> (0 + 8 + 8 + 8 + 8) = 0#32 := by
    ext i; simp [BitVec.getLsbD_ge c (32 + i) (by omega)]
  conv_lhs => rw [show c = 0#32 ^^^ (c >>> 0) by simp]
  simp only [List.replicate, List.foldl_cons, List.foldl_nil, updateCRC32_xor_shift, h32,
    BitVec.xor_zero, storeLE32]
  simp

theorem storeLE32_loadLE32 (b₀ b₁ b₂ b₃ : BitVec 8) :
    storeLE32 (loadLE32 [b₀, b₁, b₂, b₃]) = [b₀, b₁, b₂, b₃] := by
  have := b₀.isLt; have := b₁.isLt; have := b₂.isLt; have := b₃.isLt
  simp only [storeLE32, loadLE32, List.getD_cons_succ, List.getD_cons_zero, List.cons.injEq,
    and_true]
  refine ⟨?_, ?_, ?_, ?_⟩ <;> apply BitVec.eq_of_toNat_eq <;> simp <;> omega

theorem storeLE32_xor (a b : BitVec 32) :
    storeLE32 (a ^^^ b) = List.zipWith (· ^^^ ·) (storeLE32 a) (storeLE32 b) := by
  simp [storeLE32, BitVec.ushiftRight_xor_distrib]

theorem foldl_four (c : BitVec 32) (b₀ b₁ b₂ b₃ : BitVec 8) :
    [b₀, b₁, b₂, b₃].foldl updateCRC32 c =
      (storeLE32 (c ^^^ loadLE32 [b₀, b₁, b₂, b₃])).foldl updateCRC32 0#32 := by
  have hzeros : List.zipWith (· ^^^ ·) (List.replicate 4 0#8) [b₀, b₁, b₂, b₃] = [b₀, b₁, b₂, b₃] := by
    simp [List.replicate]
  calc [b₀, b₁, b₂, b₃].foldl updateCRC32 c
      = (List.replicate 4 0#8).foldl updateCRC32 c ^^^ [b₀, b₁, b₂, b₃].foldl updateCRC32 0#32 := by
        rw [← foldl_updateCRC32_xor c 0#32 (List.replicate 4 0#8) [b₀, b₁, b₂, b₃] rfl, hzeros,
          BitVec.xor_zero]
    _ = (storeLE32 c).foldl updateCRC32 0#32 ^^^
          (storeLE32 (loadLE32 [b₀, b₁, b₂, b₃])).foldl updateCRC32 0#32 := by
        rw [foldl_zeros_four, storeLE32_loadLE32]
    _ = _ := by
        rw [← foldl_updateCRC32_xor 0#32 0#32 (storeLE32 c) (storeLE32 (loadLE32 [b₀, b₁, b₂, b₃]))
          rfl, BitVec.xor_zero, storeLE32_xor]

theorem zipWith_xor_replicate_zero (xs : List (BitVec 8)) :
    List.zipWith (· ^^^ ·) (List.replicate xs.length 0#8) xs = xs := by
  induction xs <;> simp_all [List.replicate_succ]

/-! ## The derived tables -/

theorem CRC32_SLICE_BY_N_LUT_eq_foldl (j i : Nat) :
    CRC32_SLICE_BY_N_LUT j i = (List.replicate j 0#8).foldl updateCRC32 (CRC32_TABLE i) := by
  induction j with
  | zero => rfl
  | succ j ih => rw [CRC32_SLICE_BY_N_LUT, ih, List.replicate_succ', List.foldl_append]; rfl

theorem foldl_range_LUT_eq_foldl (chunk : List (BitVec 8)) :
    (List.range chunk.length).foldl (fun result j =>
        result ^^^ CRC32_SLICE_BY_N_LUT j (chunk.getD (chunk.length - 1 - j) 0).toNat) 0 =
      chunk.foldl updateCRC32 0#32 := by
  induction chunk with
  | nil => rfl
  | cons y ys ih =>
    have hbody : ∀ r, ∀ j ∈ List.range ys.length,
        r ^^^ CRC32_SLICE_BY_N_LUT j ((y :: ys).getD (ys.length + 1 - 1 - j) 0).toNat =
          r ^^^ CRC32_SLICE_BY_N_LUT j (ys.getD (ys.length - 1 - j) 0).toNat := by
      intro r j hj
      rw [List.mem_range] at hj
      rw [show ys.length + 1 - 1 - j = (ys.length - 1 - j) + 1 by omega, List.getD_cons_succ]
    have hsplit := foldl_updateCRC32_xor (CRC32_TABLE y.toNat) 0#32
      (List.replicate ys.length 0#8) ys (by simp)
    rw [zipWith_xor_replicate_zero, BitVec.xor_zero] at hsplit
    rw [List.length_cons, List.range_succ, List.foldl_append, List.foldl_ext _ _ _ hbody, ih]
    simp only [List.foldl_cons, List.foldl_nil, Nat.add_sub_cancel, Nat.sub_self,
      List.getD_cons_zero]
    rw [CRC32_SLICE_BY_N_LUT_eq_foldl, updateCRC32_zero_left, hsplit, BitVec.xor_comm]

/-! ## One round, all rounds -/

/-- **One round is `SLICE_SIZE` byte steps.** -/
theorem sliceBlock_eq_foldl (N : Nat) (hN : 4 ≤ N) (crc : BitVec 32) (block : List (BitVec 8))
    (hlen : block.length = N) : sliceBlock N crc block = block.foldl updateCRC32 crc := by
  match block, hlen with
  | b₀ :: b₁ :: b₂ :: b₃ :: rest, hlen =>
    have hrest : rest.length = N - 4 := by simp at hlen; omega
    have hchunk : (storeLE32 (crc ^^^ loadLE32 [b₀, b₁, b₂, b₃]) ++ rest).length = N := by
      simp [storeLE32, hrest]; omega
    simp only [sliceBlock, List.take_succ_cons, List.take_zero, List.drop_succ_cons, List.drop_zero,
      ← hrest, List.take_length]
    subst hchunk
    rw [foldl_range_LUT_eq_foldl, List.foldl_append, ← foldl_four]
    rfl
  | [], h | [_], h | [_, _], h | [_, _, _], h => simp at h; omega

theorem sliceLoop_eq_foldl (N : SliceSize) (data : List (BitVec 8)) (i : Nat) (crc : BitVec 32) :
    sliceLoop N data i crc =
      ((data.drop i).take (N.val * ((data.length - i) / N.val))).foldl updateCRC32 crc := by
  have hN : 4 ≤ N.val := by have := N.mod_four; have := N.pos; omega
  induction i, crc using sliceLoop.induct N data with
  | case1 i crc h ih =>
    have hdiv : (data.length - i) / N.val = (data.length - (i + N.val)) / N.val + 1 := by
      rw [show data.length - i = data.length - (i + N.val) + N.val by omega,
        Nat.add_div_right _ N.pos]
    rw [sliceLoop, if_pos h, ih, sliceBlock_eq_foldl N.val hN _ _ (by simp; omega),
      ← List.foldl_append, hdiv, Nat.mul_succ, Nat.add_comm (N.val * _) N.val, List.take_add,
      List.drop_drop]
  | case2 i crc h =>
    rw [sliceLoop, if_neg h, Nat.div_eq_of_lt (by omega)]
    rfl

/-- **Slicing by `N` is the byte-at-a-time CRC**, for every admitted `SLICE_SIZE`. -/
theorem crc32SliceByN_eq_foldl (N : SliceSize) (crc : BitVec 32) (data : List (BitVec 8)) :
    crc32SliceByN N crc data = ~~~(data.foldl updateCRC32 (~~~crc)) := by
  have hk : data.length - data.length % N.val = N.val * (data.length / N.val) := by
    have := Nat.mod_add_div data.length N.val; omega
  simp only [crc32SliceByN, sliceLoop_eq_foldl, List.drop_zero, Nat.sub_zero, hk,
    ← List.foldl_append, List.take_append_drop]

theorem foldl_updateCRC32_eq_bitSerial (crc : BitVec 32) (data : List (BitVec 8)) :
    ~~~(data.foldl updateCRC32 (~~~crc)) = crc32BitSerial crc data := by
  have h : updateCRC32 = crc32BitSerialByte := funext fun c => funext (updateCRC32_eq_bitSerialByte c)
  rw [crc32BitSerial, h]

/-- Slicing by `N`, the byte-at-a-time CRC and the bit-serial CRC-32 of RFC 1952 agree on every
buffer and every starting CRC, and a buffer may be fed in consecutive pieces. -/
theorem crc32SliceByN_eq_bitSerial (N : SliceSize) (crc : BitVec 32) (data : List (BitVec 8)) :
    crc32SliceByN N crc data = ~~~(data.foldl updateCRC32 (~~~crc)) ∧
      ~~~(data.foldl updateCRC32 (~~~crc)) = crc32BitSerial crc data ∧
      ∀ more, crc32SliceByN N (crc32SliceByN N crc data) more = crc32SliceByN N crc (data ++ more) := by
  refine ⟨crc32SliceByN_eq_foldl N crc data, foldl_updateCRC32_eq_bitSerial crc data, fun more => ?_⟩
  simp only [crc32SliceByN_eq_foldl, BitVec.not_not, List.foldl_append]

end Pragzip
