import Pragzip.Crc32.SliceByN

/-!
# CRC-32 — the SSE4.2 path

`crc32.cpp` defines `crc32_sse4`, which the alternative `crc32.hpp` calls from the templated
`updateCRC32(crc, vec)`. It runs the SSE4.2 `crc32` instruction over sixteen bytes at a time,
then over single bytes.

* `mm_crc32_u8`, `mm_crc32_u32`: the instruction, a reflected CRC by the Castagnoli polynomial
  `0x82F63B78` without inversions;
* `crc32Sse4WordLoop`, `crc32_sse4`;
* **`crc32_sse4_eq_foldl`**: `crc32_sse4` runs the byte step over the first
  `16 * (length / 16)` bytes and then over `length % 4` more, so a length whose remainder
  modulo sixteen is at least four loses the whole words in between;
* the two places where `crc32_sse4` departs from the table-driven CRC-32: it leaves bytes out,
  and its polynomial is not the one of RFC 1952.
-/

namespace Pragzip

/-- `_mm_crc32_u8(crc, v)`: the SSE4.2 `crc32` instruction on one byte, the bit-serial reflected
CRC by the polynomial `0x82F63B78`, with no inversion. -/
def mm_crc32_u8 (crc : BitVec 32) (v : BitVec 8) : BitVec 32 :=
  crcBitSteps 0x82F63B78#32 8 (crc ^^^ v.setWidth 32)

/-- `_mm_crc32_u32(crc, v)`: four `_mm_crc32_u8` steps over the little-endian bytes of `v`. -/
def mm_crc32_u32 (crc v : BitVec 32) : BitVec 32 :=
  (storeLE32 v).foldl mm_crc32_u8 crc

/-- The loop `while (len >= 4)` of `crc32_sse4`: four `_mm_crc32_u32` over the four lanes of the
sixteen bytes at word `words`; it returns the register and the word pointer. -/
def crc32Sse4WordLoop (data : List (BitVec 8)) (crc : BitVec 32) (words : Nat) :
    Nat → BitVec 32 × Nat
  | len + 4 =>
    let lane (k : Nat) := loadLE32 ((data.drop (4 * (words + k))).take 4)
    let crc := mm_crc32_u32 crc (lane 0)
    let crc := mm_crc32_u32 crc (lane 1)
    let crc := mm_crc32_u32 crc (lane 2)
    let crc := mm_crc32_u32 crc (lane 3)
    crc32Sse4WordLoop data crc (words + 4) len
  | _ => (crc, words)

/-- `crc32_sse4(crc, data, length)`, with `data` the `length` bytes of the buffer. -/
def crc32_sse4 (crc : BitVec 32) (data : List (BitVec 8)) : BitVec 32 :=
  let len := data.length / 4
  let crc := crc ^^^ 0xFFFFFFFF#32
  let (crc, words) := crc32Sse4WordLoop data crc 0 len
  let len := data.length &&& 3
  let crc := ((data.drop (4 * words)).take len).foldl mm_crc32_u8 crc
  crc ^^^ 0xFFFFFFFF#32

/-! ## What the two loops consume -/

theorem mm_crc32_u32_loadLE32 (crc : BitVec 32) (bytes : List (BitVec 8)) (h : bytes.length = 4) :
    mm_crc32_u32 crc (loadLE32 bytes) = bytes.foldl mm_crc32_u8 crc := by
  match bytes, h with
  | [b₀, b₁, b₂, b₃], _ => rw [mm_crc32_u32, storeLE32_loadLE32]

theorem crc32Sse4WordLoop_eq (data : List (BitVec 8)) :
    ∀ len crc words, 4 * (words + 4 * (len / 4)) ≤ data.length →
      crc32Sse4WordLoop data crc words len =
        (((data.drop (4 * words)).take (16 * (len / 4))).foldl mm_crc32_u8 crc,
          words + 4 * (len / 4))
  | len + 4, crc, words, h => by
    have hlen : (len + 4) / 4 = len / 4 + 1 := Nat.add_div_right len (by omega)
    rw [hlen] at h ⊢
    have hlane : ∀ k < 4, ((data.drop (4 * (words + k))).take 4).length = 4 := by
      intro k hk; simp; omega
    simp only [crc32Sse4WordLoop, mm_crc32_u32_loadLE32 _ _ (hlane 0 (by omega)),
      mm_crc32_u32_loadLE32 _ _ (hlane 1 (by omega)), mm_crc32_u32_loadLE32 _ _ (hlane 2 (by omega)),
      mm_crc32_u32_loadLE32 _ _ (hlane 3 (by omega))]
    rw [crc32Sse4WordLoop_eq data len _ (words + 4) (by omega)]
    simp only [Prod.mk.injEq, show words + 4 + 4 * (len / 4) = words + 4 * (len / 4 + 1) by omega,
      and_true, ← List.foldl_append]
    rw [show 16 * (len / 4 + 1) = 4 + (4 + (4 + (4 + 16 * (len / 4)))) by omega]
    simp only [List.take_add, List.drop_drop, List.append_assoc, Nat.mul_add, Nat.add_zero,
      Nat.mul_zero]
  | 0, crc, words, _ | 1, crc, words, _ | 2, crc, words, _ | 3, crc, words, _ => by
    simp [crc32Sse4WordLoop]

theorem land_three (n : Nat) : n &&& 3 = n % 4 :=
  Nat.and_pow_two_sub_one_eq_mod n 2

theorem xor_0xFFFFFFFF (x : BitVec 32) : x ^^^ 0xFFFFFFFF#32 = ~~~x := by
  rw [show 0xFFFFFFFF#32 = BitVec.allOnes 32 from rfl, BitVec.xor_allOnes]

/-- **What `crc32_sse4` computes**: the byte step over the first `16 * (length / 16)` bytes and
then over the `length % 4` bytes that follow them. -/
theorem crc32_sse4_eq_foldl (crc : BitVec 32) (data : List (BitVec 8)) :
    crc32_sse4 crc data =
      ~~~((data.take (16 * (data.length / 16)) ++
        (data.drop (16 * (data.length / 16))).take (data.length % 4)).foldl mm_crc32_u8 (~~~crc)) := by
  have hq : data.length / 4 / 4 = data.length / 16 := Nat.div_div_eq_div_mul _ 4 4
  have hloop := crc32Sse4WordLoop_eq data (data.length / 4) (~~~crc) 0 (by omega)
  rw [hq, Nat.zero_add, Nat.mul_zero, List.drop_zero] at hloop
  simp only [crc32_sse4, xor_0xFFFFFFFF, hloop, land_three, List.foldl_append,
    show 4 * (4 * (data.length / 16)) = 16 * (data.length / 16) by omega]

/-! ## Where `crc32_sse4` departs from the CRC-32 of RFC 1952 -/

theorem crc32_sse4_four_bytes (crc : BitVec 32) (b₀ b₁ b₂ b₃ : BitVec 8) :
    crc32_sse4 crc [b₀, b₁, b₂, b₃] = crc := by
  simp [crc32_sse4_eq_foldl]

set_option maxRecDepth 4000 in
/-- `crc32_sse4` at `crc = 0` on the bytes `01 02 03 04`: it returns `0`, while the byte loop
over the whole buffer gives `0x29308CF4`. -/
theorem crc32_sse4_skips_words :
    crc32_sse4 0#32 [1#8, 2#8, 3#8, 4#8] = 0#32 ∧
      ~~~([1#8, 2#8, 3#8, 4#8].foldl mm_crc32_u8 (~~~0#32)) = 0x29308CF4#32 :=
  ⟨crc32_sse4_four_bytes 0#32 1#8 2#8 3#8 4#8, by decide⟩

set_option maxRecDepth 4000 in
/-- On the single byte `00` from `crc = 0`, `crc32_sse4` gives the CRC-32C `0x527D5351`, and
slicing by any `N` gives the CRC-32 of RFC 1952, `0xD202EF8D`. -/
theorem crc32_sse4_castagnoli :
    crc32_sse4 0#32 [0#8] = 0x527D5351#32 ∧
      ∀ N : SliceSize, crc32SliceByN N 0#32 [0#8] = 0xD202EF8D#32 :=
  ⟨by decide, fun N => by rw [crc32SliceByN_eq_foldl]; decide⟩

end Pragzip
