import Mathlib

/-!
# CRC-32 — the lookup table and the byte step

`crc32.hpp` computes the CRC-32 of RFC 1952 a byte at a time from a table of 256 words. The
register is a `uint32_t`, the data a `uint8_t`; both are bit vectors here.

* `crcBitStep`, `crcBitSteps`: the register shift of the table loop, for any reflected
  polynomial, and its iterations;
* `createCRC32LookupTable`, `CRC32_TABLE`, `updateCRC32`: the table and the byte step;
* `crc32BitSerialByte`, `crc32BitSerial`: the bit-serial CRC-32 of RFC 1952, continued from a
  given CRC;
* **`updateCRC32_eq_bitSerialByte`**: the table step is the bit-serial byte step;
* `crc32BitSerialByte_xor`: the byte step is linear over GF(2) in the register and the byte
  together, which every slicing argument rests on.
-/

namespace Pragzip

/-- One round of the inner loop of `createCRC32LookupTable`:
`c & 1 ? poly ^ (c >> 1) : c >> 1`. -/
def crcBitStep (poly c : BitVec 32) : BitVec 32 :=
  if c.getLsbD 0 then poly ^^^ (c >>> 1) else c >>> 1

/-- `j` rounds of `crcBitStep`. -/
def crcBitSteps (poly : BitVec 32) : Nat → BitVec 32 → BitVec 32
  | 0, c => c
  | j + 1, c => crcBitSteps poly j (crcBitStep poly c)

/-- Entry `n` of `createCRC32LookupTable()`: eight rounds of the shift by `0xEDB88320` from `n`.
The C++ loop runs on `unsigned long`, but every value it takes is below `2 ^ 32`. -/
def createCRC32LookupTable (n : Nat) : BitVec 32 :=
  crcBitSteps 0xEDB88320#32 8 (BitVec.ofNat 32 n)

/-- `CRC32_TABLE`, the table built once by `createCRC32LookupTable`. -/
def CRC32_TABLE (n : Nat) : BitVec 32 := createCRC32LookupTable n

/-- `updateCRC32(crc, data)`: `(crc >> 8) ^ CRC32_TABLE[(crc ^ data) & 0xFF]`. -/
def updateCRC32 (crc : BitVec 32) (data : BitVec 8) : BitVec 32 :=
  (crc >>> 8) ^^^ CRC32_TABLE ((crc ^^^ data.setWidth 32) &&& 0xFF#32).toNat

/-- The bit-serial register update of RFC 1952 by one byte: the byte enters at the low end, then
eight shifts by the reflected polynomial `0xEDB88320`. -/
def crc32BitSerialByte (c : BitVec 32) (b : BitVec 8) : BitVec 32 :=
  crcBitSteps 0xEDB88320#32 8 (c ^^^ b.setWidth 32)

/-- The bit-serial CRC-32 of RFC 1952 of `data`, continued from the CRC `crc` of what came
before it (`0` for a fresh stream). -/
def crc32BitSerial (crc : BitVec 32) (data : List (BitVec 8)) : BitVec 32 :=
  ~~~(data.foldl crc32BitSerialByte (~~~crc))

/-! ## Linearity of the shift -/

theorem crcBitStep_xor (poly a b : BitVec 32) :
    crcBitStep poly (a ^^^ b) = crcBitStep poly a ^^^ crcBitStep poly b := by
  unfold crcBitStep
  rw [BitVec.getLsbD_xor, BitVec.ushiftRight_xor_distrib]
  cases a.getLsbD 0 <;> cases b.getLsbD 0 <;> ext i <;> simp <;> cases poly.getLsbD i <;> simp

theorem crcBitSteps_xor (poly : BitVec 32) (j : Nat) (a b : BitVec 32) :
    crcBitSteps poly j (a ^^^ b) = crcBitSteps poly j a ^^^ crcBitSteps poly j b := by
  induction j generalizing a b with
  | zero => rfl
  | succ j ih => simp only [crcBitSteps, crcBitStep_xor, ih]

@[simp] theorem crcBitSteps_zero (poly : BitVec 32) (j : Nat) : crcBitSteps poly j 0#32 = 0#32 := by
  induction j with
  | zero => rfl
  | succ j ih => simpa [crcBitSteps, crcBitStep] using ih

theorem crcBitSteps_of_low_clear (poly y : BitVec 32) :
    ∀ k, (∀ i < k, y.getLsbD i = false) → crcBitSteps poly k y = y >>> k
  | 0, _ => by simp [crcBitSteps]
  | k + 1, hy => by
    have h0 : y.getLsbD 0 = false := hy 0 (by omega)
    have hk : ∀ i < k, (y >>> 1).getLsbD i = false := fun i hi => by
      simpa [Nat.add_comm] using hy (i + 1) (by omega)
    rw [crcBitSteps, crcBitStep, h0, if_neg Bool.false_ne_true,
      crcBitSteps_of_low_clear poly (y >>> 1) k hk, ← BitVec.shiftRight_add, Nat.add_comm]

theorem split_low_byte (x : BitVec 32) : x = (x.setWidth 8).setWidth 32 ^^^ (x >>> 8 <<< 8) := by
  ext i
  simp only [BitVec.getLsbD_xor, BitVec.getLsbD_setWidth, BitVec.getLsbD_shiftLeft,
    BitVec.getLsbD_ushiftRight]
  by_cases h : (i : Nat) < 8
  · simp [h]
  · simp [h, show 8 + ((i : Nat) - 8) = i by omega]

theorem ushiftRight_shiftLeft_ushiftRight (x : BitVec 32) : x >>> 8 <<< 8 >>> 8 = x >>> 8 := by
  ext i
  simp only [BitVec.getLsbD_ushiftRight, BitVec.getLsbD_shiftLeft]
  by_cases h : 8 + (i : Nat) < 32
  · simp [h]
  · simp [h, BitVec.getLsbD_ge x (8 + i) (by omega)]

theorem crcBitSteps_eight (poly x : BitVec 32) :
    crcBitSteps poly 8 x = crcBitSteps poly 8 ((x.setWidth 8).setWidth 32) ^^^ (x >>> 8) := by
  have hhigh : ∀ i < 8, (x >>> 8 <<< 8).getLsbD i = false := by
    intro i hi; simp [hi]
  conv_lhs => rw [split_low_byte x]
  rw [crcBitSteps_xor, crcBitSteps_of_low_clear poly _ 8 hhigh, ushiftRight_shiftLeft_ushiftRight]

theorem and_0xFF (x : BitVec 32) : x &&& 0xFF#32 = (x.setWidth 8).setWidth 32 := by
  apply BitVec.eq_of_toNat_eq
  simp only [BitVec.toNat_and, BitVec.toNat_setWidth]
  rw [show (0xFF#32).toNat = 2 ^ 8 - 1 from rfl, Nat.and_pow_two_sub_one_eq_mod]
  omega

/-! ## The table step -/

/-- **The table step is the bit-serial step** of RFC 1952. -/
theorem updateCRC32_eq_bitSerialByte (crc : BitVec 32) (data : BitVec 8) :
    updateCRC32 crc data = crc32BitSerialByte crc data := by
  have hdata : data.setWidth 32 >>> 8 = 0#32 := by
    ext i; simp
  rw [crc32BitSerialByte, crcBitSteps_eight, BitVec.ushiftRight_xor_distrib, hdata,
    BitVec.xor_zero, updateCRC32, CRC32_TABLE, createCRC32LookupTable, and_0xFF,
    BitVec.ofNat_toNat, BitVec.setWidth_eq, BitVec.xor_comm]

theorem crc32BitSerialByte_xor (a b : BitVec 32) (x y : BitVec 8) :
    crc32BitSerialByte (a ^^^ b) (x ^^^ y) = crc32BitSerialByte a x ^^^ crc32BitSerialByte b y := by
  have h : a ^^^ b ^^^ (x ^^^ y).setWidth 32 = (a ^^^ x.setWidth 32) ^^^ (b ^^^ y.setWidth 32) := by
    rw [BitVec.setWidth_xor]; ac_rfl
  rw [crc32BitSerialByte, h, crcBitSteps_xor]; rfl

theorem updateCRC32_xor (a b : BitVec 32) (x y : BitVec 8) :
    updateCRC32 (a ^^^ b) (x ^^^ y) = updateCRC32 a x ^^^ updateCRC32 b y := by
  simp only [updateCRC32_eq_bitSerialByte, crc32BitSerialByte_xor]

@[simp] theorem updateCRC32_zero_zero : updateCRC32 0#32 0#8 = 0#32 := by
  simp [updateCRC32_eq_bitSerialByte, crc32BitSerialByte]

theorem updateCRC32_zero_left (data : BitVec 8) :
    updateCRC32 0#32 data = CRC32_TABLE data.toNat := by
  rw [CRC32_TABLE, createCRC32LookupTable, BitVec.ofNat_toNat, updateCRC32_eq_bitSerialByte,
    crc32BitSerialByte, BitVec.zero_xor]

end Pragzip
