import Elfr.Common.Hashing
import Elfr.Library.CrcPolynomial

/-!
# The checksum is CRC-64/XZ

The header of `crc64.c` names the variant by its generator, reflection, initial value and
final complement. Here the table-driven loop meets the two usual descriptions of it: the
register that takes one bit at a time, and the remainder of the message modulo the
generator over the field of two elements.
-/
namespace Elfr.Common

open Library ShiftRegister Polynomial

/-- The generator below its leading power: bit `i` is the coefficient of the power `i`. -/
def crc64Generator : BitVec 64 := 0x42F0E1EBA9EA3693#64

/-- The constant of `crc64.c` is the generator with its bits reversed. -/
theorem crc64Poly_toBitVec : crc64Poly.toBitVec = crc64Generator.reverse := by decide +kernel

theorem generator_crc64Poly :
    generator crc64Poly.toBitVec = X ^ 64 + wordPoly crc64Generator := by
  rw [generator, crc64Poly_toBitVec, reverse_reverse]

/-- The reflected checksum, one bit of the message at a time. -/
def crc64Bitwise (data : Bytes) : BitVec 64 :=
  (messageBits data).foldl (bitClock crc64Generator.reverse) (BitVec.allOnes 64) ^^^
    BitVec.allOnes 64

theorem crc64Register_toBitVec (data : Bytes) :
    (crc64Register data).toBitVec =
      (messageBits data).foldl (bitClock crc64Generator.reverse) (BitVec.allOnes 64) := by
  rw [crc64Register, foldl_crc64Update_toBitVec, feedAll_eq_foldl _ (by decide),
    crc64Poly_toBitVec]
  rfl

theorem elfrCrc64_toBitVec (data : Bytes) : (elfrCrc64 data).toBitVec = crc64Bitwise data := by
  rw [elfrCrc64_eq, UInt64.toBitVec_xor, crc64Register_toBitVec]
  rfl

/-- The check value of the variant. -/
example : crc64Bitwise (ascii "123456789") = 0x995DC9BBDF1939FA#64 := by decide +kernel

theorem wordPoly_allOnes (w : ℕ) :
    wordPoly (BitVec.allOnes w) = ∑ i ∈ Finset.range w, (X : (ZMod 2)[X]) ^ i := by
  apply Finset.sum_congr rfl
  intro i hi
  rw [BitVec.getLsbD_allOnes, decide_eq_true (Finset.mem_range.mp hi)]
  simp [bit]

theorem reverse_allOnes (w : ℕ) : (BitVec.allOnes w).reverse = BitVec.allOnes w := by
  apply BitVec.eq_of_getLsbD_eq
  intro i hi
  rw [BitVec.getLsbD_reverse, BitVec.getMsbD_eq_getLsbD, BitVec.getLsbD_allOnes,
    BitVec.getLsbD_allOnes]
  simp only [hi, decide_true, Bool.true_and, decide_eq_true_eq]
  omega

/-- The initial ones stand above the message's leading coefficients. -/
noncomputable def crc64Remainder (data : Bytes) : (ZMod 2)[X] :=
  (messagePoly (messageBits data) * X ^ 64 +
    (∑ i ∈ Finset.range 64, X ^ i) * X ^ (8 * data.length)) %ₘ
      (X ^ 64 + wordPoly crc64Generator)

theorem wordPoly_crc64Register (data : Bytes) :
    wordPoly (crc64Register data).toBitVec.reverse = crc64Remainder data := by
  rw [crc64Register_toBitVec, wordPoly_foldl_bitClock, reverse_allOnes, wordPoly_allOnes,
    length_messageBits, ← crc64Poly_toBitVec, generator_crc64Poly]
  rfl

/-- **The checksum is CRC-64/XZ.** It is the bitwise checksum, and the complement of the
reversed remainder. -/
theorem crc64_is_xz (data : Bytes) :
    elfrCrc64 data = UInt64.ofBitVec (crc64Bitwise data) ∧
      (elfrCrc64 data).toBitVec = ~~~ (polyWord 64 (crc64Remainder data)).reverse := by
  constructor
  · rw [← elfrCrc64_toBitVec]
  · rw [← wordPoly_crc64Register, polyWord_wordPoly, reverse_reverse, elfrCrc64_eq,
      UInt64.toBitVec_xor]
    exact BitVec.xor_allOnes

end Elfr.Common
