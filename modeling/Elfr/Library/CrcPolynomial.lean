import Elfr.Library.ShiftRegister
import Mathlib.Algebra.Polynomial.Div
import Mathlib.Data.ZMod.Basic

/-!
# Cyclic redundancy checks as remainders

A register whose lowest bit is the coefficient of the highest power is a polynomial
over the field of two elements. Clocking a bit of the message into it is a step of the
long division by the generator, so that after the whole message, its first bit being the
highest coefficient, the register holds the remainder.
-/
namespace Elfr.Library.ShiftRegister

open Polynomial

def bit (b : Bool) : ZMod 2 := if b then 1 else 0

theorem bit_false : bit false = 0 := rfl

theorem bit_xor (a b : Bool) : bit (a ^^ b) = bit a + bit b := by
  cases a <;> cases b <;> decide

theorem bit_and (a b : Bool) : bit (a && b) = bit a * bit b := by
  cases a <;> cases b <;> decide

theorem bit_add_self (a : Bool) : bit a + bit a = 0 := by
  cases a <;> decide

section Words

variable {w : ℕ}

/-- Bit `i` is the coefficient of the power `i`. -/
noncomputable def wordPoly (x : BitVec w) : (ZMod 2)[X] :=
  ∑ i ∈ Finset.range w, C (bit (x.getLsbD i)) * X ^ i

/-- The word with these bits, the lowest first. -/
def bitsWord (w : ℕ) (bits : List Bool) : BitVec w := (BitVec.ofBoolListLE bits).setWidth w

theorem getLsbD_bitsWord (bits : List Bool) (i : ℕ) :
    (bitsWord w bits).getLsbD i = (decide (i < w) && bits[i]?.getD false) := by
  rw [bitsWord, BitVec.getLsbD_setWidth, BitVec.getLsbD_ofBoolListLE, List.getD_eq_getElem?_getD]

/-- The word of the lowest `w` coefficients. -/
noncomputable def polyWord (w : ℕ) (p : (ZMod 2)[X]) : BitVec w :=
  bitsWord w ((List.range w).map fun i => decide (p.coeff i = 1))

theorem coeff_wordPoly (x : BitVec w) (n : ℕ) : (wordPoly x).coeff n = bit (x.getLsbD n) := by
  simp only [wordPoly, finsetSum_coeff, coeff_C_mul_X_pow]
  rw [Finset.sum_ite_eq]
  split_ifs with hn
  · rfl
  · rw [BitVec.getLsbD_of_ge x n (by simpa using hn)]
    rfl

theorem degree_wordPoly_lt (x : BitVec w) : (wordPoly x).degree < w := by
  rw [degree_lt_iff_coeff_zero]
  intro n hn
  rw [coeff_wordPoly, BitVec.getLsbD_of_ge x n hn]
  rfl

theorem polyWord_wordPoly (x : BitVec w) : polyWord w (wordPoly x) = x := by
  apply BitVec.eq_of_getLsbD_eq
  intro i hi
  have hbit : decide (bit (x.getLsbD i) = 1) = x.getLsbD i := by
    cases x.getLsbD i <;> decide
  rw [polyWord, getLsbD_bitsWord, List.getElem?_map, List.getElem?_range hi]
  simpa [hi, coeff_wordPoly, BitVec.getLsbD_eq_getElem hi] using hbit

theorem reverse_reverse (x : BitVec w) : x.reverse.reverse = x := by
  apply BitVec.eq_of_getLsbD_eq
  intro i hi
  rw [BitVec.getLsbD_reverse, BitVec.getMsbD_reverse]

end Words

/-- The bits of a message, each byte from its lowest bit on. -/
def messageBits (bs : Bytes) : List Bool :=
  bs.flatMap fun b => (List.range 8).map b.toBitVec.getLsbD

/-- The polynomial with these coefficients, the highest first. -/
noncomputable def messagePoly : List Bool → (ZMod 2)[X]
  | [] => 0
  | b :: bits => C (bit b) * X ^ bits.length + messagePoly bits

theorem messagePoly_concat (bits : List Bool) (b : Bool) :
    messagePoly (bits ++ [b]) = messagePoly bits * X + C (bit b) := by
  induction bits with
  | nil => simp [messagePoly]
  | cons c bits ih =>
    rw [List.cons_append, messagePoly, ih, messagePoly, List.length_append, List.length_singleton,
      pow_succ]
    ring

theorem length_messageBits (bs : Bytes) : (messageBits bs).length = 8 * bs.length := by
  rw [messageBits, List.length_flatMap]
  simp [Nat.mul_comm]

section Clock

variable {w : ℕ} (poly : BitVec w)

/-- One clock of the register with a bit of the message added to the bit that falls out. -/
def bitClock (s : BitVec w) (b : Bool) : BitVec w :=
  if s.getLsbD 0 ^^ b then poly ^^^ (s >>> 1) else s >>> 1

/-- The generator: the bits of the feedback word, reversed, below the leading power. -/
noncomputable def generator : (ZMod 2)[X] := X ^ w + wordPoly poly.reverse

theorem generator_monic : (generator poly).Monic :=
  monic_X_pow_add (degree_wordPoly_lt poly.reverse)

theorem degree_generator : (generator poly).degree = w := by
  rw [generator, degree_add_eq_left_of_degree_lt] <;> rw [degree_X_pow]
  exact degree_wordPoly_lt poly.reverse

theorem getLsbD_bitClock (s : BitVec w) (b : Bool) (i : ℕ) :
    (bitClock poly s b).getLsbD i =
      (((s.getLsbD 0 ^^ b) && poly.getLsbD i) ^^ s.getLsbD (1 + i)) := by
  unfold bitClock
  cases s.getLsbD 0 ^^ b <;> simp

/-- A clock multiplies by the variable, adds the bit at the leading power, and subtracts the
generator if that power is there. -/
theorem wordPoly_bitClock (s : BitVec w) (b : Bool) :
    wordPoly (bitClock poly s b).reverse =
      wordPoly s.reverse * X + C (bit b) * X ^ w + C (bit (s.getLsbD 0 ^^ b)) * generator poly := by
  have hcoeff : ∀ (x : BitVec w) n, (wordPoly x.reverse).coeff n =
      bit (decide (n < w) && x.getLsbD (w - 1 - n)) := by
    intro x n
    rw [coeff_wordPoly, BitVec.getLsbD_reverse, BitVec.getMsbD_eq_getLsbD]
  ext n
  simp only [generator, coeff_add, coeff_C_mul, coeff_X_pow, hcoeff, getLsbD_bitClock]
  cases n with
  | zero =>
    rw [mul_coeff_zero, coeff_X_zero, mul_zero, Nat.sub_zero, zero_add]
    rcases Nat.eq_zero_or_pos w with rfl | hpos
    · simp [bit_add_self, bit_false]
    · have hout : s.getLsbD (1 + (w - 1)) = false := BitVec.getLsbD_of_ge _ _ (by omega)
      simp only [hpos, decide_true, Bool.true_and, hout, Bool.xor_false, hpos.ne, ↓reduceIte,
        mul_zero, zero_add, bit_and]
  | succ n =>
    rw [coeff_mul_X, hcoeff]
    rcases Nat.lt_trichotomy (n + 1) w with hlt | heq | hgt
    · have hbefore : 1 + (w - 1 - (n + 1)) = w - 1 - n := by omega
      have hlt' : n < w := by omega
      simp only [hlt, hlt', decide_true, Bool.true_and, hbefore, hlt.ne, ↓reduceIte, bit_xor,
        bit_and, mul_zero, add_zero, zero_add]
      ring
    · have hlast : w - 1 - n = 0 := by omega
      have hlt' : n < w := by omega
      have hno : ¬ n + 1 < w := by omega
      simp only [heq, hlt', hlast, lt_irrefl, decide_true, decide_false, Bool.true_and,
        Bool.false_and, ↓reduceIte, mul_one]
      rw [bit_false, add_zero, mul_one, ← bit_xor, bit_add_self]
    · have hno : ¬ n < w := by omega
      have hno' : ¬ n + 1 < w := by omega
      simp only [hno, hno', hgt.ne', decide_false, Bool.false_and, ↓reduceIte, bit_false, mul_zero,
        add_zero]

/-- Fed the bits of a message, the register holds the remainder of what it held, moved up by
their number, plus the message above the register. -/
theorem wordPoly_foldl_bitClock (s : BitVec w) (bits : List Bool) :
    wordPoly (bits.foldl (bitClock poly) s).reverse =
      (messagePoly bits * X ^ w + wordPoly s.reverse * X ^ bits.length) %ₘ generator poly := by
  symm
  induction bits using List.reverseRecOn with
  | nil =>
    rw [List.foldl_nil, messagePoly, zero_mul, zero_add, List.length_nil, pow_zero, mul_one,
      modByMonic_eq_self_iff (generator_monic poly), degree_generator]
    exact degree_wordPoly_lt _
  | append_singleton bits b ih =>
    have hdiv := modByMonic_add_div
      (messagePoly bits * X ^ w + wordPoly s.reverse * X ^ bits.length) (generator poly)
    rw [ih] at hdiv
    rw [List.foldl_append, List.foldl_cons, List.foldl_nil]
    refine (div_modByMonic_unique
      ((messagePoly bits * X ^ w + wordPoly s.reverse * X ^ bits.length) /ₘ generator poly * X -
        C (bit ((bits.foldl (bitClock poly) s).getLsbD 0 ^^ b))) _ (generator_monic poly)
      ⟨?_, ?_⟩).2
    · rw [wordPoly_bitClock, messagePoly_concat, List.length_append, List.length_singleton,
        pow_succ]
      linear_combination X * hdiv
    · rw [degree_generator]
      exact degree_wordPoly_lt _

/-- The next bit is clocked out together with the register's own, and the rest move up. -/
theorem clock_xor_bitsWord (s : BitVec w) (b : Bool) {bits : List Bool}
    (hw : bits.length + 1 ≤ w) :
    clock poly (s ^^^ bitsWord w (b :: bits)) = bitClock poly s b ^^^ bitsWord w bits := by
  have hlow : (s ^^^ bitsWord w (b :: bits)).getLsbD 0 = (s.getLsbD 0 ^^ b) := by
    rw [BitVec.getLsbD_xor, getLsbD_bitsWord]
    simp [show 0 < w by omega]
  have hnext : ∀ i, (bitsWord w (b :: bits)).getLsbD (1 + i) = (bitsWord w bits).getLsbD i := by
    intro i
    rw [getLsbD_bitsWord, getLsbD_bitsWord, Nat.add_comm 1 i, List.getElem?_cons_succ]
    rcases Nat.lt_or_ge i bits.length with hi | hi
    · simp [show i + 1 < w by omega, show i < w by omega]
    · simp [List.getElem?_eq_none hi]
  apply BitVec.eq_of_getLsbD_eq
  intro i _
  rw [BitVec.getLsbD_xor, getLsbD_bitClock, ← hnext i, Bool.xor_assoc, ← BitVec.getLsbD_xor]
  unfold clock
  rw [hlow]
  cases s.getLsbD 0 ^^ b <;> simp

theorem clocks_eq_foldl (s : BitVec w) {bits : List Bool} (hw : bits.length ≤ w) :
    clocks poly bits.length (s ^^^ bitsWord w bits) = bits.foldl (bitClock poly) s := by
  induction bits generalizing s with
  | nil =>
    have hzero : bitsWord w [] = 0#w := by
      apply BitVec.eq_of_getLsbD_eq
      intro i _
      rw [getLsbD_bitsWord]
      simp
    rw [hzero, BitVec.xor_zero]
    rfl
  | cons b bits ih =>
    rw [List.length_cons, clocks, clock_xor_bitsWord poly s b hw, ih _ (Nat.le_of_succ_le hw)]
    rfl

theorem feed_eq_foldl (hw : 8 ≤ w) (s : BitVec w) (b : UInt8) :
    feed poly s b = ((List.range 8).map b.toBitVec.getLsbD).foldl (bitClock poly) s := by
  have hlen : ((List.range 8).map b.toBitVec.getLsbD).length = 8 := by simp
  have hbits : bitsWord w ((List.range 8).map b.toBitVec.getLsbD) = b.toBitVec.setWidth w := by
    apply BitVec.eq_of_getLsbD_eq
    intro i _
    rw [BitVec.getLsbD_setWidth, getLsbD_bitsWord, List.getElem?_map]
    rcases Nat.lt_or_ge i 8 with h8 | h8
    · rw [List.getElem?_range h8]
      rfl
    · rw [List.getElem?_eq_none (by simpa using h8), BitVec.getLsbD_of_ge _ _ h8]
      rfl
  rw [← clocks_eq_foldl poly s (hlen.le.trans hw), hlen, hbits]
  rfl

theorem feedAll_eq_foldl (hw : 8 ≤ w) (s : BitVec w) (bs : Bytes) :
    feedAll poly s bs = (messageBits bs).foldl (bitClock poly) s := by
  induction bs generalizing s with
  | nil => rfl
  | cons b bs ih =>
    rw [messageBits, List.flatMap_cons, List.foldl_append, ← feed_eq_foldl poly hw]
    exact ih _

end Clock

end Elfr.Library.ShiftRegister
