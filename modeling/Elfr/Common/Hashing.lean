import Elfr.Library.ShiftRegister
import Elfr.Library.CStrings

/-!
# FNV-1a and CRC-64

`fnv1a.c` and `crc64.c`: the hashes of resource names and language tags and
the checksum of data and containers. The table-driven CRC is tied to the
shift register of the library, from which it inherits its injectivity.
-/
namespace Elfr.Common

open Library

def elfrFnv1a64 (data : Bytes) : UInt64 :=
  data.foldl (fun hash p => (hash ^^^ p.toUInt64) * 0x100000001b3) 0xcbf29ce484222325

def elfrFnv1a32 (data : Bytes) : UInt32 :=
  data.foldl (fun hash p => (hash ^^^ p.toUInt32) * 0x01000193) 0x811c9dc5

/-- The reflected form of 0x42F0E1EBA9EA3693. -/
def crc64Poly : UInt64 := 0xC96C5795D7870F42

/-- The body of the inner loop of `crc64_init_table`. -/
def crc64InitStep (c : UInt64) : UInt64 :=
  if c &&& 1 ≠ 0 then crc64Poly ^^^ (c >>> 1) else c >>> 1

def crc64Table : Vector UInt64 256 :=
  Vector.ofFn fun i => crc64InitStep^[8] (UInt64.ofNat i)

theorem crc64Index_lt (x : UInt64) : (x &&& 0xFF).toNat < 256 := by
  rw [UInt64.toNat_and]
  exact Nat.lt_succ_of_le Nat.and_le_right

/-- One turn of the loop of `elfr_crc64`. -/
def crc64Update (crc : UInt64) (p : UInt8) : UInt64 :=
  have := crc64Index_lt (crc ^^^ p.toUInt64)
  crc64Table[((crc ^^^ p.toUInt64) &&& 0xFF).toNat] ^^^ (crc >>> 8)

def elfrCrc64 (data : Bytes) : UInt64 :=
  data.foldl crc64Update 0xFFFFFFFFFFFFFFFF ^^^ 0xFFFFFFFFFFFFFFFF

open ShiftRegister

theorem crc64InitStep_toBitVec (c : UInt64) :
    (crc64InitStep c).toBitVec = clock crc64Poly.toBitVec c.toBitVec := by
  have hbit : c &&& 1 ≠ 0 ↔ c.toBitVec.getLsbD 0 = true := by
    rw [ne_eq, ← UInt64.toNat_inj, UInt64.toNat_and]
    change ¬ c.toNat &&& 1 = 0 ↔ c.toNat.testBit 0 = true
    rw [Nat.and_one_is_mod, Nat.testBit_zero, decide_eq_true_iff]
    omega
  unfold crc64InitStep clock
  by_cases h : c &&& 1 ≠ 0
  · rw [if_pos h, if_pos (hbit.mp h)]
    rfl
  · rw [if_neg h, if_neg (fun h' => h (hbit.mpr h'))]
    rfl

theorem crc64InitStep_iterate_toBitVec (n : ℕ) (c : UInt64) :
    (crc64InitStep^[n] c).toBitVec = clocks crc64Poly.toBitVec n c.toBitVec := by
  induction n generalizing c with
  | zero => rfl
  | succ n ih => rw [Function.iterate_succ_apply, ih, crc64InitStep_toBitVec, clocks]

theorem crc64Table_toBitVec {i : ℕ} (hi : i < 256) :
    crc64Table[i].toBitVec = clocks crc64Poly.toBitVec 8 (UInt64.ofNat i).toBitVec := by
  rw [crc64Table, Vector.getElem_ofFn, crc64InitStep_iterate_toBitVec]

theorem crc64Update_toBitVec (crc : UInt64) (p : UInt8) :
    (crc64Update crc p).toBitVec = feed crc64Poly.toBitVec crc.toBitVec p := by
  have hbyte : p.toUInt64.toBitVec >>> 8 = 0#64 := by
    apply BitVec.eq_of_toNat_eq
    have hp := p.toNat_lt
    rw [BitVec.toNat_ushiftRight, Nat.shiftRight_eq_div_pow]
    change p.toNat / 2 ^ 8 = 0
    omega
  have hshift : (crc >>> 8).toBitVec = (crc ^^^ p.toUInt64).toBitVec >>> 8 := by
    rw [UInt64.toBitVec_xor, BitVec.ushiftRight_xor_distrib, hbyte, BitVec.xor_zero]
    rfl
  have hindex : (UInt64.ofNat ((crc ^^^ p.toUInt64) &&& 0xFF).toNat).toBitVec =
      (crc ^^^ p.toUInt64).toBitVec &&& 255#64 := by
    rw [UInt64.ofNat_toNat]
    rfl
  rw [crc64Update, UInt64.toBitVec_xor, crc64Table_toBitVec, hindex, hshift,
    ← clocks_eight_eq_table]
  rfl

/-- The register after the loop of `elfr_crc64`, before the final complement. -/
def crc64Register (data : Bytes) : UInt64 := data.foldl crc64Update 0xFFFFFFFFFFFFFFFF

theorem elfrCrc64_eq (data : Bytes) :
    elfrCrc64 data = crc64Register data ^^^ 0xFFFFFFFFFFFFFFFF := rfl

theorem foldl_crc64Update_toBitVec (crc : UInt64) (data : Bytes) :
    (data.foldl crc64Update crc).toBitVec = feedAll crc64Poly.toBitVec crc.toBitVec data := by
  induction data generalizing crc with
  | nil => rfl
  | cons p data ih =>
    rw [List.foldl_cons, ih, crc64Update_toBitVec]
    rfl

theorem crc64Poly_msb : crc64Poly.toBitVec.msb = true := by decide

theorem crc64Register_eq_iff (xs ys : Bytes) :
    elfrCrc64 xs = elfrCrc64 ys ↔ crc64Register xs = crc64Register ys := by
  rw [elfrCrc64_eq, elfrCrc64_eq, UInt64.xor_left_inj]

/-- Streams that differ inside one block of at most eight bytes have different checksums. -/
theorem elfrCrc64_burst (pre post : Bytes) {xs ys : Bytes} (hlen : xs.length = ys.length)
    (hw : xs.length ≤ 8) :
    elfrCrc64 (pre ++ xs ++ post) = elfrCrc64 (pre ++ ys ++ post) ↔ xs = ys := by
  rw [crc64Register_eq_iff, ← UInt64.toBitVec_inj, crc64Register, crc64Register,
    foldl_crc64Update_toBitVec, foldl_crc64Update_toBitVec]
  exact feedAll_burst _ crc64Poly_msb _ pre post hlen (by omega)

/-- Streams of one length that agree outside of eight consecutive positions have the
same checksum only if they are equal. -/
theorem elfrCrc64_window {xs ys : Bytes} (hlen : xs.length = ys.length) (w : ℕ)
    (hsame : ∀ i, i < w ∨ w + 8 ≤ i → xs[i]? = ys[i]?) : elfrCrc64 xs = elfrCrc64 ys ↔ xs = ys := by
  have hsplit : ∀ zs : Bytes, zs = zs.take w ++ slice zs w 8 ++ zs.drop (w + 8) := by
    intro zs
    rw [List.append_assoc, slice, ← List.drop_drop, List.take_append_drop, List.take_append_drop]
  have htake : ys.take w = xs.take w := by
    apply List.ext_getElem?
    intro i
    rw [List.getElem?_take, List.getElem?_take]
    split_ifs with hi
    · exact (hsame i (.inl hi)).symm
    · rfl
  have hdrop : ys.drop (w + 8) = xs.drop (w + 8) := by
    apply List.ext_getElem?
    intro i
    rw [List.getElem?_drop, List.getElem?_drop]
    exact (hsame _ (.inr (Nat.le_add_right _ _))).symm
  have hslice : (slice xs w 8).length = (slice ys w 8).length := by
    simp only [slice, List.length_take, List.length_drop, hlen]
  have hburst := elfrCrc64_burst (xs.take w) (xs.drop (w + 8)) hslice
    (by simp only [slice, List.length_take]; omega)
  rw [← hsplit xs] at hburst
  have hys : xs.take w ++ slice ys w 8 ++ xs.drop (w + 8) = ys := by
    conv_rhs => rw [hsplit ys, htake, hdrop]
  rw [hys] at hburst
  rw [hburst]
  constructor
  · intro heq
    rw [hsplit xs, heq, hys]
  · rintro rfl
    rfl

theorem crc64Update_eq_iterate (crc : UInt64) (p : UInt8) :
    crc64Update crc p = crc64InitStep^[8] (crc ^^^ p.toUInt64) := by
  rw [← UInt64.toBitVec_inj, crc64Update_toBitVec, crc64InitStep_iterate_toBitVec]
  rfl

theorem crc64Register_append (xs ys : Bytes) :
    crc64Register (xs ++ ys) = ys.foldl crc64Update (crc64Register xs) := List.foldl_append

/-- Eight more bytes can bring the checksum to any value. -/
theorem exists_elfrCrc64_append_eq (data : Bytes) (crc : UInt64) :
    ∃ t : Bytes, t.length = 8 ∧ elfrCrc64 (data ++ t) = crc := by
  obtain ⟨t, hlen, ht⟩ := exists_feedAll_eq crc64Poly.toBitVec crc64Poly_msb (n := 8) rfl
    (crc64Register data).toBitVec (crc ^^^ 0xFFFFFFFFFFFFFFFF).toBitVec
  refine ⟨t, hlen, ?_⟩
  rw [← foldl_crc64Update_toBitVec, UInt64.toBitVec_inj, ← crc64Register_append] at ht
  rw [elfrCrc64_eq, ht, UInt64.xor_assoc, UInt64.xor_self, UInt64.xor_zero]

/-- One more byte brings it to a value in at most one way. -/
theorem elfrCrc64_append_byte (data : Bytes) (x y : UInt8) :
    elfrCrc64 (data ++ [x]) = elfrCrc64 (data ++ [y]) ↔ x = y := by
  have hburst := @elfrCrc64_burst data [] [x] [y] rfl (by simp)
  simpa only [List.append_nil, List.cons.injEq, and_true] using hburst

end Elfr.Common
