import Elfr.Library.Segments

/-!
# Little-endian words in byte strings

The fixed-width encodings of machine words, the fields of a record read at
their offsets, and bounded word reads. Decoding is total: a short slice reads
as if padded by zeros, and only `load32` checks bounds.
-/
namespace Elfr.Library

/-- The `w` low bytes of `n`, least significant first. -/
def littleEndian : ℕ → ℕ → Bytes
  | 0, _ => []
  | w + 1, n => UInt8.ofNat n :: littleEndian w (n / 256)

def ofLittleEndian : Bytes → ℕ
  | [] => 0
  | b :: bs => b.toNat + 256 * ofLittleEndian bs

@[simp] theorem length_littleEndian (w n : ℕ) : (littleEndian w n).length = w := by
  induction w generalizing n with
  | zero => rfl
  | succ w ih => simp [littleEndian, ih]

theorem ofLittleEndian_littleEndian (w n : ℕ) :
    ofLittleEndian (littleEndian w n) = n % 256 ^ w := by
  induction w generalizing n with
  | zero => simp [littleEndian, ofLittleEndian, Nat.mod_one]
  | succ w ih =>
    have hb : (UInt8.ofNat n).toNat = n % 256 := UInt8.toNat_ofNat'
    rw [littleEndian, ofLittleEndian, ih, hb, pow_succ', Nat.mod_mul]

theorem ofLittleEndian_lt (bs : Bytes) : ofLittleEndian bs < 256 ^ bs.length := by
  induction bs with
  | nil => simp [ofLittleEndian]
  | cons b bs ih =>
    have hb := b.toNat_lt
    rw [ofLittleEndian, List.length_cons, pow_succ]
    omega

theorem littleEndian_ofLittleEndian (bs : Bytes) :
    littleEndian bs.length (ofLittleEndian bs) = bs := by
  induction bs with
  | nil => rfl
  | cons b bs ih =>
    have hb := b.toNat_lt
    have hdiv : (b.toNat + 256 * ofLittleEndian bs) / 256 = ofLittleEndian bs := by omega
    have hhead : UInt8.ofNat (b.toNat + 256 * ofLittleEndian bs) = b := by
      apply UInt8.toNat_inj.mp
      rw [UInt8.toNat_ofNat']
      omega
    rw [List.length_cons, littleEndian, ofLittleEndian, hdiv, hhead, ih]

def bytes16 (v : UInt16) : Bytes := littleEndian 2 v.toNat
def bytes32 (v : UInt32) : Bytes := littleEndian 4 v.toNat
def bytes64 (v : UInt64) : Bytes := littleEndian 8 v.toNat

def word16 (bs : Bytes) : UInt16 := UInt16.ofNat (ofLittleEndian bs)
def word32 (bs : Bytes) : UInt32 := UInt32.ofNat (ofLittleEndian bs)
def word64 (bs : Bytes) : UInt64 := UInt64.ofNat (ofLittleEndian bs)

@[simp] theorem length_bytes16 (v : UInt16) : (bytes16 v).length = 2 := length_littleEndian _ _
@[simp] theorem length_bytes32 (v : UInt32) : (bytes32 v).length = 4 := length_littleEndian _ _
@[simp] theorem length_bytes64 (v : UInt64) : (bytes64 v).length = 8 := length_littleEndian _ _

@[simp] theorem word16_bytes16 (v : UInt16) : word16 (bytes16 v) = v := by
  have hv := v.toNat_lt
  rw [word16, bytes16, ofLittleEndian_littleEndian, Nat.mod_eq_of_lt (by omega), UInt16.ofNat_toNat]

@[simp] theorem word32_bytes32 (v : UInt32) : word32 (bytes32 v) = v := by
  have hv := v.toNat_lt
  rw [word32, bytes32, ofLittleEndian_littleEndian, Nat.mod_eq_of_lt (by omega), UInt32.ofNat_toNat]

@[simp] theorem word64_bytes64 (v : UInt64) : word64 (bytes64 v) = v := by
  have hv := v.toNat_lt
  rw [word64, bytes64, ofLittleEndian_littleEndian, Nat.mod_eq_of_lt (by omega), UInt64.ofNat_toNat]

theorem bytes64_word64 {bs : Bytes} (h : bs.length = 8) : bytes64 (word64 bs) = bs := by
  have hlt := ofLittleEndian_lt bs
  rw [h] at hlt
  rw [bytes64, word64, UInt64.toNat_ofNat', Nat.mod_eq_of_lt (by omega), ← h,
    littleEndian_ofLittleEndian]

def field16 (bs : Bytes) (off : ℕ) : UInt16 := word16 (slice bs off 2)
def field32 (bs : Bytes) (off : ℕ) : UInt32 := word32 (slice bs off 4)
def field64 (bs : Bytes) (off : ℕ) : UInt64 := word64 (slice bs off 8)

section Field

variable {b : Bytes} {off : ℕ}

theorem Segment.field16 {v : UInt16} (h : Segment b off (bytes16 v)) :
    field16 b off = v := by
  have hs := h.2
  rw [length_bytes16] at hs
  rw [Library.field16, hs, word16_bytes16]

theorem Segment.field32 {v : UInt32} (h : Segment b off (bytes32 v)) :
    field32 b off = v := by
  have hs := h.2
  rw [length_bytes32] at hs
  rw [Library.field32, hs, word32_bytes32]

theorem Segment.field64 {v : UInt64} (h : Segment b off (bytes64 v)) :
    field64 b off = v := by
  have hs := h.2
  rw [length_bytes64] at hs
  rw [Library.field64, hs, word64_bytes64]

theorem segment_field64 (h : off + 8 ≤ b.length) : Segment b off (bytes64 (field64 b off)) := by
  rw [field64, bytes64_word64 (length_slice_of_le h)]
  exact segment_slice h

theorem field32_slice {len o : ℕ} (h : o + 4 ≤ len) :
    field32 (slice b off len) o = field32 b (off + o) := by
  rw [field32, slice_slice b h, field32]

theorem field64_slice {len o : ℕ} (h : o + 8 ≤ len) :
    field64 (slice b off len) o = field64 b (off + o) := by
  rw [field64, slice_slice b h, field64]

end Field

def load32 (b : Bytes) (off : ℕ) : Exec UInt32 := do
  let bs ← load b off 4
  pure (word32 bs)

def load64 (b : Bytes) (off : ℕ) : Exec UInt64 := do
  let bs ← load b off 8
  pure (word64 bs)

theorem load32_of_le {b : Bytes} {off : ℕ} (h : off + 4 ≤ b.length) :
    load32 b off = .ok (field32 b off) := by
  simp [load32, load_of_le h, field32]

theorem le_of_load32_eq_ok {b : Bytes} {off : ℕ} {v : UInt32} (h : load32 b off = .ok v) :
    off + 4 ≤ b.length := by
  obtain ⟨bs, hbs, -⟩ := Exec.bind_eq_ok.mp h
  exact (load_eq_ok.mp hbs).1

theorem le_of_load64_eq_ok {b : Bytes} {off : ℕ} {v : UInt64} (h : load64 b off = .ok v) :
    off + 8 ≤ b.length := by
  obtain ⟨bs, hbs, -⟩ := Exec.bind_eq_ok.mp h
  exact (load_eq_ok.mp hbs).1

theorem load64_of_le {b : Bytes} {off : ℕ} (h : off + 8 ≤ b.length) :
    load64 b off = .ok (field64 b off) := by
  simp [load64, load_of_le h, field64]

end Elfr.Library
