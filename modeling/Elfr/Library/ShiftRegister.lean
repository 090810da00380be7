import Elfr.Library.Segments

/-!
# Reflected linear-feedback shift registers

One clock shifts the register right and, when a one falls out, adds the
feedback word. The clock is linear over exclusive or, and it is injective as
soon as the top bit of the feedback word is set, so a register that has seen
two different blocks no longer than itself is in two different states, and
stays in different states whatever equal bytes follow. The byte-wise table
form is an instance of linearity.
-/
namespace Elfr.Library.ShiftRegister

variable {w : ℕ} (poly : BitVec w)

def clock (x : BitVec w) : BitVec w :=
  if x.getLsbD 0 then poly ^^^ (x >>> 1) else x >>> 1

def clocks : ℕ → BitVec w → BitVec w
  | 0, x => x
  | n + 1, x => clocks n (clock poly x)

theorem xor_xor_cancel_left (p x y : BitVec w) : (p ^^^ x) ^^^ (p ^^^ y) = x ^^^ y := by
  rw [BitVec.xor_comm p y, BitVec.xor_assoc, ← BitVec.xor_assoc x, BitVec.xor_comm (x ^^^ y),
    ← BitVec.xor_assoc, BitVec.xor_self, BitVec.zero_xor]

theorem clock_xor (x y : BitVec w) : clock poly (x ^^^ y) = clock poly x ^^^ clock poly y := by
  unfold clock
  rw [BitVec.getLsbD_xor, BitVec.ushiftRight_xor_distrib]
  cases x.getLsbD 0 <;> cases y.getLsbD 0 <;> simp only [Bool.false_eq_true, Bool.xor_true,
    Bool.xor_false, Bool.not_true, Bool.not_false, ↓reduceIte]
  · rw [← BitVec.xor_assoc, BitVec.xor_comm poly, BitVec.xor_assoc]
  · rw [BitVec.xor_assoc]
  · rw [xor_xor_cancel_left]

theorem clocks_xor (n : ℕ) (x y : BitVec w) :
    clocks poly n (x ^^^ y) = clocks poly n x ^^^ clocks poly n y := by
  induction n generalizing x y with
  | zero => rfl
  | succ n ih => rw [clocks, clock_xor, ih, clocks, clocks]

theorem clocks_add (m n : ℕ) (x : BitVec w) :
    clocks poly (m + n) x = clocks poly n (clocks poly m x) := by
  induction m generalizing x with
  | zero => simp [clocks]
  | succ m ih => rw [Nat.succ_add, clocks, ih, clocks]

theorem eq_of_xor_eq_zero {x y : BitVec w} (h : x ^^^ y = 0#w) : x = y := by
  have hx : x ^^^ y ^^^ y = x := by rw [BitVec.xor_assoc, BitVec.xor_self, BitVec.xor_zero]
  rw [← hx, h, BitVec.zero_xor]

theorem clock_eq_zero (hpoly : poly.msb = true) {x : BitVec w} (h : clock poly x = 0#w) :
    x = 0#w := by
  have hshift : (x >>> 1).msb = false := by simp [BitVec.msb_ushiftRight]
  unfold clock at h
  split_ifs at h with hx
  · rw [eq_of_xor_eq_zero h, hshift] at hpoly
    exact absurd hpoly Bool.false_ne_true
  · apply BitVec.eq_of_getLsbD_eq
    intro i _
    cases i with
    | zero => simpa using hx
    | succ i =>
      have hbit := congrArg (fun z : BitVec w => z.getLsbD i) h
      simpa [BitVec.getLsbD_ushiftRight, Nat.add_comm] using hbit

theorem clocks_injective (hpoly : poly.msb = true) (n : ℕ) :
    Function.Injective (clocks poly n) := by
  intro x y h
  apply eq_of_xor_eq_zero
  have hz : clocks poly n (x ^^^ y) = 0#w := by rw [clocks_xor, h, BitVec.xor_self]
  clear h
  generalize x ^^^ y = z at hz ⊢
  induction n generalizing z with
  | zero => exact hz
  | succ n ih =>
    exact clock_eq_zero poly hpoly (ih _ hz)

theorem clocks_shiftLeft (n : ℕ) {x : BitVec w} (hx : x.toNat * 2 ^ n < 2 ^ w) :
    clocks poly n (x <<< n) = x := by
  induction n with
  | zero => simp [clocks]
  | succ n ih =>
    have hlt : x.toNat * 2 ^ n < 2 ^ w := by
      rw [pow_succ, ← Nat.mul_assoc] at hx
      omega
    have hclock : clock poly (x <<< (n + 1)) = x <<< n := by
      have hlsb : (x <<< (n + 1)).getLsbD 0 = false := by simp [BitVec.getLsbD_shiftLeft]
      unfold clock
      rw [hlsb]
      apply BitVec.eq_of_toNat_eq
      simp only [Bool.false_eq_true, ↓reduceIte, BitVec.toNat_ushiftRight, BitVec.toNat_shiftLeft,
        Nat.shiftLeft_eq, Nat.shiftRight_one]
      rw [Nat.mod_eq_of_lt hx, Nat.mod_eq_of_lt hlt, pow_succ, ← Nat.mul_assoc,
        Nat.mul_div_cancel _ (by omega)]
    rw [clocks, hclock, ih hlt]

/-- Exclusive-or a byte into the low end and clock it through. -/
def feed (s : BitVec w) (b : UInt8) : BitVec w :=
  clocks poly 8 (s ^^^ b.toBitVec.setWidth w)

def feedAll (s : BitVec w) (bs : Bytes) : BitVec w := bs.foldl (feed poly) s

/-- A block as one word, its first byte lowest. -/
def pack : Bytes → BitVec w
  | [] => 0#w
  | b :: bs => b.toBitVec.setWidth w ^^^ (pack bs <<< 8)

theorem feedAll_append (s : BitVec w) (xs ys : Bytes) :
    feedAll poly s (xs ++ ys) = feedAll poly (feedAll poly s xs) ys :=
  List.foldl_append

theorem pack_lt (bs : Bytes) : (pack bs : BitVec w).toNat < 2 ^ (8 * bs.length) := by
  induction bs with
  | nil => simp [pack]
  | cons b bs ih =>
    have hlen : 8 * (b :: bs).length = 8 * bs.length + 8 := by simp [Nat.mul_add]
    rw [pack, BitVec.toNat_xor, hlen]
    apply Nat.xor_lt_two_pow
    · calc (b.toBitVec.setWidth w).toNat ≤ b.toBitVec.toNat := by
            rw [BitVec.toNat_setWidth]
            exact Nat.mod_le _ _
        _ < 2 ^ 8 := b.toBitVec.isLt
        _ ≤ 2 ^ (8 * bs.length + 8) := Nat.pow_le_pow_right (by omega) (by omega)
    · calc (pack bs <<< 8 : BitVec w).toNat ≤ (pack bs : BitVec w).toNat * 2 ^ 8 := by
            rw [BitVec.toNat_shiftLeft, Nat.shiftLeft_eq]
            exact Nat.mod_le _ _
        _ < 2 ^ (8 * bs.length) * 2 ^ 8 := Nat.mul_lt_mul_of_pos_right ih (by omega)
        _ = 2 ^ (8 * bs.length + 8) := (pow_add _ _ _).symm

theorem pack_shift_lt {b : UInt8} {bs : Bytes} (h : 8 * (b :: bs).length ≤ w) :
    (pack bs : BitVec w).toNat * 2 ^ 8 < 2 ^ w := by
  calc (pack bs : BitVec w).toNat * 2 ^ 8 < 2 ^ (8 * bs.length) * 2 ^ 8 :=
        Nat.mul_lt_mul_of_pos_right (pack_lt bs) (by omega)
    _ = 2 ^ (8 * bs.length + 8) := (pow_add _ _ _).symm
    _ ≤ 2 ^ w := Nat.pow_le_pow_right (by omega) (by simp only [List.length_cons] at h; omega)

/-- Feeding a block that fits the register is one exclusive or and the clocks. -/
theorem feedAll_eq_clocks (s : BitVec w) {bs : Bytes} (h : 8 * bs.length ≤ w) :
    feedAll poly s bs = clocks poly (8 * bs.length) (s ^^^ pack bs) := by
  induction bs generalizing s with
  | nil => simp [feedAll, pack, clocks]
  | cons b bs ih =>
    have hlen : 8 * (b :: bs).length = 8 + 8 * bs.length := by simp [Nat.mul_add, Nat.add_comm]
    have hpack := clocks_shiftLeft poly 8 (pack_shift_lt h)
    calc feedAll poly s (b :: bs) = feedAll poly (feed poly s b) bs := rfl
      _ = clocks poly (8 * bs.length) (feed poly s b ^^^ pack bs) := ih _ (by omega)
      _ = clocks poly (8 * bs.length)
            (clocks poly 8 (s ^^^ b.toBitVec.setWidth w) ^^^ clocks poly 8 (pack bs <<< 8)) := by
          rw [hpack, feed]
      _ = clocks poly (8 * (b :: bs).length) (s ^^^ pack (b :: bs)) := by
          rw [← clocks_xor, ← clocks_add, hlen, pack, BitVec.xor_assoc]

theorem setWidth_pack_cons (hw : 8 ≤ w) (b : UInt8) (bs : Bytes) :
    (pack (b :: bs) : BitVec w).setWidth 8 = b.toBitVec := by
  apply BitVec.eq_of_getLsbD_eq
  intro i hi
  simp [pack, hi, show i < w by omega]

theorem pack_injective : ∀ {xs ys : Bytes}, xs.length = ys.length → 8 * xs.length ≤ w →
    (pack xs : BitVec w) = pack ys → xs = ys
  | [], [], _, _, _ => rfl
  | x :: xs, y :: ys, hlen, hw, h => by
    have hys : 8 * (y :: ys).length ≤ w := hlen ▸ hw
    have hxy : x = y := by
      apply UInt8.toBitVec_inj.mp
      rw [← setWidth_pack_cons (w := w) (by simp only [List.length_cons] at hw; omega) x xs,
        h, setWidth_pack_cons (by simp only [List.length_cons] at hw; omega)]
    subst hxy
    have hshift : (pack xs <<< 8 : BitVec w) = pack ys <<< 8 := by
      have h' := congrArg (x.toBitVec.setWidth w ^^^ ·) h
      simpa only [pack, ← BitVec.xor_assoc, BitVec.xor_self, BitVec.zero_xor] using h'
    have hpack : (pack xs : BitVec w) = pack ys := by
      rw [← clocks_shiftLeft 0#w 8 (pack_shift_lt hw), hshift,
        clocks_shiftLeft 0#w 8 (pack_shift_lt hys)]
    rw [pack_injective (by simpa using hlen) (by simp only [List.length_cons] at hw; omega) hpack]

theorem feedAll_injective_state (hpoly : poly.msb = true) (bs : Bytes) :
    Function.Injective fun s => feedAll poly s bs := by
  induction bs with
  | nil => exact fun _ _ h => h
  | cons b bs ih =>
    intro s t h
    have hfeed : feed poly s b = feed poly t b := ih h
    exact (BitVec.xor_left_inj _).mp (clocks_injective poly hpoly 8 hfeed)

/-- **Burst detection.** Two streams that differ only inside a block no longer
than the register leave it in the same state exactly if they are equal. -/
theorem feedAll_burst (hpoly : poly.msb = true) (s : BitVec w) (pre post : Bytes)
    {xs ys : Bytes} (hlen : xs.length = ys.length) (hw : 8 * xs.length ≤ w) :
    feedAll poly s (pre ++ xs ++ post) = feedAll poly s (pre ++ ys ++ post) ↔ xs = ys := by
  refine ⟨fun h => ?_, fun h => h ▸ rfl⟩
  simp only [feedAll_append] at h
  have hblock : feedAll poly (feedAll poly s pre) xs = feedAll poly (feedAll poly s pre) ys :=
    feedAll_injective_state poly hpoly post h
  generalize feedAll poly s pre = t at hblock
  have hwy : 8 * ys.length ≤ w := by omega
  rw [feedAll_eq_clocks poly t hw, feedAll_eq_clocks poly t hwy, hlen] at hblock
  have hxor := clocks_injective poly hpoly _ hblock
  exact pack_injective hlen hw ((BitVec.xor_right_inj t).mp hxor)

theorem getLsbD_mask {i : ℕ} (hi : i < w) : (255#w).getLsbD i = decide (i < 8) := by
  rw [BitVec.getLsbD_ofNat, show 255 = 2 ^ 8 - 1 from rfl, Nat.testBit_two_pow_sub_one]
  simp [hi]

theorem split_low (x : BitVec w) : x = (x &&& 255#w) ^^^ ((x >>> 8) <<< 8) := by
  apply BitVec.eq_of_getLsbD_eq
  intro i hi
  rw [BitVec.getLsbD_xor, BitVec.getLsbD_and, getLsbD_mask hi, BitVec.getLsbD_shiftLeft,
    BitVec.getLsbD_ushiftRight]
  by_cases h8 : i < 8
  · simp [h8]
  · simp [h8, hi, show 8 + (i - 8) = i by omega]

/-- The table form of one byte: look up the low byte, shift the rest out. -/
theorem clocks_eight_eq_table (x : BitVec w) :
    clocks poly 8 x = clocks poly 8 (x &&& 255#w) ^^^ (x >>> 8) := by
  have hlt : (x >>> 8).toNat * 2 ^ 8 < 2 ^ w := by
    have hx := x.isLt
    have hdiv := Nat.div_mul_le_self x.toNat (2 ^ 8)
    rw [BitVec.toNat_ushiftRight, Nat.shiftRight_eq_div_pow]
    omega
  conv_lhs => rw [split_low x, clocks_xor, clocks_shiftLeft poly 8 hlt]

theorem clocks_surjective (hpoly : poly.msb = true) (n : ℕ) :
    Function.Surjective (clocks poly n) := by
  have : Finite (BitVec w) := Finite.of_injective BitVec.toFin fun x y h =>
    BitVec.eq_of_toNat_eq (congrArg Fin.val h)
  exact Finite.surjective_of_injective (clocks_injective poly hpoly n)

theorem exists_pack : ∀ (n : ℕ) {x : BitVec w}, x.toNat < 2 ^ (8 * n) →
    ∃ bs : Bytes, bs.length = n ∧ pack bs = x
  | 0, x, hx => ⟨[], rfl, BitVec.eq_of_toNat_eq (by simp [pack]; omega)⟩
  | n + 1, x, hx => by
    have hshift : (x >>> 8).toNat < 2 ^ (8 * n) := by
      rw [BitVec.toNat_ushiftRight, Nat.shiftRight_eq_div_pow]
      rw [Nat.mul_add, pow_add] at hx
      omega
    obtain ⟨bs, hlen, hpack⟩ := exists_pack n hshift
    refine ⟨⟨x.setWidth 8⟩ :: bs, by rw [List.length_cons, hlen], ?_⟩
    have hlow : (x.setWidth 8).setWidth w = x &&& 255#w := by
      apply BitVec.eq_of_getLsbD_eq
      intro i hi
      rw [BitVec.getLsbD_and, getLsbD_mask hi]
      simp [hi, Bool.and_comm]
    rw [pack, hpack, hlow, ← split_low]

/-- A block as long as the register takes it from any state to any other. -/
theorem exists_feedAll_eq (hpoly : poly.msb = true) {n : ℕ} (hn : 8 * n = w) (s s' : BitVec w) :
    ∃ bs : Bytes, bs.length = n ∧ feedAll poly s bs = s' := by
  obtain ⟨x, hx⟩ := clocks_surjective poly hpoly (8 * n) s'
  obtain ⟨bs, hlen, hpack⟩ := exists_pack n (x := s ^^^ x) (by rw [hn]; exact (s ^^^ x).isLt)
  refine ⟨bs, hlen, ?_⟩
  rw [feedAll_eq_clocks poly s (by omega), hlen, hpack, ← BitVec.xor_assoc, BitVec.xor_self,
    BitVec.zero_xor, hx]

end Elfr.Library.ShiftRegister
