import Elfr.Library.Execution

/-!
# Byte strings, the segments they hold, and bounded reads

`Segment b off xs` says that the bytes `xs` sit in `b` from offset `off` on.
Segments survive appending to `b` and overwriting a disjoint range, they split
and join along concatenation, and a bounded read of a segment returns it. A
buffer that only grows is described by the segments it holds so far.
-/
namespace Elfr.Library

abbrev Bytes := List UInt8

/-- The `len` bytes from offset `off` on, fewer where the buffer ends. -/
def slice (b : Bytes) (off len : ℕ) : Bytes := (b.drop off).take len

theorem length_slice_of_le {b : Bytes} {off len : ℕ} (h : off + len ≤ b.length) :
    (slice b off len).length = len := by
  simp only [slice, List.length_take, List.length_drop]
  omega

theorem getElem?_slice (b : Bytes) (off len i : ℕ) :
    (slice b off len)[i]? = if i < len then b[off + i]? else none := by
  simp [slice, List.getElem?_take, List.getElem?_drop]

theorem slice_slice (b : Bytes) {off len o l : ℕ} (h : o + l ≤ len) :
    slice (slice b off len) o l = slice b (off + o) l := by
  apply List.ext_getElem?
  intro i
  simp only [getElem?_slice]
  by_cases hi : i < l
  · rw [if_pos hi, if_pos hi, if_pos (by omega), Nat.add_assoc]
  · rw [if_neg hi, if_neg hi]

theorem slice_congr {b b' : Bytes} {off len : ℕ} (h : ∀ j < len, b[off + j]? = b'[off + j]?) :
    slice b off len = slice b' off len := by
  apply List.ext_getElem?
  intro j
  rw [getElem?_slice, getElem?_slice]
  split_ifs with hj
  · exact h j hj
  · rfl

/-- The bytes `xs` sit in `b` from offset `off` on. -/
def Segment (b : Bytes) (off : ℕ) (xs : Bytes) : Prop :=
  off + xs.length ≤ b.length ∧ slice b off xs.length = xs

instance : Decidable (Segment b off xs) := inferInstanceAs (Decidable (_ ∧ _))

section Segment

variable {b : Bytes} {off : ℕ} {xs ys : Bytes}

theorem segment_iff_getElem? :
    Segment b off xs ↔ off + xs.length ≤ b.length ∧ ∀ i < xs.length, b[off + i]? = xs[i]? := by
  refine and_congr_right fun hle => ?_
  constructor
  · intro h i hi
    conv_rhs => rw [← h, getElem?_slice, if_pos hi]
  · intro h
    apply List.ext_getElem?
    intro i
    rw [getElem?_slice]
    split_ifs with hi
    · exact h i hi
    · exact (List.getElem?_eq_none (by omega)).symm

theorem Segment.eq_of_length (hx : Segment b off xs) (hy : Segment b off ys)
    (hlen : xs.length = ys.length) : xs = ys := by
  rw [← hx.2, ← hy.2, hlen]

theorem Segment.le (h : Segment b off xs) : off + xs.length ≤ b.length := h.1

theorem Segment.drop_eq (h : Segment b off xs) : ∃ t, b.drop off = xs ++ t := by
  refine ⟨(b.drop off).drop xs.length, ?_⟩
  conv_lhs => rw [← List.take_append_drop xs.length (b.drop off)]
  congr 1
  exact h.2

theorem Segment.getElem? (h : Segment b off xs) {i : ℕ} (hi : i < xs.length) :
    b[off + i]? = xs[i]? :=
  (segment_iff_getElem?.mp h).2 i hi

theorem Segment.getD_singleton {x d : UInt8} (h : Segment b off [x]) : b.getD off d = x := by
  have hget := h.getElem? (i := 0) (by simp)
  simpa [List.getD_eq_getElem?_getD] using congrArg (Option.getD · d) hget

theorem segment_self (b : Bytes) : Segment b 0 b := by
  simp [Segment, slice]

theorem segment_slice {len : ℕ} (h : off + len ≤ b.length) :
    Segment b off (slice b off len) := by
  have hlen := length_slice_of_le h
  exact ⟨by omega, by rw [hlen]⟩

theorem segment_append_iff :
    Segment b off (xs ++ ys) ↔ Segment b off xs ∧ Segment b (off + xs.length) ys := by
  simp only [segment_iff_getElem?, List.length_append]
  constructor
  · rintro ⟨hle, h⟩
    refine ⟨⟨by omega, fun i hi => ?_⟩, ⟨by omega, fun i hi => ?_⟩⟩
    · rw [h i (by omega), List.getElem?_append_left hi]
    · rw [Nat.add_assoc, h (xs.length + i) (by omega), List.getElem?_append_right (by omega),
        Nat.add_sub_cancel_left]
  · rintro ⟨⟨hx, h⟩, ⟨hy, h'⟩⟩
    refine ⟨by omega, fun i hi => ?_⟩
    by_cases hix : i < xs.length
    · rw [h i hix, List.getElem?_append_left hix]
    · have hi' := h' (i - xs.length) (by omega)
      rw [show off + xs.length + (i - xs.length) = off + i by omega] at hi'
      rw [hi', List.getElem?_append_right (by omega)]

theorem Segment.left (h : Segment b off (xs ++ ys)) : Segment b off xs :=
  (segment_append_iff.mp h).1

theorem Segment.right (h : Segment b off (xs ++ ys)) : Segment b (off + xs.length) ys :=
  (segment_append_iff.mp h).2

theorem Segment.append (h : Segment b off xs) (t : Bytes) : Segment (b ++ t) off xs := by
  rw [segment_iff_getElem?] at h ⊢
  refine ⟨by rw [List.length_append]; omega, fun i hi => ?_⟩
  rw [List.getElem?_append_left (by omega), h.2 i hi]

theorem Segment.of_isPrefix {b' : Bytes} (h : Segment b off xs) (hb : b <+: b') :
    Segment b' off xs := by
  obtain ⟨t, rfl⟩ := hb
  exact h.append t

theorem segment_append_self (b xs : Bytes) : Segment (b ++ xs) b.length xs := by
  rw [segment_iff_getElem?]
  refine ⟨by rw [List.length_append], fun i _ => ?_⟩
  rw [List.getElem?_append_right (by omega), Nat.add_sub_cancel_left]

theorem Segment.trans {o : ℕ} (h : Segment b off xs) (h' : Segment xs o ys) :
    Segment b (off + o) ys := by
  rw [segment_iff_getElem?] at h h' ⊢
  refine ⟨by omega, fun i hi => ?_⟩
  rw [Nat.add_assoc, h.2 (o + i) (by omega), h'.2 i hi]

/-- The `k`-th of a sequence of pieces sits after the pieces before it. -/
theorem segment_flatten (ps : List Bytes) (k : ℕ) (hk : k < ps.length) :
    Segment ps.flatten ((ps.take k).map List.length).sum ps[k] := by
  have hsplit : ps.flatten = (ps.take k).flatten ++ (ps[k] ++ (ps.drop (k + 1)).flatten) := by
    rw [← List.flatten_cons, ← List.flatten_append, List.cons_getElem_drop_succ,
      List.take_append_drop]
  rw [hsplit, ← List.length_flatten]
  exact (segment_append_self _ _).left

theorem segment_flatMap_take {α : Type*} (f : α → Bytes) (xs : List α) (k : ℕ)
    (hk : k < xs.length) : Segment (xs.flatMap f) ((xs.take k).flatMap f).length (f xs[k]) := by
  have h := segment_flatten (xs.map f) k (by simpa using hk)
  rw [← List.map_take, ← List.length_flatten, List.getElem_map] at h
  exact h

/-- Pieces of one size are laid out at its multiples. -/
theorem segment_flatMap {α : Type*} (f : α → Bytes) (w : ℕ) (hw : ∀ a, (f a).length = w)
    (xs : List α) (k : ℕ) (hk : k < xs.length) : Segment (xs.flatMap f) (w * k) (f xs[k]) := by
  have h := segment_flatten (xs.map f) k (by simpa using hk)
  have hsum : (((xs.map f).take k).map List.length).sum = w * k := by
    rw [← List.map_take, List.map_map]
    have hconst : (List.map (List.length ∘ f) (xs.take k)) = List.replicate k w := by
      rw [List.eq_replicate_iff]
      refine ⟨by simp; omega, fun x hx => ?_⟩
      obtain ⟨a, _, rfl⟩ := List.mem_map.mp hx
      exact hw a
    rw [hconst, List.sum_replicate, smul_eq_mul, Nat.mul_comm]
  rw [hsum, List.getElem_map] at h
  exact h

section Record

variable {α : Type*} {b : Bytes} {off w : ℕ} {encode : α → Bytes} {decode : Bytes → α}
  (hdecode : ∀ a, decode (encode a) = a) (hw : ∀ a, (encode a).length = w)
include hdecode hw

theorem Segment.decode_slice {a : α} (h : Segment b off (encode a)) :
    decode (slice b off w) = a := by
  rw [← hw a, h.2, hdecode]

theorem Segment.decode_getElem {xs : List α} (h : Segment b off (xs.flatMap encode)) (k : ℕ)
    (hk : k < xs.length) : decode (slice b (off + w * k) w) = xs[k] :=
  (h.trans (segment_flatMap encode w hw xs k hk)).decode_slice hdecode hw

end Record

end Segment

/-- Overwrite the bytes from `off` on by `xs`. -/
def patch (b : Bytes) (off : ℕ) (xs : Bytes) : Bytes :=
  b.take off ++ xs ++ b.drop (off + xs.length)

theorem length_patch {b : Bytes} {off : ℕ} {xs : Bytes} (h : off + xs.length ≤ b.length) :
    (patch b off xs).length = b.length := by
  simp only [patch, List.length_append, List.length_take, List.length_drop]
  omega

theorem getElem?_patch {b : Bytes} {off : ℕ} {xs : Bytes} (h : off + xs.length ≤ b.length) (i : ℕ) :
    (patch b off xs)[i]? =
      if off ≤ i ∧ i < off + xs.length then xs[i - off]? else b[i]? := by
  have htake : (b.take off).length = off := by rw [List.length_take]; omega
  unfold patch
  split_ifs with hi
  · rw [List.append_assoc, List.getElem?_append_right (by omega), htake,
      List.getElem?_append_left (by omega)]
  · rcases Nat.lt_or_ge i off with hlt | hge
    · rw [List.append_assoc, List.getElem?_append_left (by omega), List.getElem?_take, if_pos hlt]
    · rw [List.getElem?_append_right (by rw [List.length_append]; omega), List.getElem?_drop,
        List.length_append, htake]
      congr 1
      omega

theorem segment_patch_self {b : Bytes} {off : ℕ} {xs : Bytes} (h : off + xs.length ≤ b.length) :
    Segment (patch b off xs) off xs := by
  rw [segment_iff_getElem?]
  refine ⟨by rw [length_patch h]; exact h, fun i hi => ?_⟩
  rw [getElem?_patch h, if_pos (by omega), Nat.add_sub_cancel_left]

/-- Overwriting a range keeps every segment outside of it. -/
theorem Segment.patch {b : Bytes} {off o : ℕ} {xs ys : Bytes} (hy : Segment b o ys)
    (h : off + xs.length ≤ b.length)
    (hdisjoint : o + ys.length ≤ off ∨ off + xs.length ≤ o) :
    Segment (patch b off xs) o ys := by
  rw [segment_iff_getElem?] at hy ⊢
  refine ⟨by rw [length_patch h]; exact hy.1, fun i hi => ?_⟩
  rw [getElem?_patch h, if_neg (by omega), hy.2 i hi]

theorem patch_patch {b : Bytes} {off : ℕ} (pre post : Bytes) {xs ys : Bytes}
    (h : off + (pre ++ xs ++ post).length ≤ b.length) (hlen : xs.length = ys.length) :
    patch (patch b off (pre ++ xs ++ post)) (off + pre.length) ys =
      patch b off (pre ++ ys ++ post) := by
  have hfront : (b.take off ++ pre).length = off + pre.length := by
    simp only [List.length_append, List.length_take] at h ⊢
    omega
  have hsplit : ∀ zs : Bytes, zs.length = xs.length → patch b off (pre ++ zs ++ post) =
      (b.take off ++ pre) ++ (zs ++ (post ++ b.drop (off + (pre ++ xs ++ post).length))) := by
    intro zs hzs
    simp [patch, hzs]
  rw [hsplit xs rfl, hsplit ys hlen.symm, patch, List.take_left' hfront, ← List.drop_drop,
    List.drop_left' hfront, List.drop_left' hlen, List.append_assoc]

/-- Copy `len` bytes from offset `off`; every one of them must exist. -/
def load (b : Bytes) (off len : ℕ) : Exec Bytes :=
  if off + len ≤ b.length then .ok (slice b off len) else .error (.outOfBounds off)

theorem load_eq_ok {b : Bytes} {off len : ℕ} {xs : Bytes} :
    load b off len = .ok xs ↔ off + len ≤ b.length ∧ slice b off len = xs := by
  unfold load
  split_ifs with h <;> simp [h]

theorem load_of_le {b : Bytes} {off len : ℕ} (h : off + len ≤ b.length) :
    load b off len = .ok (slice b off len) := if_pos h

theorem Segment.load {b : Bytes} {off len : ℕ} {xs : Bytes} (h : Segment b off xs)
    (hlen : xs.length = len) : load b off len = .ok xs := by
  subst hlen
  exact load_eq_ok.mpr h

def loadByte (b : Bytes) (off : ℕ) : Exec UInt8 := Exec.index b off

end Elfr.Library
