import Elfr.Library.MemoryBlock
import Elfr.Library.Runs
import Elfr.Library.Segments

/-!
# The growable buffer

`byte_buf.c` with its block of memory, its 64-bit sizes and its doubling loop. As long as
the contents stay within 2^63 bytes no size wraps, and the buffer is the list of what was
appended to it: all other cells of the block are as the allocation left them.
-/
namespace Elfr.Common

open Library MemoryBlock

/-- `struct byte_buf`; no block for the null pointer. -/
structure ByteBuf where
  data : MemoryBlock UInt8
  len : UInt64
  cap : UInt64

namespace ByteBuf

def empty : ByteBuf := ⟨[], 0, 0⟩

/-- One turn of the loop of `byte_buf_reserve`. -/
def reserveStep (needed newcap : UInt64) : Exec (UInt64 ⊕ UInt64) :=
  if newcap < needed then pure (.inl (newcap * 2)) else pure (.inr newcap)

/-- The capacity the loop starts from. -/
def firstCapacity (b : ByteBuf) : UInt64 := if b.cap ≠ 0 then b.cap * 2 else 4096

def reserve (fuel : ℕ) (b : ByteBuf) (extra : UInt64) : Exec ByteBuf :=
  if b.len + extra ≤ b.cap then pure b
  else do
    let newcap ← loop (reserveStep (b.len + extra)) fuel b.firstCapacity
    pure { b with data := realloc b.data newcap.toNat, cap := newcap }

def append (fuel : ℕ) (b : ByteBuf) (data : Bytes) : Exec (UInt64 × ByteBuf) := do
  let len := UInt64.ofNat data.length
  let b ← reserve fuel b len
  let off := b.len
  let block ← if len ≠ 0 then store b.data off.toNat data else pure b.data
  pure (off, { b with data := block, len := b.len + len })

def appendZeros (fuel : ℕ) (b : ByteBuf) (len : UInt64) : Exec (UInt64 × ByteBuf) := do
  let b ← reserve fuel b len
  let off := b.len
  let block ← store b.data off.toNat (List.replicate len.toNat 0)
  pure (off, { b with data := block, len := b.len + len })

def align (fuel : ℕ) (b : ByteBuf) (alignment : UInt64) : Exec ByteBuf := do
  let rem := b.len % alignment
  if rem ≠ 0 then
    let (_, b) ← appendZeros fuel b (alignment - rem)
    pure b
  else pure b

/-- The calls on a buffer. Alignment to nothing is left out, as it divides by zero. -/
inductive Call
  | append (data : Bytes)
  | appendZeros (len : UInt64)
  | align (alignment : UInt64) (positive : 0 < alignment)

/-- A call with what it returns. -/
def step (fuel : ℕ) (b : ByteBuf) : Call → Exec (Option UInt64 × ByteBuf)
  | .append data => do
    let (off, b) ← append fuel b data
    pure (some off, b)
  | .appendZeros len => do
    let (off, b) ← appendZeros fuel b len
    pure (some off, b)
  | .align alignment _ => do
    let b ← align fuel b alignment
    pure (none, b)

end ByteBuf

def padding (alignment len : ℕ) : ℕ := (alignment - len % alignment) % alignment

theorem padding_isLeast {alignment : ℕ} (h : 0 < alignment) (len : ℕ) :
    IsLeast {k | alignment ∣ len + k} (padding alignment len) := by
  have hlt := Nat.mod_lt len h
  constructor
  · change alignment ∣ len + padding alignment len
    rw [padding, Nat.dvd_iff_mod_eq_zero, Nat.add_mod_mod, ← Nat.mod_add_mod,
      Nat.add_sub_cancel' hlt.le, Nat.mod_self]
  · intro k hk
    rcases Nat.eq_zero_or_pos (len % alignment) with hzero | hpos
    · rw [padding, hzero, Nat.sub_zero, Nat.mod_self]
      exact Nat.zero_le k
    · rw [padding, Nat.mod_eq_of_lt (Nat.sub_lt h hpos), Nat.sub_le_iff_le_add']
      have hsum : alignment ∣ len % alignment + k := by
        rwa [Nat.dvd_iff_mod_eq_zero, Nat.mod_add_mod, ← Nat.dvd_iff_mod_eq_zero]
      exact Nat.le_of_dvd (Nat.add_pos_left hpos k) hsum

namespace ByteBuf

/-- What a call adds to contents of this length. -/
def Call.piece (len : ℕ) : Call → Bytes
  | .append data => data
  | .appendZeros n => List.replicate n.toNat 0
  | .align alignment _ => List.replicate (padding alignment.toNat len) 0

def extend (xs : Bytes) (call : Call) : Bytes := xs ++ call.piece xs.length

def contents (calls : List Call) : Bytes := calls.foldl extend []

/-- What a call returns if it appends at this offset. -/
def Call.returned (off : UInt64) : Call → Option UInt64
  | .align _ _ => none
  | _ => some off

/-- The buffer holds these bytes and has written no others. -/
structure Holds (b : ByteBuf) (xs : Bytes) : Prop where
  len : b.len.toNat = xs.length
  fits : xs.length ≤ b.cap.toNat
  data : b.data = filled xs b.cap.toNat
  capacity : b.cap = 0 ∨ ∃ k, b.cap.toNat = 4096 * 2 ^ k

/-- The loop ends, and up to then every turn doubles the capacity without wrapping. -/
def DoublesExactly (b : ByteBuf) (needed : UInt64) : Prop :=
  ∃ k, (∀ fuel > k, loop (reserveStep needed) fuel b.firstCapacity =
      .ok ((fun newcap => newcap * 2)^[k] b.firstCapacity)) ∧
    ∀ j ≤ k, 0 < ((fun newcap => newcap * 2)^[j] b.firstCapacity).toNat ∧
      ((fun newcap => newcap * 2)^[j] b.firstCapacity).toNat = b.firstCapacity.toNat * 2 ^ j

theorem toNat_doubled {c : UInt64} {k : ℕ} (h : c.toNat * 2 ^ k < 2 ^ 64) :
    ((fun newcap => newcap * 2)^[k] c).toNat = c.toNat * 2 ^ k := by
  induction k with
  | zero => simp
  | succ k ih =>
    rw [pow_succ, ← Nat.mul_assoc] at h ⊢
    rw [Function.iterate_succ_apply', UInt64.toNat_mul, ih (by omega)]
    exact Nat.mod_eq_of_lt h

theorem reserve_loop {c needed : UInt64} {m : ℕ} (hm : needed.toNat ≤ c.toNat * 2 ^ m)
    (hlt : c.toNat * 2 ^ m < 2 ^ 64) :
    ∃ k ≤ m, needed.toNat ≤ c.toNat * 2 ^ k ∧ ∀ fuel > k, loop (reserveStep needed) fuel c =
      .ok ((fun newcap => newcap * 2)^[k] c) := by
  obtain ⟨k, hk, henough, hfirst⟩ := exists_doublings hm
  have hexact : ∀ j ≤ k, ((fun newcap => newcap * 2)^[j] c).toNat = c.toNat * 2 ^ j := by
    intro j hj
    have hle : c.toNat * 2 ^ j ≤ c.toNat * 2 ^ m :=
      Nat.mul_le_mul_left _ (Nat.pow_le_pow_right Nat.two_pos (hj.trans hk))
    exact toNat_doubled (hle.trans_lt hlt)
  refine ⟨k, hk, henough, fun fuel hfuel => ?_⟩
  refine loop_path (fun j => (fun newcap => newcap * 2)^[j] c) k ?_ ?_ hfuel
  · have hge : ¬ (fun newcap => newcap * 2)^[k] c < needed := by
      rw [UInt64.lt_iff_toNat_lt, hexact k le_rfl]
      exact Nat.not_lt.mpr henough
    exact if_neg hge
  · intro j hj
    have hless : (fun newcap => newcap * 2)^[j] c < needed := by
      rw [UInt64.lt_iff_toNat_lt, hexact j hj.le]
      exact hfirst j hj
    rw [Function.iterate_succ_apply']
    exact if_pos hless

theorem Holds.firstCapacity {b : ByteBuf} {xs : Bytes} (h : Holds b xs)
    (hlt : b.cap.toNat < 2 ^ 63) : ∃ s ≤ 51, b.firstCapacity.toNat = 4096 * 2 ^ s := by
  unfold ByteBuf.firstCapacity
  rcases h.capacity with hzero | ⟨k, hk⟩
  · exact ⟨0, by omega, by simp [hzero]⟩
  · have hpos : b.cap ≠ 0 := by
      rintro hzero
      rw [hzero] at hk
      simp at hk
    have hk51 : k < 51 := by
      rw [hk] at hlt
      by_contra hge
      have hpow := Nat.pow_le_pow_right Nat.two_pos (not_lt.mp hge)
      omega
    refine ⟨k + 1, hk51, ?_⟩
    have hpow := Nat.pow_le_pow_right Nat.two_pos (Nat.le_of_lt_succ hk51 : k ≤ 50)
    have hdouble : 4096 * 2 ^ (k + 1) = 4096 * 2 ^ k * 2 := by ring
    rw [if_pos hpos, UInt64.toNat_mul, hk, hdouble]
    exact Nat.mod_eq_of_lt (show 4096 * 2 ^ k * 2 < 2 ^ 64 by omega)

section Reserve

variable {b : ByteBuf} {xs : Bytes} (h : Holds b xs) {extra : UInt64}
  (hle : xs.length + extra.toNat ≤ 2 ^ 63)
include h hle

theorem Holds.toNat_needed : (b.len + extra).toNat = xs.length + extra.toNat := by
  rw [UInt64.toNat_add, h.len]
  exact Nat.mod_eq_of_lt (by omega)

theorem Holds.fits_iff : b.len + extra ≤ b.cap ↔ xs.length + extra.toNat ≤ b.cap.toNat := by
  rw [UInt64.le_iff_toNat_le, h.toNat_needed hle]

theorem Holds.grows (hsmall : ¬ b.len + extra ≤ b.cap) :
    ∃ k s, s + k ≤ 51 ∧ b.firstCapacity.toNat = 4096 * 2 ^ s ∧
      xs.length + extra.toNat ≤ b.firstCapacity.toNat * 2 ^ k ∧
      ∀ fuel > k, loop (reserveStep (b.len + extra)) fuel b.firstCapacity =
        .ok ((fun newcap => newcap * 2)^[k] b.firstCapacity) := by
  rw [h.fits_iff hle, Nat.not_le] at hsmall
  obtain ⟨s, hs, hfirst⟩ := h.firstCapacity (hsmall.trans_le hle)
  have hmax : b.firstCapacity.toNat * 2 ^ (51 - s) = 2 ^ 63 := by
    rw [hfirst, Nat.mul_assoc, ← pow_add, Nat.add_sub_cancel' hs]
    norm_num
  obtain ⟨k, hk, henough, hloop⟩ := reserve_loop
    (show (b.len + extra).toNat ≤ b.firstCapacity.toNat * 2 ^ (51 - s) by
      rw [h.toNat_needed hle, hmax]
      exact hle) (by rw [hmax]; norm_num)
  rw [h.toNat_needed hle] at henough
  exact ⟨k, s, by omega, hfirst, henough, hloop⟩

theorem Holds.doublesExactly (hsmall : ¬ b.len + extra ≤ b.cap) :
    DoublesExactly b (b.len + extra) := by
  obtain ⟨k, s, hsum, hfirst, -, hloop⟩ := h.grows hle hsmall
  refine ⟨k, hloop, fun j hj => ?_⟩
  have hvalue : b.firstCapacity.toNat * 2 ^ j = 4096 * 2 ^ (s + j) := by
    rw [hfirst, pow_add, Nat.mul_assoc]
  have hpow : 2 ^ (s + j) ≤ 2 ^ 51 := Nat.pow_le_pow_right Nat.two_pos (by omega)
  have hexact := toNat_doubled (c := b.firstCapacity) (k := j) (by omega)
  have hpos := Nat.two_pow_pos (s + j)
  exact ⟨by omega, hexact⟩

/-- What was held is held, with room for as many more. -/
theorem Holds.reserve {fuel : ℕ} (hfuel : 52 ≤ fuel) :
    ∃ b', reserve fuel b extra = .ok b' ∧ Holds b' xs ∧ b'.len = b.len ∧
      xs.length + extra.toNat ≤ b'.cap.toNat ∧ b.cap.toNat ≤ b'.cap.toNat := by
  unfold ByteBuf.reserve
  by_cases hsmall : b.len + extra ≤ b.cap
  · rw [if_pos hsmall]
    exact ⟨b, rfl, h, rfl, (h.fits_iff hle).mp hsmall, le_rfl⟩
  · obtain ⟨k, s, hsum, hfirst, henough, hloop⟩ := h.grows hle hsmall
    have hvalue : b.firstCapacity.toNat * 2 ^ k = 4096 * 2 ^ (s + k) := by
      rw [hfirst, pow_add, Nat.mul_assoc]
    have hpow : 2 ^ (s + k) ≤ 2 ^ 51 := Nat.pow_le_pow_right Nat.two_pos hsum
    have hexact := toNat_doubled (c := b.firstCapacity) (k := k) (by omega)
    rw [if_neg hsmall, hloop fuel (by omega), Exec.ok_bind]
    generalize (fun newcap => newcap * 2)^[k] b.firstCapacity = newcap at hexact
    rw [h.fits_iff hle] at hsmall
    refine ⟨_, rfl, ⟨h.len, ?_, ?_, .inr ⟨s + k, hexact.trans hvalue⟩⟩, rfl, ?_, ?_⟩
    · change xs.length ≤ newcap.toNat
      omega
    · change realloc b.data newcap.toNat = _
      rw [h.data, realloc_filled h.fits]
      omega
    · change _ ≤ newcap.toNat
      omega
    · change _ ≤ newcap.toNat
      omega

end Reserve

section Calls

variable {b : ByteBuf} {xs : Bytes} (h : Holds b xs)
include h

/-- With room for them, bytes are stored behind those that are held. -/
theorem Holds.store {ys : Bytes} (hroom : xs.length + ys.length ≤ b.cap.toNat) :
    store b.data b.len.toNat ys = .ok (filled (xs ++ ys) b.cap.toNat) ∧
      Holds { b with data := filled (xs ++ ys) b.cap.toNat,
                     len := b.len + UInt64.ofNat ys.length } (xs ++ ys) := by
  have hcap := b.cap.toNat_lt
  refine ⟨?_, ?_, ?_, rfl, h.capacity⟩
  · rw [h.len, h.data]
    exact store_filled hroom
  · rw [UInt64.toNat_add, h.len, UInt64.toNat_ofNat', Nat.mod_eq_of_lt (by omega),
      Nat.mod_eq_of_lt (by omega), List.length_append]
  · rwa [List.length_append]

variable {fuel : ℕ} (hfuel : 52 ≤ fuel)
include hfuel

theorem Holds.append {data : Bytes} (hle : xs.length + data.length ≤ 2 ^ 63) :
    ∃ b', append fuel b data = .ok (b.len, b') ∧ Holds b' (xs ++ data) ∧
      b.cap.toNat ≤ b'.cap.toNat := by
  have hlen : (UInt64.ofNat data.length).toNat = data.length := by
    rw [UInt64.toNat_ofNat', Nat.mod_eq_of_lt (by omega)]
  obtain ⟨b', hreserve, hholds, hsame, hroom, hcap⟩ := h.reserve (hlen ▸ hle) hfuel
  obtain ⟨hstore, hafter⟩ := hholds.store (hlen ▸ hroom)
  refine ⟨_, ?_, hafter, hcap⟩
  simp only [ByteBuf.append, hreserve, Exec.ok_bind]
  split_ifs with hzero
  · rw [hstore, ← hsame]
    rfl
  · have hnil : data = [] := by
      rw [← List.length_eq_zero_iff, ← hlen, not_not.mp hzero]
      rfl
    subst hnil
    rw [← hsame, hholds.data, List.append_nil]
    rfl

theorem Holds.appendZeros {n : UInt64} (hle : xs.length + n.toNat ≤ 2 ^ 63) :
    ∃ b', appendZeros fuel b n = .ok (b.len, b') ∧ Holds b' (xs ++ List.replicate n.toNat 0) ∧
      b.cap.toNat ≤ b'.cap.toNat := by
  obtain ⟨b', hreserve, hholds, hsame, hroom, hcap⟩ := h.reserve hle hfuel
  have hzeros : (List.replicate n.toNat (0 : UInt8)).length = n.toNat := List.length_replicate
  obtain ⟨hstore, hafter⟩ := hholds.store (hzeros ▸ hroom)
  rw [List.length_replicate, UInt64.ofNat_toNat] at hafter
  refine ⟨_, ?_, hafter, hcap⟩
  simp only [ByteBuf.appendZeros, hreserve, Exec.ok_bind, hstore, ← hsame]
  rfl

theorem Holds.align {alignment : UInt64} (hpos : 0 < alignment)
    (hle : xs.length + padding alignment.toNat xs.length ≤ 2 ^ 63) :
    ∃ b', align fuel b alignment = .ok b' ∧
      Holds b' (xs ++ List.replicate (padding alignment.toNat xs.length) 0) ∧
      b.cap.toNat ≤ b'.cap.toNat := by
  have hrem : (b.len % alignment).toNat = xs.length % alignment.toNat := by
    rw [UInt64.toNat_mod, h.len]
  have hlt : xs.length % alignment.toNat < alignment.toNat :=
    Nat.mod_lt _ (UInt64.lt_iff_toNat_lt.mp hpos)
  unfold ByteBuf.align
  by_cases hzero : b.len % alignment = 0
  · have hpadding : padding alignment.toNat xs.length = 0 := by
      rw [padding, ← hrem, hzero]
      exact Nat.mod_self _
    rw [if_neg (not_not.mpr hzero), hpadding, List.replicate_zero, List.append_nil]
    exact ⟨b, rfl, h, le_rfl⟩
  · have hne : xs.length % alignment.toNat ≠ 0 := by
      rw [← hrem]
      exact fun heq => hzero (UInt64.toNat_inj.mp heq)
    have hpadding : (alignment - b.len % alignment).toNat = padding alignment.toNat xs.length := by
      have hrem_le : b.len % alignment ≤ alignment := by
        rw [UInt64.le_iff_toNat_le, hrem]
        exact hlt.le
      have hless : alignment.toNat - xs.length % alignment.toNat < alignment.toNat := by omega
      rw [UInt64.toNat_sub_of_le _ _ hrem_le, hrem, padding, Nat.mod_eq_of_lt hless]
    obtain ⟨b', hzeros, hholds, hcap⟩ := h.appendZeros hfuel (hpadding ▸ hle)
    rw [if_pos hzero, hzeros, ← hpadding]
    exact ⟨b', rfl, hholds, hcap⟩

theorem Holds.step {call : Call} (hle : (extend xs call).length ≤ 2 ^ 63) :
    ∃ b', step fuel b call = .ok (call.returned b.len, b') ∧ Holds b' (extend xs call) ∧
      b.cap.toNat ≤ b'.cap.toNat := by
  rw [extend, List.length_append] at hle
  cases call with
  | append data =>
    obtain ⟨b', hrun, hholds, hcap⟩ :=
      h.append hfuel (show xs.length + data.length ≤ 2 ^ 63 from hle)
    exact ⟨b', by rw [ByteBuf.step, hrun]; rfl, hholds, hcap⟩
  | appendZeros n =>
    obtain ⟨b', hrun, hholds, hcap⟩ := h.appendZeros hfuel (n := n)
      (by rwa [Call.piece, List.length_replicate] at hle)
    exact ⟨b', by rw [ByteBuf.step, hrun]; rfl, hholds, hcap⟩
  | align alignment hpos =>
    obtain ⟨b', hrun, hholds, hcap⟩ := h.align hfuel hpos
      (by rwa [Call.piece, List.length_replicate] at hle)
    exact ⟨b', by rw [ByteBuf.step, hrun]; rfl, hholds, hcap⟩

end Calls

/-- A turn on a buffer that held `xs`: it returns the old length, appends its piece, and every
other cell of the block is as `realloc` left it. -/
structure Refines (xs : Bytes) (t : Turn ByteBuf Call (Option UInt64)) : Prop where
  before : Holds t.before xs
  after : Holds t.after (extend xs t.call)
  reply : t.reply = t.call.returned t.before.len
  doubles : ¬ t.before.len + UInt64.ofNat (t.call.piece xs.length).length ≤ t.before.cap →
    DoublesExactly t.before (t.before.len + UInt64.ofNat (t.call.piece xs.length).length)
  frame : ∀ i, i < t.before.len.toNat ∨ t.after.len.toNat ≤ i →
    t.after.data[i]? = (realloc t.before.data t.after.cap.toNat)[i]?

theorem Holds.refines {b : ByteBuf} {xs : Bytes} (h : Holds b xs) {fuel : ℕ} (hfuel : 52 ≤ fuel)
    {call : Call} (hle : (extend xs call).length ≤ 2 ^ 63) :
    ∃ reply b', ByteBuf.step fuel b call = .ok (reply, b') ∧ Refines xs ⟨b, call, reply, b'⟩ := by
  obtain ⟨b', hstep, hholds, hcap⟩ := h.step hfuel hle
  have hlength : (extend xs call).length = xs.length + (call.piece xs.length).length :=
    List.length_append
  have hpiece : (UInt64.ofNat (call.piece xs.length).length).toNat =
      (call.piece xs.length).length := by
    rw [UInt64.toNat_ofNat', Nat.mod_eq_of_lt (by omega)]
  have htotal : xs.length + (UInt64.ofNat (call.piece xs.length).length).toNat ≤ 2 ^ 63 := by
    omega
  refine ⟨_, b', hstep, h, hholds, rfl, h.doublesExactly htotal, fun i hi => ?_⟩
  change i < b.len.toNat ∨ b'.len.toNat ≤ i at hi
  change b'.data[i]? = (realloc b.data b'.cap.toNat)[i]?
  rw [h.len, hholds.len] at hi
  rw [hholds.data, h.data, realloc_filled h.fits hcap]
  rcases hi with hold | hnew
  · rw [filled, filled, extend, List.map_append, List.append_assoc,
      List.getElem?_append_left (by rwa [List.length_map]),
      List.getElem?_append_left (by rwa [List.length_map])]
  · rw [getElem?_filled_of_ge hnew, getElem?_filled_of_ge (by omega)]

theorem length_le_extend (calls : List Call) (xs : Bytes) :
    xs.length ≤ (calls.foldl extend xs).length := by
  induction calls generalizing xs with
  | nil => exact Nat.le_refl _
  | cons call calls ih =>
    have hone : xs.length ≤ (extend xs call).length := by
      rw [extend, List.length_append]
      exact Nat.le_add_right _ _
    exact hone.trans (ih _)

theorem Holds.turns {b : ByteBuf} {xs : Bytes} (h : Holds b xs) {fuel : ℕ} (hfuel : 52 ≤ fuel)
    {calls : List Call} (hle : (calls.foldl extend xs).length ≤ 2 ^ 63) :
    ∃ ts, Library.turns (ByteBuf.step fuel) b calls = .ok ts ∧ ts.map (·.call) = calls ∧
      ∀ i t, ts[i]? = some t → Refines ((calls.take i).foldl extend xs) t := by
  induction calls generalizing b xs with
  | nil => exact ⟨[], rfl, rfl, fun i t ht => by simp at ht⟩
  | cons call calls ih =>
    obtain ⟨reply, b', hstep, hrefines⟩ :=
      h.refines hfuel ((length_le_extend calls (extend xs call)).trans hle)
    obtain ⟨ts, hturns, hcalls, hall⟩ := ih hrefines.after hle
    refine ⟨⟨b, call, reply, b'⟩ :: ts, ?_, by rw [List.map_cons, hcalls], fun i t ht => ?_⟩
    · rw [Library.turns, hstep, Exec.ok_bind]
      dsimp only
      rw [hturns]
      rfl
    · cases i with
      | zero =>
        obtain rfl := Option.some.inj ht
        exact hrefines
      | succ i => exact hall i t ht

def run (fuel : ℕ) : ByteBuf → List Call → Exec ByteBuf
  | b, [] => pure b
  | b, call :: calls => do
    let (_, b) ← step fuel b call
    run fuel b calls

theorem Holds.run {b : ByteBuf} {xs : Bytes} (h : Holds b xs) {fuel : ℕ} (hfuel : 52 ≤ fuel)
    {calls : List Call} (hle : (calls.foldl extend xs).length ≤ 2 ^ 63) :
    ∃ b', run fuel b calls = .ok b' ∧ Holds b' (calls.foldl extend xs) := by
  induction calls generalizing b xs with
  | nil => exact ⟨b, rfl, h⟩
  | cons call calls ih =>
    obtain ⟨b', hstep, hholds, -⟩ :=
      h.step hfuel ((length_le_extend calls (extend xs call)).trans hle)
    obtain ⟨final, hrun, hfinal⟩ := ih hholds hle
    exact ⟨final, by rw [ByteBuf.run, hstep]; exact hrun, hfinal⟩

theorem holds_empty : Holds empty [] := ⟨rfl, Nat.zero_le _, rfl, .inl rfl⟩

/-- **The buffer is the list.** Over every sequence of calls whose pieces are together at most
2^63 bytes: all of them return, the loop within 52 turns, and each refines the append of its
piece; the padding of an alignment is the shortest that reaches a multiple. -/
theorem byte_buf_refines (calls : List Call) (hsize : (contents calls).length ≤ 2 ^ 63) :
    (∀ fuel ≥ 52, ∃ ts, turns (step fuel) empty calls = .ok ts ∧ ts.map (·.call) = calls ∧
      ∀ i t, ts[i]? = some t → Refines (contents (calls.take i)) t) ∧
    ∀ (len : ℕ) (alignment : UInt64) (positive : 0 < alignment), ∃ n,
      (Call.align alignment positive).piece len = List.replicate n 0 ∧
      IsLeast {k | alignment.toNat ∣ len + k} n :=
  ⟨fun _ hfuel => holds_empty.turns hfuel hsize,
    fun len _ positive => ⟨_, rfl, padding_isLeast (UInt64.lt_iff_toNat_lt.mp positive) len⟩⟩

/-- Three bytes at the start of a block, and more zeros than fit the first capacity. -/
theorem byte_buf_refines_small :
    ∃ ts, turns (step 52) empty [.append [1, 2, 3], .align 8 (by decide), .appendZeros 5000] =
        .ok ts ∧ ts.length = 3 := by
  obtain ⟨ts, hturns, hcalls, -⟩ := (byte_buf_refines
    [.append [1, 2, 3], .align 8 (by decide), .appendZeros 5000] (by decide +kernel)).1 52 le_rfl
  exact ⟨ts, hturns, by rw [← List.length_map, hcalls]; rfl⟩

end ByteBuf

end Elfr.Common
