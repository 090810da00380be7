import Mathlib.Data.List.TakeDrop
import Mathlib.Tactic.SplitIfs

/-!
# Buffered streams over a device that fills up

A write takes its data into a buffer and hands parts of it over to the device, which
accepts a first number of elements and refuses all others. When and how much is handed
over is the buffering policy's choice; only closing the stream hands over everything. What
reaches the device is a prefix of the data in any case. What the policy decides is who
learns that the prefix is too short: the write, or nobody before the close.
-/
namespace Elfr.Library.OutputStream

variable {α : Type*}

/-- What the device holds, what waits in the buffer, and whether the device refused some. -/
structure BufferedStream (α : Type*) where
  delivered : List α
  pending : List α
  failed : Bool

def opened : BufferedStream α := ⟨[], [], false⟩

/-- A device and the policy of the stream in front of it. After each element taken, `handOver`
says how many of the waiting ones go to the device; `shortCount` is what a failed write of so
many elements reports. -/
structure Device (α : Type*) where
  capacity : ℕ
  handOver : BufferedStream α → ℕ
  shortCount : ℕ → ℕ
  shortCount_lt : ∀ n, 0 < n → shortCount n < n

namespace BufferedStream

/-- Hand over `n` of the waiting elements, of which the device takes what fits. -/
def flush (capacity n : ℕ) (s : BufferedStream α) : BufferedStream α :=
  let offered := min n s.pending.length
  let accepted := min offered (capacity - s.delivered.length)
  ⟨s.delivered ++ s.pending.take accepted, s.pending.drop accepted,
    s.failed || decide (accepted < offered)⟩

def put (s : BufferedStream α) (x : α) : BufferedStream α := { s with pending := s.pending ++ [x] }

def taken (s : BufferedStream α) : List α := s.delivered ++ s.pending

/-- The device holds no more than it accepts, and is full if it refused some. -/
structure Within (capacity : ℕ) (s : BufferedStream α) : Prop where
  le : s.delivered.length ≤ capacity
  full : s.failed = true → s.delivered.length = capacity

section Flush

variable (capacity n : ℕ) (s : BufferedStream α)

theorem taken_flush : (s.flush capacity n).taken = s.taken := by
  rw [taken, flush, List.append_assoc, List.take_append_drop]
  rfl

theorem length_delivered_flush : (s.flush capacity n).delivered.length =
    s.delivered.length + min (min n s.pending.length) (capacity - s.delivered.length) := by
  simp only [flush, List.length_append, List.length_take]
  omega

theorem failed_flush : (s.flush capacity n).failed = true ↔ s.failed = true ∨
    capacity - s.delivered.length < min n s.pending.length := by
  simp only [flush, Bool.or_eq_true, decide_eq_true_eq]
  refine or_congr_right ?_
  omega

variable {capacity n s}

theorem flush_of_room (h : min n s.pending.length ≤ capacity - s.delivered.length) :
    s.flush capacity n = ⟨s.delivered ++ s.pending.take n, s.pending.drop n, s.failed⟩ := by
  have hoffered : decide (min n s.pending.length < min n s.pending.length) = false :=
    decide_eq_false (Nat.lt_irrefl _)
  simp only [flush, Nat.min_eq_left h, hoffered, Bool.or_false]
  rcases Nat.le_total n s.pending.length with hn | hn
  · rw [Nat.min_eq_left hn]
  · rw [Nat.min_eq_right hn, List.take_length, List.drop_length, List.take_of_length_le hn,
      List.drop_of_length_le hn]

/-- When all is handed over, the device holds what fits of all that was taken. -/
theorem Within.delivered_flush (h : s.Within capacity) :
    (s.flush capacity s.pending.length).delivered = s.taken.take capacity := by
  rw [flush, taken, List.take_append, List.take_of_length_le h.le, Nat.min_self]
  rcases Nat.le_total s.pending.length (capacity - s.delivered.length) with hfits | hshort
  · rw [Nat.min_eq_left hfits, List.take_length, List.take_of_length_le hfits]
  · rw [Nat.min_eq_right hshort]

theorem Within.flush (h : s.Within capacity) (n : ℕ) : (s.flush capacity n).Within capacity := by
  have hle := h.le
  have hlength := length_delivered_flush capacity n s
  refine ⟨by omega, fun hfailed => ?_⟩
  rcases (failed_flush capacity n s).mp hfailed with hbefore | hrefused
  · have hfull := h.full hbefore
    omega
  · omega

theorem taken_put (x : α) : (s.put x).taken = s.taken ++ [x] := (List.append_assoc _ _ _).symm

end Flush

end BufferedStream

namespace Device

open BufferedStream

variable (d : Device α)

def putOne (s : BufferedStream α) (x : α) : BufferedStream α :=
  (s.put x).flush d.capacity (d.handOver (s.put x))

/-- The stream after a write, which stops where the device refused an element. -/
def putAll (s : BufferedStream α) : List α → BufferedStream α
  | [] => s
  | x :: xs => if (d.putOne s x).failed then d.putOne s x else putAll (d.putOne s x) xs

/-- `fwrite`: the number of elements that it reports as written, and the stream. -/
def fwrite (s : BufferedStream α) (xs : List α) : ℕ × BufferedStream α :=
  let s := d.putAll s xs
  (if s.failed then d.shortCount xs.length else xs.length, s)

/-- `fclose`: whether it succeeds, and what the device holds then. -/
def fclose (s : BufferedStream α) : Bool × List α :=
  let s := s.flush d.capacity s.pending.length
  (!s.failed, s.delivered)

section Delivered

variable {d} {s : BufferedStream α}

theorem taken_putOne (x : α) : (d.putOne s x).taken = s.taken ++ [x] := by
  rw [putOne, taken_flush, taken_put]

theorem within_putOne (h : s.Within d.capacity) (x : α) : (d.putOne s x).Within d.capacity :=
  have hput : (s.put x).Within d.capacity := ⟨h.le, h.full⟩
  hput.flush _

theorem within_putAll (h : s.Within d.capacity) (xs : List α) :
    (d.putAll s xs).Within d.capacity := by
  induction xs generalizing s with
  | nil => exact h
  | cons x xs ih =>
    unfold putAll
    split_ifs with hfailed
    · exact within_putOne h x
    · exact ih (within_putOne h x)

/-- A write takes a prefix of its data, and all of it unless the device refused some. -/
theorem taken_putAll (xs : List α) : ∃ ys, ys <+: xs ∧ (d.putAll s xs).taken = s.taken ++ ys ∧
    ((d.putAll s xs).failed = false → ys = xs) := by
  induction xs generalizing s with
  | nil => exact ⟨[], List.prefix_refl _, (List.append_nil _).symm, fun _ => rfl⟩
  | cons x xs ih =>
    unfold putAll
    split_ifs with hfailed
    · refine ⟨[x], ⟨xs, rfl⟩, taken_putOne x, fun h => ?_⟩
      exact absurd (hfailed.symm.trans h) Bool.noConfusion
    · obtain ⟨ys, hprefix, htaken, hall⟩ := ih (s := d.putOne s x)
      refine ⟨x :: ys, List.cons_prefix_cons.mpr ⟨rfl, hprefix⟩, ?_, fun h => ?_⟩
      · rw [htaken, taken_putOne, List.append_assoc]
        rfl
      · rw [hall h]

theorem within_opened : (opened : BufferedStream α).Within d.capacity :=
  ⟨Nat.zero_le _, fun h => absurd h Bool.false_ne_true⟩

/-- A stream that is written and closed leaves on the device what fits of the data. -/
theorem fclose_putAll (xs : List α) :
    (d.fclose (d.putAll opened xs)).2 = xs.take d.capacity := by
  obtain ⟨ys, hprefix, htaken, hall⟩ := taken_putAll (d := d) (s := opened) xs
  have hwithin := within_putAll (within_opened (d := d)) xs
  have hclosed := hwithin.delivered_flush
  rw [htaken] at hclosed
  refine hclosed.trans ?_
  change ys.take d.capacity = _
  cases hfailed : (d.putAll opened xs).failed with
  | false => rw [hall hfailed]
  | true =>
    have hlength := congrArg List.length htaken
    rw [taken, List.length_append, hwithin.full hfailed] at hlength
    have hys : d.capacity ≤ ys.length := hlength ▸ Nat.le_add_right _ _
    rw [List.prefix_iff_eq_take.mp hprefix, List.take_take, Nat.min_eq_left hys]

end Delivered

/-- The same policy in front of another device. -/
def withCapacity (n : ℕ) : Device α := { d with capacity := n }

/-- How much of `xs` goes to the device before the write returns, if there is room for all. -/
def eager (xs : List α) : ℕ := ((d.withCapacity xs.length).putAll opened xs).delivered.length

section Notices

variable {d} {s : BufferedStream α}

theorem length_delivered_putAll (s : BufferedStream α) (xs : List α) :
    s.delivered.length ≤ (d.putAll s xs).delivered.length := by
  induction xs generalizing s with
  | nil => exact Nat.le_refl _
  | cons x xs ih =>
    have hone : s.delivered.length ≤ (d.putOne s x).delivered.length :=
      (length_delivered_flush _ _ (s.put x)).symm ▸ Nat.le_add_right _ _
    unfold putAll
    split_ifs
    · exact hone
    · exact Nat.le_trans hone (ih _)

/-- With room for all that was taken, an element goes where the policy says. -/
theorem putOne_of_room (x : α) (hroom : s.taken.length < d.capacity) :
    d.putOne s x = ⟨s.delivered ++ (s.put x).pending.take (d.handOver (s.put x)),
      (s.put x).pending.drop (d.handOver (s.put x)), s.failed⟩ := by
  have htaken : (s.put x).taken.length = s.taken.length + 1 := by
    rw [taken_put, List.length_append, List.length_singleton]
  have htotal : (s.put x).taken.length = s.delivered.length + (s.put x).pending.length :=
    List.length_append
  refine flush_of_room ?_
  change _ ≤ d.capacity - s.delivered.length
  omega

/-- One element: in front of the smaller device nothing changes, or that device refuses. -/
theorem putOne_withCapacity {n : ℕ} (x : α) (hs : s.failed = false)
    (hle : s.delivered.length ≤ d.capacity) (hroom : s.taken.length < n) :
    ((d.withCapacity n).putOne s x).failed = false ∧
      (((d.withCapacity n).putOne s x).delivered.length ≤ d.capacity →
        d.putOne s x = (d.withCapacity n).putOne s x) ∧
      (d.capacity < ((d.withCapacity n).putOne s x).delivered.length →
        (d.putOne s x).failed = true) := by
  have hlarge : (d.withCapacity n).putOne s x =
      ⟨s.delivered ++ (s.put x).pending.take (d.handOver (s.put x)),
        (s.put x).pending.drop (d.handOver (s.put x)), s.failed⟩ := putOne_of_room x hroom
  have hlength : ((d.withCapacity n).putOne s x).delivered.length =
      s.delivered.length + min (d.handOver (s.put x)) (s.put x).pending.length := by
    rw [hlarge, List.length_append, List.length_take]
  refine ⟨hlarge ▸ hs, fun hfits => ?_, fun hover => ?_⟩
  · rw [hlarge]
    refine flush_of_room ?_
    change _ ≤ d.capacity - s.delivered.length
    omega
  · refine (failed_flush _ _ _).mpr (.inr ?_)
    change d.capacity - s.delivered.length < _
    omega

/-- Up to the end of the smaller device a write runs as in front of the larger one, and it
fails exactly if it runs into that end. -/
theorem putAll_withCapacity {n : ℕ} (xs : List α) (hs : s.failed = false)
    (hle : s.delivered.length ≤ d.capacity) (hroom : s.taken.length + xs.length ≤ n) :
    (d.putAll s xs).failed = true ↔
      d.capacity < ((d.withCapacity n).putAll s xs).delivered.length := by
  induction xs generalizing s with
  | nil => exact iff_of_false (by simp [putAll, hs]) (Nat.not_lt.mpr hle)
  | cons x xs ih =>
    rw [List.length_cons] at hroom
    obtain ⟨hlarge, hsame, hrefused⟩ := putOne_withCapacity x hs hle (n := n) (by omega)
    have hlonger : ((d.withCapacity n).putAll s (x :: xs)) =
        (d.withCapacity n).putAll ((d.withCapacity n).putOne s x) xs := by
      rw [putAll, if_neg (by simp [hlarge])]
    rw [hlonger, putAll]
    rcases Nat.lt_or_ge d.capacity ((d.withCapacity n).putOne s x).delivered.length with hlt | hge
    · rw [if_pos (hrefused hlt)]
      exact iff_of_true (hrefused hlt) (Nat.lt_of_lt_of_le hlt (length_delivered_putAll _ _))
    · rw [hsame hge, if_neg (by simp [hlarge])]
      refine ih hlarge hge ?_
      rw [taken_putOne, List.length_append, List.length_singleton]
      omega

theorem failed_putAll (xs : List α) :
    (d.putAll opened xs).failed = true ↔ d.capacity < d.eager xs :=
  putAll_withCapacity xs rfl (Nat.zero_le _) (Nat.le_of_eq (Nat.zero_add _))

/-- A write reports all its data exactly if none of what it handed over was refused. -/
theorem fwrite_eq_length (xs : List α) (hxs : xs ≠ []) :
    (d.fwrite opened xs).1 = xs.length ↔ d.eager xs ≤ d.capacity := by
  have hshort := d.shortCount_lt xs.length (List.length_pos_iff.mpr hxs)
  rw [← Nat.not_lt, ← failed_putAll, fwrite]
  cases (d.putAll opened xs).failed with
  | false => simp
  | true => simpa using Nat.ne_of_lt hshort

theorem eager_le (xs : List α) : d.eager xs ≤ xs.length :=
  (within_putAll (d := d.withCapacity xs.length) within_opened xs).le

theorem fwrite_of_room {xs : List α} (hroom : xs.length ≤ d.capacity) :
    (d.fwrite opened xs).1 = xs.length := by
  cases xs with
  | nil => rfl
  | cons x xs =>
    rw [fwrite_eq_length (x :: xs) (List.cons_ne_nil x xs)]
    exact Nat.le_trans (eager_le (x :: xs)) hroom

end Notices

/-- The buffer is emptied whenever it holds a whole block. -/
def blocks (capacity block : ℕ) : Device α where
  capacity := capacity
  handOver s := if s.pending.length = block then block else 0
  shortCount _ := 0
  shortCount_lt _ h := h

/-- Whole blocks are delivered, and less than a block waits. -/
def Blocked (block : ℕ) (s : BufferedStream α) : Prop :=
  block ∣ s.delivered.length ∧ s.pending.length < block

theorem blocked_putOne {capacity block : ℕ} {s : BufferedStream α} (h : Blocked block s) (x : α)
    (hroom : s.taken.length < capacity) : Blocked block ((blocks capacity block).putOne s x) := by
  obtain ⟨hdvd, hlt⟩ := h
  have hlength : (s.put x).pending.length = s.pending.length + 1 := by
    rw [put, List.length_append, List.length_singleton]
  have hhand : (blocks capacity block).handOver (s.put x) =
    if (s.put x).pending.length = block then block else 0 := rfl
  rw [putOne_of_room x hroom, hhand]
  split_ifs with hfull
  · refine ⟨?_, ?_⟩
    · rw [List.length_append, List.length_take, hfull, Nat.min_self]
      exact Nat.dvd_add hdvd (Nat.dvd_refl _)
    · rw [List.length_drop, hfull, Nat.sub_self]
      omega
  · refine ⟨by simpa using hdvd, ?_⟩
    change (s.put x).pending.length < block
    omega

theorem blocked_putAll {capacity block : ℕ} {s : BufferedStream α} (h : Blocked block s)
    (xs : List α) (hroom : s.taken.length + xs.length ≤ capacity) :
    Blocked block ((blocks capacity block).putAll s xs) := by
  induction xs generalizing s with
  | nil => exact h
  | cons x xs ih =>
    rw [List.length_cons] at hroom
    have hone : Blocked block ((blocks capacity block).putOne s x) :=
      blocked_putOne h x (by omega)
    unfold putAll
    split_ifs
    · exact hone
    · refine ih hone ?_
      rw [taken_putOne, List.length_append, List.length_singleton]
      omega

/-- Block by block, all but the last part of the data is handed over at once. -/
theorem eager_blocks (capacity : ℕ) {block : ℕ} (hblock : 0 < block) (xs : List α) :
    (blocks capacity block).eager xs = xs.length / block * block := by
  have hle : ((blocks xs.length block).putAll opened xs).delivered.length ≤ xs.length :=
    (within_putAll within_opened xs).le
  have hfailed : ((blocks xs.length block).putAll opened xs).failed = false := by
    rw [← Bool.not_eq_true, failed_putAll]
    exact Nat.not_lt.mpr hle
  obtain ⟨ys, -, htaken, hall⟩ := taken_putAll (d := blocks xs.length block) (s := opened) xs
  rw [hall hfailed] at htaken
  have hstart : Blocked block (opened : BufferedStream α) := ⟨Nat.dvd_zero _, hblock⟩
  obtain ⟨⟨q, hq⟩, hlt⟩ := blocked_putAll hstart xs (Nat.le_of_eq (Nat.zero_add _))
  have hlength : block * q + ((blocks xs.length block).putAll opened xs).pending.length =
      xs.length := by
    rw [← hq, ← List.length_append]
    exact congrArg List.length htaken
  calc (blocks capacity block).eager xs = block * q := hq
    _ = xs.length / block * block := by
      rw [← hlength, Nat.mul_add_div hblock, Nat.div_eq_of_lt hlt, Nat.add_zero, Nat.mul_comm]

end Device

end Elfr.Library.OutputStream
