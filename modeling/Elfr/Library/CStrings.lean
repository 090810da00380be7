import Elfr.Library.Segments
import Mathlib.Data.List.TakeWhile

/-!
# C strings

A `CString` is a byte string without a NUL, which is all a NUL-terminated
string denotes. `StringAt b off s` says that the string found at an address is
`s`: its bytes sit there and a NUL follows. Comparing a string in a buffer
with another one reads byte after byte until they differ or end, so it needs a
terminator only where the buffer agrees with the other string all the way.
-/
namespace Elfr.Library

/-- The bytes of an ASCII literal. -/
def ascii (s : String) : Bytes := s.toList.map fun c => UInt8.ofNat c.toNat

/-- What `snprintf` leaves in a buffer of `size` bytes, its terminator left out. -/
def snprintf (size : ℕ) (text : Bytes) : Bytes := text.take (size - 1)

structure CString where
  bytes : Bytes
  noNul : (0 : UInt8) ∉ bytes
  deriving DecidableEq

namespace CString

/-- Number of bytes before the terminator. -/
def strlen (s : CString) : ℕ := s.bytes.length

def terminated (s : CString) : Bytes := s.bytes ++ [0]

@[simp] theorem length_terminated (s : CString) : s.terminated.length = s.strlen + 1 := by
  simp [terminated, strlen]

def empty : CString := ⟨[], List.not_mem_nil⟩

instance : Inhabited CString := ⟨empty⟩

/-- What a consumer of C strings sees of these bytes: those before the first NUL. -/
def ofBytes (bs : Bytes) : CString where
  bytes := bs.takeWhile (· ≠ 0)
  noNul h := by simpa using List.mem_takeWhile_imp h

theorem bytes_ofBytes_iff {bs : Bytes} : (ofBytes bs).bytes = bs ↔ (0 : UInt8) ∉ bs := by
  rw [ofBytes, List.takeWhile_eq_self_iff]
  simp only [decide_eq_true_eq]
  exact ⟨fun h hmem => h 0 hmem rfl, fun h b hb hzero => h (hzero ▸ hb)⟩

theorem ext {s t : CString} (h : s.bytes = t.bytes) : s = t := by
  cases s; cases t; simpa using h

theorem ofBytes_terminated_append (s : CString) (xs : Bytes) :
    ofBytes (s.terminated ++ xs) = s := by
  have hall : ∀ b ∈ s.bytes, decide (b ≠ 0) = true := fun b hb => by
    simpa using ne_of_mem_of_not_mem hb s.noNul
  have hrecover : (s.terminated ++ xs).takeWhile (· ≠ 0) = s.bytes := by
    rw [terminated, List.append_assoc, List.takeWhile_append_of_pos hall]
    simp
  exact ext hrecover

theorem eq_of_terminated_append {s t : CString} {xs ys : Bytes}
    (h : s.terminated ++ xs = t.terminated ++ ys) : s = t := by
  rw [← ofBytes_terminated_append s xs, ← ofBytes_terminated_append t ys, h]

def literal (s : String) : CString := ofBytes (ascii s)

def append (s t : CString) : CString where
  bytes := s.bytes ++ t.bytes
  noNul h := (List.mem_append.mp h).elim s.noNul t.noNul

instance : Append CString := ⟨append⟩

/-- ASCII lower case, the C locale's `tolower`. -/
def toLower (b : UInt8) : UInt8 := if 65 ≤ b ∧ b ≤ 90 then b + 32 else b

/-- Equality up to ASCII letter case, the C locale's `strcasecmp(s, t) == 0`. -/
def caseEq (s t : CString) : Bool := s.bytes.map toLower == t.bytes.map toLower

theorem caseEq_iff {s t : CString} :
    s.caseEq t = true ↔ s.bytes.map toLower = t.bytes.map toLower := beq_iff_eq

theorem caseEq_congr {s t : CString} (h : s.caseEq t = true) (u : CString) :
    s.caseEq u = t.caseEq u := by
  rw [caseEq, caseEq, caseEq_iff.mp h]

end CString

/-- `strncmp(s, t, n) == 0`, where the lists leave out the terminators. -/
def strncmpEq : (s t : Bytes) → (n : ℕ) → Bool
  | _, _, 0 => true
  | [], [], _ + 1 => true
  | c :: s, d :: t, n + 1 => c == d && (c == 0 || strncmpEq s t n)
  | [], d :: _, _ + 1 => d == 0
  | c :: _, [], _ + 1 => c == 0

/-- Over the length of a string without a NUL, `strncmp` compares all of it. -/
theorem strncmpEq_iff {s t : Bytes} (ht : (0 : UInt8) ∉ t) (hlen : t.length = s.length) :
    strncmpEq s t s.length = true ↔ s = t := by
  induction s generalizing t with
  | nil =>
    obtain rfl : t = [] := List.length_eq_zero_iff.mp hlen
    simp [strncmpEq]
  | cons c s ih =>
    cases t with
    | nil => simp at hlen
    | cons d t =>
      obtain ⟨hd, ht⟩ : ¬ 0 = d ∧ (0 : UInt8) ∉ t := by simpa using ht
      have hrest := ih ht (by simpa using hlen)
      simp only [List.length_cons, strncmpEq, Bool.and_eq_true, Bool.or_eq_true, beq_iff_eq, hrest,
        List.cons.injEq]
      constructor
      · rintro ⟨rfl, h0 | h⟩
        · exact absurd h0.symm hd
        · exact ⟨rfl, h⟩
      · rintro ⟨rfl, h⟩
        exact ⟨rfl, Or.inr h⟩

/-- The bytes from the last `c` on. -/
def fromLast (c : UInt8) : Bytes → Option Bytes
  | [] => none
  | b :: bs =>
    match fromLast c bs with
    | some tail => some tail
    | none => if b = c then some (b :: bs) else none

theorem fromLast_isSuffix {c : UInt8} {bs tail : Bytes} (h : fromLast c bs = some tail) :
    tail <:+ bs := by
  induction bs with
  | nil => cases h
  | cons b bs ih =>
    unfold fromLast at h
    cases hlater : fromLast c bs with
    | some later =>
      rw [hlater] at h ih
      exact (ih h).trans (List.suffix_cons b bs)
    | none =>
      simp only [hlater] at h
      split_ifs at h
      obtain rfl := Option.some.inj h
      exact List.suffix_rfl

theorem fromLast_append (c : UInt8) (xs ys : Bytes) :
    fromLast c (xs ++ ys) = (fromLast c ys).or ((fromLast c xs).map (· ++ ys)) := by
  induction xs with
  | nil => simp [fromLast]
  | cons x xs ih =>
    simp only [List.cons_append, fromLast, ih]
    cases fromLast c ys with
    | some tail => simp
    | none =>
      cases fromLast c xs with
      | some tail => simp
      | none =>
        by_cases hx : x = c
        · simp [hx]
        · simp [hx]

def strrchr (s : CString) (c : UInt8) : Option CString := (fromLast c s.bytes).map CString.ofBytes

/-- The C locale's `isspace`. -/
def isSpace (b : UInt8) : Bool := b = 32 ∨ 9 ≤ b ∧ b ≤ 13

def isDigit (b : UInt8) : Bool := 48 ≤ b ∧ b ≤ 57

def digitsValue (digits : Bytes) : ℕ := digits.foldl (fun n d => 10 * n + (d.toNat - 48)) 0

/-- An optional sign and what follows it; whether the sign is a minus. -/
def takeSign : Bytes → Bool × Bytes
  | [] => (false, [])
  | b :: bs => if b = 45 then (true, bs) else if b = 43 then (false, bs) else (false, b :: bs)

/-- `strtol(s, &end, 10)` for a 64-bit `long`: the value, clamped to the range of the
type, and the bytes from `end` on, which are all of them if no digit is found. -/
def strtol (s : Bytes) : ℤ × Bytes :=
  let (negative, rest) := takeSign (s.dropWhile isSpace)
  let digits := rest.takeWhile isDigit
  if digits = [] then (0, s)
  else
    let n : ℤ := digitsValue digits
    (max (-2 ^ 63) (min (2 ^ 63 - 1) (if negative then -n else n)), rest.dropWhile isDigit)

/-- The conversions `%-ns` and `%ns`: blanks up to a width, behind the text or before it. -/
def padRight (width : ℕ) (text : Bytes) : Bytes := text ++ List.replicate (width - text.length) 32
def padLeft (width : ℕ) (text : Bytes) : Bytes := List.replicate (width - text.length) 32 ++ text

/-- The part of a path before trailing bytes that satisfy `p`. -/
def stripTrailing (p : UInt8 → Bool) (path : Bytes) : Bytes := (path.reverse.dropWhile p).reverse

/-- POSIX `dirname`; what it makes of two leading slashes, which POSIX leaves open, is
what it makes of one. -/
def dirname (path : Bytes) : Bytes :=
  let slash : UInt8 → Bool := (· = 47)
  if path = [] then ascii "."
  else
    let path := stripTrailing slash path
    if path = [] then ascii "/"
    else
      let parent := stripTrailing (fun b => !slash b) path
      if parent = [] then ascii "."
      else
        let dir := stripTrailing slash parent
        if dir = [] then ascii "/" else dir

/-- The NUL-terminated string at `off` is `s`. -/
def StringAt (b : Bytes) (off : ℕ) (s : CString) : Prop := Segment b off s.terminated

instance : Decidable (StringAt b off s) := inferInstanceAs (Decidable (Segment _ _ _))

section StringAt

variable {b : Bytes} {off : ℕ} {s t : CString}

theorem StringAt.append (h : StringAt b off s) (xs : Bytes) : StringAt (b ++ xs) off s :=
  Segment.append h xs

theorem StringAt.drop_eq (h : StringAt b off s) :
    ∃ xs, b.drop off = s.terminated ++ xs :=
  Segment.drop_eq h

theorem StringAt.unique (hs : StringAt b off s) (ht : StringAt b off t) : s = t := by
  obtain ⟨xs, hxs⟩ := hs.drop_eq
  obtain ⟨ys, hys⟩ := ht.drop_eq
  exact CString.eq_of_terminated_append (hxs.symm.trans hys)

theorem stringAt_cons_iff {c : UInt8} {bs : Bytes} {h : (0 : UInt8) ∉ c :: bs} :
    StringAt b off ⟨c :: bs, h⟩ ↔
      b[off]? = some c ∧ StringAt b (off + 1) ⟨bs, fun h0 => h (by simp [h0])⟩ := by
  have hsplit : (CString.mk (c :: bs) h).terminated =
      [c] ++ (CString.mk bs fun h0 => h (by simp [h0])).terminated := rfl
  unfold StringAt
  rw [hsplit, segment_append_iff]
  refine and_congr_left fun _ => ?_
  rw [segment_iff_getElem?]
  constructor
  · intro hc
    simpa using hc.2 0 (by simp)
  · intro hc
    have hlt := (List.getElem?_eq_some_iff.mp hc).1
    refine ⟨by simpa using hlt, fun i hi => ?_⟩
    obtain rfl : i = 0 := by simpa using hi
    simpa using hc

theorem stringAt_empty_iff : StringAt b off CString.empty ↔ b[off]? = some 0 := by
  unfold StringAt
  rw [segment_iff_getElem?]
  constructor
  · intro h
    simpa [CString.terminated, CString.empty] using h.2 0 (by simp [CString.strlen])
  · intro h
    have hlt := (List.getElem?_eq_some_iff.mp h).1
    refine ⟨by simpa [CString.strlen, CString.empty] using hlt, fun i hi => ?_⟩
    obtain rfl : i = 0 := by simpa [CString.strlen, CString.empty] using hi
    simpa [CString.terminated, CString.empty] using h

theorem exists_stringAt {p : ℕ} (hle : off ≤ p) (hp : b[p]? = some 0) :
    ∃ s, StringAt b off s ∧ off + s.strlen ≤ p := by
  obtain ⟨k, rfl⟩ := Nat.exists_eq_add_of_le hle
  clear hle
  induction k generalizing off with
  | zero => exact ⟨.empty, stringAt_empty_iff.mpr hp, by simp [CString.strlen, CString.empty]⟩
  | succ k ih =>
    have hlt : off < b.length := by
      have := (List.getElem?_eq_some_iff.mp hp).1
      omega
    by_cases hc : b[off] = 0
    · refine ⟨.empty, stringAt_empty_iff.mpr ?_, by simp [CString.strlen, CString.empty]⟩
      rw [List.getElem?_eq_getElem hlt, hc]
    · have hp' : b[off + 1 + k]? = some 0 := by rwa [Nat.add_right_comm, Nat.add_assoc]
      obtain ⟨s, hs, hlen⟩ := ih hp'
      have hnul : (0 : UInt8) ∉ b[off] :: s.bytes := by
        simpa [Ne.symm hc] using s.noNul
      refine ⟨⟨b[off] :: s.bytes, hnul⟩, stringAt_cons_iff.mpr ⟨?_, hs⟩, ?_⟩
      · exact List.getElem?_eq_getElem hlt
      · simp only [CString.strlen, List.length_cons] at hlen ⊢
        omega

/-- A string starts at an address exactly if a NUL follows somewhere. -/
theorem exists_stringAt_iff : (∃ s, StringAt b off s) ↔ (0 : UInt8) ∈ b.drop off := by
  constructor
  · rintro ⟨s, hs⟩
    obtain ⟨xs, hxs⟩ := hs.drop_eq
    simp [hxs, CString.terminated]
  · intro h
    obtain ⟨k, hk⟩ := List.mem_iff_getElem?.mp h
    rw [List.getElem?_drop] at hk
    obtain ⟨s, hs, -⟩ := exists_stringAt (Nat.le_add_right off k) hk
    exact ⟨s, hs⟩

theorem StringAt.getElem?_nul (h : StringAt b off s) : b[off + s.strlen]? = some 0 := by
  have hi : s.strlen < s.terminated.length := by simp
  rw [Segment.getElem? h hi, CString.terminated,
    List.getElem?_append_right (by simp [CString.strlen])]
  simp [CString.strlen]

theorem StringAt.getElem?_lt (h : StringAt b off s) {d : ℕ} (hd : d < s.strlen) :
    b[off + d]? ≠ some 0 := by
  have hlt : d < s.bytes.length := hd
  have hi : d < s.terminated.length := by simp; omega
  rw [Segment.getElem? h hi, CString.terminated, List.getElem?_append_left hlt]
  exact fun h0 => s.noNul (List.mem_of_getElem? h0)

theorem exists_stringAt_strlen_iff {n : ℕ} :
    (∃ s, StringAt b off s ∧ s.strlen = n) ↔ ∀ d ≤ n, b[off + d]? = some 0 ↔ d = n := by
  constructor
  · rintro ⟨s, hs, rfl⟩ d hd
    constructor
    · intro h0
      by_contra hne
      exact hs.getElem?_lt (Nat.lt_of_le_of_ne hd hne) h0
    · rintro rfl
      exact hs.getElem?_nul
  · intro h
    obtain ⟨s, hs, hle⟩ := exists_stringAt (Nat.le_add_right off n) ((h n le_rfl).mpr rfl)
    exact ⟨s, hs, (h s.strlen (by omega)).mp hs.getElem?_nul⟩

end StringAt

/-- What `%s` prints of the string at an address: the bytes up to a NUL, which must be there. -/
def loadString (b : Bytes) (off : ℕ) : Exec CString :=
  if (0 : UInt8) ∈ b.drop off then .ok (.ofBytes (b.drop off)) else .error (.outOfBounds b.length)

theorem loadString_of_stringAt {b : Bytes} {off : ℕ} {s : CString} (h : StringAt b off s) :
    loadString b off = .ok s := by
  obtain ⟨xs, hxs⟩ := h.drop_eq
  rw [loadString, if_pos (exists_stringAt_iff.mp ⟨s, h⟩), hxs, CString.ofBytes_terminated_append]

/-- `strcmp(b + off, q) == 0`, where `q` is the second string without its
terminator: read until the strings differ or both end. -/
def strcmpEq (b : Bytes) : ℕ → Bytes → Exec Bool
  | off, [] => do
    let x ← loadByte b off
    pure (x == 0)
  | off, c :: q => do
    let x ← loadByte b off
    if x = c then strcmpEq b (off + 1) q else pure false

theorem strcmpEq_of_stringAt {b : Bytes} {off : ℕ} {s : CString} (h : StringAt b off s)
    (q : CString) : strcmpEq b off q.bytes = .ok (decide (s = q)) := by
  obtain ⟨qs, hq⟩ := q
  obtain ⟨bs, hs⟩ := s
  induction qs generalizing off bs with
  | nil =>
    cases bs with
    | nil =>
      have h0 := stringAt_empty_iff.mp h
      simp [strcmpEq, loadByte, Exec.index_eq_ok.mpr h0]
    | cons c bs =>
      have hc := (stringAt_cons_iff.mp h).1
      have hne : c ≠ 0 := by
        rintro rfl
        exact hs (by simp)
      simp [strcmpEq, loadByte, Exec.index_eq_ok.mpr hc, hne]
  | cons d qs ih =>
    cases bs with
    | nil =>
      have h0 := stringAt_empty_iff.mp h
      have hne : (0 : UInt8) ≠ d := by
        rintro rfl
        exact hq (by simp)
      simp [strcmpEq, loadByte, Exec.index_eq_ok.mpr h0, hne]
    | cons c bs =>
      obtain ⟨hc, htail⟩ := stringAt_cons_iff.mp h
      have hrest := ih (fun h0 => hq (by simp [h0])) bs (fun h0 => hs (by simp [h0])) htail
      by_cases hcd : c = d
      · subst hcd
        simpa [strcmpEq, loadByte, Exec.index_eq_ok.mpr hc] using hrest
      · simp [strcmpEq, loadByte, Exec.index_eq_ok.mpr hc, hcd]

end Elfr.Library
