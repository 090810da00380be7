import Elfr.Library.CStrings

/-!
# Decimal numerals

What a text denotes that is a decimal numeral in the sense of the C library:
white space, a sign or none, then digits up to the end. `strtol` reads such a
text to its end and clamps the value to the range of `long`; a text it reads to
its end is such a numeral.
-/
namespace Elfr.Library

/-- The sign a numeral may have. -/
def IsSign (negative : Bool) (sign : Bytes) : Prop :=
  if negative then sign = [45] else sign = [] ∨ sign = [43]

def signed (negative : Bool) (digits : Bytes) : ℤ :=
  if negative then -(digitsValue digits : ℤ) else digitsValue digits

/-- The text is a numeral that denotes `n`. -/
def Numeral (s : Bytes) (n : ℤ) : Prop :=
  ∃ space sign digits negative, s = space ++ (sign ++ digits) ∧
    (∀ b ∈ space, isSpace b = true) ∧ IsSign negative sign ∧
    digits ≠ [] ∧ (∀ b ∈ digits, isDigit b = true) ∧ n = signed negative digits

def readNumeral (s : Bytes) : Option ℤ :=
  let (negative, digits) := takeSign (s.dropWhile isSpace)
  if digits ≠ [] ∧ digits.all isDigit then some (signed negative digits) else none

theorem isSpace_of_isDigit {b : UInt8} (h : isDigit b = true) : isSpace b = false := by
  simp only [isDigit, isSpace, decide_eq_true_eq, decide_eq_false_iff_not, UInt8.le_iff_toNat_le,
    ← UInt8.toNat_inj] at h ⊢
  have h48 : (48 : UInt8).toNat = 48 := rfl
  have h32 : (32 : UInt8).toNat = 32 := rfl
  have h13 : (13 : UInt8).toNat = 13 := rfl
  omega

theorem takeSign_append {negative : Bool} {sign digits : Bytes} (hsign : IsSign negative sign)
    (hne : digits ≠ []) (hdigits : ∀ b ∈ digits, isDigit b = true) :
    takeSign (sign ++ digits) = (negative, digits) := by
  obtain ⟨d, rest, rfl⟩ := List.exists_cons_of_ne_nil hne
  have hd := hdigits d List.mem_cons_self
  cases negative with
  | true =>
    obtain rfl : sign = [45] := hsign
    rfl
  | false =>
    rcases hsign with rfl | rfl
    · have hminus : d ≠ 45 := by
        rintro rfl
        exact absurd hd (by decide)
      have hplus : d ≠ 43 := by
        rintro rfl
        exact absurd hd (by decide)
      simp [takeSign, hminus, hplus]
    · rfl

theorem takeSign_spec (t : Bytes) :
    ∃ sign, IsSign (takeSign t).1 sign ∧ t = sign ++ (takeSign t).2 := by
  cases t with
  | nil => exact ⟨[], .inl rfl, rfl⟩
  | cons b bs =>
    by_cases hminus : b = 45
    · exact ⟨[45], by simp [takeSign, hminus, IsSign], by simp [takeSign, hminus]⟩
    · by_cases hplus : b = 43
      · exact ⟨[43], by simp [takeSign, hplus, IsSign], by simp [takeSign, hplus]⟩
      · exact ⟨[], by simp [takeSign, hminus, hplus, IsSign], by simp [takeSign, hminus, hplus]⟩

/-- What follows the white space of a numeral starts with no further one. -/
theorem dropWhile_isSpace_numeral {negative : Bool} {sign digits : Bytes}
    (hsign : IsSign negative sign) (hne : digits ≠ [])
    (hdigits : ∀ b ∈ digits, isDigit b = true) :
    (sign ++ digits).dropWhile isSpace = sign ++ digits := by
  obtain ⟨d, rest, rfl⟩ := List.exists_cons_of_ne_nil hne
  have hd := isSpace_of_isDigit (hdigits d List.mem_cons_self)
  cases negative with
  | true =>
    obtain rfl : sign = [45] := hsign
    rfl
  | false =>
    rcases hsign with rfl | rfl
    · simp [hd]
    · rfl

theorem numeral_iff {s : Bytes} {n : ℤ} : Numeral s n ↔ readNumeral s = some n := by
  constructor
  · rintro ⟨space, sign, digits, negative, rfl, hspace, hsign, hne, hdigits, rfl⟩
    unfold readNumeral
    rw [List.dropWhile_append_of_pos hspace, dropWhile_isSpace_numeral hsign hne hdigits,
      takeSign_append hsign hne hdigits]
    simp only [ne_eq, hne, not_false_eq_true, true_and, List.all_eq_true]
    exact if_pos hdigits
  · intro h
    obtain ⟨sign, hsign, hsplit⟩ := takeSign_spec (s.dropWhile isSpace)
    unfold readNumeral at h
    simp only at h
    split_ifs at h with hdigits
    obtain rfl := Option.some.inj h
    refine ⟨s.takeWhile isSpace, sign, _, _, ?_, fun b hb => List.mem_takeWhile_imp hb, hsign,
      hdigits.1, List.all_eq_true.mp hdigits.2, rfl⟩
    rw [← hsplit, List.takeWhile_append_dropWhile]

theorem Numeral.unique {s : Bytes} {n n' : ℤ} (h : Numeral s n) (h' : Numeral s n') : n = n' :=
  Option.some.inj ((numeral_iff.mp h).symm.trans (numeral_iff.mp h'))

theorem strtol_of_numeral {s : Bytes} {n : ℤ} (h : Numeral s n) :
    strtol s = (max (-2 ^ 63) (min (2 ^ 63 - 1) n), []) := by
  rw [numeral_iff] at h
  unfold readNumeral at h
  unfold strtol
  simp only at h ⊢
  generalize takeSign (s.dropWhile isSpace) = parts at h ⊢
  obtain ⟨negative, digits⟩ := parts
  split_ifs at h with hdigits
  obtain rfl := Option.some.inj h
  have hall := List.takeWhile_eq_self_iff.mpr (List.all_eq_true.mp hdigits.2)
  have hnone : digits.dropWhile isDigit = [] :=
    List.dropWhile_eq_nil_iff.mpr (List.all_eq_true.mp hdigits.2)
  simp only [hall, hnone, if_neg hdigits.1]
  rfl

theorem exists_numeral_of_strtol {s : Bytes} (hne : s ≠ []) (h : (strtol s).2 = []) :
    ∃ n, Numeral s n := by
  have hnumeral : ∃ n, readNumeral s = some n := by
    unfold strtol at h
    unfold readNumeral
    simp only at h ⊢
    generalize takeSign (s.dropWhile isSpace) = parts at h ⊢
    obtain ⟨negative, rest⟩ := parts
    by_cases hdigits : rest.takeWhile isDigit = []
    · rw [if_pos hdigits] at h
      exact absurd h hne
    · rw [if_neg hdigits] at h
      have hall := List.dropWhile_eq_nil_iff.mp h
      refine ⟨signed negative rest, if_pos ⟨?_, List.all_eq_true.mpr hall⟩⟩
      rintro rfl
      exact hdigits rfl
  obtain ⟨n, hn⟩ := hnumeral
  exact ⟨n, numeral_iff.mpr hn⟩

end Elfr.Library
