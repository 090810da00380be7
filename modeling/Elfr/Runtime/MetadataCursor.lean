import Elfr.Runtime.Opening

/-!
# The metadata cursor

On a buffer of less than 2^64 bytes the cursor of `erf_metadata_get` is a
natural number that only moves forward: each length-prefixed string ends at
`stringEnd`, each entry at `entryEnd`, and an access succeeds exactly if the
end of the requested entry still lies in the buffer. None of the checked sums
can wrap, because each is compared with the size before it is used.
-/
namespace Elfr.Runtime

open Library Common Format

def stringEnd (b : Bytes) (off : ℕ) : ℕ := off + 4 + ((field32 b off).toNat + 1)

def entryEnd (b : Bytes) (off : ℕ) : ℕ := stringEnd b (stringEnd b off)

theorem stringEnd_gt (b : Bytes) (off : ℕ) : off + 4 < stringEnd b off := by
  unfold stringEnd
  omega

theorem entryEnd_gt (b : Bytes) (off : ℕ) : off < entryEnd b off := by
  have h := stringEnd_gt b off
  have h' := stringEnd_gt b (stringEnd b off)
  unfold entryEnd
  omega

theorem le_entryEnd_iterate (b : Bytes) (off : ℕ) (n : ℕ) : off ≤ (entryEnd b)^[n] off := by
  induction n generalizing off with
  | zero => exact le_rfl
  | succ n ih =>
    rw [Function.iterate_succ_apply]
    exact (entryEnd_gt b off).le.trans (ih _)

section Cursor

variable {b : Bytes} (hb : b.length < 2 ^ 64)
include hb

theorem metadataString_eq (off : UInt64) :
    metadataString b b.length off = .ok
      (if stringEnd b off.toNat ≤ b.length then
        some (off.toNat + 4, UInt64.ofNat (stringEnd b off.toNat)) else none) := by
  have h4 : (4 : UInt64).toNat = 4 := rfl
  have hgt := stringEnd_gt b off.toNat
  unfold metadataString
  by_cases hlen : off.toNat + 4 ≤ b.length
  · have hin : inBounds b.length off 4 = true := inBounds_iff.mpr hlen
    have hoff : Exec.add64 off 4 = .ok (off + 4) := by
      rw [Exec.add64_eq_ok, UInt64.toNat_add, Nat.mod_eq_of_lt (by omega)]
    have hoff' := Exec.add64_eq_ok.mp hoff
    generalize off + 4 = off' at hoff hoff'
    have hspan : Exec.add64 (field32 b off.toNat).toUInt64 1 =
        .ok ((field32 b off.toNat).toUInt64 + 1) := by
      have hlt := (field32 b off.toNat).toNat_lt
      rw [Exec.add64_eq_ok, UInt64.toNat_add, UInt32.toNat_toUInt64]
      exact Nat.mod_eq_of_lt (by change _ + 1 < _; omega)
    have hspan' := Exec.add64_eq_ok.mp hspan
    generalize (field32 b off.toNat).toUInt64 + 1 = span at hspan hspan'
    rw [UInt32.toNat_toUInt64] at hspan'
    have hend : off'.toNat + span.toNat = stringEnd b off.toNat := by
      rw [hoff', hspan', h4]
      rfl
    simp only [hin, Bool.not_true, Bool.false_eq_true, ↓reduceIte, load32_of_le hlen,
      Exec.ok_bind, hoff, hspan, Exec.pure_eq_ok]
    by_cases hfit : stringEnd b off.toNat ≤ b.length
    · have hin' : inBounds b.length off' span = true := inBounds_iff.mpr (by omega)
      have hnext : Exec.add64 off' span = .ok (UInt64.ofNat (stringEnd b off.toNat)) := by
        rw [Exec.add64_eq_ok, UInt64.toNat_ofNat', Nat.mod_eq_of_lt (by omega), hend]
      simp [hin', hnext, hfit, hoff']
    · have hin' : ¬ inBounds b.length off' span = true := fun h => hfit (by
        have := inBounds_iff.mp h
        omega)
      simp [hin', hfit]
  · have hin : ¬ inBounds b.length off 4 = true := fun h => hlen (inBounds_iff.mp h)
    simp only [hin, Bool.not_false, ↓reduceIte, Exec.pure_eq_ok]
    rw [if_neg (by omega)]

theorem metadataEntry_eq (off : UInt64) :
    metadataEntry b b.length off = .ok
      (if entryEnd b off.toNat ≤ b.length then
        some (off.toNat + 4, stringEnd b off.toNat + 4, UInt64.ofNat (entryEnd b off.toNat))
      else none) := by
  unfold metadataEntry
  rw [metadataString_eq hb]
  by_cases hkey : stringEnd b off.toNat ≤ b.length
  · have hcursor : (UInt64.ofNat (stringEnd b off.toNat)).toNat = stringEnd b off.toNat := by
      rw [UInt64.toNat_ofNat', Nat.mod_eq_of_lt (by omega)]
    rw [if_pos hkey]
    simp only [Exec.ok_bind, metadataString_eq hb, hcursor, Exec.pure_eq_ok]
    unfold entryEnd
    split_ifs <;> rfl
  · have hgt := stringEnd_gt b (stringEnd b off.toNat)
    rw [if_neg hkey, if_neg (by unfold entryEnd; omega)]
    rfl

theorem metadataWalk_eq {index : ℕ} (hindex : index + 1 < 2 ^ 31) (out : OutVars)
    (left : ℕ) (off : UInt64) :
    metadataWalk b b.length index out left off = .ok
      (if (entryEnd b)^[left + 1] off.toNat ≤ b.length then
        (0, out.store ((entryEnd b)^[left] off.toNat + 4)
          (stringEnd b ((entryEnd b)^[left] off.toNat) + 4))
      else (-1, out)) := by
  induction left generalizing off with
  | zero =>
    unfold metadataWalk
    rw [metadataEntry_eq hb]
    simp only [Exec.ok_bind, Nat.zero_add, Function.iterate_one, Function.iterate_zero, id_eq]
    by_cases hfit : entryEnd b off.toNat ≤ b.length
    · simp only [hfit, ↓reduceIte, hindex, Exec.pure_eq_ok]
    · simp only [hfit, ↓reduceIte, Exec.pure_eq_ok]
  | succ left ih =>
    unfold metadataWalk
    rw [metadataEntry_eq hb]
    simp only [Exec.ok_bind]
    by_cases hfit : entryEnd b off.toNat ≤ b.length
    · have hcursor : (UInt64.ofNat (entryEnd b off.toNat)).toNat = entryEnd b off.toNat := by
        rw [UInt64.toNat_ofNat', Nat.mod_eq_of_lt (by omega)]
      rw [if_pos hfit]
      simp only [ih, hcursor, ← Function.iterate_succ_apply]
    · have hle : entryEnd b off.toNat ≤ (entryEnd b)^[left + 1 + 1] off.toNat := by
        rw [Function.iterate_succ_apply]
        exact le_entryEnd_iterate b _ _
      rw [if_neg hfit, if_neg (by omega)]
      rfl

end Cursor

/-- Past the greatest int the loop never returns a success. -/
theorem metadataWalk_overflow {b : Bytes} {size index : ℕ} (hindex : ¬ index + 1 < 2 ^ 31)
    (out out' : OutVars) (left : ℕ) (off : UInt64) :
    metadataWalk b size index out left off ≠ .ok (0, out') := by
  induction left generalizing off with
  | zero =>
    unfold metadataWalk
    cases metadataEntry b size off with
    | error e => simp
    | ok entry =>
      cases entry with
      | none => simp
      | some kv => simp only [Exec.ok_bind, if_neg hindex, ne_eq, reduceCtorEq, not_false_eq_true]
  | succ left ih =>
    unfold metadataWalk
    cases metadataEntry b size off with
    | error e => simp
    | ok entry =>
      cases entry with
      | none => simp
      | some kv => exact ih kv.2.2

/-- A block whose count can be read. -/
def HasCount (b : Bytes) (off : UInt64) : Prop := off ≠ 0 ∧ off.toNat + 4 ≤ b.length

instance : Decidable (HasCount b off) := inferInstanceAs (Decidable (_ ∧ _))

def entryStart (b : Bytes) (off : UInt64) (index : ℕ) : ℕ := (entryEnd b)^[index] (off.toNat + 4)

/-- Entry `index` is counted and lies in the buffer, with every entry before it. -/
def HasEntry (b : Bytes) (off : UInt64) (index : ℕ) : Prop :=
  HasCount b off ∧ index < (field32 b off.toNat).toNat ∧ entryStart b off (index + 1) ≤ b.length

instance : Decidable (HasEntry b off index) := inferInstanceAs (Decidable (_ ∧ _))

theorem entryStart_succ (b : Bytes) (off : UInt64) (index : ℕ) :
    entryStart b off (index + 1) = entryEnd b (entryStart b off index) :=
  Function.iterate_succ_apply' _ _ _

theorem HasEntry.key_le {b : Bytes} {off : UInt64} {index : ℕ} (h : HasEntry b off index) :
    stringEnd b (entryStart b off index) ≤ b.length := by
  have hend := h.2.2
  have hgt := stringEnd_gt b (stringEnd b (entryStart b off index))
  rw [entryStart_succ, entryEnd] at hend
  omega

theorem HasEntry.value_le {b : Bytes} {off : UInt64} {index : ℕ} (h : HasEntry b off index) :
    stringEnd b (stringEnd b (entryStart b off index)) ≤ b.length := by
  have hend := h.2.2
  rwa [entryStart_succ] at hend

section Access

variable {c : ERFContainer} {r : ERFResource} (hsize : c.size = c.base.length)
include hsize

theorem erfMetadataCount_eq :
    erfMetadataCount (some c) (some r) = .ok
      (if HasCount c.base r.metadataOffset then toInt (field32 c.base r.metadataOffset.toNat)
      else 0) := by
  have h4 : (4 : UInt64).toNat = 4 := rfl
  unfold erfMetadataCount HasCount
  by_cases hzero : r.metadataOffset = 0
  · simp [hzero]
  · by_cases hin : r.metadataOffset.toNat + 4 ≤ c.base.length
    · have hin' : inBounds c.size r.metadataOffset 4 = true := inBounds_iff.mpr (hsize ▸ hin)
      simp [hzero, hin', hin, load32_of_le hin]
    · have hin' : ¬ inBounds c.size r.metadataOffset 4 = true := fun h =>
        hin (hsize ▸ inBounds_iff.mp h)
      simp [hzero, hin', hin]

/-- `erf_metadata_get` below the greatest int, as a function of the bytes. -/
theorem erfMetadataGet_eq (hb : c.base.length < 2 ^ 64) {index : ℤ} (hindex : index < 2 ^ 31 - 1)
    (out : OutVars) :
    erfMetadataGet (some c) (some r) index out = .ok
      (if 0 ≤ index ∧ HasEntry c.base r.metadataOffset index.toNat then
        (0, out.store (entryStart c.base r.metadataOffset index.toNat + 4)
          (stringEnd c.base (entryStart c.base r.metadataOffset index.toNat) + 4))
      else (-1, out)) := by
  have h4 : (4 : UInt64).toNat = 4 := rfl
  unfold erfMetadataGet
  by_cases hearly : r.metadataOffset = 0 ∨ index < 0
  · have hno : ¬ (0 ≤ index ∧ HasEntry c.base r.metadataOffset index.toNat) := by
      rintro ⟨hpos, hentry⟩
      rcases hearly with hzero | hneg
      · exact hentry.1.1 hzero
      · omega
    simp [hearly, hno]
  · obtain ⟨hzero, hpos⟩ := not_or.mp hearly
    simp only [hearly, ↓reduceIte]
    by_cases hin : r.metadataOffset.toNat + 4 ≤ c.base.length
    · have hin' : inBounds c.size r.metadataOffset 4 = true := inBounds_iff.mpr (hsize ▸ hin)
      have hcount : HasCount c.base r.metadataOffset := ⟨hzero, hin⟩
      have hlt : (UInt32.ofNat index.toNat).toNat = index.toNat := by
        rw [UInt32.toNat_ofNat', Nat.mod_eq_of_lt (by omega)]
      simp only [hin', Bool.not_true, Bool.false_eq_true, ↓reduceIte,
        load32_of_le hin, Exec.ok_bind, ge_iff_le, UInt32.le_iff_toNat_le, hlt]
      by_cases hidx : index.toNat < (field32 c.base r.metadataOffset.toNat).toNat
      · have hoff : Exec.add64 r.metadataOffset 4 = .ok (r.metadataOffset + 4) := by
          rw [Exec.add64_eq_ok, UInt64.toNat_add, Nat.mod_eq_of_lt (by omega)]
        have hoff' := Exec.add64_eq_ok.mp hoff
        rw [if_neg (Nat.not_le.mpr hidx), hoff, Exec.ok_bind, hsize,
          metadataWalk_eq hb (by omega), hoff', h4]
        simp only [HasEntry, hcount, hidx, true_and, entryStart, not_lt.mp hpos]
      · have hno : ¬ (0 ≤ index ∧ HasEntry c.base r.metadataOffset index.toNat) :=
          fun h => hidx h.2.2.1
        rw [if_pos (Nat.le_of_not_lt hidx), if_neg hno]
        rfl
    · have hin' : ¬ inBounds c.size r.metadataOffset 4 = true := fun h =>
        hin (hsize ▸ inBounds_iff.mp h)
      have hno : ¬ (0 ≤ index ∧ HasEntry c.base r.metadataOffset index.toNat) :=
        fun h => hin h.2.1.2
      simp [hin', hno]

omit hsize in
theorem erfMetadataGet_missing {index : ℤ} (hindex : index < 2 ^ 31) (out : OutVars)
    (hmissing : r.metadataOffset = 0 ∨ index < 0 ∨
      (c.size = c.base.length ∧ (field32 c.base r.metadataOffset.toNat).toNat ≤ index.toNat)) :
    erfMetadataGet (some c) (some r) index out = .ok (-1, out) := by
  unfold erfMetadataGet
  by_cases hearly : r.metadataOffset = 0 ∨ index < 0
  · simp only [hearly, ↓reduceIte, Exec.pure_eq_ok]
  · simp only [hearly, ↓reduceIte]
    by_cases hin : inBounds c.size r.metadataOffset 4 = true
    · obtain ⟨hsize, hcount⟩ : c.size = c.base.length ∧ _ := by
        rcases hmissing with hzero | hneg | hlarge
        exacts [absurd (.inl hzero) hearly, absurd (.inr hneg) hearly, hlarge]
      have hlt : (UInt32.ofNat index.toNat).toNat = index.toNat := by
        rw [UInt32.toNat_ofNat', Nat.mod_eq_of_lt (by omega)]
      have hge : UInt32.ofNat index.toNat ≥ field32 c.base r.metadataOffset.toNat := by
        rw [ge_iff_le, UInt32.le_iff_toNat_le, hlt]
        exact hcount
      have hread := load32_of_le (hsize ▸ inBounds_iff.mp hin)
      simp only [hin, Bool.not_true, Bool.false_eq_true, ↓reduceIte, hread, Exec.ok_bind, hge,
        Exec.pure_eq_ok]
    · simp only [hin, Bool.not_false, ↓reduceIte, Exec.pure_eq_ok]

omit hsize in
theorem erfMetadataGet_overflow {index : ℤ} (hindex : ¬ index < 2 ^ 31 - 1) (out out' : OutVars) :
    erfMetadataGet (some c) (some r) index out ≠ .ok (0, out') := by
  unfold erfMetadataGet
  by_cases hearly : r.metadataOffset = 0 ∨ index < 0
  · simp [hearly]
  · simp only [hearly, ↓reduceIte]
    by_cases hin : inBounds c.size r.metadataOffset 4 = true
    · simp only [hin, Bool.not_true, Bool.false_eq_true, ↓reduceIte]
      cases load32 c.base r.metadataOffset.toNat with
      | error e => simp
      | ok count =>
        simp only [Exec.ok_bind]
        split_ifs
        · simp
        · cases Exec.add64 r.metadataOffset 4 with
          | error e => simp
          | ok off => exact metadataWalk_overflow (by omega) out out' _ off
    · simp [hin]

end Access

end Elfr.Runtime
