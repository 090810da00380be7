import Elfr.Runtime.ReaderBounds

/-!
# Counting and accessing metadata

`erf_metadata_count` hands out the stored 32-bit count as an int, while
`erf_metadata_get` walks the block up to the entry it is asked for. The two agree
exactly on the blocks that are complete: every counted entry lies in the buffer, and
the count is one that an int can hold. Open looks at neither.
-/
namespace Elfr.Runtime

open Library Common Format

/-- The iteration over `0..count-1` never fails and misses no entry. -/
def MetadataAgrees (c : ERFContainer) (r : ERFResource) : Prop :=
  ∃ count : ℤ, erfMetadataCount (some c) (some r) = .ok count ∧ 0 ≤ count ∧
    ∀ index : ℤ, -2 ^ 31 ≤ index → index < 2 ^ 31 → ∀ out,
      ∃ rc out', erfMetadataGet (some c) (some r) index out = .ok (rc, out') ∧
        (rc = 0 ↔ 0 ≤ index ∧ index < count)

/-- If the count of the block at `off` can be read, an int can hold it and the last
counted entry ends in the buffer. -/
def MetadataComplete (b : Bytes) (off : UInt64) : Prop :=
  HasCount b off → (field32 b off.toNat).toNat < 2 ^ 31 ∧
    entryStart b off (field32 b off.toNat).toNat ≤ b.length

instance : Decidable (MetadataComplete b off) := inferInstanceAs (Decidable (_ → _))

theorem entryStart_mono (b : Bytes) (off : UInt64) : StrictMono (entryStart b off) := by
  refine strictMono_nat_of_lt_succ fun index => ?_
  rw [entryStart_succ]
  exact entryEnd_gt b _

/-- In a complete block the entries are the counted ones. -/
theorem MetadataComplete.hasEntry_iff {b : Bytes} {off : UInt64} {index : ℕ}
    (hcomplete : MetadataComplete b off) :
    HasEntry b off index ↔ HasCount b off ∧ index < (field32 b off.toNat).toNat := by
  constructor
  · intro hentry
    exact ⟨hentry.1, hentry.2.1⟩
  · rintro ⟨hcount, hlt⟩
    have hend := (entryStart_mono b off).monotone (Nat.succ_le_of_lt hlt)
    exact ⟨hcount, hlt, hend.trans (hcomplete hcount).2⟩

section Accepted

variable {b : Bytes} {c : ERFContainer} {r : ERFResource} (h : Accepted b c)
include h

theorem Accepted.metadataGet_of_noCount (hcount : ¬ HasCount b r.metadataOffset) (index : ℤ)
    (out : OutVars) : erfMetadataGet (some c) (some r) index out = .ok (-1, out) := by
  have h4 : (4 : UInt64).toNat = 4 := rfl
  unfold erfMetadataGet
  by_cases hearly : r.metadataOffset = 0 ∨ index < 0
  · simp only [hearly, ↓reduceIte, Exec.pure_eq_ok]
  · have hin : ¬ inBounds c.size r.metadataOffset 4 = true := by
      intro hin
      have hle := inBounds_iff.mp hin
      rw [h.size] at hle
      exact hcount ⟨fun hzero => hearly (.inl hzero), hle⟩
    simp only [hearly, ↓reduceIte, hin, Bool.not_false, Exec.pure_eq_ok]

/-- An access succeeds exactly on the entries in the buffer, if the index is not the greatest int
or the count an int can hold. -/
theorem Accepted.metadataGet_zero_iff (hb : b.length < 2 ^ 64) {index : ℤ} (hmax : index < 2 ^ 31)
    (hindex : HasCount b r.metadataOffset →
      (field32 b r.metadataOffset.toNat).toNat < 2 ^ 31 ∨ index < 2 ^ 31 - 1) (out : OutVars) :
    ∃ rc out', erfMetadataGet (some c) (some r) index out = .ok (rc, out') ∧
      (rc = 0 ↔ 0 ≤ index ∧ HasEntry b r.metadataOffset index.toNat) := by
  have hbase := h.base
  by_cases hcount : HasCount b r.metadataOffset
  · by_cases hlt : index < 2 ^ 31 - 1
    · have hget := erfMetadataGet_eq (r := r) h.size_eq (hbase ▸ hb) hlt out
      rw [hbase] at hget
      split_ifs at hget with hentry
      · exact ⟨_, _, hget, iff_of_true rfl hentry⟩
      · exact ⟨_, _, hget, iff_of_false (by decide) hentry⟩
    · have hint := (hindex hcount).resolve_right hlt
      have hget := erfMetadataGet_missing (c := c) (r := r) hmax out
        (.inr (.inr ⟨h.size_eq, by rw [hbase]; omega⟩))
      refine ⟨_, _, hget, iff_of_false (by decide) fun hyes => ?_⟩
      have hcounted := hyes.2.2.1
      omega
  · exact ⟨_, _, h.metadataGet_of_noCount hcount index out,
      iff_of_false (by decide) fun hyes => hcount hyes.2.1⟩

theorem MetadataComplete.agrees (hb : b.length < 2 ^ 64)
    (hcomplete : MetadataComplete b r.metadataOffset) : MetadataAgrees c r := by
  have hcounted := erfMetadataCount_eq (r := r) h.size_eq
  rw [h.base] at hcounted
  refine ⟨_, hcounted, ?_, fun index hmin hmax out => ?_⟩
  · split_ifs with hcount
    · exact toInt_nonneg_iff.mpr (hcomplete hcount).1
    · exact le_rfl
  · obtain ⟨rc, out', hget, hrc⟩ := h.metadataGet_zero_iff hb hmax
      (fun hcount => .inl (hcomplete hcount).1) out
    refine ⟨rc, out', hget, hrc.trans (and_congr_right fun hpos => ?_)⟩
    rw [hcomplete.hasEntry_iff]
    split_ifs with hcount
    · rw [toInt_of_lt (hcomplete hcount).1, and_iff_right hcount]
      omega
    · exact iff_of_false (fun hentry => hcount hentry.1) (by omega)

/-- The count is the stored one, so agreement at its last index completes the block. -/
theorem MetadataAgrees.complete (hb : b.length < 2 ^ 64) (hagrees : MetadataAgrees c r) :
    MetadataComplete b r.metadataOffset := by
  intro hcount
  obtain ⟨count, hcounted, hpos, hall⟩ := hagrees
  rw [erfMetadataCount_eq h.size_eq, h.base, if_pos hcount, Except.ok.injEq] at hcounted
  rw [← hcounted, toInt_nonneg_iff] at hpos
  rw [toInt_of_lt hpos] at hcounted
  refine ⟨hpos, ?_⟩
  rcases Nat.eq_zero_or_pos (field32 b r.metadataOffset.toNat).toNat with hzero | hsome
  · rw [hzero]
    exact hcount.2
  · have hlast : (field32 b r.metadataOffset.toNat).toNat - 1 + 1 =
      (field32 b r.metadataOffset.toNat).toNat := Nat.sub_add_cancel hsome
    have hmax : (((field32 b r.metadataOffset.toNat).toNat - 1 : ℕ) : ℤ) < 2 ^ 31 := by omega
    obtain ⟨rc, out', hget, hrc⟩ := hall _ (by omega) hmax ⟨none, none⟩
    obtain ⟨rc', out'', hget', hrc'⟩ := h.metadataGet_zero_iff (r := r) hb hmax
      (fun _ => .inl hpos) ⟨none, none⟩
    obtain ⟨rfl, -⟩ := Prod.mk.inj (Except.ok.inj (hget.symm.trans hget'))
    have hentry := (hrc'.mp (hrc.mpr ⟨by omega, by omega⟩)).2.2.2
    rwa [Int.toNat_natCast, hlast] at hentry

end Accepted

/-- **When counting and accessing agree** on a resource of an accepted buffer: its count, if
there is one to read, is below 2^31, and the last counted entry ends in the buffer. -/
theorem metadata_agrees_iff {b : Bytes} {c : ERFContainer} (hb : b.length < 2 ^ 64)
    (hopen : erfOpenMemory (some b) b.length = .ok (.ok c)) :
    ∀ r ∈ c.resources, MetadataAgrees c r ↔ MetadataComplete b r.metadataOffset := by
  intro r _
  have h := erfOpenMemory_ok_iff.mp hopen
  exact ⟨fun hagrees => hagrees.complete h hb, fun hcomplete => hcomplete.agrees h hb⟩

theorem metadata_agrees_iff_tiny :
    ∃ c, opened tinyWithMetadata = some c ∧ ∃ r ∈ c.resources,
      erfMetadataCount (some c) (some r) = .ok 1 ∧ MetadataAgrees c r := by
  have hsome : (opened tinyWithMetadata).isSome = true := by decide +kernel
  have hcomplete : ∀ c ∈ opened tinyWithMetadata, ∃ r ∈ c.resources,
      erfMetadataCount (some c) (some r) = .ok 1 ∧
        MetadataComplete tinyWithMetadata r.metadataOffset := by
    decide +kernel
  obtain ⟨c, hc⟩ := Option.isSome_iff_exists.mp hsome
  obtain ⟨r, hr, hcount, hblock⟩ := hcomplete c hc
  have hiff := metadata_agrees_iff (by decide +kernel) (opened_eq_some.mp hc)
  exact ⟨c, hc, r, hr, hcount, (hiff r hr).mpr hblock⟩

/-- A container whose metadata block ends behind the first of `count` entries. -/
def tinyTruncated (count : UInt32) : Bytes :=
  tinyContainer [] ([0x61, 0] ++ bytes32 count ++ bytes32 1 ++ [0x6B, 0] ++ bytes32 1 ++ [0x76, 0])
    298

/-- Entry 1 of two is refused, and 2^31 entries are counted as a negative number. -/
theorem truncated_metadata_disagrees :
    (∃ c, erfOpenMemory (some (tinyTruncated 2)) (tinyTruncated 2).length = .ok (.ok c) ∧
      ∃ r ∈ c.resources, erfMetadataCount (some c) (some r) = .ok 2 ∧
        erfMetadataGet (some c) (some r) 1 ⟨none, none⟩ = .ok (-1, ⟨none, none⟩) ∧
        ¬ MetadataAgrees c r) ∧
    ∃ c, erfOpenMemory (some (tinyTruncated 0x80000000)) (tinyTruncated 0x80000000).length =
        .ok (.ok c) ∧
      ∃ r ∈ c.resources, erfMetadataCount (some c) (some r) = .ok (-2 ^ 31) ∧
        ¬ MetadataAgrees c r := by
  have hsome : (opened (tinyTruncated 2)).isSome = true := by decide +kernel
  have hread : ∀ c ∈ opened (tinyTruncated 2), ∃ r ∈ c.resources,
      erfMetadataCount (some c) (some r) = .ok 2 ∧
        erfMetadataGet (some c) (some r) 1 ⟨none, none⟩ = .ok (-1, ⟨none, none⟩) := by
    decide +kernel
  have hsome' : (opened (tinyTruncated 0x80000000)).isSome = true := by decide +kernel
  have hread' : ∀ c ∈ opened (tinyTruncated 0x80000000), ∃ r ∈ c.resources,
      erfMetadataCount (some c) (some r) = .ok (-2 ^ 31) := by
    decide +kernel
  constructor
  · obtain ⟨c, hc⟩ := Option.isSome_iff_exists.mp hsome
    obtain ⟨r, hr, hcount, hget⟩ := hread c hc
    refine ⟨c, opened_eq_some.mp hc, r, hr, hcount, hget, ?_⟩
    rintro ⟨count, hcount', -, hall⟩
    obtain rfl : count = 2 := Except.ok.inj (hcount'.symm.trans hcount)
    obtain ⟨rc, out', hget', hrc⟩ := hall 1 (by decide) (by decide) ⟨none, none⟩
    obtain ⟨rfl, -⟩ := Prod.mk.inj (Except.ok.inj (hget'.symm.trans hget))
    exact absurd (hrc.mpr (by decide)) (by decide)
  · obtain ⟨c, hc⟩ := Option.isSome_iff_exists.mp hsome'
    obtain ⟨r, hr, hcount⟩ := hread' c hc
    refine ⟨c, opened_eq_some.mp hc, r, hr, hcount, ?_⟩
    rintro ⟨count, hcount', hpos, -⟩
    obtain rfl : count = -2 ^ 31 := Except.ok.inj (hcount'.symm.trans hcount)
    exact absurd hpos (by decide)

end Elfr.Runtime
