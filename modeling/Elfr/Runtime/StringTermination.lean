import Elfr.Runtime.LookupSafety
import Mathlib.Data.Finset.Max

/-!
# Terminated strings

Open checks that one byte of each name is in bounds, and the metadata cursor
steps over the byte behind a string without reading it, so whether the strings
of an accepted buffer end is a matter of its bytes. The strings the reader
compares and hands out are all terminated exactly if a NUL follows the last
name inside `total_size`, and every metadata string it can reach has its first
NUL where its length says.
-/
namespace Elfr.Runtime

open Library Common Format

/-- The string behind a length-prefixed pointer ends after the length in front of it. -/
def EndsAtLength (b : Bytes) (p : ℕ) : Prop :=
  ∃ s, StringAt b p s ∧ s.strlen = (field32 b (p - 4)).toNat

/-- Every string the reader compares or hands out is terminated inside the container. -/
structure StringsTerminated (c : ERFContainer) : Prop where
  names : ∀ r ∈ c.resources, ∃ p, r.name ≤ p ∧ p < c.header.totalSize.toNat ∧ c.base[p]? = some 0
  hashed : c.hashBucketCount > 0 → ∀ q, (findHashed c q).Safe
  scanned : ∀ q, (findScanning c q).Safe
  metadata : ∀ r ∈ c.resources, ∀ index : ℤ, index < 2 ^ 31 → ∀ out out',
    erfMetadataGet (some c) (some r) index out = .ok (0, out') →
      (∀ k ∈ out'.key, EndsAtLength c.base k) ∧ ∀ v ∈ out'.value, EndsAtLength c.base v

/-- A NUL inside `total_size` at or after the start of every name. -/
def NamesClosed (b : Bytes) (header : ERFHeader) : Prop :=
  header.resourceCount = 0 ∨ ∃ p < header.totalSize.toNat, b[p]? = some 0 ∧
    ∀ i < header.resourceCount.toNat, (entryAt b header i).nameOffset.toNat ≤ p

/-- The length-prefixed string at `off` has its first NUL right behind it. -/
def ClosedAt (b : Bytes) (off : ℕ) : Prop :=
  ∀ d ≤ (field32 b off).toNat, b[off + 4 + d]? = some 0 ↔ d = (field32 b off).toNat

/-- Every metadata entry the cursor can reach has a closed key and a closed value. -/
def MetadataClosed (b : Bytes) (header : ERFHeader) : Prop :=
  ∀ i < header.resourceCount.toNat, ∀ j, j + 1 < 2 ^ 31 →
    HasEntry b (entryAt b header i).metadataOffset j →
      ClosedAt b (entryStart b (entryAt b header i).metadataOffset j) ∧
      ClosedAt b (stringEnd b (entryStart b (entryAt b header i).metadataOffset j))

theorem endsAtLength_iff {b : Bytes} {off : ℕ} : EndsAtLength b (off + 4) ↔ ClosedAt b off := by
  unfold EndsAtLength ClosedAt
  rw [exists_stringAt_strlen_iff, Nat.add_sub_cancel]

section Closed

variable {b : Bytes} {c : ERFContainer}

theorem toResource_mem (h : Accepted b c) {i : ℕ} (hi : i < c.header.resourceCount.toNat) :
    toResource (entryAt b c.header i) ∈ c.resources := by
  rw [h.resources]
  exact List.mem_map.mpr ⟨i, List.mem_range.mpr hi, rfl⟩

theorem namesClosed_iff (h : Accepted b c) :
    NamesClosed b c.header ↔
      ∀ r ∈ c.resources, ∃ p, r.name ≤ p ∧ p < c.header.totalSize.toNat ∧ c.base[p]? = some 0 := by
  have hzero : c.header.resourceCount = 0 ↔ c.header.resourceCount.toNat = 0 := by
    rw [← UInt32.toNat_inj]
    rfl
  rw [h.base]
  constructor
  · intro hclosed r hr
    obtain ⟨i, hi, rfl⟩ := h.exists_entry hr
    rcases hclosed with hnone | ⟨p, hp, hnul, hle⟩
    · exact absurd hi (by rw [hzero.mp hnone]; exact Nat.not_lt_zero i)
    · exact ⟨p, hle i hi, hp, hnul⟩
  · intro hnames
    rcases Nat.eq_zero_or_pos c.header.resourceCount.toNat with hnone | hpos
    · exact .inl (hzero.mpr hnone)
    · obtain ⟨last, hlast, hmax⟩ := Finset.exists_max_image
        (Finset.range c.header.resourceCount.toNat)
        (fun i => (entryAt b c.header i).nameOffset.toNat) ⟨0, Finset.mem_range.mpr hpos⟩
      obtain ⟨p, hle, hp, hnul⟩ := hnames _ (toResource_mem h (Finset.mem_range.mp hlast))
      exact .inr ⟨p, hp, hnul, fun i hi => (hmax i (Finset.mem_range.mpr hi)).trans hle⟩

theorem NamesClosed.namesTerminated (h : Accepted b c) (hclosed : NamesClosed b c.header) :
    NamesTerminated c := by
  intro r hr
  obtain ⟨p, hle, -, hnul⟩ := (namesClosed_iff h).mp hclosed r hr
  obtain ⟨s, hs, -⟩ := exists_stringAt hle hnul
  exact exists_stringAt_iff.mp ⟨s, hs⟩

theorem erfMetadataGet_eq_zero_iff (h : Accepted b c) (hb : b.length < 2 ^ 64) {r : ERFResource}
    {index : ℤ} (hindex : index < 2 ^ 31 - 1) {out out' : OutVars} :
    erfMetadataGet (some c) (some r) index out = .ok (0, out') ↔
      (0 ≤ index ∧ HasEntry b r.metadataOffset index.toNat) ∧
      out' = out.store (entryStart b r.metadataOffset index.toNat + 4)
        (stringEnd b (entryStart b r.metadataOffset index.toNat) + 4) := by
  have hbase := h.base
  rw [erfMetadataGet_eq h.size_eq (hbase ▸ hb) hindex, hbase]
  split_ifs with hentry
  · simp only [hentry, and_self, true_and, Except.ok.injEq, Prod.mk.injEq]
    exact eq_comm
  · simp [hentry]

/-- Handed-out metadata strings end at their lengths exactly if the reachable entries are closed. -/
theorem metadataClosed_iff (h : Accepted b c) (hb : b.length < 2 ^ 64) :
    MetadataClosed b c.header ↔
      ∀ r ∈ c.resources, ∀ index : ℤ, index < 2 ^ 31 → ∀ out out',
        erfMetadataGet (some c) (some r) index out = .ok (0, out') →
          (∀ k ∈ out'.key, EndsAtLength c.base k) ∧ ∀ v ∈ out'.value, EndsAtLength c.base v := by
  rw [h.base]
  constructor
  · intro hclosed r hr index _ out out' hget
    obtain ⟨i, hi, rfl⟩ := h.exists_entry hr
    by_cases hindex : index < 2 ^ 31 - 1
    · obtain ⟨⟨hpos, hentry⟩, rfl⟩ := (erfMetadataGet_eq_zero_iff h hb hindex).mp hget
      obtain ⟨hkey, hvalue⟩ := hclosed i hi index.toNat (by omega) hentry
      refine ⟨fun k hk => ?_, fun v hv => ?_⟩
      · obtain ⟨_, _, rfl⟩ := Option.map_eq_some_iff.mp hk
        exact endsAtLength_iff.mpr hkey
      · obtain ⟨_, _, rfl⟩ := Option.map_eq_some_iff.mp hv
        exact endsAtLength_iff.mpr hvalue
    · exact absurd hget (erfMetadataGet_overflow hindex out out')
  · intro hstrings i hi j hj hentry
    have hget : erfMetadataGet (some c) (some (toResource (entryAt b c.header i))) (j : ℤ)
        ⟨some 0, some 0⟩ = .ok (0, OutVars.store ⟨some 0, some 0⟩ _ _) :=
      (erfMetadataGet_eq_zero_iff h hb (by omega)).mpr ⟨⟨by omega, hentry⟩, rfl⟩
    obtain ⟨hkey, hvalue⟩ := hstrings _ (toResource_mem h hi) j (by omega) _ _ hget
    exact ⟨endsAtLength_iff.mp (hkey _ rfl), endsAtLength_iff.mp (hvalue _ rfl)⟩

end Closed

/-- **When the strings of an accepted buffer are terminated**: some NUL inside `total_size`
follows the start of every name, and each metadata string that can be reached has its first
NUL where its length says. -/
theorem stringsTerminated_iff {b : Bytes} {c : ERFContainer} (hb : b.length < 2 ^ 64)
    (hopen : erfOpenMemory (some b) b.length = .ok (.ok c)) :
    StringsTerminated c ↔ NamesClosed b c.header ∧ MetadataClosed b c.header := by
  have h := erfOpenMemory_ok_iff.mp hopen
  rw [namesClosed_iff h, metadataClosed_iff h hb]
  constructor
  · intro hs
    exact ⟨hs.names, hs.metadata⟩
  · rintro ⟨hnames, hmetadata⟩
    have hterm := ((namesClosed_iff h).mpr hnames).namesTerminated h
    refine ⟨hnames, fun hcount q => ?_, fun q => ?_, hmetadata⟩
    · obtain ⟨found, hfound, -⟩ := findHashed_spec (q := q) h hterm hcount
      exact ⟨found, hfound⟩
    · obtain ⟨found, hfound, -⟩ := findScanning_spec (q := q) h hterm
      exact ⟨found, hfound⟩

theorem tinyWithMetadata_closed : ∀ c ∈ opened tinyWithMetadata,
    NamesClosed tinyWithMetadata c.header ∧ MetadataClosed tinyWithMetadata c.header := by
  have hclosed : ∀ c ∈ opened tinyWithMetadata, c.header.resourceCount.toNat = 1 ∧
      297 < c.header.totalSize.toNat ∧ (entryAt tinyWithMetadata c.header 0).nameOffset = 296 ∧
      (entryAt tinyWithMetadata c.header 0).metadataOffset = 298 := by
    decide +kernel
  have hstart : entryStart tinyWithMetadata 298 0 = 302 := by decide +kernel
  have hend : stringEnd tinyWithMetadata 302 = 308 := by decide +kernel
  have hcount : (field32 tinyWithMetadata (298 : UInt64).toNat).toNat = 1 := by decide +kernel
  have hstrings : ∀ off ∈ [302, 308], ∀ d ≤ (field32 tinyWithMetadata off).toNat,
      (tinyWithMetadata[off + 4 + d]? = some 0 ↔ d = (field32 tinyWithMetadata off).toNat) := by
    decide +kernel
  intro c hc
  obtain ⟨hone, hlt, hname, hmetadata⟩ := hclosed c hc
  constructor
  · refine .inr ⟨297, hlt, by decide +kernel, fun i hi => ?_⟩
    obtain rfl : i = 0 := by omega
    rw [hname]
    decide
  · intro i hi j _ hentry
    obtain rfl : i = 0 := by omega
    rw [hmetadata] at hentry ⊢
    obtain rfl : j = 0 := Nat.lt_one_iff.mp (hcount ▸ hentry.2.1)
    rw [hstart, hend]
    exact ⟨hstrings 302 (by simp), hstrings 308 (by simp)⟩

theorem stringsTerminated_iff_tiny :
    ∃ c, opened tinyWithMetadata = some c ∧ StringsTerminated c := by
  have hsome : (opened tinyWithMetadata).isSome = true := by decide +kernel
  obtain ⟨c, hc⟩ := Option.isSome_iff_exists.mp hsome
  exact ⟨c, hc, (stringsTerminated_iff (by decide +kernel) (opened_eq_some.mp hc)).mpr
    (tinyWithMetadata_closed c hc)⟩

/-- A container whose only name is its last byte. -/
def tinyUnterminated : Bytes := tinyContainer [] [0x61] 0

/-- Comparing that name with itself reads the byte behind the buffer. -/
theorem unterminated_name_accepted :
    ∃ c, erfOpenMemory (some tinyUnterminated) tinyUnterminated.length = .ok (.ok c) ∧
      erfFindIn (some c) (some ⟨[0x61], by decide⟩) =
        .error (.outOfBounds tinyUnterminated.length) ∧
      ¬ StringsTerminated c := by
  have hsome : (opened tinyUnterminated).isSome = true := by decide +kernel
  have hreads : ∀ c ∈ opened tinyUnterminated,
      erfFindIn (some c) (some ⟨[0x61], by decide⟩) =
        .error (.outOfBounds tinyUnterminated.length) ∧
      findScanning c ⟨[0x61], by decide⟩ = .error (.outOfBounds tinyUnterminated.length) := by
    decide +kernel
  obtain ⟨c, hc⟩ := Option.isSome_iff_exists.mp hsome
  obtain ⟨hfind, hscan⟩ := hreads c hc
  refine ⟨c, opened_eq_some.mp hc, hfind, fun hs => ?_⟩
  obtain ⟨found, hfound⟩ := hs.scanned ⟨[0x61], by decide⟩
  rw [hscan] at hfound
  cases hfound

end Elfr.Runtime
