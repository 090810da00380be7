import Elfr.Runtime.ReaderBounds
import Elfr.Runtime.LongerBuffer

/-!
# The container checksum

`erf_verify_checksum` recomputes the CRC with the checksum field zeroed and
compares it with the field. The CRC is injective on a block of up to eight
bytes, so a burst of that size shows. It is taken over the whole buffer,
however, and not over its first `total_size` bytes, so the bytes behind the
container take part in the verdict: any of them can turn it, and eight of them
can make any container verify.
-/
namespace Elfr.Runtime

open Library Common Format

def zeroed (b : Bytes) : Bytes := patch b checksumOffset (bytes64 0)

section Zeroed

variable {b : Bytes} (h : headerBytes ≤ b.length)
include h

theorem checksum_le : checksumOffset + (bytes64 0).length ≤ b.length := by
  rw [length_bytes64]
  exact (by decide : checksumOffset + 8 ≤ headerBytes).trans h

theorem length_zeroed : (zeroed b).length = b.length := length_patch (checksum_le h)

theorem getElem?_zeroed (i : ℕ) : (zeroed b)[i]? =
    if checksumOffset ≤ i ∧ i < checksumOffset + 8 then (bytes64 0)[i - checksumOffset]?
    else b[i]? := by
  rw [zeroed, getElem?_patch (checksum_le h), length_bytes64]

theorem zeroed_append (t : Bytes) : zeroed (b ++ t) = zeroed b ++ t := by
  have hle := checksum_le h
  unfold zeroed patch
  rw [List.take_append_of_le_length (by omega), List.drop_append_of_le_length hle]
  simp only [List.append_assoc]

end Zeroed

section Verify

variable {b b' : Bytes} {c c' : ERFContainer}

theorem Accepted.verify_eq (h : Accepted b c) :
    erfVerifyChecksum (some c) = .ok (elfrCrc64 (zeroed b) == c.header.checksum) := by
  unfold erfVerifyChecksum
  simp only [h.base, h.size, (segment_self b).load rfl]
  rfl

theorem Accepted.verify_iff (h : Accepted b c) :
    erfVerifyChecksum (some c) = .ok true ↔ elfrCrc64 (zeroed b) = c.header.checksum := by
  rw [h.verify_eq, Except.ok.injEq, beq_iff_eq]

theorem Accepted.checksum_eq (h : Accepted b c) :
    c.header.checksum = field64 b checksumOffset := by
  rw [h.header]
  exact field64_slice (by decide)

theorem Accepted.burst_in_field (h : Accepted b c) (h' : Accepted b' c')
    (hverify : erfVerifyChecksum (some c) = .ok true) (hne : b' ≠ b)
    (hsame : ∀ i, i < checksumOffset ∨ checksumOffset + 8 ≤ i → b'[i]? = b[i]?) :
    erfVerifyChecksum (some c') ≠ .ok true := by
  have hzeroed : zeroed b' = zeroed b := by
    apply List.ext_getElem?
    intro i
    rw [getElem?_zeroed h'.header_le, getElem?_zeroed h.header_le]
    split_ifs with hi
    · rfl
    · exact hsame i (by omega)
  intro hverify'
  have hfield : field64 b' checksumOffset = field64 b checksumOffset := by
    rw [← h'.checksum_eq, ← h.checksum_eq, ← h'.verify_iff.mp hverify', ← h.verify_iff.mp hverify,
      hzeroed]
  have hseg := segment_field64 (b := b) ((checksum_le h.header_le))
  have hseg' := segment_field64 (b := b') ((checksum_le h'.header_le))
  rw [hfield] at hseg'
  refine hne (List.ext_getElem? fun i => ?_)
  by_cases hi : i < checksumOffset ∨ checksumOffset + 8 ≤ i
  · exact hsame i hi
  · have hin : i - checksumOffset < (bytes64 (field64 b checksumOffset)).length := by
      rw [length_bytes64]
      omega
    have hget := (hseg'.getElem? hin).trans (hseg.getElem? hin).symm
    rwa [show checksumOffset + (i - checksumOffset) = i by omega] at hget

theorem Accepted.burst_outside_field (h : Accepted b c) (h' : Accepted b' c')
    (hverify : erfVerifyChecksum (some c) = .ok true) (hlen : b'.length = b.length)
    (hne : b' ≠ b) {w : ℕ} (hw : w + 8 ≤ checksumOffset ∨ checksumOffset + 8 ≤ w)
    (hsame : ∀ i, i < w ∨ w + 8 ≤ i → b'[i]? = b[i]?) :
    erfVerifyChecksum (some c') ≠ .ok true := by
  have hfield : field64 b' checksumOffset = field64 b checksumOffset := by
    have hslice : slice b' checksumOffset 8 = slice b checksumOffset 8 := by
      apply List.ext_getElem?
      intro i
      rw [getElem?_slice, getElem?_slice]
      split_ifs with hi
      · exact hsame _ (by omega)
      · rfl
    rw [field64, hslice, field64]
  have hzeroed : ∀ i, i < w ∨ w + 8 ≤ i → (zeroed b')[i]? = (zeroed b)[i]? := by
    intro i hi
    rw [getElem?_zeroed h'.header_le, getElem?_zeroed h.header_le]
    split_ifs
    · rfl
    · exact hsame i hi
  have hcrc := elfrCrc64_window
    (by rw [length_zeroed h'.header_le, length_zeroed h.header_le, hlen])
    w hzeroed
  rw [ne_eq, h'.verify_iff, h'.checksum_eq, hfield, ← h.checksum_eq, ← h.verify_iff.mp hverify,
    hcrc]
  intro heq
  refine hne (List.ext_getElem? fun i => ?_)
  by_cases hi : i < w ∨ w + 8 ≤ i
  · exact hsame i hi
  · have hget := congrArg (fun x : Bytes => x[i]?) heq
    simp only [getElem?_zeroed h'.header_le, getElem?_zeroed h.header_le] at hget
    rwa [if_neg (by omega), if_neg (by omega)] at hget

end Verify

section Tail

variable {b : Bytes} {c : ERFContainer}

theorem slice_take {total off len : ℕ} (h : off + len ≤ total) :
    slice (b.take total) off len = slice b off len := by
  apply List.ext_getElem?
  intro i
  rw [getElem?_slice, getElem?_slice]
  split_ifs with hi
  · rw [List.getElem?_take, if_pos (by omega)]
  · rfl

/-- The container on its own, without what follows it in the buffer. -/
def ERFContainer.alone (c : ERFContainer) : ERFContainer :=
  { c with base := c.base.take c.header.totalSize.toNat, size := c.header.totalSize.toNat }

theorem Accepted.length_take (h : Accepted b c) :
    (b.take c.header.totalSize.toNat).length = c.header.totalSize.toNat := by
  rw [List.length_take, Nat.min_eq_left h.total_le]

theorem Accepted.headerBytes_le_total (h : Accepted b c) :
    headerBytes ≤ c.header.totalSize.toNat :=
  h.headerOk.headerSize.trans h.headerOk.header_le

theorem Accepted.entryAt_take (h : Accepted b c) {i : ℕ}
    (hi : i < c.header.resourceCount.toNat) :
    entryAt (b.take c.header.totalSize.toNat) c.header i = entryAt b c.header i := by
  rw [entryAt, entryAt, slice_take (h.headerOk.entry_le hi)]

/-- The first `total_size` bytes of an accepted buffer are accepted, with the same container. -/
theorem Accepted.alone (h : Accepted b c) :
    Accepted (b.take c.header.totalSize.toNat) c.alone where
  base := by rw [← h.base]; rfl
  size := h.length_take.symm
  header_le := by rw [h.length_take]; exact h.headerBytes_le_total
  header := by
    rw [slice_take (by rw [Nat.zero_add]; exact h.headerBytes_le_total)]
    exact h.header
  headerOk := { h.headerOk with total_le := by rw [h.length_take]; exact le_rfl }
  stride := h.stride
  count := h.count
  table :=
    { hasHash := h.table.hasHash
      present := fun hann => by
        obtain ⟨hcount, hbuckets, hle⟩ := h.table.present hann
        refine ⟨?_, hbuckets, hle⟩
        have hhead : c.header.hashTableOffset.toNat + 4 ≤ c.header.totalSize.toNat := by
          simp only [hashTableHeaderBytes] at hbuckets hle
          omega
        change c.hashBucketCount = field32 _ c.header.hashTableOffset.toNat
        rw [field32, slice_take hhead]
        exact hcount
      absent := h.table.absent }
  entries := fun i hi => by
    change EntryOk c.header (entryAt _ c.header i)
    rw [h.entryAt_take hi]
    exact h.entries i hi
  resources := by
    refine h.resources.trans (List.map_congr_left fun i hi => ?_)
    change _ = toResource (entryAt _ c.header i)
    rw [h.entryAt_take (List.mem_range.mp hi)]

/-- The container with other bytes behind it, opened with the size of them all. -/
def ERFContainer.padded (c : ERFContainer) (t : Bytes) : ERFContainer :=
  { c.followedBy t with size := (c.base ++ t).length }

theorem Accepted.padded (h : Accepted b c) (t : Bytes) : Accepted (b ++ t) (c.padded t) := by
  have hopen := erfOpenMemory_append b t (erfOpenMemory_ok_iff.mpr h)
  have hle : b.length ≤ (b ++ t).length := by rw [List.length_append]; omega
  have hall := erfOpenMemory_of_le hle hopen
  rw [ERFContainer.padded, h.base]
  exact erfOpenMemory_ok_iff.mp hall

/-- The CRC is compared after all bytes of the buffer, the tail's included. -/
theorem Accepted.verify_padded_iff (h : Accepted b c) (t : Bytes) :
    erfVerifyChecksum (some (c.padded t)) = .ok true ↔
      elfrCrc64 (zeroed b ++ t) = c.header.checksum := by
  rw [(h.padded t).verify_iff, zeroed_append h.header_le]
  rfl

/-- The last byte of a tail can be chosen so that the CRC is another one. -/
theorem Accepted.exists_padded_fails (h : Accepted b c) {n : ℕ} (hn : n ≠ 0) :
    ∃ t, t.length = n ∧ erfVerifyChecksum (some (c.padded t)) ≠ .ok true := by
  obtain ⟨n, rfl⟩ := Nat.exists_eq_succ_of_ne_zero hn
  have hlen : ∀ x : UInt8, (List.replicate n 0 ++ [x]).length = n + 1 := fun x => by simp
  by_cases hzero : erfVerifyChecksum (some (c.padded (List.replicate n 0 ++ [0]))) = .ok true
  · refine ⟨List.replicate n 0 ++ [1], hlen 1, fun hone => ?_⟩
    rw [h.verify_padded_iff, ← List.append_assoc] at hzero hone
    exact absurd ((elfrCrc64_append_byte _ 0 1).mp (hzero.trans hone.symm)) (by decide)
  · exact ⟨List.replicate n 0 ++ [0], hlen 0, hzero⟩

/-- Eight bytes at the end of a tail can bring the CRC to the one stored. -/
theorem Accepted.exists_padded_verifies (h : Accepted b c) {n : ℕ} (hn : 8 ≤ n) :
    ∃ t, t.length = n ∧ erfVerifyChecksum (some (c.padded t)) = .ok true := by
  obtain ⟨t, hlen, hcrc⟩ :=
    exists_elfrCrc64_append_eq (zeroed b ++ List.replicate (n - 8) 0) c.header.checksum
  refine ⟨List.replicate (n - 8) 0 ++ t, ?_, ?_⟩
  · rw [List.length_append, List.length_replicate, hlen]
    omega
  · rwa [h.verify_padded_iff, ← List.append_assoc]

/-- The verdict on these bytes is also the verdict on every buffer that has them first and
`n` more behind. -/
def VerdictIgnoresTail (b : Bytes) (n : ℕ) : Prop :=
  ∃ c verdict, erfOpenMemory (some b) b.length = .ok (.ok c) ∧
    erfVerifyChecksum (some c) = .ok verdict ∧
    ∀ t, t.length = n → ∃ c', erfOpenMemory (some (b ++ t)) (b ++ t).length = .ok (.ok c') ∧
      erfVerifyChecksum (some c') = .ok verdict

theorem Accepted.verdict_of_padded (h : Accepted b c) {t : Bytes} {verdict : Bool}
    (htail : ∃ c', erfOpenMemory (some (b ++ t)) (b ++ t).length = .ok (.ok c') ∧
      erfVerifyChecksum (some c') = .ok verdict) :
    erfVerifyChecksum (some (c.padded t)) = .ok verdict := by
  obtain ⟨c', hopen', hverdict⟩ := htail
  have hopen := erfOpenMemory_ok_iff.mpr (h.padded t)
  obtain rfl : c.padded t = c' := Except.ok.inj (Except.ok.inj (hopen.symm.trans hopen'))
  exact hverdict

theorem Accepted.verdictIgnoresTail_zero (h : Accepted b c) : VerdictIgnoresTail b 0 := by
  refine ⟨c, _, erfOpenMemory_ok_iff.mpr h, h.verify_eq, fun t ht => ?_⟩
  obtain rfl := List.eq_nil_of_length_eq_zero ht
  rw [List.append_nil]
  exact ⟨c, erfOpenMemory_ok_iff.mpr h, h.verify_eq⟩

/-- A container that verifies has no byte behind it that it could ignore. -/
theorem Accepted.verdictIgnoresTail_iff (h : Accepted b c)
    (hverify : erfVerifyChecksum (some c) = .ok true) {n : ℕ} :
    VerdictIgnoresTail b n ↔ n = 0 := by
  constructor
  · rintro ⟨c', verdict, hopen, hverdict, htails⟩
    obtain rfl : c = c' :=
      Except.ok.inj (Except.ok.inj ((erfOpenMemory_ok_iff.mpr h).symm.trans hopen))
    obtain rfl : true = verdict := Except.ok.inj (hverify.symm.trans hverdict)
    by_contra hn
    obtain ⟨t, hlen, hfails⟩ := h.exists_padded_fails hn
    exact hfails (h.verdict_of_padded (htails t hlen))
  · rintro rfl
    exact h.verdictIgnoresTail_zero

/-- Eight bytes behind a container are too many in any case. -/
theorem Accepted.lt_of_verdictIgnoresTail (h : Accepted b c) {n : ℕ}
    (hignores : VerdictIgnoresTail b n) : n < 8 := by
  obtain ⟨c', verdict, -, -, htails⟩ := hignores
  by_contra hn
  obtain ⟨t, hlen, hfails⟩ := h.exists_padded_fails (n := n) (by omega)
  obtain ⟨t', hlen', hverifies⟩ := h.exists_padded_verifies (n := n) (by omega)
  have hverdict := h.verdict_of_padded (htails t' hlen')
  obtain rfl : true = verdict := Except.ok.inj (hverifies.symm.trans hverdict)
  exact hfails (h.verdict_of_padded (htails t hlen))

end Tail

end Elfr.Runtime
