import Elfr.Runtime.MetadataCursor

/-!
# Reads of the reader

Whatever the bytes, opening a buffer and walking its metadata read only inside
of it. The directory and the buckets are bounded by `total_size`, which open
compares with the size; the metadata cursor is compared with the size itself.
-/
namespace Elfr.Runtime

open Library Common Format

/-- A pointer to a string that follows its 32-bit length, with the string and one
byte more inside the buffer. -/
def PrefixedAt (b : Bytes) (p : ℕ) : Prop :=
  4 ≤ p ∧ p + (field32 b (p - 4)).toNat + 1 ≤ b.length

theorem prefixedAt_of_stringEnd {b : Bytes} {off : ℕ} (h : stringEnd b off ≤ b.length) :
    PrefixedAt b (off + 4) := by
  unfold stringEnd at h
  refine ⟨by omega, ?_⟩
  rw [Nat.add_sub_cancel]
  omega

section Accepted

variable {b : Bytes} {c : ERFContainer}

theorem Accepted.total_le (h : Accepted b c) : c.header.totalSize.toNat ≤ b.length :=
  h.headerOk.total_le

theorem Accepted.size_eq (h : Accepted b c) : c.size = c.base.length := by
  rw [h.size, h.base]

theorem Accepted.exists_entry (h : Accepted b c) {r : ERFResource} (hr : r ∈ c.resources) :
    ∃ i < c.header.resourceCount.toNat, r = toResource (entryAt b c.header i) := by
  rw [h.resources, List.mem_map] at hr
  obtain ⟨i, hi, rfl⟩ := hr
  exact ⟨i, List.mem_range.mp hi, rfl⟩

theorem Accepted.data_le (h : Accepted b c) {r : ERFResource} (hr : r ∈ c.resources) :
    r.data + r.size.toNat ≤ c.header.totalSize.toNat := by
  obtain ⟨i, hi, rfl⟩ := h.exists_entry hr
  exact (h.entries i hi).data

theorem Accepted.length_resources (h : Accepted b c) :
    c.resources.length = c.resourceCount.toNat := by
  rw [h.resources, h.count, List.length_map, List.length_range]

theorem Accepted.bucket_le (h : Accepted b c) {slot : ℕ} (hslot : slot < c.hashBucketCount.toNat) :
    c.hashBuckets + bucketBytes * slot + bucketBytes ≤ c.header.totalSize.toNat := by
  have htable := h.table
  cases hann : announcesHashTable c.header with
  | true =>
    obtain ⟨-, -, hle⟩ := htable.present hann
    have hmul : bucketBytes * (slot + 1) ≤ bucketBytes * c.hashBucketCount.toNat :=
      Nat.mul_le_mul_left _ hslot
    rw [Nat.mul_add, Nat.mul_one] at hmul
    simp only at hle
    omega
  | false =>
    have hzero := (htable.absent hann).1
    simp only at hzero
    rw [hzero] at hslot
    exact absurd hslot (Nat.not_lt_zero _)

/-- The outcomes of an access to entry `index`. -/
theorem Accepted.metadataGet (h : Accepted b c) (hb : b.length < 2 ^ 64) (r : ERFResource)
    {index : ℤ} (hindex : index < 2 ^ 31 - 1) (out : OutVars) :
    ∃ rc out', erfMetadataGet (some c) (some r) index out = .ok (rc, out') ∧
      ((rc = -1 ∧ out' = out) ∨
        (rc = 0 ∧ ∃ k v, out' = out.store k v ∧ PrefixedAt b k ∧ PrefixedAt b v)) := by
  have hbase := h.base
  have hget := erfMetadataGet_eq (r := r) h.size_eq (hbase ▸ hb) hindex out
  rw [hbase] at hget
  split_ifs at hget with hentry
  · exact ⟨_, _, hget, .inr ⟨rfl, _, _, rfl, prefixedAt_of_stringEnd hentry.2.key_le,
      prefixedAt_of_stringEnd hentry.2.value_le⟩⟩
  · exact ⟨_, _, hget, .inl ⟨rfl, rfl⟩⟩

end Accepted

/-- **No structural read leaves the buffer.** Opening never stops, so it neither
reads outside of the buffer nor computes a sum that wraps. In an accepted buffer
the data of every resource and every bucket slot lie in the first `total_size`
bytes; the metadata accesses never stop either, hand out only strings that lie in
the buffer with one byte more, and on failure leave the caller's variables alone. -/
theorem reader_reads_inside_buffer (b : Bytes) (hb : b.length < 2 ^ 64) :
    (erfOpenMemory (some b) b.length).Safe ∧
    ∀ c, erfOpenMemory (some b) b.length = .ok (.ok c) →
      c.header.totalSize.toNat ≤ b.length ∧
      (∀ r ∈ c.resources, r.data + r.size.toNat ≤ c.header.totalSize.toNat) ∧
      (∀ slot < c.hashBucketCount.toNat,
        c.hashBuckets + bucketBytes * slot + bucketBytes ≤ c.header.totalSize.toNat) ∧
      ∀ r ∈ c.resources,
        (erfMetadataCount (some c) (some r)).Safe ∧
        ∀ index : ℤ, index < 2 ^ 31 - 1 → ∀ out,
          ∃ rc out', erfMetadataGet (some c) (some r) index out = .ok (rc, out') ∧
            ((rc = -1 ∧ out' = out) ∨
              (rc = 0 ∧ ∃ k v, out' = out.store k v ∧ PrefixedAt b k ∧ PrefixedAt b v)) := by
  refine ⟨erfOpenMemory_safe b, fun c hc => ?_⟩
  have h := erfOpenMemory_ok_iff.mp hc
  refine ⟨h.total_le, fun r hr => h.data_le hr, fun slot hslot => h.bucket_le hslot, ?_⟩
  intro r _
  exact ⟨⟨_, erfMetadataCount_eq h.size_eq⟩, fun index hindex out => h.metadataGet hb r hindex out⟩

/-- A container of one resource that has no data: header, entry, a hash table of the
given buckets, then the bytes its name starts at, and metadata if an offset is given. -/
def tinyContainer (buckets : List ERFHashBucket) (tail : Bytes) (metadataOffset : UInt64) : Bytes :=
  let hashTable := (ERFHashTableHeader.mk (UInt32.ofNat buckets.length) 0).toBytes ++
    buckets.flatMap ERFHashBucket.toBytes
  let nameOffset := headerBytes + entryBytes + hashTable.length
  let header : ERFHeader :=
    { magic := erfMagic, versionMajor := 1, versionMinor := 0, headerSize := 160, flags := 4,
      resourceCount := 1, directoryEntrySize := 128, reserved0 := 0, directoryOffset := 160,
      stringOffset := UInt64.ofNat nameOffset, metadataOffset := 0, hashTableOffset := 288,
      signatureOffset := 0, dataOffset := 0,
      totalSize := UInt64.ofNat (nameOffset + tail.length), checksum := 0,
      reserved := Vector.replicate 8 0 }
  let entry : ERFDirectoryEntry :=
    { id := 1, type := 0, language := 0, flags := 0, nameOffset := UInt32.ofNat nameOffset,
      reserved0 := 0, dataOffset := 0, dataSize := 0, originalSize := 0,
      metadataOffset := metadataOffset, hash := 0, checksum := 0, timestamp := 0,
      reserved := Vector.replicate 6 0 }
  header.toBytes ++ entry.toBytes ++ hashTable ++ tail

/-- A container with the metadata entry `k = v` of the resource `a`. -/
def tinyWithMetadata : Bytes :=
  tinyContainer [] ([0x61, 0] ++ bytes32 1 ++ bytes32 1 ++ [0x6B, 0] ++ bytes32 1 ++ [0x76, 0]) 298

theorem reader_reads_inside_buffer_tiny :
    ∃ c, opened tinyWithMetadata = some c ∧
      ∀ r ∈ c.resources, r.data + r.size.toNat ≤ c.header.totalSize.toNat := by
  have hsome : (opened tinyWithMetadata).isSome = true := by decide +kernel
  obtain ⟨c, hc⟩ := Option.isSome_iff_exists.mp hsome
  have hall := reader_reads_inside_buffer tinyWithMetadata (by decide +kernel)
  exact ⟨c, hc, (hall.2 c (opened_eq_some.mp hc)).2.1⟩

end Elfr.Runtime
