import Elfr.Runtime.ReaderBounds

/-!
# What opening leaves unchecked

A container is well formed if every offset of its header and of its entries
leads to the part it announces. Opening checks the directory, the names' and the
data's bounds and the hash table's extent; the rest it takes on trust, so an
accepted container is well formed exactly if that rest happens to hold.
-/
namespace Elfr.Runtime

open Library Common Format

/-- A length-prefixed string and its terminator below `limit`. -/
def StringWithin (b : Bytes) (limit off : ℕ) : Prop :=
  stringEnd b off ≤ limit ∧ b[stringEnd b off - 1]? = some 0

instance (b : Bytes) (limit off : ℕ) : Decidable (StringWithin b limit off) :=
  inferInstanceAs (Decidable (_ ∧ _))

/-- A metadata block below `limit`: the count, then as many keys and values. -/
def BlockWithin (b : Bytes) (limit off : ℕ) : Prop :=
  off + 4 ≤ limit ∧
    ∀ k < 2 * (field32 b off).toNat, StringWithin b limit ((stringEnd b)^[k] (off + 4))

instance (b : Bytes) (limit off : ℕ) : Decidable (BlockWithin b limit off) :=
  inferInstanceAs (Decidable (_ ∧ _))

section Container

variable (c : ERFContainer)

/-- The `i`-th directory entry of an opened container. -/
def ERFContainer.entry (i : ℕ) : ERFDirectoryEntry := entryAt c.base c.header i

def MetadataWithin (entry : ERFDirectoryEntry) : Prop :=
  entry.metadataOffset = 0 ∨
    BlockWithin c.base c.header.totalSize.toNat entry.metadataOffset.toNat

/-- Every bucket in use refers to a resource. -/
def BucketsWithin : Prop :=
  ∀ slot bucket, readBucket c slot = .ok bucket → bucket.directoryIndex ≠ erfHashEmpty →
    bucket.directoryIndex < c.header.resourceCount

structure EntryWellFormed (entry : ERFDirectoryEntry) : Prop where
  name_ge : c.header.stringOffset.toNat ≤ entry.nameOffset.toNat
  name_lt : entry.nameOffset.toNat < c.header.totalSize.toNat
  data_le : entry.dataOffset.toNat + entry.dataSize.toNat ≤ c.header.totalSize.toNat
  metadata : MetadataWithin c entry

structure WellFormed : Prop where
  directory_le : c.header.directoryOffset ≤ c.header.totalSize
  string_le : c.header.stringOffset ≤ c.header.totalSize
  metadata_le : c.header.metadataOffset ≤ c.header.totalSize
  hashTable_le : c.header.hashTableOffset ≤ c.header.totalSize
  signature_le : c.header.signatureOffset ≤ c.header.totalSize
  data_le : c.header.dataOffset ≤ c.header.totalSize
  directory_ge : c.header.headerSize.toNat ≤ c.header.directoryOffset.toNat
  entries : ∀ i < c.header.resourceCount.toNat, EntryWellFormed c (c.entry i)
  buckets : BucketsWithin c

/-- What no check of `erf_open_memory` looks at: three offsets of the header, two more where
there are no resources or no hash table, the order of the parts, and what the metadata
blocks and the buckets hold. -/
structure Unchecked : Prop where
  metadata_le : c.header.metadataOffset ≤ c.header.totalSize
  signature_le : c.header.signatureOffset ≤ c.header.totalSize
  data_le : c.header.dataOffset ≤ c.header.totalSize
  string_le : c.header.resourceCount = 0 → c.header.stringOffset ≤ c.header.totalSize
  hashTable_le : announcesHashTable c.header = false →
    c.header.hashTableOffset ≤ c.header.totalSize
  directory_ge : c.header.headerSize.toNat ≤ c.header.directoryOffset.toNat
  name_ge : ∀ i < c.header.resourceCount.toNat,
    c.header.stringOffset.toNat ≤ (c.entry i).nameOffset.toNat
  metadata : ∀ i < c.header.resourceCount.toNat, MetadataWithin c (c.entry i)
  buckets : BucketsWithin c

end Container

section Accepted

variable {b : Bytes} {c : ERFContainer} (h : Accepted b c)
include h

theorem Accepted.directory_le : c.header.directoryOffset ≤ c.header.totalSize := by
  rw [UInt64.le_iff_toNat_le]
  exact (Nat.le_add_right _ _).trans h.headerOk.directory

theorem Accepted.string_le (hsome : c.header.resourceCount ≠ 0) :
    c.header.stringOffset ≤ c.header.totalSize := by
  rw [UInt64.le_iff_toNat_le]
  exact h.headerOk.strings hsome

theorem Accepted.hashTable_le (hann : announcesHashTable c.header = true) :
    c.header.hashTableOffset ≤ c.header.totalSize := by
  obtain ⟨-, hstart, hle⟩ := h.table.present hann
  rw [UInt64.le_iff_toNat_le]
  simp only at hstart hle
  omega

theorem Accepted.entry_bounds {i : ℕ} (hi : i < c.header.resourceCount.toNat) :
    EntryOk c.header (c.entry i) := by
  rw [ERFContainer.entry, h.base]
  exact h.entries i hi

theorem Accepted.wellFormed_iff : WellFormed c ↔ Unchecked c := by
  constructor
  · intro hw
    exact ⟨hw.metadata_le, hw.signature_le, hw.data_le, fun _ => hw.string_le,
      fun _ => hw.hashTable_le, hw.directory_ge, fun i hi => (hw.entries i hi).name_ge,
      fun i hi => (hw.entries i hi).metadata, hw.buckets⟩
  · intro hu
    refine ⟨h.directory_le, ?_, hu.metadata_le, ?_, hu.signature_le, hu.data_le, hu.directory_ge,
      fun i hi => ?_, hu.buckets⟩
    · by_cases hnone : c.header.resourceCount = 0
      · exact hu.string_le hnone
      · exact h.string_le hnone
    · cases hann : announcesHashTable c.header with
      | false => exact hu.hashTable_le hann
      | true => exact h.hashTable_le hann
    · have hbounds := h.entry_bounds hi
      exact ⟨hu.name_ge i hi, hbounds.name, hbounds.data, hu.metadata i hi⟩

end Accepted

/-- **An accepted container is well formed** exactly if it also meets what opening leaves
unchecked. -/
theorem accepted_wellFormed_iff {b : Bytes} {c : ERFContainer}
    (hopen : erfOpenMemory (some b) b.length = .ok (.ok c)) : WellFormed c ↔ Unchecked c :=
  (erfOpenMemory_ok_iff.mp hopen).wellFormed_iff

/-- A container with one bucket, and the metadata entry `k = v` of its resource. -/
def tinyWellFormed : Bytes :=
  tinyContainer [⟨0, 0, 0⟩]
    ([0x61, 0] ++ bytes32 1 ++ bytes32 1 ++ [0x6B, 0] ++ bytes32 1 ++ [0x76, 0]) 314

theorem tinyWellFormed_opens : (opened tinyWellFormed).isSome = true := by decide +kernel

theorem tinyWellFormed_unchecked :
    Unchecked ((opened tinyWellFormed).get tinyWellFormed_opens) := by
  have hcount :
      ((opened tinyWellFormed).get tinyWellFormed_opens).header.resourceCount.toNat = 1 := by
    decide +kernel
  have hbuckets : ((opened tinyWellFormed).get tinyWellFormed_opens).hashBucketCount = 1 := by
    decide +kernel
  have hbucket : readBucket ((opened tinyWellFormed).get tinyWellFormed_opens) 0 =
      .ok ⟨0, 0, 0⟩ := by
    decide +kernel
  refine ⟨by decide +kernel, by decide +kernel, by decide +kernel, by decide +kernel,
    by decide +kernel, by decide +kernel, by decide +kernel, fun i hi => .inr ?_, ?_⟩
  · rw [hcount, Nat.lt_one_iff] at hi
    subst hi
    decide +kernel
  · intro slot bucket hread _
    have hslot : slot < 1 := by
      by_contra hge
      rw [readBucket, hbuckets, if_neg hge] at hread
      cases hread
    obtain rfl : slot = 0 := by
      rw [UInt32.lt_iff_toNat_lt] at hslot
      exact UInt32.toNat_inj.mp (Nat.lt_one_iff.mp hslot)
    obtain rfl := Except.ok.inj (hbucket.symm.trans hread)
    rw [UInt32.lt_iff_toNat_lt, hcount]
    decide

theorem accepted_wellFormed_tiny :
    ∃ c, opened tinyWellFormed = some c ∧ c.header.resourceCount = 1 ∧ WellFormed c := by
  have hopened : opened tinyWellFormed =
      some ((opened tinyWellFormed).get tinyWellFormed_opens) :=
    (Option.some_get tinyWellFormed_opens).symm
  exact ⟨_, hopened, by decide +kernel,
    (accepted_wellFormed_iff (opened_eq_some.mp hopened)).mpr tinyWellFormed_unchecked⟩

/-- The metadata of the resource is announced far behind the end of the container. -/
def farMetadata : Bytes := tinyContainer [] [0x61, 0] 5000

theorem farMetadata_opens : (opened farMetadata).isSome = true := by decide +kernel

theorem farMetadata_accepted :
    ∃ c, erfOpenMemory (some farMetadata) farMetadata.length = .ok (.ok c) ∧ ¬ WellFormed c := by
  have hopened : opened farMetadata = some ((opened farMetadata).get farMetadata_opens) :=
    (Option.some_get farMetadata_opens).symm
  refine ⟨_, opened_eq_some.mp hopened, fun hw => ?_⟩
  have hmetadata := (hw.entries 0 (by decide +kernel)).metadata
  revert hmetadata
  unfold MetadataWithin
  decide +kernel

end Elfr.Runtime
