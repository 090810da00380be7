import Elfr.Compiler.ContainerImage
import Elfr.Runtime.ReaderBounds

/-!
# The runtime opens what the compiler builds

A built container, also with other bytes behind it, is an accepted buffer, and
the container opened from it is the one its image describes: the header the
builder sealed, a resource for each directory entry, and the bucket array.
-/
namespace Elfr.Compiler

open Library Common Format Elfr.Runtime

/-- What opening makes of an image of `size` bytes at the start of a buffer. -/
def Image.container (im : Image) (size : ℕ) (buf : Bytes) : ERFContainer where
  base := buf
  size := buf.length
  header := im.header size
  entryStride := (im.header size).directoryEntrySize
  resources := im.entries.map toResource
  resourceCount := (im.header size).resourceCount
  hasHashTable := true
  hashBucketCount := im.bucketCount
  hashBuckets := im.offsets.hashTable.toNat + hashTableHeaderBytes

theorem headerFlags_hashTable (anyMetadata localized : Bool) :
    headerFlags anyMetadata localized &&& hflagHashTablePresent ≠ 0 := by
  cases anyMetadata <;> cases localized <;> decide

section Directory

variable {im : Image} {b : Bytes} {size : ℕ}

theorem Image.directoryOffset (hdirectory : im.offsets.directory = UInt64.ofNat headerBytes) :
    (im.header size).directoryOffset.toNat = headerBytes := by
  change im.offsets.directory.toNat = _
  rw [hdirectory]
  rfl

theorem Image.entryAt_eq (hdirectory : im.offsets.directory = UInt64.ofNat headerBytes)
    (hat : Segment b headerBytes (im.entries.flatMap ERFDirectoryEntry.toBytes)) {i : ℕ}
    (hi : i < im.entries.length) : entryAt b (im.header size) i = im.entries[i] := by
  have hentry := hat.decode_getElem ERFDirectoryEntry.ofBytes_toBytes
    ERFDirectoryEntry.length_toBytes i hi
  rw [Nat.mul_comm] at hentry
  rw [entryAt, Image.directoryOffset hdirectory]
  exact hentry

end Directory

/-- What an entry presents it presents in a longer buffer too. -/
theorem Presents.append {b : Bytes} {it : Item} {entry : ERFDirectoryEntry}
    (h : Presents b it entry) (t : Bytes) : Presents (b ++ t) it entry :=
  { h with
    name := h.name.append t
    metadata := h.metadata.of_isPrefix (List.prefix_append b t)
    data := h.data.append t }

section Image

variable {items : List Item} {im : Image} {b : Bytes} (h : ImageOf items im b) (t : Bytes)
include h

theorem ImageOf.length_entries : im.entries.length = items.length := h.entries.length_eq.symm

theorem ImageOf.directory_le : headerBytes + im.entries.length * entryBytes ≤ b.length := by
  have hle := h.directory_at.le
  rw [List.length_flatMap] at hle
  simpa using hle

theorem ImageOf.resourceCount :
    (im.header b.length).resourceCount.toNat = im.entries.length := by
  have hle := h.directory_le
  have hlt := h.size_lt
  unfold entryBytes at hle
  exact toNat_ofNat32 (by omega)

theorem ImageOf.totalSize : (im.header b.length).totalSize.toNat = b.length := by
  have hlt := h.size_lt
  exact toNat_ofNat64 (by omega)

theorem ImageOf.announces : announcesHashTable (im.header b.length) = true := by
  unfold announcesHashTable
  refine decide_eq_true ⟨?_, h.hashTable_ne⟩
  change im.flags &&& _ ≠ 0
  rw [h.flags]
  exact headerFlags_hashTable _ _

theorem ImageOf.bucketCount_at :
    field32 (b ++ t) im.offsets.hashTable.toNat = im.bucketCount :=
  ((h.hashTable_at.append t).left.left).field32

theorem ImageOf.buckets_le : im.offsets.hashTable.toNat + hashTableHeaderBytes +
    bucketBytes * im.bucketCount.toNat ≤ b.length := by
  have hle := h.hashTable_at.le
  rw [hashTableBytes, List.length_append, ERFHashTableHeader.length_toBytes,
    List.length_flatMap] at hle
  simp only [ERFHashBucket.length_toBytes, List.map_const', List.sum_replicate, smul_eq_mul,
    h.table.length] at hle
  rw [Nat.mul_comm bucketBytes]
  omega

theorem ImageOf.presents {i : ℕ} (hi : i < im.entries.length) :
    ∃ hi' : i < items.length, Presents b items[i] im.entries[i] := by
  have hi' : i < items.length := h.length_entries ▸ hi
  exact ⟨hi', h.entries.get hi' hi⟩

theorem ImageOf.headerOk : HeaderOk (im.header b.length) (b ++ t).length where
  magic := rfl
  version := rfl
  headerSize := by change headerBytes ≤ (UInt32.ofNat headerBytes).toNat; decide
  header_le := by
    have hle := h.directory_le
    rw [h.totalSize]
    change (UInt32.ofNat headerBytes).toNat ≤ _
    rw [toNat_ofNat32 (by decide)]
    omega
  total_le := by
    rw [h.totalSize, List.length_append]
    exact Nat.le_add_right _ _
  stride := by change entryBytes ≤ (UInt32.ofNat entryBytes).toNat; decide
  directory := by
    rw [Image.directoryOffset h.directory, h.resourceCount, h.totalSize]
    exact h.directory_le
  strings := fun _ => by
    rw [h.totalSize]
    exact h.string_le

/-- **A built container is accepted**, whatever follows it in the buffer. -/
theorem ImageOf.accepted : Accepted (b ++ t) (im.container b.length (b ++ t)) where
  base := rfl
  size := rfl
  header_le := by
    have hle := (h.header_at.append t).le
    rw [ERFHeader.length_toBytes] at hle
    omega
  header :=
    ((h.header_at.append t).decode_slice ERFHeader.ofBytes_toBytes ERFHeader.length_toBytes).symm
  headerOk := h.headerOk t
  stride := rfl
  count := rfl
  table :=
    { hasHash := h.announces.symm
      present := fun _ => ⟨(h.bucketCount_at t).symm, rfl, by
        change im.offsets.hashTable.toNat + _ + _ ≤ _
        exact h.totalSize.symm ▸ h.buckets_le⟩
      absent := fun hnone => absurd hnone (by simp [Image.container, h.announces]) }
  entries := fun i hi => by
    have hi' : i < im.entries.length := h.resourceCount ▸ hi
    obtain ⟨hitem, hp⟩ := h.presents hi'
    have hname := Segment.le hp.name
    have hdata := Segment.le hp.data
    change EntryOk (im.header b.length) (entryAt (b ++ t) (im.header b.length) i)
    rw [Image.entryAt_eq h.directory (h.directory_at.append t) hi']
    refine ⟨?_, ?_⟩
    · rw [h.totalSize]
      rw [CString.length_terminated] at hname
      omega
    · rw [h.totalSize, hp.dataSize]
      exact hdata
  resources := by
    change im.entries.map toResource = _
    refine List.ext_getElem (by simp [Image.container, h.resourceCount]) fun i hi hi' => ?_
    rw [List.length_map] at hi
    simp only [Image.container, List.getElem_map, List.getElem_range,
      Image.entryAt_eq h.directory (h.directory_at.append t) hi]

theorem ImageOf.opens :
    erfOpenMemory (some (b ++ t)) (b ++ t).length = .ok (.ok (im.container b.length (b ++ t))) :=
  erfOpenMemory_ok_iff.mpr (h.accepted t)

theorem ImageOf.resource {i : ℕ} (hi : i < items.length) :
    ∃ entry, (im.container b.length (b ++ t)).resources[i]? = some (toResource entry) ∧
      Presents b items[i] entry := by
  have hi' : i < im.entries.length := h.length_entries.symm ▸ hi
  refine ⟨im.entries[i], ?_, (h.presents hi').2⟩
  simp [Image.container, hi']

theorem ImageOf.item_of_resource {i : ℕ} {r : ERFResource}
    (hr : (im.container b.length (b ++ t)).resources[i]? = some r) :
    ∃ (hi : i < items.length) (entry : ERFDirectoryEntry),
      r = toResource entry ∧ Presents b items[i] entry := by
  have hi : i < items.length := by
    have hlt := (List.getElem?_eq_some_iff.mp hr).1
    simpa [Image.container, h.length_entries] using hlt
  obtain ⟨entry, hentry, hp⟩ := h.resource t hi
  exact ⟨hi, entry, Option.some.inj (hr.symm.trans hentry), hp⟩

end Image

end Elfr.Compiler
