import Elfr.Compiler.SectionLayout
import Elfr.Container.Acceptance

/-!
# A built container is well laid out

The header, the directory entries and the buckets are read off the bytes of the
container, and the regions they announce are the sections the builder appended:
in order, disjoint, aligned, with zeros between them, and each of them holding
what its entry says.
-/
namespace Elfr.Compiler

open Library LinearProbing Common Format Elfr.Runtime

section Tables

variable (b : Bytes)

def entriesOf : List ERFDirectoryEntry :=
  (List.range (headerOf b).resourceCount.toNat).map (entryAt b (headerOf b))

/-- Where the buckets start. -/
def bucketsStart : ℕ := (headerOf b).hashTableOffset.toNat + hashTableHeaderBytes

def bucketsOf : List ERFHashBucket :=
  (List.range (field32 b (headerOf b).hashTableOffset.toNat).toNat).map fun k =>
    ERFHashBucket.ofBytes (slice b (bucketsStart b + bucketBytes * k) bucketBytes)

variable (items : List Item)

end Tables

section Image

variable {items : List Item} {im : Image} {b : Bytes}

theorem TablesAt.headerOf_eq (h : TablesAt im b) : headerOf b = im.header b.length :=
  h.header_at.decode_slice ERFHeader.ofBytes_toBytes ERFHeader.length_toBytes

theorem TablesAt.directoryOffset (h : TablesAt im b) :
    (headerOf b).directoryOffset.toNat = headerBytes := by
  rw [h.headerOf_eq]
  exact Image.directoryOffset h.directory

theorem TablesAt.resourceCount (h : TablesAt im b) :
    (headerOf b).resourceCount.toNat = im.entries.length := by
  rw [h.headerOf_eq]
  exact toNat_ofNat32 h.count

theorem TablesAt.entriesOf_eq (h : TablesAt im b) : entriesOf b = im.entries := by
  rw [entriesOf, h.resourceCount, h.headerOf_eq]
  refine List.ext_getElem (by simp) fun i hi hi' => ?_
  rw [List.getElem_map, List.getElem_range, Image.entryAt_eq h.directory h.directory_at hi']

theorem TablesAt.bucketCount_eq (h : TablesAt im b) :
    field32 b (headerOf b).hashTableOffset.toNat = im.bucketCount := by
  rw [h.headerOf_eq]
  exact h.hashTable_at.left.left.field32

theorem TablesAt.bucketsOf_eq (h : TablesAt im b) : bucketsOf b = im.buckets := by
  have hoffset : (headerOf b).hashTableOffset = im.offsets.hashTable := by
    rw [h.headerOf_eq]
    rfl
  rw [bucketsOf, bucketsStart, h.bucketCount_eq, hoffset, ← h.buckets]
  refine List.ext_getElem (by simp) fun k hk hk' => ?_
  have hbucket := h.hashTable_at.right.decode_getElem ERFHashBucket.ofBytes_toBytes
    ERFHashBucket.length_toBytes k hk'
  rw [ERFHashTableHeader.length_toBytes] at hbucket
  rw [List.getElem_map, List.getElem_range, hbucket]

theorem ImageOf.tablesAt (h : ImageOf items im b) : TablesAt im b :=
  ⟨h.header_at, h.directory, by
    have hroom := h.table.room.trans im.bucketCount.toNat_lt
    rwa [List.length_map, ← h.length_entries] at hroom, h.directory_at, h.hashTable_at,
    h.table.length⟩

theorem ImageOf.headerOf_eq (h : ImageOf items im b) : headerOf b = im.header b.length :=
  h.tablesAt.headerOf_eq

theorem ImageOf.entriesOf_eq (h : ImageOf items im b) : entriesOf b = im.entries :=
  h.tablesAt.entriesOf_eq

theorem ImageOf.bucketsOf_eq (h : ImageOf items im b) : bucketsOf b = im.buckets :=
  h.tablesAt.bucketsOf_eq

end Image

theorem strings_at (items : List Item) (hashTable : Bytes) : Segment (assemble items hashTable)
    (stringStart items).length (stringTable (items.map Item.name)) := by
  have hstrings : Segment (stringSection items).2 (stringStart items).length
      (stringTable (items.map Item.name)) := by
    rw [stringSection_eq]
    exact segment_append_self _ _
  exact assemble_segment _ _ (hstrings.of_isPrefix (stringSection_isPrefix_data items _))
    (reserved_le_stringStart items)

section Tables

variable {items : List Item} {bucketCount : UInt32} {buckets : List ERFHashBucket}
  (h : TablesAt (assembledImage items bucketCount buckets)
    (assemble items (hashTableBytes bucketCount buckets)))
  (hlt : (assemble items (hashTableBytes bucketCount buckets)).length < 2 ^ 64)
include h hlt

theorem TablesAt.stringOffset_eq :
    (headerOf (assemble items (hashTableBytes bucketCount buckets))).stringOffset.toNat =
      (stringStart items).length := by
  have hgrow := ((stringStart_isPrefix items).trans
    (stringSection_isPrefix_data items (hashTableBytes bucketCount buckets))).length_le
  rw [length_assemble] at hlt
  rw [h.headerOf_eq]
  exact toNat_ofNat64 (by omega)

theorem TablesAt.hashTableOffset_eq :
    (headerOf (assemble items (hashTableBytes bucketCount buckets))).hashTableOffset.toNat =
      (hashTableStart items).length := by
  have hgrow := (hashTableStart_isPrefix items (hashTableBytes bucketCount buckets)).length_le
  rw [length_assemble] at hlt
  rw [h.headerOf_eq]
  exact toNat_ofNat64 (by omega)

end Tables

theorem itemEntries_nameOffset {items : List Item} {hashTable : Bytes} {i : ℕ}
    (hi : i < (itemEntries items hashTable).length) (hitem : i < items.length) :
    (itemEntries items hashTable)[i].nameOffset = UInt32.ofNat
      ((stringStart items).length + namePosition (items.map Item.name) items[i].name) := by
  have hnames := congrArg (·[i]?) (itemEntries_nameOffsets items hashTable)
  rw [stringSection_eq] at hnames
  simpa only [List.getElem?_map, List.getElem?_eq_getElem hi, List.getElem?_eq_getElem hitem,
    Option.map_some, Option.some.injEq] using hnames

section Assembled

variable {items : List Item} {bucketCount : UInt32} {buckets : List ERFHashBucket}
  (h : ImageOf items (assembledImage items bucketCount buckets)
    (assemble items (hashTableBytes bucketCount buckets)))
include h

theorem stringOffset_eq :
    (headerOf (assemble items (hashTableBytes bucketCount buckets))).stringOffset.toNat =
      (stringStart items).length :=
  h.tablesAt.stringOffset_eq (h.size_lt.trans (by norm_num))

theorem hashTableOffset_eq :
    (headerOf (assemble items (hashTableBytes bucketCount buckets))).hashTableOffset.toNat =
      (hashTableStart items).length :=
  h.tablesAt.hashTableOffset_eq (h.size_lt.trans (by norm_num))

section Entry

variable {i : ℕ} (hi : i < (itemEntries items (hashTableBytes bucketCount buckets)).length)
include hi

variable (hitem : i < items.length)
include hitem

end Entry

end Assembled

end Elfr.Compiler
