import Elfr.Compiler.Assembly
import Mathlib.Data.List.GetD

/-!
# The built container as an image of its items

`ImageOf items im b` describes a container of less than 2^32 bytes by what a
reader can find in it: the header, one directory entry for each item with its
name, metadata and data where the entry says, and the bucket table. Every
section the loops appended survives because the header and the directory are
written over their own placeholders only.
-/
namespace Elfr.Compiler

open Library LinearProbing Common Format

section Header

variable {buf : Bytes} {header : ERFHeader}

theorem patchHeader_le (hlen : headerBytes ≤ buf.length) (h : ERFHeader) :
    0 + h.toBytes.length ≤ buf.length := by
  rw [ERFHeader.length_toBytes, Nat.zero_add]
  exact hlen

theorem length_sealHeader (hlen : headerBytes ≤ buf.length) :
    (sealHeader buf header).length = buf.length := by
  have hpatch := length_patch (patchHeader_le hlen header)
  unfold sealHeader
  rw [length_patch (by rw [hpatch]; exact patchHeader_le hlen _), hpatch]

theorem sealHeader_zeroed (hlen : headerBytes ≤ buf.length) (hzero : header.checksum = 0) :
    patch (sealHeader buf header) checksumOffset (bytes64 0) = patch buf 0 header.toBytes := by
  obtain ⟨pre, post, hpre, hbytes⟩ := header.toBytes_withChecksum
  have hself : header.toBytes = pre ++ bytes64 0 ++ post := by
    rw [← hbytes 0, ← hzero]
  have hle : ∀ c, 0 + (pre ++ bytes64 c ++ post).length ≤ buf.length :=
    fun c => hbytes c ▸ patchHeader_le hlen _
  have hfirst : (patch buf 0 header.toBytes).length = buf.length :=
    length_patch (patchHeader_le hlen header)
  rw [hself] at hfirst
  unfold sealHeader
  simp only [hbytes, hzero]
  generalize elfrCrc64 (patch buf 0 (pre ++ bytes64 0 ++ post)) = checksum
  have hinner : patch (patch (patch buf 0 (pre ++ bytes64 0 ++ post)) 0
      (pre ++ bytes64 checksum ++ post)) (0 + pre.length) (bytes64 0) =
      patch (patch buf 0 (pre ++ bytes64 0 ++ post)) 0 (pre ++ bytes64 0 ++ post) :=
    patch_patch pre post (by rw [hfirst]; exact hle checksum) (by simp)
  rw [Nat.zero_add, hpre] at hinner
  rw [hinner]
  simpa using patch_patch (b := buf) [] [] (by simpa using hle 0) rfl

theorem sealHeader_segment (hlen : headerBytes ≤ buf.length) {off : ℕ} {xs : Bytes}
    (h : Segment buf off xs) (hoff : headerBytes ≤ off) :
    Segment (sealHeader buf header) off xs := by
  have hpatch := length_patch (patchHeader_le hlen header)
  have hdisjoint : ∀ h : ERFHeader, off + xs.length ≤ 0 ∨ 0 + h.toBytes.length ≤ off := by
    intro h
    rw [ERFHeader.length_toBytes, Nat.zero_add]
    exact .inr hoff
  unfold sealHeader
  exact (h.patch (patchHeader_le hlen _) (hdisjoint _)).patch
    (by rw [hpatch]; exact patchHeader_le hlen _) (hdisjoint _)

theorem sealHeader_header (hlen : headerBytes ≤ buf.length) :
    Segment (sealHeader buf header) 0
      { header with checksum := elfrCrc64 (patch buf 0 header.toBytes) }.toBytes := by
  have hpatch := length_patch (patchHeader_le hlen header)
  exact segment_patch_self (by rw [hpatch]; exact patchHeader_le hlen _)

end Header

/-- What the header and the tables of a container say. -/
structure Image where
  offsets : SectionOffsets
  flags : UInt32
  checksum : UInt64
  entries : List ERFDirectoryEntry
  bucketCount : UInt32
  buckets : List ERFHashBucket

def Image.header (im : Image) (size : ℕ) : ERFHeader :=
  { containerHeader im.offsets im.flags im.entries.length size with checksum := im.checksum }

/-- The header, the directory and the hash table of a container, of whatever size, are these. -/
structure TablesAt (im : Image) (b : Bytes) : Prop where
  header_at : Segment b 0 (im.header b.length).toBytes
  directory : im.offsets.directory = UInt64.ofNat headerBytes
  count : im.entries.length < 2 ^ 32
  directory_at : Segment b headerBytes (im.entries.flatMap ERFDirectoryEntry.toBytes)
  hashTable_at : Segment b im.offsets.hashTable.toNat (hashTableBytes im.bucketCount im.buckets)
  buckets : im.buckets.length = im.bucketCount.toNat

/-- A directory entry leads to every part of its item. -/
structure Presents (b : Bytes) (it : Item) (entry : ERFDirectoryEntry) : Prop where
  id : entry.id = it.id
  type : entry.type = it.type
  language : entry.language = it.language
  flags : entry.flags = it.flags
  timestamp : entry.timestamp = 0
  name : StringAt b entry.nameOffset.toNat it.name
  metadata : MetadataAt headerBytes b it.metadata entry.metadataOffset
  data : Segment b entry.dataOffset.toNat it.contents
  dataSize : entry.dataSize.toNat = it.contents.length

structure ImageOf (items : List Item) (im : Image) (b : Bytes) : Prop where
  size_lt : b.length < 2 ^ 32
  header_at : Segment b 0 (im.header b.length).toBytes
  checksum : im.checksum = elfrCrc64 (patch b checksumOffset (bytes64 0))
  flags : im.flags = itemFlags items
  directory : im.offsets.directory = UInt64.ofNat headerBytes
  directory_at : Segment b headerBytes (im.entries.flatMap ERFDirectoryEntry.toBytes)
  string_le : im.offsets.string.toNat ≤ b.length
  hashTable_ne : im.offsets.hashTable ≠ 0
  hashTable_at : Segment b im.offsets.hashTable.toNat (hashTableBytes im.bucketCount im.buckets)
  entries : List.Forall₂ (Presents b) items im.entries
  table : BucketTable (items.map Item.name) im.bucketCount im.buckets

section Assemble

variable (items : List Item) (hashTable : Bytes)

/-- Where the reserved directory ends. -/
def reservedBytes : ℕ := headerBytes + items.length * entryBytes

theorem reserved_le_stringStart : reservedBytes items ≤ (stringStart items).length := by
  have h := (bufAlign_isPrefix (List.replicate headerBytes 0 ++
    List.replicate (items.length * entryBytes) 0) 8).length_le
  rwa [List.length_append, List.length_replicate, List.length_replicate] at h

theorem stringStart_isPrefix : stringStart items <+: (stringSection items).2 :=
  internNames_isPrefix _ _ _ _

theorem stringSection_isPrefix : (stringSection items).2 <+: metadataStart items :=
  bufAlign_isPrefix _ _

theorem metadataStart_isPrefix : metadataStart items <+: (metadataSection items).2 :=
  appendMetadata_isPrefix _ _

theorem metadataSection_isPrefix : (metadataSection items).2 <+: hashTableStart items :=
  bufAlign_isPrefix _ _

theorem reserved_le_metadataStart : reservedBytes items ≤ (metadataStart items).length :=
  (reserved_le_stringStart items).trans
    ((stringStart_isPrefix items).trans (stringSection_isPrefix items)).length_le

theorem reserved_le_hashTableStart : reservedBytes items ≤ (hashTableStart items).length :=
  (reserved_le_metadataStart items).trans
    ((metadataStart_isPrefix items).trans (metadataSection_isPrefix items)).length_le

theorem hashTable_isPrefix : hashTableStart items ++ hashTable <+: dataStart items hashTable :=
  bufAlign_isPrefix _ _

theorem dataStart_isPrefix : dataStart items hashTable <+: (dataSection items hashTable).2 :=
  placeContents_isPrefix _ _

theorem hashTableStart_isPrefix : hashTableStart items <+: (dataSection items hashTable).2 :=
  ((List.prefix_append _ _).trans (hashTable_isPrefix items hashTable)).trans
    (dataStart_isPrefix items hashTable)

theorem metadataSection_isPrefix_data :
    (metadataSection items).2 <+: (dataSection items hashTable).2 :=
  (metadataSection_isPrefix items).trans (hashTableStart_isPrefix items hashTable)

theorem stringSection_isPrefix_data :
    (stringSection items).2 <+: (dataSection items hashTable).2 :=
  ((stringSection_isPrefix items).trans (metadataStart_isPrefix items)).trans
    (metadataSection_isPrefix_data items hashTable)

theorem reserved_le_data : reservedBytes items ≤ (dataSection items hashTable).2.length :=
  (reserved_le_stringStart items).trans (((stringStart_isPrefix items).trans
    (stringSection_isPrefix_data items hashTable)).length_le)

theorem length_itemEntries_flatMap :
    ((itemEntries items hashTable).flatMap ERFDirectoryEntry.toBytes).length =
      items.length * entryBytes := by
  rw [List.length_flatMap]
  simp [itemEntries]

theorem directory_le : headerBytes +
    ((itemEntries items hashTable).flatMap ERFDirectoryEntry.toBytes).length ≤
      (dataSection items hashTable).2.length := by
  rw [length_itemEntries_flatMap]
  exact reserved_le_data items hashTable

theorem header_le_data : headerBytes ≤ (dataSection items hashTable).2.length :=
  (Nat.le_add_right _ _).trans (reserved_le_data items hashTable)

/-- The data section with the directory filled in. -/
def withDirectory : Bytes :=
  patch (dataSection items hashTable).2 headerBytes
    ((itemEntries items hashTable).flatMap ERFDirectoryEntry.toBytes)

theorem length_withDirectory :
    (withDirectory items hashTable).length = (dataSection items hashTable).2.length :=
  length_patch (directory_le items hashTable)

theorem assemble_eq : assemble items hashTable = sealHeader (withDirectory items hashTable)
    (containerHeader (itemOffsets items hashTable) (itemFlags items)
      (itemEntries items hashTable).length (dataSection items hashTable).2.length) := by
  rw [← length_withDirectory]
  rfl

theorem length_assemble :
    (assemble items hashTable).length = (dataSection items hashTable).2.length := by
  rw [assemble_eq, length_sealHeader (by rw [length_withDirectory]; exact header_le_data _ _),
    length_withDirectory]

/-- Filling in the directory and the header keeps the sections behind them. -/
theorem assemble_segment {off : ℕ} {xs : Bytes}
    (h : Segment (dataSection items hashTable).2 off xs) (hoff : reservedBytes items ≤ off) :
    Segment (assemble items hashTable) off xs := by
  rw [assemble_eq]
  refine sealHeader_segment (by rw [length_withDirectory]; exact header_le_data _ _)
    (h.patch (directory_le items hashTable) (.inr ?_)) ((Nat.le_add_right _ _).trans hoff)
  rw [length_itemEntries_flatMap]
  exact hoff

end Assemble

section Entries

variable {items : List Item} {hashTable : Bytes}

theorem stringSection_spec (hlt : (dataSection items hashTable).2.length < 2 ^ 32) :
    List.Forall₂ (fun name offset => reservedBytes items ≤ offset.toNat ∧
        StringAt (dataSection items hashTable).2 offset.toNat name)
      (items.map Item.name) (stringSection items).1 := by
  have hgrow := stringSection_isPrefix_data items hashTable
  have h : List.Forall₂ (fun name offset => reservedBytes items ≤ offset.toNat ∧
      StringAt (stringSection items).2 offset.toNat name)
      (items.map Item.name) (stringSection items).1 :=
    internNames_spec (fun _ h => nomatch h) (reserved_le_stringStart items)
      (Nat.lt_of_le_of_lt hgrow.length_le hlt)
  exact h.imp fun _ _ h => ⟨h.1, h.2.of_isPrefix hgrow⟩

theorem metadataSection_spec (hlt : (dataSection items hashTable).2.length < 2 ^ 64) :
    List.Forall₂ (MetadataAt (reservedBytes items) (dataSection items hashTable).2)
      (items.map Item.metadata) (metadataSection items).1 := by
  have hgrow := metadataSection_isPrefix_data items hashTable
  have hlt' := Nat.lt_of_le_of_lt hgrow.length_le hlt
  exact (appendMetadata_spec (reserved_le_metadataStart items) hlt').imp
    fun _ _ h => h.of_isPrefix hgrow

theorem dataSection_spec (hlt : (dataSection items hashTable).2.length < 2 ^ 64) :
    List.Forall₂ (DataAt (reservedBytes items) (dataSection items hashTable).2)
      (items.map Item.contents) (dataSection items hashTable).1 := by
  have hstart := (reserved_le_hashTableStart items).trans
    ((List.prefix_append _ hashTable).trans (hashTable_isPrefix items hashTable)).length_le
  exact placeContents_spec hstart hlt

theorem itemEntries_present (hlt : (dataSection items hashTable).2.length < 2 ^ 32) :
    List.Forall₂ (Presents (assemble items hashTable)) items (itemEntries items hashTable) := by
  have hlarge : (dataSection items hashTable).2.length < 2 ^ 64 := by omega
  have hnames := stringSection_spec hlt
  have hmetadata := metadataSection_spec hlarge
  have hdata := dataSection_spec hlarge
  have hnames_len := hnames.length_eq
  have hmetadata_len := hmetadata.length_eq
  have hdata_len := hdata.length_eq
  rw [List.length_map] at hnames_len hmetadata_len hdata_len
  rw [List.forall₂_iff_get]
  refine ⟨by simp [itemEntries], fun i hi hi' => ?_⟩
  have hname := hnames.get (i := i) (by simpa using hi) (by omega)
  have hblock := hmetadata.get (i := i) (by simpa using hi) (by omega)
  have hrange := hdata.get (i := i) (by simpa using hi) (by omega)
  simp only [List.get_eq_getElem, List.getElem_map] at hname hblock hrange
  simp only [List.get_eq_getElem, itemEntries, List.getElem_mapIdx]
  rw [List.getD_eq_getElem _ _ (by omega), List.getD_eq_getElem _ _ (by omega),
    List.getD_eq_getElem _ _ (by omega)]
  refine ⟨rfl, rfl, rfl, rfl, rfl, ?_, ?_, ?_, hrange.size⟩
  · exact assemble_segment items hashTable hname.2 hname.1
  · unfold MetadataAt at hblock ⊢
    split_ifs at hblock ⊢ with hnone
    · exact hblock
    · exact ⟨(Nat.le_add_right _ _).trans hblock.1,
        assemble_segment items hashTable hblock.2 hblock.1⟩
  · exact assemble_segment items hashTable hrange.segment hrange.start_le

end Entries

def assembledImage (items : List Item) (bucketCount : UInt32) (buckets : List ERFHashBucket) :
    Image where
  offsets := itemOffsets items (hashTableBytes bucketCount buckets)
  flags := itemFlags items
  checksum := elfrCrc64 (patch (assemble items (hashTableBytes bucketCount buckets)) checksumOffset
    (bytes64 0))
  entries := itemEntries items (hashTableBytes bucketCount buckets)
  bucketCount := bucketCount
  buckets := buckets

theorem assemble_tablesAt {items : List Item} {bucketCount : UInt32} {buckets : List ERFHashBucket}
    (table : BucketTable (items.map Item.name) bucketCount buckets)
    (hlt : (assemble items (hashTableBytes bucketCount buckets)).length < 2 ^ 64) :
    TablesAt (assembledImage items bucketCount buckets)
      (assemble items (hashTableBytes bucketCount buckets)) := by
  have hsize := length_assemble items (hashTableBytes bucketCount buckets)
  rw [hsize] at hlt
  have hroom : headerBytes ≤ (withDirectory items (hashTableBytes bucketCount buckets)).length := by
    rw [length_withDirectory]
    exact header_le_data _ _
  have hreserved := reserved_le_hashTableStart items
  have htable := (hashTableStart_isPrefix items (hashTableBytes bucketCount buckets)).length_le
  have hoffset : (UInt64.ofNat (hashTableStart items).length).toNat =
      (hashTableStart items).length := toNat_ofNat64 (by omega)
  refine ⟨?_, rfl, ?_, ?_, ?_, table.length⟩
  · rw [Image.header, hsize, assembledImage, assemble_eq, sealHeader_zeroed hroom rfl]
    exact sealHeader_header hroom
  · have hfew := table.room.trans bucketCount.toNat_lt
    rw [List.length_map] at hfew
    rw [assembledImage, itemEntries, List.length_mapIdx]
    exact hfew
  · rw [assemble_eq]
    exact sealHeader_segment hroom (segment_patch_self (directory_le _ _)) le_rfl
  · refine assemble_segment _ _ ?_ ?_
    · rw [assembledImage, itemOffsets, hoffset]
      exact (segment_append_self _ _).of_isPrefix
        ((hashTable_isPrefix _ _).trans (dataStart_isPrefix _ _))
    · rw [assembledImage, itemOffsets, hoffset]
      exact hreserved

/-- What is assembled to less than 2^32 bytes is an image of the items. -/
theorem assemble_imageOf {items : List Item} {bucketCount : UInt32} {buckets : List ERFHashBucket}
    (table : BucketTable (items.map Item.name) bucketCount buckets)
    (hlt : (assemble items (hashTableBytes bucketCount buckets)).length < 2 ^ 32) :
    ImageOf items (assembledImage items bucketCount buckets)
      (assemble items (hashTableBytes bucketCount buckets)) := by
  have hsize := length_assemble items (hashTableBytes bucketCount buckets)
  have htables := assemble_tablesAt table (by omega)
  have hreserved := reserved_le_hashTableStart items
  have hstrings := ((stringStart_isPrefix items).trans
    (stringSection_isPrefix_data items (hashTableBytes bucketCount buckets))).length_le
  have htable := (hashTableStart_isPrefix items (hashTableBytes bucketCount buckets)).length_le
  refine ⟨hlt, htables.header_at, rfl, rfl, rfl, htables.directory_at, ?_, ?_,
    htables.hashTable_at, itemEntries_present (hsize ▸ hlt), table⟩
  · rw [hsize]
    exact (Nat.le_of_eq (toNat_ofNat64 (by omega))).trans hstrings
  · intro hzero
    have hoffset : (UInt64.ofNat (hashTableStart items).length).toNat =
        (hashTableStart items).length := toNat_ofNat64 (by omega)
    rw [show UInt64.ofNat (hashTableStart items).length = 0 from hzero] at hoffset
    have hzero' : (0 : UInt64).toNat = 0 := rfl
    unfold reservedBytes headerBytes at hreserved
    omega

theorem reserved_le_assemble (items : List Item) (hashTable : Bytes) :
    headerBytes + items.length * entryBytes ≤ (assemble items hashTable).length := by
  rw [length_assemble]
  exact reserved_le_data items hashTable

/-- A container is assembled around the hash table of its names. -/
theorem Builds.assembled {fs : FileSystem} {m : ElfrcManifest} {b : Bytes} (h : Builds fs m b) :
    ∃ items bucketCount buckets, List.Forall₂ (Loads fs) m.resources items ∧
      BucketTable (items.map Item.name) bucketCount buckets ∧
      (∀ bucket ∈ buckets, bucket.reserved0 = 0) ∧
      b = assemble items (hashTableBytes bucketCount buckets) := by
  obtain ⟨fuel, hbuild⟩ := h
  obtain ⟨items, hloads, hashTable, hhash, rfl⟩ := elfrcContainerBuild_eq_ok.mp hbuild
  have hn : (items.map Item.name).length * 2 ≤ 2 ^ 31 := by
    by_contra hmany
    rw [buildHashTable_diverges (by omega)] at hhash
    cases hhash
  obtain ⟨bucketCount, buckets, ⟨htable, hzero⟩, -, hunique⟩ := buildHashTable_spec hn
  obtain rfl := hunique fuel hashTable hhash
  exact ⟨items, bucketCount, buckets, hloads, htable, hzero, rfl⟩

/-- One of less than 2^32 bytes is an image of the items its resources load as. -/
theorem Builds.imageOf {fs : FileSystem} {m : ElfrcManifest} {b : Bytes} (h : Builds fs m b)
    (hlt : b.length < 2 ^ 32) :
    ∃ items im, List.Forall₂ (Loads fs) m.resources items ∧ ImageOf items im b := by
  obtain ⟨items, bucketCount, buckets, hloads, htable, -, rfl⟩ := h.assembled
  exact ⟨items, _, hloads, assemble_imageOf htable hlt⟩

/-- The size of the container of these items; what the buckets hold does not matter for it. -/
def containerSize (items : List Item) : ℕ :=
  (dataSection items (List.replicate
    (hashTableHeaderBytes + bucketBytes * pow2From16 (items.length * 2)) 0)).2.length

theorem length_dataSection (items : List Item) {hashTable hashTable' : Bytes}
    (h : hashTable.length = hashTable'.length) :
    (dataSection items hashTable).2.length = (dataSection items hashTable').2.length := by
  simp only [dataSection, length_placeContents, dataStart, length_bufAlign, List.length_append, h]

theorem BucketTable.length_bytes {items : List Item} {bucketCount : UInt32}
    {buckets : List ERFHashBucket} (h : BucketTable (items.map Item.name) bucketCount buckets) :
    (hashTableBytes bucketCount buckets).length =
      hashTableHeaderBytes + bucketBytes * pow2From16 (items.length * 2) := by
  have hcount := h.count
  rw [List.length_map] at hcount
  rw [hashTableBytes, List.length_append, ERFHashTableHeader.length_toBytes, List.length_flatMap]
  simp [h.length, hcount, Nat.mul_comm]

theorem length_names_le_of_size {items : List Item} (hsize : containerSize items < 2 ^ 32) :
    (items.map Item.name).length * 2 ≤ 2 ^ 31 := by
  have hfits := reserved_le_data items (List.replicate
    (hashTableHeaderBytes + bucketBytes * pow2From16 (items.length * 2)) 0)
  rw [List.length_map]
  unfold containerSize at hsize
  unfold reservedBytes entryBytes at hfits
  omega

/-- If every resource loads and the container is smaller than 2^32 bytes, the build succeeds. -/
theorem builds_of_loads {fs : FileSystem} {m : ElfrcManifest} {items : List Item}
    (hloads : List.Forall₂ (Loads fs) m.resources items) (hsize : containerSize items < 2 ^ 32) :
    ∃ b im, Builds fs m b ∧ b.length = containerSize items ∧ ImageOf items im b := by
  obtain ⟨bucketCount, buckets, ⟨htable, -⟩, htotal, -⟩ :=
    buildHashTable_spec (length_names_le_of_size hsize)
  have hlen : (assemble items (hashTableBytes bucketCount buckets)).length =
      containerSize items := by
    rw [length_assemble]
    exact length_dataSection items (by rw [htable.length_bytes, List.length_replicate])
  exact ⟨_, _, ⟨2 ^ 32, elfrcContainerBuild_eq_ok.mpr
    ⟨items, hloads, _, htotal _ le_rfl, rfl⟩⟩, hlen, assemble_imageOf htable (hlen ▸ hsize)⟩

theorem Loads.rightUnique (fs : FileSystem) : Relator.RightUnique (Loads fs) := by
  intro r it it' h h'
  obtain ⟨file, f, hfile, hopen, hread⟩ := h.contents
  obtain ⟨file', f', hfile', hopen', hread'⟩ := h'.contents
  obtain rfl := Option.some.inj (hfile.symm.trans hfile')
  obtain rfl := Option.some.inj (hopen.symm.trans hopen')
  have hmetadata := h.metadata.symm.trans h'.metadata
  have hinj : Function.Injective fun kv : CString × CString =>
      (⟨some kv.1, some kv.2⟩ : ElfrcMetadataKv) := by
    rintro ⟨k, v⟩ ⟨k', v'⟩ heq
    simpa using heq
  cases it
  cases it'
  congr 1
  · exact Option.some.inj (h.name.symm.trans h'.name)
  · exact List.map_injective_iff.mpr hinj hmetadata
  · exact Option.some.inj (hread.symm.trans hread')
  · exact h.id.symm.trans h'.id
  · exact h.type.symm.trans h'.type
  · exact h.language.symm.trans h'.language
  · exact h.flags.symm.trans h'.flags

theorem Builds.length_eq {fs : FileSystem} {m : ElfrcManifest} {items : List Item} {b : Bytes}
    (hbuild : Builds fs m b) (hloads : List.Forall₂ (Loads fs) m.resources items)
    (hsize : containerSize items < 2 ^ 32) : b.length = containerSize items := by
  obtain ⟨fuel, hfuel⟩ := hbuild
  obtain ⟨items', hloads', hashTable, hhash, rfl⟩ := elfrcContainerBuild_eq_ok.mp hfuel
  obtain rfl := List.right_unique_forall₂' (Loads.rightUnique fs) hloads hloads'
  obtain ⟨bucketCount, buckets, ⟨htable, -⟩, -, hunique⟩ :=
    buildHashTable_spec (length_names_le_of_size hsize)
  obtain rfl := hunique fuel hashTable hhash
  rw [length_assemble]
  exact length_dataSection items (by rw [htable.length_bytes, List.length_replicate])

/-- One name in two languages, the second with a metadata entry. -/
def pairItems : List Item :=
  [⟨⟨[0x61], by decide⟩, [], [1, 2, 3], 1, 0, 0, 0⟩,
    ⟨⟨[0x61], by decide⟩, [(⟨[0x6B], by decide⟩, ⟨[0x76], by decide⟩)], [], 7, 0, 1033, 0⟩]

def pairManifest : ElfrcManifest where
  version := 1
  module := none
  resources :=
    [⟨some ⟨[0x61], by decide⟩, some ⟨[0x66], by decide⟩, 0, 0, 0, 0, false, 0, 1, [], 3⟩,
      ⟨some ⟨[0x61], by decide⟩, some ⟨[0x67], by decide⟩, 0, 1033, 0, 0, true, 7, 7,
        [⟨some ⟨[0x6B], by decide⟩, some ⟨[0x76], by decide⟩⟩], 5⟩]

/-- Two files, of three bytes and of none. -/
def pairFiles : FileSystem where
  isRegular := fun _ => true
  fopen := fun file =>
    if file.bytes = [0x66] then some ⟨3, [1, 2, 3]⟩
    else if file.bytes = [0x67] then some ⟨0, []⟩ else none

theorem pair_loads : List.Forall₂ (Loads pairFiles) pairManifest.resources pairItems := by
  refine .cons ⟨rfl, rfl, ⟨_, _, rfl, rfl, ?_⟩, rfl, rfl, rfl, rfl⟩
    (.cons ⟨rfl, rfl, ⟨_, _, rfl, rfl, ?_⟩, rfl, rfl, rfl, rfl⟩ .nil)
  · decide
  · decide

theorem pair_size : containerSize pairItems < 2 ^ 32 := by decide +kernel

end Elfr.Compiler
