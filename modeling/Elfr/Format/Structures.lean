import Elfr.Library.LittleEndian

/-!
# The on-disk structures of a container

`erf_format.h`: the 160-byte header, the 128-byte directory entry and the
records of the hash table, each with the bytes a copy of the C structure has
and the structure a copy of those bytes gives back. Structure padding is
written as zeros, which is what the zero-initialized originals hold.
-/
namespace Elfr.Format

open Library

structure ERFHeader where
  magic : Vector UInt8 4
  versionMajor : UInt16
  versionMinor : UInt16
  headerSize : UInt32
  flags : UInt32
  resourceCount : UInt32
  directoryEntrySize : UInt32
  reserved0 : UInt32
  directoryOffset : UInt64
  stringOffset : UInt64
  metadataOffset : UInt64
  hashTableOffset : UInt64
  signatureOffset : UInt64
  dataOffset : UInt64
  totalSize : UInt64
  checksum : UInt64
  reserved : Vector UInt64 8
  deriving DecidableEq, Repr

/-- `ERF_MAGIC`, the letters ELFR. -/
def erfMagic : Vector UInt8 4 := #v[0x45, 0x4C, 0x46, 0x52]
def erfVersionMajor : UInt16 := 1
def erfVersionMinor : UInt16 := 0

def hflagLocalized : UInt32 := 1
def hflagMetadataPresent : UInt32 := 2
def hflagHashTablePresent : UInt32 := 4
def hflagCompressedResourcesExist : UInt32 := 16
def hflagEncryptedResourcesExist : UInt32 := 32

def rflagCompressed : UInt32 := 1
def rflagEncrypted : UInt32 := 2

/-- `sizeof(ERFHeader)`. -/
def headerBytes : ℕ := 160

/-- `offsetof(ERFHeader, checksum)`. -/
def checksumOffset : ℕ := 88

/-- `sizeof(ERFDirectoryEntry)`. -/
def entryBytes : ℕ := 128

namespace ERFHeader

/-- The fields in memory order, four bytes of padding before the offsets. -/
def pieces (h : ERFHeader) : List Bytes :=
  [h.magic.toList, bytes16 h.versionMajor, bytes16 h.versionMinor, bytes32 h.headerSize,
    bytes32 h.flags, bytes32 h.resourceCount, bytes32 h.directoryEntrySize, bytes32 h.reserved0,
    [0, 0, 0, 0], bytes64 h.directoryOffset, bytes64 h.stringOffset, bytes64 h.metadataOffset,
    bytes64 h.hashTableOffset, bytes64 h.signatureOffset, bytes64 h.dataOffset,
    bytes64 h.totalSize, bytes64 h.checksum, h.reserved.toList.flatMap bytes64]

def toBytes (h : ERFHeader) : Bytes := h.pieces.flatten

def ofBytes (bs : Bytes) : ERFHeader where
  magic := Vector.ofFn fun i => bs.getD i 0
  versionMajor := field16 bs 4
  versionMinor := field16 bs 6
  headerSize := field32 bs 8
  flags := field32 bs 12
  resourceCount := field32 bs 16
  directoryEntrySize := field32 bs 20
  reserved0 := field32 bs 24
  directoryOffset := field64 bs 32
  stringOffset := field64 bs 40
  metadataOffset := field64 bs 48
  hashTableOffset := field64 bs 56
  signatureOffset := field64 bs 64
  dataOffset := field64 bs 72
  totalSize := field64 bs 80
  checksum := field64 bs 88
  reserved := Vector.ofFn fun i => field64 bs (96 + 8 * i)

variable (h : ERFHeader)

@[simp] theorem length_toBytes : h.toBytes.length = headerBytes := by
  simp [toBytes, pieces, headerBytes]

theorem segment_piece (k : ℕ) (hk : k < h.pieces.length) {off : ℕ}
    (hoff : ((h.pieces.take k).map List.length).sum = off) :
    Segment h.toBytes off h.pieces[k] :=
  hoff ▸ segment_flatten h.pieces k hk

theorem magic_toBytes : Vector.ofFn (fun i : Fin 4 => h.toBytes.getD i 0) = h.magic := by
  have hseg : Segment h.toBytes 0 h.magic.toList :=
    h.segment_piece 0 (by simp [pieces]) (by simp)
  ext i hi
  have hget := hseg.getElem? (i := i) (by simpa using hi)
  rw [Nat.zero_add] at hget
  simp [List.getD_eq_getElem?_getD, hget, hi]

theorem reserved_toBytes :
    Vector.ofFn (fun i : Fin 8 => field64 h.toBytes (96 + 8 * i)) = h.reserved := by
  have hseg : Segment h.toBytes 96 (h.reserved.toList.flatMap bytes64) :=
    h.segment_piece 17 (by simp [pieces]) (by simp [pieces])
  ext i hi
  have hword := segment_flatMap bytes64 8 length_bytes64 h.reserved.toList i (by simpa using hi)
  rw [Vector.getElem_ofFn, (hseg.trans hword).field64, Vector.getElem_toList]

@[simp] theorem ofBytes_toBytes : ofBytes h.toBytes = h := by
  have hmagic := h.magic_toBytes
  have hreserved := h.reserved_toBytes
  cases h
  simp only [ofBytes, ERFHeader.mk.injEq]
  refine ⟨hmagic, ?_, ?_, ?_, ?_, ?_, ?_, ?_, ?_, ?_, ?_, ?_, ?_, ?_, ?_, ?_, hreserved⟩
  · exact (segment_piece _ 1 (by simp [pieces]) (by simp [pieces])).field16
  · exact (segment_piece _ 2 (by simp [pieces]) (by simp [pieces])).field16
  · exact (segment_piece _ 3 (by simp [pieces]) (by simp [pieces])).field32
  · exact (segment_piece _ 4 (by simp [pieces]) (by simp [pieces])).field32
  · exact (segment_piece _ 5 (by simp [pieces]) (by simp [pieces])).field32
  · exact (segment_piece _ 6 (by simp [pieces]) (by simp [pieces])).field32
  · exact (segment_piece _ 7 (by simp [pieces]) (by simp [pieces])).field32
  · exact (segment_piece _ 9 (by simp [pieces]) (by simp [pieces])).field64
  · exact (segment_piece _ 10 (by simp [pieces]) (by simp [pieces])).field64
  · exact (segment_piece _ 11 (by simp [pieces]) (by simp [pieces])).field64
  · exact (segment_piece _ 12 (by simp [pieces]) (by simp [pieces])).field64
  · exact (segment_piece _ 13 (by simp [pieces]) (by simp [pieces])).field64
  · exact (segment_piece _ 14 (by simp [pieces]) (by simp [pieces])).field64
  · exact (segment_piece _ 15 (by simp [pieces]) (by simp [pieces])).field64
  · exact (segment_piece _ 16 (by simp [pieces]) (by simp [pieces])).field64

/-- The checksum field stands alone: the bytes around it do not depend on it. -/
theorem toBytes_withChecksum : ∃ pre post : Bytes, pre.length = checksumOffset ∧
    ∀ c, { h with checksum := c }.toBytes = pre ++ bytes64 c ++ post :=
  ⟨(h.pieces.take 16).flatten, h.reserved.toList.flatMap bytes64,
    by simp [pieces, checksumOffset], fun c => by simp [toBytes, pieces]⟩

end ERFHeader

structure ERFDirectoryEntry where
  id : UInt32
  type : UInt32
  language : UInt32
  flags : UInt32
  nameOffset : UInt32
  reserved0 : UInt32
  dataOffset : UInt64
  dataSize : UInt64
  originalSize : UInt64
  metadataOffset : UInt64
  hash : UInt64
  checksum : UInt64
  timestamp : UInt64
  reserved : Vector UInt64 6
  deriving DecidableEq, Repr

namespace ERFDirectoryEntry

def pieces (e : ERFDirectoryEntry) : List Bytes :=
  [bytes32 e.id, bytes32 e.type, bytes32 e.language, bytes32 e.flags, bytes32 e.nameOffset,
    bytes32 e.reserved0, bytes64 e.dataOffset, bytes64 e.dataSize, bytes64 e.originalSize,
    bytes64 e.metadataOffset, bytes64 e.hash, bytes64 e.checksum, bytes64 e.timestamp,
    e.reserved.toList.flatMap bytes64]

def toBytes (e : ERFDirectoryEntry) : Bytes := e.pieces.flatten

def ofBytes (bs : Bytes) : ERFDirectoryEntry where
  id := field32 bs 0
  type := field32 bs 4
  language := field32 bs 8
  flags := field32 bs 12
  nameOffset := field32 bs 16
  reserved0 := field32 bs 20
  dataOffset := field64 bs 24
  dataSize := field64 bs 32
  originalSize := field64 bs 40
  metadataOffset := field64 bs 48
  hash := field64 bs 56
  checksum := field64 bs 64
  timestamp := field64 bs 72
  reserved := Vector.ofFn fun i => field64 bs (80 + 8 * i)

variable (e : ERFDirectoryEntry)

@[simp] theorem length_toBytes : e.toBytes.length = entryBytes := by
  simp [toBytes, pieces, entryBytes]

theorem segment_piece (k : ℕ) (hk : k < e.pieces.length) {off : ℕ}
    (hoff : ((e.pieces.take k).map List.length).sum = off) :
    Segment e.toBytes off e.pieces[k] :=
  hoff ▸ segment_flatten e.pieces k hk

theorem reserved_toBytes :
    Vector.ofFn (fun i : Fin 6 => field64 e.toBytes (80 + 8 * i)) = e.reserved := by
  have hseg : Segment e.toBytes 80 (e.reserved.toList.flatMap bytes64) :=
    e.segment_piece 13 (by simp [pieces]) (by simp [pieces])
  ext i hi
  have hword := segment_flatMap bytes64 8 length_bytes64 e.reserved.toList i (by simpa using hi)
  rw [Vector.getElem_ofFn, (hseg.trans hword).field64, Vector.getElem_toList]

@[simp] theorem ofBytes_toBytes : ofBytes e.toBytes = e := by
  have hreserved := e.reserved_toBytes
  cases e
  simp only [ofBytes, ERFDirectoryEntry.mk.injEq]
  refine ⟨?_, ?_, ?_, ?_, ?_, ?_, ?_, ?_, ?_, ?_, ?_, ?_, ?_, hreserved⟩
  · exact (segment_piece _ 0 (by simp [pieces]) (by simp [pieces])).field32
  · exact (segment_piece _ 1 (by simp [pieces]) (by simp [pieces])).field32
  · exact (segment_piece _ 2 (by simp [pieces]) (by simp [pieces])).field32
  · exact (segment_piece _ 3 (by simp [pieces]) (by simp [pieces])).field32
  · exact (segment_piece _ 4 (by simp [pieces]) (by simp [pieces])).field32
  · exact (segment_piece _ 5 (by simp [pieces]) (by simp [pieces])).field32
  · exact (segment_piece _ 6 (by simp [pieces]) (by simp [pieces])).field64
  · exact (segment_piece _ 7 (by simp [pieces]) (by simp [pieces])).field64
  · exact (segment_piece _ 8 (by simp [pieces]) (by simp [pieces])).field64
  · exact (segment_piece _ 9 (by simp [pieces]) (by simp [pieces])).field64
  · exact (segment_piece _ 10 (by simp [pieces]) (by simp [pieces])).field64
  · exact (segment_piece _ 11 (by simp [pieces]) (by simp [pieces])).field64
  · exact (segment_piece _ 12 (by simp [pieces]) (by simp [pieces])).field64

end ERFDirectoryEntry

structure ERFHashTableHeader where
  bucketCount : UInt32
  reserved0 : UInt32
  deriving DecidableEq, Repr

/-- `sizeof(ERFHashTableHeader)`. -/
def hashTableHeaderBytes : ℕ := 8

namespace ERFHashTableHeader

def toBytes (h : ERFHashTableHeader) : Bytes := bytes32 h.bucketCount ++ bytes32 h.reserved0

def ofBytes (bs : Bytes) : ERFHashTableHeader := ⟨field32 bs 0, field32 bs 4⟩

@[simp] theorem length_toBytes (h : ERFHashTableHeader) :
    h.toBytes.length = hashTableHeaderBytes := by
  simp [toBytes, hashTableHeaderBytes]

@[simp] theorem ofBytes_toBytes (h : ERFHashTableHeader) : ofBytes h.toBytes = h := by
  have hseg := segment_append_iff.mp (segment_self h.toBytes)
  simp only [ofBytes, hseg.1.field32]
  rw [(show Segment h.toBytes 4 (bytes32 h.reserved0) by simpa using hseg.2).field32]

end ERFHashTableHeader

/-- `ERF_HASH_EMPTY`. -/
def erfHashEmpty : UInt32 := 0xFFFFFFFF

structure ERFHashBucket where
  hash : UInt64
  directoryIndex : UInt32
  reserved0 : UInt32
  deriving DecidableEq, Repr

/-- `sizeof(ERFHashBucket)`. -/
def bucketBytes : ℕ := 16

namespace ERFHashBucket

def toBytes (k : ERFHashBucket) : Bytes :=
  bytes64 k.hash ++ (bytes32 k.directoryIndex ++ bytes32 k.reserved0)

def ofBytes (bs : Bytes) : ERFHashBucket := ⟨field64 bs 0, field32 bs 8, field32 bs 12⟩

@[simp] theorem length_toBytes (k : ERFHashBucket) : k.toBytes.length = bucketBytes := by
  simp [toBytes, bucketBytes]

@[simp] theorem ofBytes_toBytes (k : ERFHashBucket) : ofBytes k.toBytes = k := by
  have hseg := segment_append_iff.mp (segment_self k.toBytes)
  have hseg' := segment_append_iff.mp hseg.2
  simp only [ofBytes, hseg.1.field64]
  rw [(show Segment k.toBytes 8 (bytes32 k.directoryIndex) by simpa using hseg'.1).field32,
    (show Segment k.toBytes 12 (bytes32 k.reserved0) by simpa using hseg'.2).field32]

end ERFHashBucket

end Elfr.Format
