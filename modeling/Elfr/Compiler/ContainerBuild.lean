import Elfr.Compiler.Manifest
import Elfr.Common.Hashing
import Elfr.Format.Structures

/-!
# The container builder

`container_build.c`. The growing `byte_buf` is the list of its bytes, so its
appends are `++`. Pointers the code follows without a test are followed with
`Exec.deref`: a null one stops the build. The two loops without a bound of
their own, the doubling and the probing, take their budget from outside.
-/
namespace Elfr.Compiler

open Library Common Format

def bufAlign (buf : Bytes) (alignment : ℕ) : Bytes :=
  if buf.length % alignment ≠ 0 then
    buf ++ List.replicate (alignment - buf.length % alignment) 0
  else buf

structure StringEntry where
  name : CString
  offset : UInt32

def stringTableIntern (st : List StringEntry) (buf : Bytes) (tableBase : UInt32)
    (name : CString) : UInt32 × List StringEntry × Bytes :=
  match st.find? fun entry => entry.name = name with
  | some entry => (entry.offset, st, buf)
  | none =>
    let offset := (tableBase.toUInt64 + (UInt64.ofNat buf.length - tableBase.toUInt64)).toUInt32
    (offset, st ++ [⟨name, offset⟩], buf ++ name.terminated)

def internNames (tableBase : UInt32) :
    List CString → List StringEntry → Bytes → List UInt32 × Bytes
  | [], _, buf => ([], buf)
  | name :: names, st, buf =>
    let (offset, st, buf) := stringTableIntern st buf tableBase name
    let (offsets, buf) := internNames tableBase names st buf
    (offset :: offsets, buf)

def derefKv (kv : ElfrcMetadataKv) : Exec (CString × CString) := do
  let key ← Exec.deref kv.key
  let value ← Exec.deref kv.value
  pure (key, value)

/-- A 32-bit length, then one byte more than it says; both sums are 32-bit. -/
def prefixedString (s : CString) : Bytes :=
  let len := UInt32.ofNat s.strlen
  bytes32 len ++ s.terminated.take (len + 1).toNat

def metadataBlock (metadata : List (CString × CString)) : Bytes :=
  bytes32 (UInt32.ofNat metadata.length) ++
    metadata.flatMap fun kv => prefixedString kv.1 ++ prefixedString kv.2

def appendMetadata : List (List (CString × CString)) → Bytes → List UInt64 × Bytes
  | [], buf => ([], buf)
  | metadata :: rest, buf =>
    if metadata = [] then
      let (offsets, buf) := appendMetadata rest buf
      (0 :: offsets, buf)
    else
      let buf := bufAlign buf 8
      let offset := UInt64.ofNat buf.length
      let (offsets, buf) := appendMetadata rest (buf ++ metadataBlock metadata)
      (offset :: offsets, buf)

def nextPow2Step (v p : UInt32) : Exec (UInt32 ⊕ UInt32) :=
  if p < v then pure (.inl (p * 2)) else pure (.inr p)

def nextPow2 (fuel : ℕ) (v : UInt32) : Exec UInt32 := loop (nextPow2Step v) fuel 16

/-- One turn of the loop that looks for a free bucket. -/
def slotStep (bucketCount : UInt32) (buckets : List ERFHashBucket) (slot : UInt32) :
    Exec (UInt32 ⊕ UInt32) := do
  let bucket ← Exec.index buckets slot.toNat
  if bucket.directoryIndex ≠ erfHashEmpty then pure (.inl ((slot + 1) % bucketCount))
  else pure (.inr slot)

def fillBuckets (fuel : ℕ) (bucketCount : UInt32) :
    List CString → (i : ℕ) → List ERFHashBucket → Exec (List ERFHashBucket)
  | [], _, buckets => pure buckets
  | name :: names, i, buckets => do
    let h := elfrFnv1a64 name.bytes
    let slot ← loop (slotStep bucketCount buckets) fuel (h % bucketCount.toUInt64).toUInt32
    fillBuckets fuel bucketCount names (i + 1) (buckets.set slot.toNat ⟨h, UInt32.ofNat i, 0⟩)

def emptyBucket : ERFHashBucket := ⟨0, erfHashEmpty, 0⟩

def hashTableBytes (bucketCount : UInt32) (buckets : List ERFHashBucket) : Bytes :=
  (ERFHashTableHeader.mk bucketCount 0).toBytes ++ buckets.flatMap ERFHashBucket.toBytes

def buildHashTable (fuel : ℕ) (names : List CString) : Exec Bytes := do
  let n := names.length
  let bucketCount ← nextPow2 fuel (UInt32.ofNat (n * 2))
  let bucketCount := if n = 0 then 16 else bucketCount
  let buckets ← fillBuckets fuel bucketCount names 0 (List.replicate bucketCount.toNat emptyBucket)
  pure (hashTableBytes bucketCount buckets)

/-- The three arrays the data loop fills, at one index. -/
structure DataRange where
  offset : UInt64
  size : UInt64
  checksum : UInt64
  deriving Inhabited

def cannotOpenForReading (name file : CString) : Bytes :=
  snprintf errbufSize
    (name.bytes ++ ascii ": error: cannot open '" ++ file.bytes ++ ascii "' for reading")

def shortRead (name file : CString) : Bytes :=
  snprintf errbufSize (name.bytes ++ ascii ": error: short read on '" ++ file.bytes ++ ascii "'")

def appendData (fs : FileSystem) :
    List ElfrcResource → Bytes → Exec (Except Bytes (List DataRange × Bytes))
  | [], buf => pure (.ok ([], buf))
  | r :: rs, buf => do
    let name ← Exec.deref r.name
    let file ← Exec.deref r.file
    match fs.fopen file with
    | none => pure (.error (cannotOpenForReading name file))
    | some f =>
      match readFile f with
      | none => pure (.error (shortRead name file))
      | some filedata => do
        let buf := bufAlign buf 16
        let range := ⟨UInt64.ofNat buf.length, UInt64.ofNat filedata.length, elfrCrc64 filedata⟩
        let rest ← appendData fs rs (buf ++ filedata)
        pure (rest.map fun (ranges, buf) => (range :: ranges, buf))

def directoryEntry (r : ElfrcResource) (nameOffset : UInt32) (metadataOffset hash : UInt64)
    (range : DataRange) : ERFDirectoryEntry where
  id := r.finalId
  type := r.type
  language := r.language
  flags := r.flags
  nameOffset := nameOffset
  reserved0 := 0
  dataOffset := range.offset
  dataSize := range.size
  originalSize := range.size
  metadataOffset := metadataOffset
  hash := hash
  checksum := range.checksum
  timestamp := 0
  reserved := Vector.replicate 6 0

/-- The loop that fills the directory from the arrays of the loops before it. -/
def directoryEntries (resources : List ElfrcResource) (nameOffsets : List UInt32)
    (metadataOffsets : List UInt64) (nameHashes : List UInt64) (ranges : List DataRange) :
    List ERFDirectoryEntry :=
  resources.mapIdx fun i r => directoryEntry r (nameOffsets.getD i 0) (metadataOffsets.getD i 0)
    (nameHashes.getD i 0) (ranges.getD i default)

/-- Whether some name occurs a second time. -/
def localized (names : List CString) : Bool :=
  names.zipIdx.any fun (name, i) => (names.take i).any (· = name)

/-- Where the sections start, as the header records it. -/
structure SectionOffsets where
  directory : UInt64
  string : UInt64
  metadata : UInt64
  hashTable : UInt64
  data : UInt64

def headerFlags (anyMetadata localized : Bool) : UInt32 :=
  let flags := hflagHashTablePresent
  let flags := if anyMetadata then flags ||| hflagMetadataPresent else flags
  if localized then flags ||| hflagLocalized else flags

/-- The header before the checksum is known. -/
def containerHeader (offsets : SectionOffsets) (flags : UInt32) (n totalSize : ℕ) : ERFHeader where
  magic := erfMagic
  versionMajor := erfVersionMajor
  versionMinor := erfVersionMinor
  headerSize := UInt32.ofNat headerBytes
  flags := flags
  resourceCount := UInt32.ofNat n
  directoryEntrySize := UInt32.ofNat entryBytes
  reserved0 := 0
  directoryOffset := offsets.directory
  stringOffset := offsets.string
  metadataOffset := offsets.metadata
  hashTableOffset := offsets.hashTable
  signatureOffset := 0
  dataOffset := offsets.data
  totalSize := UInt64.ofNat totalSize
  checksum := 0
  reserved := Vector.replicate 8 0

/-- Write the header with a zero checksum, then again with the checksum of the result. -/
def sealHeader (buf : Bytes) (header : ERFHeader) : Bytes :=
  let buf := patch buf 0 header.toBytes
  patch buf 0 { header with checksum := elfrCrc64 buf }.toBytes

/-- Fill in the reserved directory, then the header. -/
def finishContainer (buf : Bytes) (entries : List ERFDirectoryEntry) (offsets : SectionOffsets)
    (flags : UInt32) : Bytes :=
  let buf := patch buf offsets.directory.toNat (entries.flatMap ERFDirectoryEntry.toBytes)
  sealHeader buf (containerHeader offsets flags entries.length buf.length)

def elfrcContainerBuild (fs : FileSystem) (m : ElfrcManifest) (fuel : ℕ) :
    Exec (Except Bytes Bytes) := do
  let n := m.resources.length
  let buf : Bytes := List.replicate headerBytes 0
  let directoryOffset := UInt64.ofNat buf.length
  let buf := buf ++ List.replicate (n * entryBytes) 0
  let buf := bufAlign buf 8
  let stringOffset := UInt64.ofNat buf.length
  let names ← m.resources.mapM fun r => Exec.deref r.name
  let (nameOffsets, buf) := internNames stringOffset.toUInt32 names [] buf
  let buf := bufAlign buf 8
  let metadataTableStart := UInt64.ofNat buf.length
  let metadata ← m.resources.mapM fun r => r.metadata.mapM derefKv
  let (metadataOffsets, buf) := appendMetadata metadata buf
  let anyMetadata := metadata.any (· ≠ [])
  let metadataOffset := if anyMetadata then metadataTableStart else 0
  let buf := bufAlign buf 8
  let hashTableOffset := UInt64.ofNat buf.length
  let hashTable ← buildHashTable fuel names
  let buf := bufAlign (buf ++ hashTable) 16
  let dataOffset := UInt64.ofNat buf.length
  match ← appendData fs m.resources buf with
  | .error message => pure (.error message)
  | .ok (ranges, buf) =>
    let nameHashes := names.map fun name => elfrFnv1a64 name.bytes
    let entries := directoryEntries m.resources nameOffsets metadataOffsets nameHashes ranges
    let offsets := ⟨directoryOffset, stringOffset, metadataOffset, hashTableOffset, dataOffset⟩
    pure (.ok (finishContainer buf entries offsets (headerFlags anyMetadata (localized names))))

/-- The build of the manifest succeeds with this container. -/
def Builds (fs : FileSystem) (m : ElfrcManifest) (b : Bytes) : Prop :=
  Returns (elfrcContainerBuild fs m) (.ok b)

end Elfr.Compiler
