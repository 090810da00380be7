import Elfr.Common.Hashing
import Elfr.Format.Structures

/-!
# The runtime library

`erf_reader.c`. A buffer is the byte string behind `base`; a pointer into it
is its offset from `base`, and a pointer to a resource is its index in the
array the container owns. Reads are bounded by the buffer itself, not by the
size the caller passes, so a check the code misses shows as an execution that
stops. The 64-bit sums of untrusted values are the checked ones.
-/
namespace Elfr.Runtime

open Library Common Format

inductive ERFError
  | ok
  | badMagic
  | unsupportedVersion
  | truncated
  | badOffset
  | notFound
  | invalidArgument
  | noDefaultContainer
  deriving DecidableEq, Repr

structure ERFResource where
  id : UInt32
  type : UInt32
  language : UInt32
  flags : UInt32
  name : ℕ
  data : ℕ
  size : UInt64
  timestamp : UInt64
  metadataOffset : UInt64
  deriving DecidableEq, Repr

structure ERFContainer where
  base : Bytes
  size : ℕ
  header : ERFHeader
  entryStride : UInt32
  resources : List ERFResource
  resourceCount : UInt32
  hasHashTable : Bool
  hashBucketCount : UInt32
  hashBuckets : ℕ
  deriving DecidableEq, Repr

def inBounds (size : ℕ) (offset len : UInt64) : Bool :=
  if offset.toNat > size then false
  else if len.toNat > size - offset.toNat then false
  else true

theorem inBounds_iff {size : ℕ} {offset len : UInt64} :
    inBounds size offset len = true ↔ offset.toNat + len.toNat ≤ size := by
  unfold inBounds
  split_ifs <;> simp <;> omega

/-- `__builtin_mul_overflow`, with no product on overflow. -/
def mulOverflow (a b : UInt64) : Option UInt64 :=
  if a.toNat * b.toNat < 2 ^ 64 then some (a * b) else none

/-- The checks of `erf_open_memory` on the header alone, in their order. -/
def checkHeader (header : ERFHeader) (size : ℕ) : Option ERFError :=
  if header.magic ≠ erfMagic then some .badMagic
  else if header.versionMajor ≠ erfVersionMajor then some .unsupportedVersion
  else if header.headerSize.toNat < headerBytes then some .badOffset
  else if header.totalSize < header.headerSize.toUInt64 ∨ header.totalSize.toNat > size then
    some .badOffset
  else if header.directoryEntrySize.toNat < entryBytes then some .badOffset
  else
    match mulOverflow header.resourceCount.toUInt64 header.directoryEntrySize.toUInt64 with
    | none => some .badOffset
    | some directorySpan =>
      if !inBounds header.totalSize.toNat header.directoryOffset directorySpan then
        some .badOffset
      else if header.resourceCount > 0 ∧
          !inBounds header.totalSize.toNat header.stringOffset 0 then some .badOffset
      else none

/-- What `erf_open_memory` keeps about the hash table. -/
structure HashTable where
  hasHash : Bool
  bucketCount : UInt32
  buckets : ℕ
  deriving DecidableEq, Repr

def announcesHashTable (header : ERFHeader) : Bool :=
  header.flags &&& hflagHashTablePresent ≠ 0 ∧ header.hashTableOffset ≠ 0

def openHashTable (b : Bytes) (header : ERFHeader) : Exec (Except ERFError HashTable) :=
  if announcesHashTable header then
    if !inBounds header.totalSize.toNat header.hashTableOffset 8 then pure (.error .badOffset)
    else do
      let hth ← load b header.hashTableOffset.toNat hashTableHeaderBytes
      let count := (ERFHashTableHeader.ofBytes hth).bucketCount
      match mulOverflow count.toUInt64 16 with
      | none => pure (.error .badOffset)
      | some bucketsSpan => do
        let start ← Exec.add64 header.hashTableOffset 8
        if !inBounds header.totalSize.toNat start bucketsSpan then pure (.error .badOffset)
        else pure (.ok ⟨true, count, start.toNat⟩)
  else pure (.ok ⟨false, 0, 0⟩)

/-- The copy of the `i`-th entry; what a shorter stride leaves out stays zero. -/
def readEntry (b : Bytes) (header : ERFHeader) (i : ℕ) : Exec ERFDirectoryEntry := do
  let stride := header.directoryEntrySize.toNat
  let bs ← load b (header.directoryOffset.toNat + i * stride)
    (if entryBytes < stride then entryBytes else stride)
  pure (ERFDirectoryEntry.ofBytes bs)

def toResource (entry : ERFDirectoryEntry) : ERFResource where
  id := entry.id
  type := entry.type
  language := entry.language
  flags := entry.flags
  name := entry.nameOffset.toNat
  data := entry.dataOffset.toNat
  size := entry.dataSize
  timestamp := entry.timestamp
  metadataOffset := entry.metadataOffset

/-- The bounds `erf_open_memory` checks for each entry. -/
def entryInBounds (header : ERFHeader) (entry : ERFDirectoryEntry) : Bool :=
  inBounds header.totalSize.toNat entry.nameOffset.toUInt64 1 &&
    inBounds header.totalSize.toNat entry.dataOffset entry.dataSize

def readDirectory (b : Bytes) (header : ERFHeader) :
    (left i : ℕ) → Exec (Except ERFError (List ERFResource))
  | 0, _ => pure (.ok [])
  | left + 1, i => do
    let entry ← readEntry b header i
    if !entryInBounds header entry then pure (.error .badOffset)
    else do
      let rest ← readDirectory b header left (i + 1)
      pure (rest.map (toResource entry :: ·))

def erfOpenMemory (base : Option Bytes) (size : ℕ) : Exec (Except ERFError ERFContainer) :=
  match base with
  | none => pure (.error .invalidArgument)
  | some b =>
    if size < headerBytes then
      pure (.error (if size = 0 then .invalidArgument else .truncated))
    else do
      let bs ← load b 0 headerBytes
      let header := ERFHeader.ofBytes bs
      match checkHeader header size with
      | some e => pure (.error e)
      | none => do
        let hash ← openHashTable b header
        match hash with
        | .error e => pure (.error e)
        | .ok table => do
          let resources ← readDirectory b header header.resourceCount.toNat 0
          pure (resources.map fun rs =>
            { base := b, size := size, header := header,
              entryStride := header.directoryEntrySize, resources := rs,
              resourceCount := header.resourceCount, hasHashTable := table.hasHash,
              hashBucketCount := table.bucketCount, hashBuckets := table.buckets })

def erfResourceCount (container : Option ERFContainer) : UInt32 :=
  match container with
  | none => 0
  | some c => c.resourceCount

/-- A pointer to a resource or null, and the error code set, which on success is the old one. -/
def erfResourceAt (container : Option ERFContainer) (index : UInt32) (last : ERFError) :
    Option ℕ × ERFError :=
  match container with
  | none => (none, .invalidArgument)
  | some c =>
    if index ≥ c.resourceCount then (none, .invalidArgument) else (some index.toNat, last)

/-- The reader's own copy of the FNV-1a loop, up to the terminator of the query. -/
def hashOfName (name : CString) : UInt64 :=
  name.bytes.foldl (fun h p => (h ^^^ p.toUInt64) * 0x100000001b3) 0xcbf29ce484222325

theorem hashOfName_eq (name : CString) : hashOfName name = elfrFnv1a64 name.bytes := rfl

/-- `strcmp(container->resources[i].name, name) == 0`. -/
def nameMatches (c : ERFContainer) (name : CString) (i : ℕ) : Exec Bool := do
  let r ← Exec.index c.resources i
  strcmpEq c.base r.name name.bytes

/-- An element of the bucket array; its index must be below the bucket count. -/
def readBucket (c : ERFContainer) (slot : UInt32) : Exec ERFHashBucket :=
  if slot < c.hashBucketCount then do
    let bs ← load c.base (c.hashBuckets + bucketBytes * slot.toNat) bucketBytes
    pure (ERFHashBucket.ofBytes bs)
  else .error (.outOfBounds slot.toNat)

/-- The condition under which a bucket is the answer, tested left to right. -/
def bucketMatches (c : ERFContainer) (name : CString) (h : UInt64) (bucket : ERFHashBucket) :
    Exec Bool :=
  if bucket.hash = h ∧ bucket.directoryIndex < c.resourceCount then
    nameMatches c name bucket.directoryIndex.toNat
  else pure false

/-- The variables of the probe loop. -/
structure ProbeState where
  slot : UInt32
  probed : UInt32
  deriving DecidableEq, Repr

def probeStep (c : ERFContainer) (name : CString) (h : UInt64) (s : ProbeState) :
    Exec (ProbeState ⊕ Option ℕ) :=
  if s.probed < c.hashBucketCount then do
    let bucket ← readBucket c s.slot
    if bucket.directoryIndex = erfHashEmpty then pure (.inr none)
    else do
      let found ← bucketMatches c name h bucket
      if found then pure (.inr (some bucket.directoryIndex.toNat))
      else pure (.inl ⟨(s.slot + 1) % c.hashBucketCount, s.probed + 1⟩)
  else pure (.inr none)

/-- The open-addressing path of `erf_find_in`, with a budget of one turn for each
bucket and one more for the test that ends the loop. -/
def findHashed (c : ERFContainer) (name : CString) : Exec (Option ℕ) :=
  let h := hashOfName name
  loop (probeStep c name h) (c.hashBucketCount.toNat + 1)
    ⟨(h % c.hashBucketCount.toUInt64).toUInt32, 0⟩

def scanNames (c : ERFContainer) (name : CString) : (left i : ℕ) → Exec (Option ℕ)
  | 0, _ => pure none
  | left + 1, i => do
    let found ← nameMatches c name i
    if found then pure (some i) else scanNames c name left (i + 1)

def findScanning (c : ERFContainer) (name : CString) : Exec (Option ℕ) :=
  scanNames c name c.resourceCount.toNat 0

def findName (c : ERFContainer) (name : CString) : Exec (Option ℕ) :=
  if c.hasHashTable ∧ c.hashBucketCount > 0 then findHashed c name else findScanning c name

/-- A found resource clears the error, a missing one sets `ERF_ERR_NOT_FOUND`. -/
def lookupResult (found : Option ℕ) : Option ℕ × ERFError :=
  (found, if found.isSome then .ok else .notFound)

def erfFindIn (container : Option ERFContainer) (name : Option CString) :
    Exec (Option ℕ × ERFError) :=
  match container, name with
  | some c, some q => do
    let found ← findName c q
    pure (lookupResult found)
  | _, _ => pure (none, .invalidArgument)

theorem erfFindIn_of_findName {c : ERFContainer} {q : CString} {found : Option ℕ}
    (h : findName c q = .ok found) : erfFindIn (some c) (some q) = .ok (lookupResult found) := by
  unfold erfFindIn
  simp only [h]
  rfl

def scanIds (c : ERFContainer) (id : UInt32) : (left i : ℕ) → Exec (Option ℕ)
  | 0, _ => pure none
  | left + 1, i => do
    let r ← Exec.index c.resources i
    if r.id = id then pure (some i) else scanIds c id left (i + 1)

def erfFindIdIn (container : Option ERFContainer) (id : UInt32) : Exec (Option ℕ × ERFError) :=
  match container with
  | none => pure (none, .invalidArgument)
  | some c => do
    let found ← scanIds c id c.resourceCount.toNat 0
    pure (lookupResult found)

/-- The conversion `(int)count`. -/
def toInt (v : UInt32) : ℤ := v.toBitVec.toInt

theorem toInt_of_lt {v : UInt32} (h : v.toNat < 2 ^ 31) : toInt v = v.toNat := by
  have hbits : v.toBitVec.toNat = v.toNat := rfl
  rw [toInt, BitVec.toInt_eq_toNat_of_lt (by omega), hbits]

theorem toInt_nonneg_iff {v : UInt32} : 0 ≤ toInt v ↔ v.toNat < 2 ^ 31 := by
  have hbits : v.toBitVec.toNat = v.toNat := rfl
  have hlt := v.toNat_lt
  rw [toInt, BitVec.toInt_eq_toNat_cond, hbits]
  split_ifs <;> omega

def erfMetadataCount (container : Option ERFContainer) (res : Option ERFResource) : Exec ℤ :=
  match container, res with
  | some c, some r =>
    if r.metadataOffset = 0 then pure 0
    else if !inBounds c.size r.metadataOffset 4 then pure 0
    else do
      let count ← load32 c.base r.metadataOffset.toNat
      pure (toInt count)
  | _, _ => pure 0

/-- One length-prefixed string at the cursor: the pointer to its bytes and the
cursor behind its terminator, or nothing where it leaves the buffer. -/
def metadataString (b : Bytes) (size : ℕ) (off : UInt64) : Exec (Option (ℕ × UInt64)) :=
  if !inBounds size off 4 then pure none
  else do
    let len ← load32 b off.toNat
    let off ← Exec.add64 off 4
    let span ← Exec.add64 len.toUInt64 1
    if !inBounds size off span then pure none
    else do
      let next ← Exec.add64 off span
      pure (some (off.toNat, next))

/-- One turn of the loop of `erf_metadata_get`: a key, then a value. -/
def metadataEntry (b : Bytes) (size : ℕ) (off : UInt64) : Exec (Option (ℕ × ℕ × UInt64)) := do
  match ← metadataString b size off with
  | none => pure none
  | some (k, off) =>
    match ← metadataString b size off with
    | none => pure none
    | some (v, off) => pure (some (k, v, off))

/-- The caller's variables; a null pointer stands for a variable it does not want. -/
structure OutVars where
  key : Option ℕ
  value : Option ℕ
  deriving DecidableEq, Repr

def OutVars.store (out : OutVars) (k v : ℕ) : OutVars :=
  ⟨out.key.map fun _ => k, out.value.map fun _ => v⟩

/-- The loop `for (int i = 0; i <= index; i++)` with `left = index - i`. The last
increment overflows if `index` is the greatest int. -/
def metadataWalk (b : Bytes) (size index : ℕ) (out : OutVars) :
    (left : ℕ) → (off : UInt64) → Exec (ℤ × OutVars)
  | left, off => do
    match ← metadataEntry b size off with
    | none => pure (-1, out)
    | some (k, v, next) =>
      match left with
      | 0 => if index + 1 < 2 ^ 31 then pure (0, out.store k v) else .error .signedOverflow
      | left + 1 => metadataWalk b size index out left next

def erfMetadataGet (container : Option ERFContainer) (res : Option ERFResource) (index : ℤ)
    (out : OutVars) : Exec (ℤ × OutVars) :=
  match container, res with
  | some c, some r =>
    if r.metadataOffset = 0 ∨ index < 0 then pure (-1, out)
    else if !inBounds c.size r.metadataOffset 4 then pure (-1, out)
    else do
      let count ← load32 c.base r.metadataOffset.toNat
      if UInt32.ofNat index.toNat ≥ count then pure (-1, out)
      else do
        let off ← Exec.add64 r.metadataOffset 4
        metadataWalk c.base c.size index.toNat out index.toNat off
  | _, _ => pure (-1, out)

def erfVerifyChecksum (container : Option ERFContainer) : Exec Bool :=
  match container with
  | none => pure false
  | some c => do
    let tmp ← load c.base 0 c.size
    let computed := elfrCrc64 (patch tmp checksumOffset (bytes64 0))
    pure (computed == c.header.checksum)

end Elfr.Runtime
