import Elfr.Runtime.Opening
import Elfr.Library.Layout

/-!
# Forward compatibility

Two runs of `erf_open_memory` on buffers that differ only in bytes a reader must
ignore end alike. What the reader uses of a header is its `significant` part,
and what it uses of an entry is the resource made of it; both are read from
bytes the buffers share. The stride of the directory only says where the
entries are.
-/
namespace Elfr.Runtime

open Library Common Format

/-- Minor version, `reserved0`, padding, the offsets of the metadata, the signature and the
data, checksum, `reserved`. -/
def ignoredInHeader : List Region :=
  [⟨6, 2⟩, ⟨24, 4⟩, ⟨28, 4⟩, ⟨48, 8⟩, ⟨64, 8⟩, ⟨72, 8⟩, ⟨88, 8⟩, ⟨96, 64⟩]

/-- `reserved0`, original size, hash, checksum, `reserved`, and what a longer entry adds. -/
def ignoredInEntry (stride : ℕ) : List Region :=
  [⟨20, 4⟩, ⟨40, 8⟩, ⟨56, 8⟩, ⟨64, 8⟩, ⟨80, 48⟩, ⟨entryBytes, stride - entryBytes⟩]

def flagsRegion : Region := ⟨12, 4⟩

def headerRegion : Region := ⟨0, headerBytes⟩

section Tables

variable (b : Bytes)

def directoryRegion : Region :=
  ⟨(headerOf b).directoryOffset.toNat,
    (headerOf b).resourceCount.toNat * (headerOf b).directoryEntrySize.toNat⟩

def bucketsRegion : Region :=
  ⟨(headerOf b).hashTableOffset.toNat, hashTableHeaderBytes +
    bucketBytes * (field32 b (headerOf b).hashTableOffset.toNat).toNat⟩

/-- Byte `i` is one of the ignored bytes of the header or of a directory entry. -/
def Ignored (i : ℕ) : Prop :=
  (∃ r ∈ ignoredInHeader, r.Contains i) ∨
    ∃ k < (headerOf b).resourceCount.toNat, ∃ j < (headerOf b).directoryEntrySize.toNat,
      i = (headerOf b).directoryOffset.toNat + k * (headerOf b).directoryEntrySize.toNat + j ∧
      ∃ r ∈ ignoredInEntry (headerOf b).directoryEntrySize.toNat, r.Contains j

/-- Directory and hash table overlap neither the header nor each other. -/
structure TablesApart : Prop where
  directory : headerRegion.Apart (directoryRegion b)
  buckets : announcesHashTable (headerOf b) = true →
    headerRegion.Apart (bucketsRegion b) ∧ (directoryRegion b).Apart (bucketsRegion b)

end Tables

/-- The buffers differ in ignored bytes only, and in flag bits other than the one of the
hash table. -/
structure SameForReader (b b' : Bytes) : Prop where
  length : b.length = b'.length
  flag : (headerOf b).flags &&& hflagHashTablePresent =
    (headerOf b').flags &&& hflagHashTablePresent
  bytes : ∀ i < b.length, ¬ flagsRegion.Contains i → ¬ Ignored b i → b[i]? = b'[i]?

/-- Opening ends with the same error, or with the same resources. -/
def SameOutcome (b b' : Bytes) : Prop :=
  ∃ r r', erfOpenMemory (some b) b.length = .ok r ∧ erfOpenMemory (some b') b'.length = .ok r' ∧
    r.map ERFContainer.resources = r'.map ERFContainer.resources

theorem entryInBounds_congr {header header' : ERFHeader} {entry entry' : ERFDirectoryEntry}
    (htotal : header.totalSize = header'.totalSize) (h : toResource entry = toResource entry') :
    entryInBounds header entry = entryInBounds header' entry' := by
  have hname : entry.nameOffset.toNat = entry'.nameOffset.toNat := congrArg ERFResource.name h
  have hdata : entry.dataOffset.toNat = entry'.dataOffset.toNat := congrArg ERFResource.data h
  have hsize : entry.dataSize = entry'.dataSize := congrArg ERFResource.size h
  rw [entryInBounds, entryInBounds, htotal, UInt32.toNat_inj.mp hname, UInt64.toNat_inj.mp hdata,
    hsize]

theorem openHashTable_congr {b b' : Bytes} {header header' : ERFHeader} {size : ℕ}
    (hle : size ≤ b.length) (hle' : size ≤ b'.length) (hsize : header.totalSize.toNat ≤ size)
    (htotal : header.totalSize = header'.totalSize)
    (hoffset : header.hashTableOffset = header'.hashTableOffset)
    (hflag : header.flags &&& hflagHashTablePresent = header'.flags &&& hflagHashTablePresent)
    (hcount : announcesHashTable header = true →
      header.hashTableOffset.toNat + hashTableHeaderBytes ≤ header.totalSize.toNat →
      field32 b header.hashTableOffset.toNat = field32 b' header.hashTableOffset.toNat) :
    openHashTable b header = openHashTable b' header' := by
  have hsame : announcesHashTable header = announcesHashTable header' := by
    rw [announcesHashTable, announcesHashTable, hflag, hoffset]
  cases hann : announcesHashTable header with
  | false =>
    have hann' := hsame.symm.trans hann
    rw [openHashTable, openHashTable, hann, hann']
    rfl
  | true =>
    rw [openHashTable_of_announced hann (by omega),
      openHashTable_of_announced (hsame.symm.trans hann) (by rw [← htotal]; omega),
      ← htotal, ← hoffset]
    by_cases hhead : header.hashTableOffset.toNat + hashTableHeaderBytes ≤ header.totalSize.toNat
    · rw [hcount hann hhead]
    · simp only [hhead, false_and, ↓reduceIte]

section Outcome

variable {b b' : Bytes}

/-- A buffer that is too short, or whose header fails a check. -/
theorem erfOpenMemory_of_refused {e : ERFError} (hsize : headerBytes ≤ b.length)
    (h : checkHeader (headerOf b) b.length = some e) :
    erfOpenMemory (some b) b.length = .ok (.error e) := by
  unfold erfOpenMemory
  simp only [Nat.not_lt.mpr hsize, ↓reduceIte]
  rw [load_of_le (by omega), Exec.ok_bind]
  rw [headerOf] at h
  rw [h]
  rfl

theorem sameOutcome_of_short (hlen : b.length = b'.length) (hshort : b.length < headerBytes) :
    SameOutcome b b' := by
  have hopen : ∀ d : Bytes, d.length = b.length → erfOpenMemory (some d) d.length =
      .ok (.error (if b.length = 0 then .invalidArgument else .truncated)) := by
    intro d hd
    unfold erfOpenMemory
    rw [hd]
    simp only [hshort, ↓reduceIte]
    rfl
  exact ⟨_, _, hopen b rfl, hopen b' hlen.symm, rfl⟩

def entryResources (b : Bytes) : Except ERFError (List ERFResource) :=
  let indices := List.range (headerOf b).resourceCount.toNat
  if indices.all fun i => entryInBounds (headerOf b) (entryAt b (headerOf b) i) then
    .ok (indices.map fun i => toResource (entryAt b (headerOf b) i))
  else .error .badOffset

theorem erfOpenMemory_resources (hsize : headerBytes ≤ b.length)
    (hok : HeaderOk (headerOf b) b.length) :
    ∃ table r, openHashTable b (headerOf b) = .ok table ∧
      erfOpenMemory (some b) b.length = .ok r ∧
      r.map ERFContainer.resources = table.bind fun _ => entryResources b := by
  obtain ⟨table, htable, hopen⟩ := erfOpenMemory_of_checked hsize hok
  refine ⟨table, _, htable, hopen, ?_⟩
  cases table with
  | error e => rfl
  | ok t =>
    unfold entryResources headerOf
    simp only [Except.bind]
    split_ifs <;> rfl

theorem sameOutcome_of_checks (hlen : b.length = b'.length)
    (hcheck : checkHeader (headerOf b) b.length = checkHeader (headerOf b') b.length)
    (htotal : (headerOf b).totalSize = (headerOf b').totalSize)
    (hcount : (headerOf b).resourceCount = (headerOf b').resourceCount)
    (htable : HeaderOk (headerOf b) b.length →
      openHashTable b (headerOf b) = openHashTable b' (headerOf b'))
    (hentries : HeaderOk (headerOf b) b.length → ∀ i < (headerOf b).resourceCount.toNat,
      toResource (entryAt b (headerOf b) i) = toResource (entryAt b' (headerOf b') i)) :
    SameOutcome b b' := by
  rcases Nat.lt_or_ge b.length headerBytes with hshort | hsize
  · exact sameOutcome_of_short hlen hshort
  have hsize' : headerBytes ≤ b'.length := hlen ▸ hsize
  cases hc : checkHeader (headerOf b) b.length with
  | some e =>
    have hc' : checkHeader (headerOf b') b'.length = some e := by rw [← hlen, ← hcheck, hc]
    exact ⟨_, _, erfOpenMemory_of_refused hsize hc, erfOpenMemory_of_refused hsize' hc', rfl⟩
  | none =>
    have hok := checkHeader_eq_none_iff.mp hc
    have hok' : HeaderOk (headerOf b') b'.length := by
      rw [← checkHeader_eq_none_iff, ← hlen, ← hcheck, hc]
    obtain ⟨table, r, hopenTable, hopen, hr⟩ := erfOpenMemory_resources hsize hok
    obtain ⟨table', r', hopenTable', hopen', hr'⟩ := erfOpenMemory_resources hsize' hok'
    obtain rfl := Except.ok.inj (hopenTable.symm.trans ((htable hok).trans hopenTable'))
    have hinside : (List.range (headerOf b).resourceCount.toNat).all (fun i =>
        entryInBounds (headerOf b) (entryAt b (headerOf b) i)) =
        (List.range (headerOf b).resourceCount.toNat).all (fun i =>
        entryInBounds (headerOf b') (entryAt b' (headerOf b') i)) := by
      rw [Bool.eq_iff_iff, List.all_eq_true, List.all_eq_true]
      refine forall₂_congr fun i hi => ?_
      rw [entryInBounds_congr htotal (hentries hok i (List.mem_range.mp hi))]
    have hsame : entryResources b = entryResources b' := by
      simp only [entryResources, ← hcount, hinside,
        List.map_congr_left fun i hi => hentries hok i (List.mem_range.mp hi)]
    exact ⟨r, r', hopen, hopen', by rw [hr, hr', hsame]⟩

end Outcome

section Same

variable {b b' : Bytes} (h : SameForReader b b') (hapart : TablesApart b)

/-- A byte of the directory lies in one entry. -/
theorem directory_contains {k j : ℕ} (hk : k < (headerOf b).resourceCount.toNat)
    (hj : j < (headerOf b).directoryEntrySize.toNat) : (directoryRegion b).Contains
      ((headerOf b).directoryOffset.toNat + k * (headerOf b).directoryEntrySize.toNat + j) := by
  have hmul : (k + 1) * (headerOf b).directoryEntrySize.toNat ≤
      (headerOf b).resourceCount.toNat * (headerOf b).directoryEntrySize.toNat :=
    Nat.mul_le_mul_right _ hk
  rw [Nat.add_mul, Nat.one_mul] at hmul
  refine ⟨by simp only [directoryRegion]; omega, ?_⟩
  simp only [directoryRegion, Region.stop]
  omega

theorem Ignored.header_or_directory {i : ℕ} (hi : Ignored b i) :
    (∃ r ∈ ignoredInHeader, r.Contains i) ∨ (directoryRegion b).Contains i := by
  rcases hi with hheader | ⟨k, hk, j, hj, rfl, -⟩
  · exact .inl hheader
  · exact .inr (directory_contains hk hj)

theorem ignoredInHeader_contains {i : ℕ} (hi : ∃ r ∈ ignoredInHeader, r.Contains i) :
    headerRegion.Contains i := by
  simp only [ignoredInHeader, List.mem_cons, List.not_mem_nil, or_false, exists_eq_or_imp,
    exists_eq_left, Region.Contains, Region.stop] at hi
  simp only [headerRegion, headerBytes, Region.Contains, Region.stop]
  omega

def UsedInHeader (i : ℕ) : Prop :=
  i < headerBytes ∧ ¬ flagsRegion.Contains i ∧ ∀ r ∈ ignoredInHeader, ¬ r.Contains i

instance (i : ℕ) : Decidable (UsedInHeader i) := inferInstanceAs (Decidable (_ ∧ _))

def UsedInEntry (j : ℕ) : Prop :=
  j < entryBytes ∧ ∀ r ∈ ignoredInEntry entryBytes, ¬ r.Contains j

instance (j : ℕ) : Decidable (UsedInEntry j) := inferInstanceAs (Decidable (_ ∧ _))

theorem UsedInEntry.not_ignored {j stride : ℕ} (hj : UsedInEntry j) :
    ∀ r ∈ ignoredInEntry stride, ¬ r.Contains j := by
  obtain ⟨hlt, hout⟩ := hj
  simp only [ignoredInEntry, List.mem_cons, List.not_mem_nil, or_false, forall_eq_or_imp,
    forall_eq, Region.Contains, Region.stop] at hout ⊢
  omega

include h hapart

theorem header_slice (hsize : headerBytes ≤ b.length) {off len : ℕ}
    (hused : ∀ j < len, UsedInHeader (off + j)) : slice b off len = slice b' off len := by
  refine slice_congr fun j hj => ?_
  obtain ⟨hi, hflags, hout⟩ := hused j hj
  refine h.bytes (off + j) (by omega) hflags fun hignored => ?_
  rcases hignored.header_or_directory with ⟨r, hr, hir⟩ | hdirectory
  · exact hout r hr hir
  · exact hapart.directory _ ⟨Nat.zero_le _, by simpa [headerRegion, Region.stop] using hi⟩
      hdirectory

end Same

/-- The fields of a header that a reader compares or follows, its flags aside. -/
structure HeaderAgrees (header header' : ERFHeader) : Prop where
  magic : header.magic = header'.magic
  versionMajor : header.versionMajor = header'.versionMajor
  headerSize : header.headerSize = header'.headerSize
  resourceCount : header.resourceCount = header'.resourceCount
  directoryEntrySize : header.directoryEntrySize = header'.directoryEntrySize
  directoryOffset : header.directoryOffset = header'.directoryOffset
  stringOffset : header.stringOffset = header'.stringOffset
  hashTableOffset : header.hashTableOffset = header'.hashTableOffset
  totalSize : header.totalSize = header'.totalSize

theorem HeaderAgrees.checkHeader_eq {header header' : ERFHeader} (h : HeaderAgrees header header')
    (size : ℕ) : checkHeader header size = checkHeader header' size := by
  simp only [checkHeader, h.magic, h.versionMajor, h.headerSize, h.resourceCount,
    h.directoryEntrySize, h.directoryOffset, h.stringOffset, h.totalSize]

section Same

variable {b b' : Bytes} (h : SameForReader b b') (hapart : TablesApart b)
include h hapart

theorem header_agrees (hsize : headerBytes ≤ b.length) :
    HeaderAgrees (headerOf b) (headerOf b') := by
  have hslice : ∀ {off len : ℕ}, off + len ≤ headerBytes → (∀ j < len, UsedInHeader (off + j)) →
      slice (slice b 0 headerBytes) off len = slice (slice b' 0 headerBytes) off len := by
    intro off len hle hused
    rw [slice_slice b hle, slice_slice b' hle, Nat.zero_add]
    exact header_slice h hapart hsize hused
  have h32 : ∀ {off : ℕ}, off + 4 ≤ headerBytes → (∀ j < 4, UsedInHeader (off + j)) →
      field32 (slice b 0 headerBytes) off = field32 (slice b' 0 headerBytes) off :=
    fun hle hused => congrArg word32 (hslice hle hused)
  have h64 : ∀ {off : ℕ}, off + 8 ≤ headerBytes → (∀ j < 8, UsedInHeader (off + j)) →
      field64 (slice b 0 headerBytes) off = field64 (slice b' 0 headerBytes) off :=
    fun hle hused => congrArg word64 (hslice hle hused)
  refine ⟨?_, congrArg word16 (hslice (by decide) (by decide)), h32 (by decide) (by decide),
    h32 (by decide) (by decide), h32 (by decide) (by decide), h64 (by decide) (by decide),
    h64 (by decide) (by decide), h64 (by decide) (by decide), h64 (by decide) (by decide)⟩
  ext i hi
  have hfirst : slice (slice b 0 headerBytes) 0 4 = slice (slice b' 0 headerBytes) 0 4 :=
    hslice (by decide) (by decide)
  have hmagic := congrArg (·[i]?) hfirst
  simp only [getElem?_slice, if_pos hi, Nat.zero_add] at hmagic
  simp only [headerOf, ERFHeader.ofBytes, Vector.getElem_ofFn, List.getD_eq_getElem?_getD,
    getElem?_slice, Nat.zero_add, hmagic]

theorem bucketCount_agrees (hann : announcesHashTable (headerOf b) = true)
    (hle : (headerOf b).hashTableOffset.toNat + hashTableHeaderBytes ≤ b.length) :
    field32 b (headerOf b).hashTableOffset.toNat =
      field32 b' (headerOf b).hashTableOffset.toNat := by
  obtain ⟨hheader, hdirectory⟩ := hapart.buckets hann
  refine congrArg word32 (slice_congr fun j hj => ?_)
  have hin : (bucketsRegion b).Contains ((headerOf b).hashTableOffset.toNat + j) := by
    simp only [Region.Contains, Region.stop, bucketsRegion, hashTableHeaderBytes]
    omega
  have hout : ¬ headerRegion.Contains ((headerOf b).hashTableOffset.toNat + j) :=
    fun hi => hheader _ hi hin
  unfold hashTableHeaderBytes at hle
  refine h.bytes _ (by omega) (fun hflags => hout ?_) fun hignored => ?_
  · simp only [Region.Contains, Region.stop, flagsRegion] at hflags
    simp only [Region.Contains, Region.stop, headerRegion, headerBytes]
    omega
  · rcases hignored.header_or_directory with hi | hi
    · exact hout (ignoredInHeader_contains hi)
    · exact hdirectory _ hi hin

theorem entry_byte {size k j : ℕ} (hok : HeaderOk (headerOf b) size) (hsize : size ≤ b.length)
    (hk : k < (headerOf b).resourceCount.toNat) (hj : UsedInEntry j) :
    b[(headerOf b).directoryOffset.toNat + k * (headerOf b).directoryEntrySize.toNat + j]? =
      b'[(headerOf b).directoryOffset.toNat + k * (headerOf b).directoryEntrySize.toNat + j]? := by
  have hstride := hok.stride
  have htotal := hok.total_le
  have hle := hok.entry_le hk
  have hlt := hj.1
  have hin := directory_contains hk (Nat.lt_of_lt_of_le hlt hstride)
  have hout := fun hi => hapart.directory _ hi hin
  refine h.bytes _ (by omega) (fun hflags => hout ?_) fun hignored => ?_
  · simp only [Region.Contains, Region.stop, flagsRegion] at hflags
    simp only [Region.Contains, Region.stop, headerRegion, headerBytes]
    omega
  · rcases hignored with hi | ⟨k', -, j', hj', hsame, r, hr, hcontains⟩
    · exact hout (ignoredInHeader_contains hi)
    · have hmod : j = j' := by
        have hrest : k * (headerOf b).directoryEntrySize.toNat + j =
            k' * (headerOf b).directoryEntrySize.toNat + j' := by omega
        have heq := congrArg (· % (headerOf b).directoryEntrySize.toNat) hrest
        simpa [Nat.mul_add_mod', Nat.mod_eq_of_lt (Nat.lt_of_lt_of_le hlt hstride),
          Nat.mod_eq_of_lt hj'] using heq
      exact hj.not_ignored r hr (hmod ▸ hcontains)

theorem resource_agrees {size k : ℕ} (hok : HeaderOk (headerOf b) size) (hsize : size ≤ b.length)
    (hagrees : HeaderAgrees (headerOf b) (headerOf b'))
    (hk : k < (headerOf b).resourceCount.toNat) :
    toResource (entryAt b (headerOf b) k) = toResource (entryAt b' (headerOf b') k) := by
  rw [entryAt, entryAt, ← hagrees.directoryOffset, ← hagrees.directoryEntrySize]
  have hslice : ∀ {off len : ℕ}, off + len ≤ entryBytes → (∀ j < len, UsedInEntry (off + j)) →
      slice (slice b ((headerOf b).directoryOffset.toNat +
          k * (headerOf b).directoryEntrySize.toNat) entryBytes) off len =
        slice (slice b' ((headerOf b).directoryOffset.toNat +
          k * (headerOf b).directoryEntrySize.toNat) entryBytes) off len := by
    intro off len hle hused
    rw [slice_slice b hle, slice_slice b' hle]
    refine slice_congr fun j hj => ?_
    rw [Nat.add_assoc _ off j]
    exact entry_byte h hapart hok hsize hk (hused j hj)
  generalize slice b _ entryBytes = bs at hslice ⊢
  generalize slice b' _ entryBytes = bs' at hslice ⊢
  have h32 : ∀ {off : ℕ}, off + 4 ≤ entryBytes → (∀ j < 4, UsedInEntry (off + j)) →
      field32 bs off = field32 bs' off := fun hle hused => congrArg word32 (hslice hle hused)
  have h64 : ∀ {off : ℕ}, off + 8 ≤ entryBytes → (∀ j < 8, UsedInEntry (off + j)) →
      field64 bs off = field64 bs' off := fun hle hused => congrArg word64 (hslice hle hused)
  simp only [toResource, ERFDirectoryEntry.ofBytes, ERFResource.mk.injEq]
  exact ⟨h32 (by decide) (by decide), h32 (by decide) (by decide), h32 (by decide) (by decide),
    h32 (by decide) (by decide), congrArg UInt32.toNat (h32 (by decide) (by decide)),
    congrArg UInt64.toNat (h64 (by decide) (by decide)), h64 (by decide) (by decide),
    h64 (by decide) (by decide), h64 (by decide) (by decide)⟩

/-- Buffers that differ in ignored bytes only are opened alike. -/
theorem SameForReader.outcome : SameOutcome b b' := by
  rcases Nat.lt_or_ge b.length headerBytes with hshort | hsize
  · exact sameOutcome_of_short h.length hshort
  have hagrees := header_agrees h hapart hsize
  refine sameOutcome_of_checks h.length (hagrees.checkHeader_eq _) hagrees.totalSize
    hagrees.resourceCount (fun hok => ?_) fun hok k hk =>
    resource_agrees h hapart hok le_rfl hagrees hk
  have htotal := hok.total_le
  exact openHashTable_congr le_rfl h.length.le htotal hagrees.totalSize
    hagrees.hashTableOffset h.flag fun hann hle =>
    bucketCount_agrees h hapart hann (hle.trans htotal)

end Same

/-- The directory of the buffer holds these entries, at the stride its header gives. -/
structure DirectoryOf (b : Bytes) (entries : List ERFDirectoryEntry) : Prop where
  count : (headerOf b).resourceCount.toNat = entries.length
  placed : ∀ i (hi : i < entries.length), Segment b ((headerOf b).directoryOffset.toNat +
    i * (headerOf b).directoryEntrySize.toNat) entries[i].toBytes

/-- The buffers are announced alike, the second one with the least stride; the directory
of the first one fits. -/
structure SameButStride (b b' : Bytes) : Prop where
  length : b.length = b'.length
  header : headerOf b' = { headerOf b with directoryEntrySize := UInt32.ofNat entryBytes }
  bucketCount : announcesHashTable (headerOf b) = true →
    field32 b (headerOf b).hashTableOffset.toNat = field32 b' (headerOf b).hashTableOffset.toNat
  stride : entryBytes ≤ (headerOf b).directoryEntrySize.toNat
  fits : (directoryRegion b).stop ≤ (headerOf b).totalSize.toNat

section Stride

variable {b b' : Bytes} {entries : List ERFDirectoryEntry}

theorem DirectoryOf.entryAt_eq (h : DirectoryOf b entries) {i : ℕ} (hi : i < entries.length) :
    entryAt b (headerOf b) i = entries[i] :=
  (h.placed i hi).decode_slice ERFDirectoryEntry.ofBytes_toBytes ERFDirectoryEntry.length_toBytes

theorem DirectoryOf.resources (h : DirectoryOf b entries) {c : ERFContainer}
    (hopen : erfOpenMemory (some b) b.length = .ok (.ok c)) :
    c.resources = entries.map toResource := by
  have haccepted := erfOpenMemory_ok_iff.mp hopen
  have hheader : c.header = headerOf b := haccepted.header
  rw [haccepted.resources, hheader]
  refine List.ext_getElem (by simp [h.count]) fun i hi hi' => ?_
  rw [List.length_map] at hi'
  rw [List.getElem_map, List.getElem_map, List.getElem_range, h.entryAt_eq hi']

theorem checkHeader_stride {header : ERFHeader} {stride : UInt32} (size : ℕ)
    (hstride : entryBytes ≤ stride.toNat)
    (hle : stride.toNat ≤ header.directoryEntrySize.toNat)
    (hfits : header.directoryOffset.toNat +
      header.resourceCount.toNat * header.directoryEntrySize.toNat ≤ header.totalSize.toNat) :
    checkHeader header size = checkHeader { header with directoryEntrySize := stride } size := by
  obtain ⟨span, hspan, hspan'⟩ := mulOverflow_toUInt64 header.resourceCount
    header.directoryEntrySize
  obtain ⟨less, hless, hless'⟩ := mulOverflow_toUInt64 header.resourceCount stride
  have hmul := Nat.mul_le_mul_left header.resourceCount.toNat hle
  have hin : inBounds header.totalSize.toNat header.directoryOffset span = true := by
    rw [inBounds_iff, hspan']
    exact hfits
  have hin' : inBounds header.totalSize.toNat header.directoryOffset less = true := by
    rw [inBounds_iff, hless']
    omega
  simp only [checkHeader, hspan, hless, hin, hin', if_neg (Nat.not_lt.mpr hstride),
    if_neg (Nat.not_lt.mpr (hstride.trans hle))]

theorem SameButStride.outcome (h : SameButStride b b') (hb : DirectoryOf b entries)
    (hb' : DirectoryOf b' entries) : SameOutcome b b' := by
  have hheader := h.header
  have hleast : (UInt32.ofNat entryBytes).toNat = entryBytes := by decide
  have hcheck := checkHeader_stride b.length hleast.ge (hleast.le.trans h.stride) h.fits
  rw [← hheader] at hcheck
  refine sameOutcome_of_checks h.length hcheck ?_ ?_ (fun hok => ?_) fun hok i hi => ?_
  · rw [hheader]
  · rw [hheader]
  · refine openHashTable_congr le_rfl h.length.le hok.total_le ?_ ?_ ?_ fun hann _ =>
      h.bucketCount hann
    · rw [hheader]
    · rw [hheader]
    · rw [hheader]
  · rw [hb.count] at hi
    rw [hb.entryAt_eq hi, hb'.entryAt_eq hi]

end Stride

/-- **The reader is forward compatible.** Buffers that differ in ignored bytes only are opened
alike, and a directory of entries is read alike at every stride. -/
theorem reader_forward_compatible :
    (∀ b b', TablesApart b → SameForReader b b' → SameOutcome b b') ∧
    ∀ entries b b', DirectoryOf b entries → DirectoryOf b' entries →
      (∀ c, erfOpenMemory (some b) b.length = .ok (.ok c) →
        c.resources = entries.map toResource) ∧
      (SameButStride b b' → SameOutcome b b') :=
  ⟨fun _ _ hapart h => h.outcome hapart, fun _ _ _ hb hb' =>
    ⟨fun _ hopen => hb.resources hopen, fun h => h.outcome hb hb'⟩⟩

def stridedEntry : ERFDirectoryEntry where
  id := 1
  type := 0
  language := 0
  flags := 0
  nameOffset := 432
  reserved0 := 0
  dataOffset := 0
  dataSize := 0
  originalSize := 0
  metadataOffset := 0
  hash := 0
  checksum := 0
  timestamp := 0
  reserved := Vector.replicate 6 0

/-- Two entries with a gap between them, in a container of 440 bytes. -/
def stridedContainer (stride : UInt32) (gap : Bytes) : Bytes :=
  let header : ERFHeader :=
    { magic := erfMagic, versionMajor := 1, versionMinor := 0, headerSize := 160, flags := 0,
      resourceCount := 2, directoryEntrySize := stride, reserved0 := 0, directoryOffset := 160,
      stringOffset := 432, metadataOffset := 0, hashTableOffset := 0, signatureOffset := 0,
      dataOffset := 0, totalSize := 440, checksum := 0, reserved := Vector.replicate 8 0 }
  header.toBytes ++ stridedEntry.toBytes ++ gap ++ stridedEntry.toBytes ++
    List.replicate (16 - gap.length) 0 ++ [0x61, 0, 0, 0, 0, 0, 0, 0]

theorem patch_reserved_same : SameForReader (stridedContainer 128 [])
    (patch (stridedContainer 128 []) 24 [1]) where
  length := by decide +kernel
  flag := by decide +kernel
  bytes := by
    intro i hi _ hignored
    have hroom : 24 + [(1 : UInt8)].length ≤ (stridedContainer 128 []).length := by
      decide +kernel
    rw [getElem?_patch hroom, if_neg]
    rintro ⟨hge, hlt⟩
    obtain rfl : i = 24 := by
      rw [List.length_singleton] at hlt
      omega
    exact hignored (.inl ⟨⟨24, 4⟩, by decide, by decide⟩)

theorem stridedContainer_entries {stride : UInt32} {gap : Bytes}
    (h : ∀ i < 2, Segment (stridedContainer stride gap) (160 + i * stride.toNat)
      stridedEntry.toBytes)
    (hheader : (headerOf (stridedContainer stride gap)).resourceCount = 2 ∧
      (headerOf (stridedContainer stride gap)).directoryOffset = 160 ∧
      (headerOf (stridedContainer stride gap)).directoryEntrySize = stride) :
    DirectoryOf (stridedContainer stride gap) [stridedEntry, stridedEntry] where
  count := by rw [hheader.1]; rfl
  placed i hi := by
    rw [hheader.2.1, hheader.2.2]
    have hsame : [stridedEntry, stridedEntry][i] = stridedEntry := by
      rcases i with _ | _ | i <;> simp at hi ⊢
    rw [hsame]
    exact h i hi

theorem reader_forward_compatible_strided :
    (SameOutcome (stridedContainer 128 []) (patch (stridedContainer 128 []) 24 [1]) ∧
      (opened (stridedContainer 128 [])).isSome = true) ∧
    SameOutcome (stridedContainer 136 (List.replicate 8 0xFF)) (stridedContainer 128 []) ∧
    ∃ c, opened (stridedContainer 136 (List.replicate 8 0xFF)) = some c ∧
      c.resources = [toResource stridedEntry, toResource stridedEntry] := by
  obtain ⟨hresources, hsame⟩ := reader_forward_compatible.2 _ _ _
    (@stridedContainer_entries 136 (List.replicate 8 0xFF) (by decide +kernel) (by decide +kernel))
    (@stridedContainer_entries 128 [] (by decide +kernel) (by decide +kernel))
  have hopens : (opened (stridedContainer 136 (List.replicate 8 0xFF))).isSome = true := by
    decide +kernel
  obtain ⟨c, hc⟩ := Option.isSome_iff_exists.mp hopens
  refine ⟨⟨reader_forward_compatible.1 _ _ ⟨?_, ?_⟩ patch_reserved_same, by decide +kernel⟩,
    hsame ⟨by decide +kernel, by decide +kernel, by decide +kernel, by decide +kernel,
      by decide +kernel⟩, c, hc, hresources c (opened_eq_some.mp hc)⟩
  · refine Region.Before.apart ?_
    unfold Region.Before
    decide +kernel
  · intro hann
    exact absurd hann (by decide +kernel)

end Elfr.Runtime
