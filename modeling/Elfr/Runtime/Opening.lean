import Elfr.Runtime.Reader

/-!
# What an accepted buffer looks like

`erf_open_memory` on a buffer of its own size never stops, and it succeeds
exactly on the buffers described by `Accepted`: the header passes its checks,
the announced hash table and every directory entry are in bounds, and the
container is the one read off the buffer. All later facts about opened
containers start from this description.
-/
namespace Elfr.Runtime

open Library Common Format

/-- The conditions `checkHeader` tests, on numbers. -/
structure HeaderOk (header : ERFHeader) (size : ℕ) : Prop where
  magic : header.magic = erfMagic
  version : header.versionMajor = erfVersionMajor
  headerSize : headerBytes ≤ header.headerSize.toNat
  header_le : header.headerSize.toNat ≤ header.totalSize.toNat
  total_le : header.totalSize.toNat ≤ size
  stride : entryBytes ≤ header.directoryEntrySize.toNat
  directory : header.directoryOffset.toNat +
    header.resourceCount.toNat * header.directoryEntrySize.toNat ≤ header.totalSize.toNat
  strings : header.resourceCount ≠ 0 → header.stringOffset.toNat ≤ header.totalSize.toNat

theorem mulOverflow_toUInt64 (a b : UInt32) :
    ∃ p, mulOverflow a.toUInt64 b.toUInt64 = some p ∧ p.toNat = a.toNat * b.toNat := by
  have hlt : a.toNat * b.toNat < 2 ^ 64 := by
    have ha := a.toNat_lt
    have hb := b.toNat_lt
    calc a.toNat * b.toNat ≤ (2 ^ 32 - 1) * (2 ^ 32 - 1) := Nat.mul_le_mul (by omega) (by omega)
      _ < 2 ^ 64 := by norm_num
  refine ⟨a.toUInt64 * b.toUInt64, ?_, ?_⟩
  · simp only [mulOverflow, UInt32.toNat_toUInt64, if_pos hlt]
  · rw [UInt64.toNat_mul, UInt32.toNat_toUInt64, UInt32.toNat_toUInt64, Nat.mod_eq_of_lt hlt]

theorem checkHeader_eq_none_iff {header : ERFHeader} {size : ℕ} :
    checkHeader header size = none ↔ HeaderOk header size := by
  obtain ⟨span, hspan, hspan'⟩ :=
    mulOverflow_toUInt64 header.resourceCount header.directoryEntrySize
  have hcount : header.resourceCount > 0 ↔ header.resourceCount ≠ 0 := by
    rw [gt_iff_lt, UInt32.lt_iff_toNat_lt, ne_eq, ← UInt32.toNat_inj]
    change 0 < header.resourceCount.toNat ↔ ¬ header.resourceCount.toNat = 0
    omega
  unfold checkHeader
  rw [hspan]
  simp only [ne_eq, UInt64.lt_iff_toNat_lt, UInt32.toNat_toUInt64, Bool.not_eq_true',
    ← Bool.not_eq_true, inBounds_iff, hspan', hcount]
  constructor
  · intro h
    split_ifs at h with hmagic hversion hsize htotal hstride hdir hstr
    exact ⟨hmagic, hversion, by omega, by omega, by omega, by omega,
      hdir, fun hne => by_contra fun hlt => hstr ⟨hne, hlt⟩⟩
  · intro h
    have hle := h.header_le
    have hsize := h.total_le
    rw [if_neg (not_not.mpr h.magic), if_neg (not_not.mpr h.version),
      if_neg (Nat.not_lt.mpr h.headerSize), if_neg (by omega), if_neg (Nat.not_lt.mpr h.stride),
      if_neg (not_not.mpr h.directory)]
    exact if_neg fun hstr => hstr.2 (h.strings hstr.1)

/-- What is kept about the hash table of an accepted buffer. -/
structure HashTableOk (b : Bytes) (header : ERFHeader) (table : HashTable) : Prop where
  hasHash : table.hasHash = announcesHashTable header
  present : announcesHashTable header = true →
    table.bucketCount = field32 b header.hashTableOffset.toNat ∧
    table.buckets = header.hashTableOffset.toNat + hashTableHeaderBytes ∧
    table.buckets + bucketBytes * table.bucketCount.toNat ≤ header.totalSize.toNat
  absent : announcesHashTable header = false → table.bucketCount = 0 ∧ table.buckets = 0

/-- The hash table part of opening: the result for a header that announces one. -/
theorem openHashTable_of_announced {b : Bytes} {header : ERFHeader}
    (hann : announcesHashTable header = true)
    (hloads : header.hashTableOffset.toNat + hashTableHeaderBytes ≤ header.totalSize.toNat →
      header.hashTableOffset.toNat + hashTableHeaderBytes ≤ b.length) :
    openHashTable b header = .ok
      (if header.hashTableOffset.toNat + hashTableHeaderBytes ≤ header.totalSize.toNat ∧
          header.hashTableOffset.toNat + hashTableHeaderBytes +
            bucketBytes * (field32 b header.hashTableOffset.toNat).toNat ≤ header.totalSize.toNat
        then .ok ⟨true, field32 b header.hashTableOffset.toNat,
          header.hashTableOffset.toNat + hashTableHeaderBytes⟩
        else .error .badOffset) := by
  have h8 : (8 : UInt64).toNat = hashTableHeaderBytes := rfl
  unfold openHashTable
  rw [if_pos hann]
  by_cases hhead : header.hashTableOffset.toNat + hashTableHeaderBytes ≤ header.totalSize.toNat
  · have hin : inBounds header.totalSize.toNat header.hashTableOffset 8 = true :=
      inBounds_iff.mpr hhead
    have hfield : (ERFHashTableHeader.ofBytes (slice b header.hashTableOffset.toNat
        hashTableHeaderBytes)).bucketCount = field32 b header.hashTableOffset.toNat :=
      field32_slice (by decide)
    obtain ⟨span, hspan, hspan'⟩ := mulOverflow_toUInt64 (field32 b header.hashTableOffset.toNat) 16
    have hadd : Exec.add64 header.hashTableOffset 8 = .ok (header.hashTableOffset + 8) := by
      rw [Exec.add64_eq_ok, UInt64.toNat_add, Nat.mod_eq_of_lt]
      exact Nat.lt_of_le_of_lt hhead header.totalSize.toNat_lt
    have hstart : (header.hashTableOffset + 8).toNat =
        header.hashTableOffset.toNat + hashTableHeaderBytes := Exec.add64_eq_ok.mp hadd
    rw [hin, load_of_le (hloads hhead), Exec.ok_bind]
    simp only [hfield]
    rw [show (16 : UInt64) = (16 : UInt32).toUInt64 from rfl, hspan]
    simp only [Bool.not_true, Bool.false_eq_true, ↓reduceIte, hadd, Exec.ok_bind,
      Exec.pure_eq_ok, Bool.not_eq_true', ← Bool.not_eq_true, inBounds_iff, hstart, hspan',
      show (16 : UInt32).toNat = bucketBytes from rfl, hhead, true_and,
      Nat.mul_comm _ bucketBytes]
    split_ifs <;> rfl
  · have hin : ¬ inBounds header.totalSize.toNat header.hashTableOffset 8 = true :=
      fun h => hhead (inBounds_iff.mp h)
    simp [hin, hhead]

theorem openHashTable_ok_iff {b : Bytes} {header : ERFHeader} {table : HashTable}
    (htotal : header.totalSize.toNat ≤ b.length) :
    openHashTable b header = .ok (.ok table) ↔ HashTableOk b header table := by
  cases hann : announcesHashTable header with
  | true =>
    rw [openHashTable_of_announced hann fun hle => hle.trans htotal]
    constructor
    · intro h
      split_ifs at h with hle
      · obtain rfl := Except.ok.inj (Except.ok.inj h)
        exact ⟨hann.symm, fun _ => ⟨rfl, rfl, hle.2⟩, fun h => absurd h (by simp [hann])⟩
      · cases h
    · intro h
      obtain ⟨hcount, hbuckets, hle⟩ := h.present hann
      have hhas := h.hasHash.trans hann
      obtain ⟨has, count, buckets⟩ := table
      simp only at hcount hbuckets hle hhas
      subst hcount hbuckets hhas
      rw [if_pos ⟨by omega, hle⟩]
  | false =>
    unfold openHashTable
    rw [hann]
    simp only [Bool.false_eq_true, ↓reduceIte, Exec.pure_eq_ok, Except.ok.injEq]
    constructor
    · rintro rfl
      exact ⟨hann.symm, fun h => absurd h (by simp [hann]), fun _ => ⟨rfl, rfl⟩⟩
    · intro h
      obtain ⟨hcount, hbuckets⟩ := h.absent hann
      have hhas := h.hasHash.trans hann
      obtain ⟨has, count, buckets⟩ := table
      simp only at hcount hbuckets hhas
      rw [hcount, hbuckets, hhas]

theorem openHashTable_safe {b : Bytes} {header : ERFHeader}
    (htotal : header.totalSize.toNat ≤ b.length) : (openHashTable b header).Safe := by
  cases hann : announcesHashTable header with
  | true => exact ⟨_, openHashTable_of_announced hann fun hle => hle.trans htotal⟩
  | false => exact ⟨_, by unfold openHashTable; rw [hann]; rfl⟩

def headerOf (b : Bytes) : ERFHeader := ERFHeader.ofBytes (slice b 0 headerBytes)

def entryAt (b : Bytes) (header : ERFHeader) (i : ℕ) : ERFDirectoryEntry :=
  ERFDirectoryEntry.ofBytes
    (slice b (header.directoryOffset.toNat + i * header.directoryEntrySize.toNat) entryBytes)

/-- The bounds of an entry that is not rejected. -/
structure EntryOk (header : ERFHeader) (entry : ERFDirectoryEntry) : Prop where
  name : entry.nameOffset.toNat + 1 ≤ header.totalSize.toNat
  data : entry.dataOffset.toNat + entry.dataSize.toNat ≤ header.totalSize.toNat

theorem entryInBounds_iff {header : ERFHeader} {entry : ERFDirectoryEntry} :
    entryInBounds header entry = true ↔ EntryOk header entry := by
  unfold entryInBounds
  rw [Bool.and_eq_true, inBounds_iff, inBounds_iff, UInt32.toNat_toUInt64]
  exact ⟨fun h => ⟨h.1, h.2⟩, fun h => ⟨h.1, h.2⟩⟩

theorem HeaderOk.entry_le {header : ERFHeader} {size i : ℕ} (h : HeaderOk header size)
    (hi : i < header.resourceCount.toNat) :
    header.directoryOffset.toNat + i * header.directoryEntrySize.toNat + entryBytes ≤
      header.totalSize.toNat := by
  have hdir := h.directory
  have hstride := h.stride
  have hmul : (i + 1) * header.directoryEntrySize.toNat ≤
      header.resourceCount.toNat * header.directoryEntrySize.toNat :=
    Nat.mul_le_mul_right _ hi
  rw [Nat.add_mul, Nat.one_mul] at hmul
  omega

theorem readEntry_eq {b : Bytes} {header : ERFHeader} {size i : ℕ} (h : HeaderOk header size)
    (hsize : size ≤ b.length) (hi : i < header.resourceCount.toNat) :
    readEntry b header i = .ok (entryAt b header i) := by
  have hlen : (if entryBytes < header.directoryEntrySize.toNat then entryBytes
      else header.directoryEntrySize.toNat) = entryBytes := by
    have hstride := h.stride
    split_ifs <;> omega
  have hle := h.entry_le hi
  have htotal := h.total_le
  unfold readEntry
  simp only [hlen]
  rw [load_of_le (by omega)]
  rfl

/-- The directory loop: the resources of all entries, unless one is out of bounds. -/
theorem readDirectory_eq {b : Bytes} {header : ERFHeader} {size : ℕ} (h : HeaderOk header size)
    (hsize : size ≤ b.length) : ∀ {left i : ℕ}, i + left = header.resourceCount.toNat →
    readDirectory b header left i = .ok
      (if (List.range' i left).all fun j => entryInBounds header (entryAt b header j) then
        .ok ((List.range' i left).map fun j => toResource (entryAt b header j))
      else .error .badOffset)
  | 0, i, hi => rfl
  | left + 1, i, hi => by
    have hi' : i + 1 + left = header.resourceCount.toNat := by omega
    have ih := readDirectory_eq h hsize hi'
    unfold readDirectory
    rw [readEntry_eq h hsize (by omega), Exec.ok_bind, ih, List.range'_succ]
    cases hentry : entryInBounds header (entryAt b header i) with
    | false => simp [hentry]
    | true =>
      simp only [Bool.not_true, Bool.false_eq_true, ↓reduceIte, Exec.ok_bind, Exec.pure_eq_ok,
        List.all_cons, hentry, Bool.true_and, List.map_cons]
      split_ifs <;> rfl

/-- The container `erf_open_memory` makes of an accepted buffer, and why it is accepted. -/
structure Accepted (b : Bytes) (c : ERFContainer) : Prop where
  base : c.base = b
  size : c.size = b.length
  header_le : headerBytes ≤ b.length
  header : c.header = ERFHeader.ofBytes (slice b 0 headerBytes)
  headerOk : HeaderOk c.header b.length
  stride : c.entryStride = c.header.directoryEntrySize
  count : c.resourceCount = c.header.resourceCount
  table : HashTableOk b c.header ⟨c.hasHashTable, c.hashBucketCount, c.hashBuckets⟩
  entries : ∀ i < c.header.resourceCount.toNat, EntryOk c.header (entryAt b c.header i)
  resources : c.resources =
    (List.range c.header.resourceCount.toNat).map fun i => toResource (entryAt b c.header i)

theorem erfOpenMemory_of_checked {b : Bytes} (hsize : headerBytes ≤ b.length)
    (hok : HeaderOk (ERFHeader.ofBytes (slice b 0 headerBytes)) b.length) :
    let header := ERFHeader.ofBytes (slice b 0 headerBytes)
    ∃ table, openHashTable b header = .ok table ∧
      erfOpenMemory (some b) b.length = .ok (table.bind fun t =>
        if (List.range header.resourceCount.toNat).all fun i =>
            entryInBounds header (entryAt b header i) then
          .ok ⟨b, b.length, header, header.directoryEntrySize,
            (List.range header.resourceCount.toNat).map fun i => toResource (entryAt b header i),
            header.resourceCount, t.hasHash, t.bucketCount, t.buckets⟩
        else .error .badOffset) := by
  intro header
  obtain ⟨table, htable⟩ : (openHashTable b header).Safe := openHashTable_safe hok.total_le
  refine ⟨table, htable, ?_⟩
  unfold erfOpenMemory
  simp only [Nat.not_lt.mpr hsize, ↓reduceIte]
  rw [load_of_le (by omega), Exec.ok_bind, checkHeader_eq_none_iff.mpr hok, htable]
  cases table with
  | error e => rfl
  | ok t =>
    rw [Exec.ok_bind, readDirectory_eq hok le_rfl (Nat.zero_add _), ← List.range_eq_range']
    simp only [Exec.ok_bind, Exec.pure_eq_ok, Except.bind]
    split_ifs <;> rfl

/-- Opening succeeds exactly on the accepted buffers. -/
theorem erfOpenMemory_ok_iff {b : Bytes} {c : ERFContainer} :
    erfOpenMemory (some b) b.length = .ok (.ok c) ↔ Accepted b c := by
  have hchecked : ∀ (hsize : headerBytes ≤ b.length),
      (erfOpenMemory (some b) b.length = .ok (.ok c) →
      HeaderOk (ERFHeader.ofBytes (slice b 0 headerBytes)) b.length) := by
    intro hsize h
    unfold erfOpenMemory at h
    simp only [Nat.not_lt.mpr hsize, ↓reduceIte] at h
    rw [load_of_le (by omega), Exec.ok_bind] at h
    rw [← checkHeader_eq_none_iff]
    cases hc : checkHeader (ERFHeader.ofBytes (slice b 0 headerBytes)) b.length with
    | none => rfl
    | some e => simp [hc] at h
  constructor
  · intro h
    have hsize : headerBytes ≤ b.length := by
      by_contra hlt
      unfold erfOpenMemory at h
      simp [Nat.lt_of_not_le hlt] at h
    have hok := hchecked hsize h
    obtain ⟨table, htable, hopen⟩ := erfOpenMemory_of_checked hsize hok
    rw [h] at hopen
    cases table with
    | error e => simp [Except.bind] at hopen
    | ok t =>
      simp only [Except.bind, Except.ok.injEq] at hopen
      split_ifs at hopen with hall
      · obtain rfl := Except.ok.inj hopen
        refine ⟨rfl, rfl, hsize, rfl, hok, rfl, rfl, (openHashTable_ok_iff hok.total_le).mp htable,
          fun i hi => ?_, rfl⟩
        exact entryInBounds_iff.mp (List.all_eq_true.mp hall i (List.mem_range.mpr hi))
  · rintro ⟨hbase, hsz, hsize, hheader, hok, hstride, hcount, htable, hentries, hres⟩
    obtain ⟨base, size, header, stride, resources, count, has, bcount, buckets⟩ := c
    simp only at hbase hsz hheader hstride hcount hok htable hentries hres
    subst hbase hsz hheader hstride hcount hres
    obtain ⟨table, htable', hopen⟩ := erfOpenMemory_of_checked hsize hok
    rw [hopen]
    rw [(openHashTable_ok_iff hok.total_le).mpr htable] at htable'
    obtain rfl := Except.ok.inj htable'
    have hall : (List.range (ERFHeader.ofBytes (slice base 0 headerBytes)).resourceCount.toNat).all
        (fun i => entryInBounds (ERFHeader.ofBytes (slice base 0 headerBytes))
          (entryAt base (ERFHeader.ofBytes (slice base 0 headerBytes)) i)) = true :=
      List.all_eq_true.mpr fun i hi => entryInBounds_iff.mpr (hentries i (List.mem_range.mp hi))
    simp only [Except.bind, hall, ↓reduceIte]

/-- Opening a range of a buffer reads nothing outside of it and computes no sum that wraps. -/
theorem erfOpenMemory_safe_of_le {b : Bytes} {size : ℕ} (hle : size ≤ b.length) :
    (erfOpenMemory (some b) size).Safe := by
  unfold erfOpenMemory
  by_cases hsmall : size < headerBytes
  · simp only [hsmall, ↓reduceIte]
    exact ⟨_, rfl⟩
  simp only [hsmall, ↓reduceIte]
  rw [load_of_le (by omega), Exec.ok_bind]
  cases hc : checkHeader (ERFHeader.ofBytes (slice b 0 headerBytes)) size with
  | some e => exact ⟨_, rfl⟩
  | none =>
    have hok := checkHeader_eq_none_iff.mp hc
    obtain ⟨table, htable⟩ := openHashTable_safe (hok.total_le.trans hle)
    rw [htable]
    cases table with
    | error e => exact ⟨_, rfl⟩
    | ok t =>
      rw [Exec.ok_bind, readDirectory_eq hok hle (Nat.zero_add _)]
      exact ⟨_, rfl⟩

theorem erfOpenMemory_safe (b : Bytes) : (erfOpenMemory (some b) b.length).Safe :=
  erfOpenMemory_safe_of_le le_rfl

def opened (b : Bytes) : Option ERFContainer :=
  match erfOpenMemory (some b) b.length with
  | .ok (.ok c) => some c
  | _ => none

theorem opened_eq_some {b : Bytes} {c : ERFContainer} :
    opened b = some c ↔ erfOpenMemory (some b) b.length = .ok (.ok c) := by
  unfold opened
  split <;> simp_all

end Elfr.Runtime
