import Elfr.Runtime.Opening

/-!
# Why a buffer does not open

The error code that describes a buffer, told by the buffer alone: there is none, it is too
short for a header, its magic or version is another one, or some part does not lie inside
the container. Whenever `erf_open_memory` returns it has failed with this code, or succeeded
on a buffer that has none.
-/
namespace Elfr.Runtime

open Library Common Format

/-- The container lies inside the buffer, and in it lies all that its header and its entries
announce. -/
@[mk_iff] structure PartsInside (b : Bytes) (size : ℕ) : Prop where
  headerSize : headerBytes ≤ (headerOf b).headerSize.toNat
  header_le : (headerOf b).headerSize.toNat ≤ (headerOf b).totalSize.toNat
  total_le : (headerOf b).totalSize.toNat ≤ size
  stride : entryBytes ≤ (headerOf b).directoryEntrySize.toNat
  directory : (headerOf b).directoryOffset.toNat +
    (headerOf b).resourceCount.toNat * (headerOf b).directoryEntrySize.toNat ≤
      (headerOf b).totalSize.toNat
  strings : (headerOf b).resourceCount ≠ 0 →
    (headerOf b).stringOffset.toNat ≤ (headerOf b).totalSize.toNat
  hashTable : (headerOf b).flags &&& hflagHashTablePresent ≠ 0 → (headerOf b).hashTableOffset ≠ 0 →
    (headerOf b).hashTableOffset.toNat + hashTableHeaderBytes +
      bucketBytes * (field32 b (headerOf b).hashTableOffset.toNat).toNat ≤
        (headerOf b).totalSize.toNat
  entries : ∀ i < (headerOf b).resourceCount.toNat, EntryOk (headerOf b) (entryAt b (headerOf b) i)

instance (header : ERFHeader) (entry : ERFDirectoryEntry) : Decidable (EntryOk header entry) :=
  decidable_of_iff _ entryInBounds_iff

instance (b : Bytes) (size : ℕ) : Decidable (PartsInside b size) :=
  decidable_of_iff _ (partsInside_iff b size).symm

/-- The code of the buffer, if it does not open. -/
def openFailure (base : Option Bytes) (size : ℕ) : Option ERFError :=
  match base with
  | none => some .invalidArgument
  | some b =>
    if size = 0 then some .invalidArgument
    else if size < headerBytes then some .truncated
    else if (headerOf b).magic ≠ erfMagic then some .badMagic
    else if (headerOf b).versionMajor ≠ erfVersionMajor then some .unsupportedVersion
    else if PartsInside b size then none
    else some .badOffset

theorem openFailure_ne_ok {base : Option Bytes} {size : ℕ} : openFailure base size ≠ some .ok := by
  cases base with
  | none => simp [openFailure]
  | some b =>
    unfold openFailure
    dsimp only
    split_ifs <;> simp

section Checks

variable {b : Bytes} {header : ERFHeader} {size : ℕ} {e : ERFError}

/-- The first checks of the header have codes of their own, the bounds have one. -/
theorem checkHeader_eq_some (h : checkHeader header size = some e) :
    header.magic ≠ erfMagic ∧ e = .badMagic ∨
      header.magic = erfMagic ∧ header.versionMajor ≠ erfVersionMajor ∧ e = .unsupportedVersion ∨
      header.magic = erfMagic ∧ header.versionMajor = erfVersionMajor ∧ e = .badOffset ∧
        ¬ HeaderOk header size := by
  have hnot : ¬ HeaderOk header size := by
    rw [← checkHeader_eq_none_iff, h]
    exact Option.some_ne_none e
  obtain ⟨span, hspan, -⟩ := mulOverflow_toUInt64 header.resourceCount header.directoryEntrySize
  unfold checkHeader at h
  by_cases hmagic : header.magic = erfMagic
  · by_cases hversion : header.versionMajor = erfVersionMajor
    · rw [if_neg (not_not.mpr hmagic), if_neg (not_not.mpr hversion), hspan] at h
      refine .inr (.inr ⟨hmagic, hversion, ?_, hnot⟩)
      dsimp only at h
      split_ifs at h <;> exact (Option.some.inj h).symm
    · rw [if_neg (not_not.mpr hmagic), if_pos hversion] at h
      exact .inr (.inl ⟨hmagic, hversion, (Option.some.inj h).symm⟩)
  · rw [if_pos hmagic] at h
    exact .inl ⟨hmagic, (Option.some.inj h).symm⟩

theorem openHashTable_loads {r : Except ERFError HashTable}
    (hann : announcesHashTable header = true) (h : openHashTable b header = .ok r)
    (hle : header.hashTableOffset.toNat + hashTableHeaderBytes ≤ header.totalSize.toNat) :
    header.hashTableOffset.toNat + hashTableHeaderBytes ≤ b.length := by
  have hin : inBounds header.totalSize.toNat header.hashTableOffset 8 = true := inBounds_iff.mpr hle
  unfold openHashTable at h
  rw [if_pos hann, hin] at h
  obtain ⟨bs, hbs, -⟩ := Exec.bind_eq_ok.mp h
  exact (load_eq_ok.mp hbs).1

theorem announcesHashTable_iff : announcesHashTable header = true ↔
    header.flags &&& hflagHashTablePresent ≠ 0 ∧ header.hashTableOffset ≠ 0 := by
  simp [announcesHashTable]

/-- A hash table that is announced passes exactly if it lies inside the container. -/
theorem openHashTable_eq_ok {r : Except ERFError HashTable} (h : openHashTable b header = .ok r) :
    (r = .error .badOffset ∧ announcesHashTable header = true ∧
      ¬ header.hashTableOffset.toNat + hashTableHeaderBytes +
        bucketBytes * (field32 b header.hashTableOffset.toNat).toNat ≤ header.totalSize.toNat) ∨
      (∃ t, r = .ok t) ∧ (announcesHashTable header = true →
        header.hashTableOffset.toNat + hashTableHeaderBytes +
          bucketBytes * (field32 b header.hashTableOffset.toNat).toNat ≤
            header.totalSize.toNat) := by
  cases hann : announcesHashTable header with
  | false =>
    unfold openHashTable at h
    rw [hann] at h
    obtain rfl := Except.ok.inj h
    exact .inr ⟨⟨_, rfl⟩, fun htrue => absurd htrue Bool.false_ne_true⟩
  | true =>
    rw [openHashTable_of_announced hann (openHashTable_loads hann h)] at h
    obtain rfl := Except.ok.inj h
    split_ifs with hle
    · exact .inr ⟨⟨_, rfl⟩, fun _ => hle.2⟩
    · exact .inl ⟨rfl, rfl, fun hinside => hle ⟨by omega, hinside⟩⟩

theorem readEntry_eq_ok {i : ℕ} {entry : ERFDirectoryEntry}
    (hstride : entryBytes ≤ header.directoryEntrySize.toNat)
    (h : readEntry b header i = .ok entry) : entry = entryAt b header i := by
  have hlen : (if entryBytes < header.directoryEntrySize.toNat then entryBytes
      else header.directoryEntrySize.toNat) = entryBytes := by
    split_ifs <;> omega
  obtain ⟨bs, hbs, h⟩ := Exec.bind_eq_ok.mp h
  rw [hlen] at hbs
  obtain rfl := (load_eq_ok.mp hbs).2
  exact (Except.ok.inj h).symm

theorem readDirectory_eq_ok {left i : ℕ} {r : Except ERFError (List ERFResource)}
    (hstride : entryBytes ≤ header.directoryEntrySize.toNat)
    (h : readDirectory b header left i = .ok r) :
    (r = .error .badOffset ∧ ∃ j < i + left, ¬ EntryOk header (entryAt b header j)) ∨
      (∃ rs, r = .ok rs) ∧ ∀ j < i + left, i ≤ j → EntryOk header (entryAt b header j) := by
  induction left generalizing i r with
  | zero =>
    obtain rfl := Except.ok.inj h
    exact .inr ⟨⟨[], rfl⟩, fun j hlt hle => absurd hlt (by omega)⟩
  | succ left ih =>
    obtain ⟨entry, hentry, h⟩ := Exec.bind_eq_ok.mp h
    obtain rfl := readEntry_eq_ok hstride hentry
    cases hin : entryInBounds header (entryAt b header i) with
    | false =>
      rw [hin] at h
      obtain rfl := Except.ok.inj h
      refine .inl ⟨rfl, i, by omega, fun hok => ?_⟩
      rw [entryInBounds_iff.mpr hok] at hin
      cases hin
    | true =>
      rw [hin] at h
      obtain ⟨rest, hrest, h⟩ := Exec.bind_eq_ok.mp h
      obtain rfl := Except.ok.inj h
      rcases ih hrest with ⟨rfl, j, hlt, hbad⟩ | ⟨⟨rs, rfl⟩, hall⟩
      · exact .inl ⟨rfl, j, by omega, hbad⟩
      · refine .inr ⟨⟨_, rfl⟩, fun j hlt hle => ?_⟩
        rcases Nat.eq_or_lt_of_le hle with rfl | hlater
        · exact entryInBounds_iff.mp hin
        · exact hall j (by omega) hlater

end Checks

section Open

variable {b : Bytes} {size : ℕ}

theorem PartsInside.headerOk (h : PartsInside b size) (hmagic : (headerOf b).magic = erfMagic)
    (hversion : (headerOf b).versionMajor = erfVersionMajor) : HeaderOk (headerOf b) size :=
  ⟨hmagic, hversion, h.headerSize, h.header_le, h.total_le, h.stride, h.directory, h.strings⟩

/-- The checks in their order, each with the buffers that do not pass it. -/
theorem erfOpenMemory_cases {r : Except ERFError ERFContainer} (hsize : headerBytes ≤ size)
    (h : erfOpenMemory (some b) size = .ok r) :
    (∃ e, checkHeader (headerOf b) size = some e ∧ r = .error e) ∨
      (checkHeader (headerOf b) size = none ∧ ∃ table, openHashTable b (headerOf b) = .ok table ∧
        ((∃ e, table = .error e ∧ r = .error e) ∨
          (∃ t, table = .ok t) ∧ ∃ resources,
            readDirectory b (headerOf b) (headerOf b).resourceCount.toNat 0 = .ok resources ∧
            ((∃ e, resources = .error e ∧ r = .error e) ∨
              (∃ rs, resources = .ok rs) ∧ ∃ c, r = .ok c))) := by
  unfold erfOpenMemory at h
  simp only [Nat.not_lt.mpr hsize, ↓reduceIte] at h
  obtain ⟨bs, hbs, h⟩ := Exec.bind_eq_ok.mp h
  obtain rfl := (load_eq_ok.mp hbs).2
  rw [show ERFHeader.ofBytes (slice b 0 headerBytes) = headerOf b from rfl] at h
  cases hcheck : checkHeader (headerOf b) size with
  | some e =>
    rw [hcheck] at h
    exact .inl ⟨e, rfl, (Except.ok.inj h).symm⟩
  | none =>
    rw [hcheck] at h
    obtain ⟨table, htable, h⟩ := Exec.bind_eq_ok.mp h
    refine .inr ⟨rfl, table, htable, ?_⟩
    cases table with
    | error e => exact .inl ⟨e, rfl, (Except.ok.inj h).symm⟩
    | ok t =>
      obtain ⟨resources, hresources, h⟩ := Exec.bind_eq_ok.mp h
      refine .inr ⟨⟨t, rfl⟩, resources, hresources, ?_⟩
      cases resources with
      | error e => exact .inl ⟨e, rfl, (Except.ok.inj h).symm⟩
      | ok rs => exact .inr ⟨⟨rs, rfl⟩, _, (Except.ok.inj h).symm⟩

/-- Once the header has passed, the hash table and the entries decide. -/
theorem erfOpenMemory_of_headerOk {r : Except ERFError ERFContainer} (hsize : headerBytes ≤ size)
    (hok : HeaderOk (headerOf b) size) (h : erfOpenMemory (some b) size = .ok r) :
    (r = .error .badOffset ∧ ¬ PartsInside b size) ∨ (∃ c, r = .ok c) ∧ PartsInside b size := by
  have hcases := erfOpenMemory_cases hsize h
  rw [checkHeader_eq_none_iff.mpr hok] at hcases
  obtain ⟨-, table, htable, hrest⟩ := hcases.resolve_left fun ⟨e, he, _⟩ => by cases he
  have hhash := openHashTable_eq_ok htable
  rcases hrest with ⟨e, rfl, rfl⟩ | ⟨⟨t, rfl⟩, resources, hresources, hrest⟩
  · rcases hhash with ⟨he, hann, hout⟩ | ⟨⟨t, ht⟩, -⟩
    · obtain rfl := Except.error.inj he
      obtain ⟨hflag, hoffset⟩ := announcesHashTable_iff.mp hann
      exact .inl ⟨rfl, fun hparts => hout (hparts.hashTable hflag hoffset)⟩
    · cases ht
  obtain ⟨-, hinside⟩ := hhash.resolve_left fun herror => by cases herror.1
  have hentries := readDirectory_eq_ok hok.stride hresources
  rw [Nat.zero_add] at hentries
  rcases hrest with ⟨e, rfl, rfl⟩ | ⟨⟨rs, rfl⟩, c, rfl⟩
  · rcases hentries with ⟨he, j, hlt, hbad⟩ | ⟨⟨rs, hrs⟩, -⟩
    · obtain rfl := Except.error.inj he
      exact .inl ⟨rfl, fun hparts => hbad (hparts.entries j hlt)⟩
    · cases hrs
  · obtain ⟨-, hall⟩ := hentries.resolve_left fun herror => by cases herror.1
    exact .inr ⟨⟨c, rfl⟩, hok.headerSize, hok.header_le, hok.total_le, hok.stride, hok.directory,
      hok.strings, fun hflag hoffset => hinside (announcesHashTable_iff.mpr ⟨hflag, hoffset⟩),
      fun i hi => hall i hi (Nat.zero_le i)⟩

/-- **The error of a failed open** is the code of the buffer, and a buffer that opens has none. -/
theorem erfOpenMemory_failure {base : Option Bytes} {r : Except ERFError ERFContainer}
    (h : erfOpenMemory base size = .ok r) :
    (∃ e, r = .error e ∧ openFailure base size = some e) ∨
      (∃ c, r = .ok c) ∧ openFailure base size = none := by
  cases base with
  | none =>
    obtain rfl := Except.ok.inj h
    exact .inl ⟨_, rfl, rfl⟩
  | some b =>
    by_cases hsmall : size < headerBytes
    · unfold erfOpenMemory at h
      simp only [hsmall, ↓reduceIte] at h
      obtain rfl := Except.ok.inj h
      refine .inl ⟨_, rfl, ?_⟩
      simp only [openFailure, hsmall, ↓reduceIte]
      split_ifs <;> rfl
    have hzero : size ≠ 0 := by
      rintro rfl
      exact hsmall (by decide)
    have hlarge : openFailure (some b) size =
        if (headerOf b).magic ≠ erfMagic then some .badMagic
        else if (headerOf b).versionMajor ≠ erfVersionMajor then some .unsupportedVersion
        else if PartsInside b size then none else some .badOffset := by
      simp only [openFailure, hzero, hsmall, ↓reduceIte]
    rw [hlarge]
    rcases erfOpenMemory_cases (Nat.not_lt.mp hsmall) h with ⟨e, hcheck, rfl⟩ | ⟨hcheck, -⟩
    · refine .inl ⟨e, rfl, ?_⟩
      rcases checkHeader_eq_some hcheck with ⟨hmagic, rfl⟩ | ⟨hmagic, hversion, rfl⟩ |
        ⟨hmagic, hversion, rfl, hnot⟩
      · rw [if_pos hmagic]
      · rw [if_neg (not_not.mpr hmagic), if_pos hversion]
      · rw [if_neg (not_not.mpr hmagic), if_neg (not_not.mpr hversion),
          if_neg fun hparts => hnot (hparts.headerOk hmagic hversion)]
    · have hok := checkHeader_eq_none_iff.mp hcheck
      rw [if_neg (not_not.mpr hok.magic), if_neg (not_not.mpr hok.version)]
      rcases erfOpenMemory_of_headerOk (Nat.not_lt.mp hsmall) hok h with
        ⟨rfl, hnot⟩ | ⟨hopens, hparts⟩
      · exact .inl ⟨_, rfl, if_neg hnot⟩
      · exact .inr ⟨hopens, if_pos hparts⟩

end Open

end Elfr.Runtime
