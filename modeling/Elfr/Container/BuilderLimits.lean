import Elfr.Compiler.NullSafety
import Elfr.Container.ContainerLayout
import Elfr.Container.RoundTrip

/-!
# The limits of the builder

The builder computes with `size_t` and stores 32-bit values, and checks none of
the conversions. The number of resources limits whether it ends at all: past
2^30 the doubling loop wraps, or leaves fewer buckets than names. What a stored
field loses depends on the field: a name offset on the bytes before the name, a
count and the length of a metadata string on themselves, and the byte count in
front of `memcpy` on the length plus one.
-/
namespace Elfr.Compiler

open Library LinearProbing Common Format Elfr.Runtime

section Termination

variable {fs : FileSystem} {m : ElfrcManifest}

theorem StringsPresent.exists_strings (h : StringsPresent m) : ∃ names metadata,
    m.resources.mapM (fun r => Exec.deref r.name) = .ok names ∧
      m.resources.mapM (fun r => r.metadata.mapM derefKv) = .ok metadata ∧
      names.length = m.resources.length := by
  obtain ⟨names, hnames⟩ := Exec.safe_mapM fun r hr => Exec.safe_deref (h.name r hr)
  have hkv : ∀ r ∈ m.resources, (r.metadata.mapM derefKv).Safe := fun r hr =>
    Exec.safe_mapM fun kv hkv => (Exec.safe_deref (h.metadata r hr kv hkv).1).bind fun _ _ =>
      (Exec.safe_deref (h.metadata r hr kv hkv).2).bind fun _ _ => ⟨_, rfl⟩
  obtain ⟨metadata, hmetadata⟩ := Exec.safe_mapM hkv
  exact ⟨names, metadata, hnames, hmetadata, (Exec.mapM_eq_ok.mp hnames).length_eq.symm⟩

theorem appendData_safe {rs : List ElfrcResource} (hname : ∀ r ∈ rs, r.name ≠ none)
    (hfile : ∀ r ∈ rs, r.file ≠ none) (buf : Bytes) : (appendData fs rs buf).Safe := by
  induction rs generalizing buf with
  | nil => exact ⟨_, rfl⟩
  | cons r rs ih =>
    obtain ⟨hr, hname⟩ := List.forall_mem_cons.mp hname
    obtain ⟨hr', hfile⟩ := List.forall_mem_cons.mp hfile
    unfold appendData
    refine (Exec.safe_deref hr).bind fun name _ => (Exec.safe_deref hr').bind fun file _ => ?_
    split
    · exact ⟨_, rfl⟩
    · split
      · exact ⟨_, rfl⟩
      · exact (ih hname hfile _).bind fun _ _ => ⟨_, rfl⟩

theorem containerBuild_diverges (h : StringsPresent m) (hmany : 2 ^ 30 < m.resources.length)
    (fuel : ℕ) : elfrcContainerBuild fs m fuel = .error .outOfFuel := by
  obtain ⟨names, metadata, hnames, hmetadata, hlen⟩ := h.exists_strings
  have hnames_many : 2 ^ 31 < names.length * 2 := by omega
  have hhash := buildHashTable_diverges hnames_many fuel
  unfold elfrcContainerBuild
  simp only [hnames, hmetadata, hhash, Exec.ok_bind, Exec.error_bind]

/-- The builder returns on a manifest exactly if that has at most 2^30 resources. -/
theorem containerBuild_returns_iff (h : StringsPresent m) :
    (∃ result, Returns (elfrcContainerBuild fs m) result) ↔ m.resources.length ≤ 2 ^ 30 := by
  constructor
  · rintro ⟨result, fuel, hreturns⟩
    by_contra hmany
    rw [containerBuild_diverges h (not_le.mp hmany)] at hreturns
    cases hreturns
  · intro hfew
    obtain ⟨names, metadata, hnames, hmetadata, hlen⟩ := h.exists_strings
    have hnames_few : names.length * 2 ≤ 2 ^ 31 := by omega
    obtain ⟨bucketCount, buckets, -, htotal, -⟩ := buildHashTable_spec hnames_few
    have hsafe : (elfrcContainerBuild fs m (2 ^ 32)).Safe := by
      unfold elfrcContainerBuild
      simp only [hnames, hmetadata, htotal _ le_rfl, Exec.ok_bind]
      refine (appendData_safe h.name h.file _).bind fun data _ => ?_
      split
      exacts [⟨_, rfl⟩, ⟨_, rfl⟩]
    obtain ⟨result, hresult⟩ := hsafe
    exact ⟨result, _, hresult⟩

end Termination

/-- The strings of a block, keys and values in turn. -/
def blockStrings (metadata : List (CString × CString)) : List CString :=
  metadata.flatMap fun kv => [kv.1, kv.2]

/-- Where the builder puts the `k`-th string of a block at `off`, or the end of the block. -/
def stringPosition (metadata : List (CString × CString)) (off k : ℕ) : ℕ :=
  off + 4 + (((blockStrings metadata).take k).flatMap prefixedString).length

/-- The length of the string, its bytes and a NUL fill the space up to `next`. -/
structure StoresString (b : Bytes) (pos next : ℕ) (s : CString) : Prop where
  length : (field32 b pos).toNat = s.strlen
  bytes : Segment b (pos + 4) s.terminated
  next : next = pos + 4 + s.terminated.length

/-- Count and strings of a block are stored exactly. -/
structure BlockExact (b : Bytes) (off : ℕ) (metadata : List (CString × CString)) : Prop where
  count : (field32 b off).toNat = metadata.length
  strings : ∀ (k : ℕ) (hk : k < (blockStrings metadata).length),
    StoresString b (stringPosition metadata off k) (stringPosition metadata off (k + 1))
      (blockStrings metadata)[k]

section Block

variable {b : Bytes} {metadata : List (CString × CString)}

theorem mem_blockStrings {s : CString} :
    s ∈ blockStrings metadata ↔ ∃ kv ∈ metadata, s = kv.1 ∨ s = kv.2 := by
  simp [blockStrings]

theorem metadataBlock_eq : metadataBlock metadata =
    bytes32 (UInt32.ofNat metadata.length) ++ (blockStrings metadata).flatMap prefixedString := by
  rw [metadataBlock, blockStrings, List.flatMap_assoc]
  simp only [List.flatMap_cons, List.flatMap_nil, List.append_nil]

/-- What is written of a string is all of it exactly if it fits its length field. -/
theorem storesString_iff {s : CString} {pos : ℕ} (hseg : Segment b pos (prefixedString s)) :
    StoresString b pos (pos + (prefixedString s).length) s ↔ FitsPrefix s := by
  constructor
  · intro h
    have hnext := h.next
    have hlt := (UInt32.ofNat s.strlen + 1).toNat_lt
    simp only [prefixedString, List.length_append, length_bytes32, List.length_take,
      CString.length_terminated] at hnext
    unfold FitsPrefix
    omega
  · intro h
    rw [prefixedString_of_fits h] at hseg ⊢
    have hbytes := hseg.right
    rw [length_bytes32] at hbytes
    refine ⟨?_, hbytes, ?_⟩
    · rw [hseg.left.field32]
      exact toNat_ofNat32 (by unfold FitsPrefix at h; omega)
    · rw [List.length_append, length_bytes32, Nat.add_assoc]

theorem blockExact_iff {off : ℕ} (hseg : Segment b off (metadataBlock metadata)) :
    BlockExact b off metadata ↔ metadata.length < 2 ^ 32 ∧
      ∀ kv ∈ metadata, FitsPrefix kv.1 ∧ FitsPrefix kv.2 := by
  rw [metadataBlock_eq] at hseg
  have hcount := hseg.left.field32
  have hstrings := hseg.right
  rw [length_bytes32] at hstrings
  have hstored : ∀ (k : ℕ) (hk : k < (blockStrings metadata).length),
      StoresString b (stringPosition metadata off k) (stringPosition metadata off (k + 1))
        (blockStrings metadata)[k] ↔ FitsPrefix (blockStrings metadata)[k] := by
    intro k hk
    have hnext : stringPosition metadata off (k + 1) = stringPosition metadata off k +
        (prefixedString (blockStrings metadata)[k]).length := by
      unfold stringPosition
      rw [List.take_succ_eq_append_getElem hk, List.flatMap_append, List.length_append,
        List.flatMap_singleton, ← Nat.add_assoc]
    rw [hnext]
    exact storesString_iff (hstrings.trans (segment_flatMap_take prefixedString _ k hk))
  constructor
  · intro h
    have hfits : ∀ s ∈ blockStrings metadata, FitsPrefix s := by
      intro s hs
      obtain ⟨k, hk, rfl⟩ := List.getElem_of_mem hs
      exact (hstored k hk).mp (h.strings k hk)
    refine ⟨h.count ▸ UInt32.toNat_lt _, fun kv hkv => ⟨?_, ?_⟩⟩
    · exact hfits _ (mem_blockStrings.mpr ⟨kv, hkv, .inl rfl⟩)
    · exact hfits _ (mem_blockStrings.mpr ⟨kv, hkv, .inr rfl⟩)
  · rintro ⟨hlt, hfits⟩
    refine ⟨by rw [hcount, toNat_ofNat32 hlt], fun k hk => (hstored k hk).mpr ?_⟩
    obtain ⟨kv, hkv, hs⟩ := mem_blockStrings.mp (List.getElem_mem hk)
    rcases hs with hs | hs
    · exact hs ▸ (hfits kv hkv).1
    · exact hs ▸ (hfits kv hkv).2

end Block

/-- A directory entry stores the exact place of its name, and its metadata exactly. -/
structure EntryExact (b : Bytes) (items : List Item) (it : Item) (entry : ERFDirectoryEntry) :
    Prop where
  nameOffset : entry.nameOffset.toNat =
    (headerOf b).stringOffset.toNat + namePosition (items.map Item.name) it.name
  name : StringAt b entry.nameOffset.toNat it.name
  metadata : it.metadata ≠ [] → BlockExact b entry.metadataOffset.toNat it.metadata

/-- Every value the container stores in 32 bits is the exact one. -/
structure ExactFields (items : List Item) (b : Bytes) : Prop where
  resourceCount : (headerOf b).resourceCount.toNat = items.length
  entries : List.Forall₂ (EntryExact b items) items (entriesOf b)
  bucketCount : ∃ k, (field32 b (headerOf b).hashTableOffset.toNat).toNat = 2 ^ k ∧
    items.length * 2 ≤ 2 ^ k
  buckets : ∀ (i : ℕ) (hi : i < items.length), ∃ slot, ∃ bucket : ERFHashBucket,
    (bucketsOf b)[slot]? = some bucket ∧ bucket.hash = elfrFnv1a64 items[i].name.bytes ∧
      bucket.directoryIndex.toNat = i ∧ ∀ slot', RefersTo (bucketsOf b) slot' i → slot' = slot

/-- Each name starts below 2^32, and so are all counts and lengths. -/
structure FieldsFit (items : List Item) : Prop where
  names : ∀ it ∈ items,
    (stringStart items).length + namePosition (items.map Item.name) it.name < 2 ^ 32
  counts : ∀ it ∈ items, it.metadata.length < 2 ^ 32
  strings : ∀ it ∈ items, ∀ kv ∈ it.metadata, FitsPrefix kv.1 ∧ FitsPrefix kv.2

section Fields

variable {items : List Item} {bucketCount : UInt32} {buckets : List ERFHashBucket}

/-- The metadata of an entry is what the builder wrote of it. -/
theorem entry_metadata_at
    (hlt : (assemble items (hashTableBytes bucketCount buckets)).length < 2 ^ 64) {i : ℕ}
    (hi : i < items.length)
    (hi' : i < (itemEntries items (hashTableBytes bucketCount buckets)).length)
    (hsome : items[i].metadata ≠ []) :
    Segment (assemble items (hashTableBytes bucketCount buckets))
      (itemEntries items (hashTableBytes bucketCount buckets))[i].metadataOffset.toNat
      (metadataBlock items[i].metadata) := by
  have hmetadata := metadataSection_spec (length_assemble items _ ▸ hlt)
  rw [← itemEntries_metadataOffsets items (hashTableBytes bucketCount buckets)] at hmetadata
  have hblock := hmetadata.get (i := i) (by simpa using hi) (by simpa using hi')
  simp only [List.get_eq_getElem, List.getElem_map] at hblock
  unfold MetadataAt at hblock
  rw [if_neg hsome] at hblock
  exact assemble_segment _ _ hblock.2 hblock.1

variable (htable : BucketTable (items.map Item.name) bucketCount buckets)
  (hlt : (assemble items (hashTableBytes bucketCount buckets)).length < 2 ^ 64)
include htable hlt

theorem entryExact_iff {i : ℕ} (hi : i < items.length)
    (hi' : i < (itemEntries items (hashTableBytes bucketCount buckets)).length) :
    EntryExact (assemble items (hashTableBytes bucketCount buckets)) items items[i]
        (itemEntries items (hashTableBytes bucketCount buckets))[i] ↔
      (stringStart items).length + namePosition (items.map Item.name) items[i].name < 2 ^ 32 ∧
        items[i].metadata.length < 2 ^ 32 ∧
        ∀ kv ∈ items[i].metadata, FitsPrefix kv.1 ∧ FitsPrefix kv.2 := by
  have hstart := (assemble_tablesAt htable hlt).stringOffset_eq hlt
  have hoffset := itemEntries_nameOffset hi' hi
  have hblock := entry_metadata_at hlt hi hi'
  have hmem : items[i].name ∈ items.map Item.name := List.mem_map_of_mem (List.getElem_mem hi)
  constructor
  · intro h
    refine ⟨?_, ?_⟩
    · rw [← hstart, ← h.nameOffset]
      exact UInt32.toNat_lt _
    · by_cases hnone : items[i].metadata = []
      · simp [hnone]
      · exact (blockExact_iff (hblock hnone)).mp (h.metadata hnone)
  · rintro ⟨hname, hmetadata⟩
    have hexact : (itemEntries items (hashTableBytes bucketCount buckets))[i].nameOffset.toNat =
        (stringStart items).length + namePosition (items.map Item.name) items[i].name := by
      rw [hoffset, toNat_ofNat32 hname]
    refine ⟨by rw [hexact, hstart], ?_, fun hsome => (blockExact_iff (hblock hsome)).mpr hmetadata⟩
    rw [hexact]
    exact (strings_at items _).trans (stringAt_namePosition hmem)

theorem exactFields_iff :
    ExactFields items (assemble items (hashTableBytes bucketCount buckets)) ↔ FieldsFit items := by
  have htables := assemble_tablesAt htable hlt
  have hentries := htables.entriesOf_eq
  have hlength : (itemEntries items (hashTableBytes bucketCount buckets)).length =
      items.length := List.length_mapIdx
  have hsame : (assembledImage items bucketCount buckets).entries =
      itemEntries items (hashTableBytes bucketCount buckets) := rfl
  constructor
  · intro h
    have hall := h.entries
    rw [hentries, hsame, List.forall₂_iff_get] at hall
    have hitem : ∀ it ∈ items,
        (stringStart items).length + namePosition (items.map Item.name) it.name < 2 ^ 32 ∧
        it.metadata.length < 2 ^ 32 ∧ ∀ kv ∈ it.metadata, FitsPrefix kv.1 ∧ FitsPrefix kv.2 := by
      intro it hit
      obtain ⟨i, hi, rfl⟩ := List.getElem_of_mem hit
      have hi' : i < (itemEntries items (hashTableBytes bucketCount buckets)).length :=
        hlength ▸ hi
      exact (entryExact_iff htable hlt hi hi').mp (hall.2 i hi hi')
    exact ⟨fun it hit => (hitem it hit).1, fun it hit => (hitem it hit).2.1,
      fun it hit => (hitem it hit).2.2⟩
  · rintro ⟨hnames, hcounts, hstrings⟩
    refine ⟨?_, ?_, ?_, fun i hi => ?_⟩
    · rw [htables.resourceCount, hsame, hlength]
    · rw [hentries, hsame, List.forall₂_iff_get]
      refine ⟨hlength.symm, fun i hi hi' => (entryExact_iff htable hlt hi hi').mpr ?_⟩
      have hmem : items[i] ∈ items := List.getElem_mem hi
      exact ⟨hnames _ hmem, hcounts _ hmem, hstrings _ hmem⟩
    · have hcount := htable.count
      have hdouble := le_pow2From16 ((items.map Item.name).length * 2)
      rw [List.length_map] at hcount hdouble
      exact ⟨_, by rw [htables.bucketCount_eq]; exact hcount, hdouble⟩
    · rw [htables.bucketsOf_eq]
      have hname : i < (items.map Item.name).length := by simpa using hi
      obtain ⟨slot, hslot, hunique⟩ := htable.existsUnique_slot hname
      have hroom := htable.room
      have hfew := bucketCount.toNat_lt
      rw [List.getElem_map] at hslot
      exact ⟨slot, _, hslot, rfl, toNat_ofNat32 (by omega), hunique⟩

end Fields

/-- **The limits of the builder.** On a manifest of C strings it returns if and only if there are
at most 2^30 resources. In a container it returns all 32-bit values are exact if and only if every
name starts below 2^32 and no resource has 2^32 metadata entries or a metadata string of
2^32 - 1 bytes or more. -/
theorem builder_exact_iff (fs : FileSystem) (m : ElfrcManifest) :
    (StringsPresent m → ((∃ result, Returns (elfrcContainerBuild fs m) result) ↔
      m.resources.length ≤ 2 ^ 30)) ∧
    ∀ b, Builds fs m b → b.length < 2 ^ 64 → ∃ items,
      List.Forall₂ (Loads fs) m.resources items ∧ (ExactFields items b ↔ FieldsFit items) := by
  refine ⟨containerBuild_returns_iff, fun b hbuild hlt => ?_⟩
  obtain ⟨items, bucketCount, buckets, hloads, htable, -, rfl⟩ := hbuild.assembled
  exact ⟨items, hloads, exactFields_iff htable hlt⟩

theorem builder_exact_iff_pair :
    (∃ result, Returns (elfrcContainerBuild pairFiles pairManifest) result) ∧
    ∃ b, Builds pairFiles pairManifest b ∧ ExactFields pairItems b := by
  obtain ⟨hreturns, hfields⟩ := builder_exact_iff pairFiles pairManifest
  have hpresent : StringsPresent pairManifest := ⟨by decide, by decide, by decide⟩
  obtain ⟨b, -, hbuild, hlen, -⟩ := builds_of_loads pair_loads pair_size
  have hsize := pair_size
  obtain ⟨items, hloads, hexact⟩ := hfields b hbuild (by omega)
  obtain rfl := List.right_unique_forall₂' (Loads.rightUnique pairFiles) hloads pair_loads
  refine ⟨(hreturns hpresent).mpr (by decide), b, hbuild, hexact.mpr ⟨?_, by decide, ?_⟩⟩
  · decide +kernel
  · unfold FitsPrefix
    decide

def manyManifest (n : ℕ) : ElfrcManifest where
  version := 1
  module := none
  resources := (List.range n).map fun i : ℕ =>
    ⟨some (.ofBytes (printNumber i)), some (.literal "g"), 0, 0, 0, 0, false, 0,
      UInt32.ofNat (i + 1), [], 3⟩

theorem manyManifest_present (n : ℕ) : StringsPresent (manyManifest n) := by
  refine ⟨fun r hr => ?_, fun r hr => ?_, fun r hr => ?_⟩
  all_goals
    obtain ⟨i, -, rfl⟩ := List.mem_map.mp hr
    simp

theorem length_manyManifest (n : ℕ) : (manyManifest n).resources.length = n := by
  rw [manyManifest, List.length_map, List.length_range]

/-- The builder does not return on 2^30 + 1 resources, and stores a length of 2^32 as 0. -/
theorem builder_narrows :
    (StringsPresent (manyManifest (2 ^ 30 + 1)) ∧
      ¬ ∃ result, Returns (elfrcContainerBuild pairFiles (manyManifest (2 ^ 30 + 1))) result) ∧
    ∃ b, Builds pairFiles longManifest b ∧ b.length < 2 ^ 64 ∧
      List.Forall₂ (Loads pairFiles) longManifest.resources [longItem] ∧
      ¬ ExactFields [longItem] b := by
  have hpresent := manyManifest_present (2 ^ 30 + 1)
  refine ⟨⟨hpresent, fun hreturns => ?_⟩, ?_⟩
  · have hfew := (containerBuild_returns_iff hpresent).mp hreturns
    rw [length_manyManifest] at hfew
    omega
  · obtain ⟨b, -, hbuild, hlen, -⟩ := builds_of_loads long_loads long_size
    have hsize := long_size
    have hlt : b.length < 2 ^ 64 := by omega
    refine ⟨b, hbuild, hlt, long_loads, fun hexact => ?_⟩
    obtain ⟨items, bucketCount, buckets, hloads, htable, -, rfl⟩ := hbuild.assembled
    obtain rfl := List.right_unique_forall₂' (Loads.rightUnique pairFiles) hloads long_loads
    have hfits := ((exactFields_iff htable hlt).mp hexact).strings longItem List.mem_cons_self
      (.literal "k", longValue) List.mem_cons_self
    have hvalue := hfits.2
    unfold FitsPrefix at hvalue
    rw [strlen_longValue] at hvalue
    omega

end Elfr.Compiler
