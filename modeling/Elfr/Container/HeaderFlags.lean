import Elfr.Compiler.ManifestAcceptance
import Elfr.Container.ContainerLayout
import Elfr.Container.RoundTrip

/-!
# The flags of the header

The builder sets three of the header's flags, from a comparison of all names and
from the metadata it wrote. The two flags that announce compressed and encrypted
resources stay clear, whatever the resources' own flags say, so the header sums up
its directory exactly if no resource carries one of these.
-/
namespace Elfr.Compiler

open Library LinearProbing Common Format Elfr.Runtime

/-- Two entries of a directory for resources of these names have the same name. -/
def SharesName (names : List CString) : Prop :=
  ∃ i j : ℕ, i < j ∧ ∃ name, names[i]? = some name ∧ names[j]? = some name

/-- The flags of the header say of the directory, whose entries have these names, what they
are defined to say, and no other flag is set. -/
structure FlagsSummarise (names : List CString) (b : Bytes) : Prop where
  localized : (headerOf b).flags &&& hflagLocalized ≠ 0 ↔ SharesName names
  metadata : (headerOf b).flags &&& hflagMetadataPresent ≠ 0 ↔
    ∃ entry ∈ entriesOf b, entry.metadataOffset ≠ 0
  metadataOffset : (headerOf b).metadataOffset ≠ 0 ↔
    ∃ entry ∈ entriesOf b, entry.metadataOffset ≠ 0
  hashTable : (headerOf b).flags &&& hflagHashTablePresent ≠ 0 ∧ (headerOf b).hashTableOffset ≠ 0
  compressed : (headerOf b).flags &&& hflagCompressedResourcesExist ≠ 0 ↔
    ∃ entry ∈ entriesOf b, entry.flags &&& rflagCompressed ≠ 0
  encrypted : (headerOf b).flags &&& hflagEncryptedResourcesExist ≠ 0 ↔
    ∃ entry ∈ entriesOf b, entry.flags &&& rflagEncrypted ≠ 0
  others : (headerOf b).flags &&& ~~~(hflagLocalized ||| hflagMetadataPresent |||
    hflagHashTablePresent ||| hflagCompressedResourcesExist ||| hflagEncryptedResourcesExist) = 0

theorem localized_iff {names : List CString} : localized names = true ↔ SharesName names := by
  unfold localized SharesName
  simp only [List.any_eq_true, Prod.exists, List.mem_zipIdx_iff_getElem?, decide_eq_true_eq,
    List.mem_take_iff_getElem]
  constructor
  · rintro ⟨name, j, hj, name', ⟨i, hi, hname⟩, rfl⟩
    obtain ⟨hij, hlt⟩ := lt_min_iff.mp hi
    exact ⟨i, j, hij, name', List.getElem?_eq_some_iff.mpr ⟨hlt, hname⟩, hj⟩
  · rintro ⟨i, j, hij, name, hi, hj⟩
    obtain ⟨hlt, rfl⟩ := List.getElem?_eq_some_iff.mp hi
    exact ⟨_, j, hj, _, ⟨i, lt_min hij hlt, rfl⟩, rfl⟩

section Bits

variable (anyMetadata localized : Bool)

theorem headerFlags_localized :
    headerFlags anyMetadata localized &&& hflagLocalized ≠ 0 ↔ localized = true := by
  cases anyMetadata <;> cases localized <;> decide

theorem headerFlags_metadata :
    headerFlags anyMetadata localized &&& hflagMetadataPresent ≠ 0 ↔ anyMetadata = true := by
  cases anyMetadata <;> cases localized <;> decide

theorem headerFlags_announced :
    headerFlags anyMetadata localized &&& hflagCompressedResourcesExist = 0 ∧
      headerFlags anyMetadata localized &&& hflagEncryptedResourcesExist = 0 := by
  cases anyMetadata <;> cases localized <;> decide

theorem headerFlags_others : headerFlags anyMetadata localized &&& ~~~(hflagLocalized |||
    hflagMetadataPresent ||| hflagHashTablePresent ||| hflagCompressedResourcesExist |||
    hflagEncryptedResourcesExist) = 0 := by
  cases anyMetadata <;> cases localized <;> decide

end Bits

theorem exists_mem_iff_of_forall₂ {α β : Type} {R : α → β → Prop} {p : α → Prop} {q : β → Prop}
    {xs : List α} {ys : List β} (h : List.Forall₂ R xs ys) (hpq : ∀ x y, R x y → (p x ↔ q y)) :
    (∃ x ∈ xs, p x) ↔ ∃ y ∈ ys, q y := by
  induction h with
  | nil => simp
  | cons hxy _ ih => simp only [List.exists_mem_cons_iff, hpq _ _ hxy, ih]

section Assembled

variable {items : List Item} {bucketCount : UInt32} {buckets : List ERFHashBucket}
  (table : BucketTable (items.map Item.name) bucketCount buckets)
  (hlt : (assemble items (hashTableBytes bucketCount buckets)).length < 2 ^ 64)
include table hlt

theorem headerOf_flags : (headerOf (assemble items (hashTableBytes bucketCount buckets))).flags =
    itemFlags items := by
  rw [(assemble_tablesAt table hlt).headerOf_eq]
  rfl

theorem entriesOf_eq : entriesOf (assemble items (hashTableBytes bucketCount buckets)) =
    itemEntries items (hashTableBytes bucketCount buckets) :=
  (assemble_tablesAt table hlt).entriesOf_eq

theorem exists_metadataOffset_iff :
    (∃ entry ∈ entriesOf (assemble items (hashTableBytes bucketCount buckets)),
      entry.metadataOffset ≠ 0) ↔ (items.map Item.metadata).any (· ≠ []) = true := by
  have hdata : (dataSection items (hashTableBytes bucketCount buckets)).2.length < 2 ^ 64 := by
    rwa [length_assemble] at hlt
  have hspec := metadataSection_spec hdata
  have hblock : ∀ metadata offset, MetadataAt (reservedBytes items)
      (dataSection items (hashTableBytes bucketCount buckets)).2 metadata offset →
      (metadata ≠ [] ↔ offset ≠ 0) := by
    intro metadata offset hat
    unfold MetadataAt at hat
    split_ifs at hat with hnone
    · simp [hnone, hat]
    · refine iff_of_true hnone ?_
      rintro rfl
      have hzero : (0 : UInt64).toNat = 0 := rfl
      have hreserved := hat.1
      unfold reservedBytes headerBytes at hreserved
      omega
  have hiff := exists_mem_iff_of_forall₂ hspec hblock
  rw [← itemEntries_metadataOffsets items (hashTableBytes bucketCount buckets)] at hiff
  rw [entriesOf_eq table hlt]
  simpa using hiff.symm

theorem exists_flags_iff (mask : UInt32) :
    (∃ entry ∈ entriesOf (assemble items (hashTableBytes bucketCount buckets)),
      entry.flags &&& mask ≠ 0) ↔ ∃ it ∈ items, it.flags &&& mask ≠ 0 := by
  have hflags : (itemEntries items (hashTableBytes bucketCount buckets)).map (·.flags) =
      items.map (·.flags) :=
    List.ext_getElem (by simp [itemEntries]) fun i hi hi' => by simp [itemEntries, itemEntry]
  rw [entriesOf_eq table hlt]
  calc
    _ ↔ ∃ v ∈ (itemEntries items (hashTableBytes bucketCount buckets)).map (·.flags),
        v &&& mask ≠ 0 := by simp
    _ ↔ ∃ v ∈ items.map (·.flags), v &&& mask ≠ 0 := by rw [hflags]
    _ ↔ _ := by simp

theorem headerOf_metadataOffset :
    (headerOf (assemble items (hashTableBytes bucketCount buckets))).metadataOffset ≠ 0 ↔
      (items.map Item.metadata).any (· ≠ []) = true := by
  have hreserved := reserved_le_metadataStart items
  have hgrow := ((metadataStart_isPrefix items).trans (metadataSection_isPrefix_data items
    (hashTableBytes bucketCount buckets))).length_le
  have hoffset := (assemble_tablesAt table hlt).headerOf_eq
  rw [length_assemble] at hlt
  rw [hoffset]
  change (if (items.map Item.metadata).any (· ≠ []) then
    UInt64.ofNat (metadataStart items).length else 0) ≠ 0 ↔ _
  split_ifs with hany
  · refine iff_of_true (fun hzero => ?_) hany
    have hstart := toNat_ofNat64 (k := (metadataStart items).length) (by omega)
    have hzero' : (0 : UInt64).toNat = 0 := rfl
    rw [hzero] at hstart
    unfold reservedBytes headerBytes at hreserved
    omega
  · exact iff_of_false (not_not.mpr rfl) hany

theorem headerOf_hashTableOffset :
    (headerOf (assemble items (hashTableBytes bucketCount buckets))).hashTableOffset ≠ 0 := by
  intro hzero
  have hoffset := (assemble_tablesAt table hlt).hashTableOffset_eq hlt
  have hreserved := reserved_le_hashTableStart items
  have hzero' : (0 : UInt64).toNat = 0 := rfl
  rw [hzero] at hoffset
  unfold reservedBytes headerBytes at hreserved
  omega

/-- The two announcements are never made, and every other flag is right. -/
theorem flagsSummarise_iff : FlagsSummarise (items.map Item.name)
    (assemble items (hashTableBytes bucketCount buckets)) ↔
      ∀ it ∈ items, it.flags &&& (rflagCompressed ||| rflagEncrypted) = 0 := by
  have hmask : ∀ v : UInt32, v &&& (rflagCompressed ||| rflagEncrypted) = 0 ↔
      v &&& rflagCompressed = 0 ∧ v &&& rflagEncrypted = 0 := by
    intro v
    rw [← UInt32.or_eq_zero_iff, ← UInt32.toBitVec_inj, ← UInt32.toBitVec_inj]
    simp only [UInt32.toBitVec_and, UInt32.toBitVec_or, BitVec.and_or_distrib_left]
  have hannounced := headerFlags_announced ((items.map Item.metadata).any (· ≠ []))
    (localized (items.map Item.name))
  have hflags := headerOf_flags table hlt
  constructor
  · intro h it hit
    rw [hmask]
    constructor
    · by_contra hset
      have hsome := h.compressed.mpr ((exists_flags_iff table hlt _).mpr ⟨it, hit, hset⟩)
      exact hsome (hflags ▸ hannounced.1)
    · by_contra hset
      have hsome := h.encrypted.mpr ((exists_flags_iff table hlt _).mpr ⟨it, hit, hset⟩)
      exact hsome (hflags ▸ hannounced.2)
  · intro hclear
    refine ⟨?_, ?_, ?_, ⟨?_, headerOf_hashTableOffset table hlt⟩, ?_, ?_, ?_⟩
    · rw [hflags, itemFlags, headerFlags_localized, localized_iff]
    · rw [exists_metadataOffset_iff table hlt, hflags, itemFlags, headerFlags_metadata]
    · rw [exists_metadataOffset_iff table hlt, headerOf_metadataOffset table hlt]
    · rw [hflags]
      exact headerFlags_hashTable _ _
    · rw [exists_flags_iff table hlt, hflags]
      exact iff_of_false (not_not.mpr hannounced.1)
        fun ⟨it, hit, hset⟩ => hset ((hmask _).mp (hclear it hit)).1
    · rw [exists_flags_iff table hlt, hflags]
      exact iff_of_false (not_not.mpr hannounced.2)
        fun ⟨it, hit, hset⟩ => hset ((hmask _).mp (hclear it hit)).2
    · rw [hflags]
      exact headerFlags_others _ _

end Assembled

/-- **When the header sums up the directory.** Of every container built, with the names of the
resources, which are those the entries lead to as long as the container is smaller than
2^32 bytes. -/
theorem header_flags_summarise_iff {fs : FileSystem} {m : ElfrcManifest} {b : Bytes}
    (hbuild : Builds fs m b) (hlt : b.length < 2 ^ 64) :
    ∃ names, m.resources.map ElfrcResource.name = names.map some ∧
      (entriesOf b).length = names.length ∧
      (b.length < 2 ^ 32 → List.Forall₂ (fun name (entry : ERFDirectoryEntry) =>
        StringAt b entry.nameOffset.toNat name) names (entriesOf b)) ∧
      (FlagsSummarise names b ↔
        ∀ r ∈ m.resources, r.flags &&& (rflagCompressed ||| rflagEncrypted) = 0) := by
  obtain ⟨items, bucketCount, buckets, hloads, table, -, rfl⟩ := hbuild.assembled
  refine ⟨items.map Item.name, Loads.map_name hloads, ?_, fun hsmall => ?_, ?_⟩
  · rw [entriesOf_eq table hlt, itemEntries, List.length_mapIdx, List.length_map]
  · have h := assemble_imageOf table hsmall
    rw [h.entriesOf_eq, List.forall₂_map_left_iff]
    exact h.entries.imp fun it entry hpresent => hpresent.name
  · rw [flagsSummarise_iff table hlt]
    have hflags : ∀ r it, Loads fs r it → (r.flags &&& (rflagCompressed ||| rflagEncrypted) ≠ 0 ↔
        it.flags &&& (rflagCompressed ||| rflagEncrypted) ≠ 0) := fun r it hr => by rw [hr.flags]
    have hiff := exists_mem_iff_of_forall₂ hloads hflags
    simpa using not_congr hiff.symm

theorem header_flags_summarise_iff_pair :
    ∃ names b, Builds pairFiles pairManifest b ∧ FlagsSummarise names b := by
  obtain ⟨b, -, hbuild, hlen, -⟩ := builds_of_loads pair_loads pair_size
  have hsize := pair_size
  obtain ⟨names, -, -, -, hiff⟩ := header_flags_summarise_iff hbuild (by omega)
  exact ⟨names, b, hbuild, hiff.mpr (by decide)⟩

/-- One resource whose flags are given by name. -/
def flaggedDocument : YamlDocument where
  nodes :=
    [⟨0, .mapping [(2, 3), (4, 5)]⟩,
      ⟨0, .scalar (ascii "version")⟩, ⟨0, .scalar (ascii "1")⟩,
      ⟨1, .scalar (ascii "resources")⟩, ⟨2, .sequence [6]⟩,
      ⟨2, .mapping [(7, 8), (9, 10), (11, 12)]⟩,
      ⟨2, .scalar (ascii "name")⟩, ⟨2, .scalar (ascii "a")⟩,
      ⟨3, .scalar (ascii "file")⟩, ⟨3, .scalar (ascii "f")⟩,
      ⟨4, .scalar (ascii "flags")⟩, ⟨4, .sequence [13]⟩, ⟨4, .scalar (ascii "compressed")⟩]
  linked := by decide
  counted := by simp

def flaggedManifest : ElfrcManifest where
  version := 1
  module := none
  resources :=
    [⟨some (.literal "a"), some (.literal "./f"), 0, 0, 0, 1, false, 0, 1, [], 3⟩]

/-- The header of its container does not announce a compressed resource. -/
theorem compressed_flag_missing :
    Returns (elfrcManifestParse emptyFiles (.literal "sample.elfrc") (.loaded flaggedDocument))
      ⟨0, flaggedManifest, []⟩ ∧
    ∃ b, Builds emptyFiles flaggedManifest b ∧ b.length < 2 ^ 32 ∧
      (∃ entry ∈ entriesOf b, entry.flags &&& rflagCompressed ≠ 0) ∧
      (headerOf b).flags &&& hflagCompressedResourcesExist = 0 ∧
      ¬ FlagsSummarise [.literal "a"] b := by
  have hloads : List.Forall₂ (Loads emptyFiles) flaggedManifest.resources
      [⟨.literal "a", [], [], 1, 0, 0, 1⟩] :=
    .cons ⟨rfl, rfl, ⟨_, _, rfl, rfl, by decide⟩, rfl, rfl, rfl, rfl⟩ .nil
  obtain ⟨b, -, hbuild, hlen, -⟩ := builds_of_loads hloads (by decide +kernel)
  have hsmall : b.length < 2 ^ 32 := hlen ▸ by decide +kernel
  have hlt : b.length < 2 ^ 64 := hsmall.trans (by norm_num)
  refine ⟨⟨2, by decide +kernel⟩, b, hbuild, hsmall, ?_⟩
  obtain ⟨items, bucketCount, buckets, hloads', table, -, rfl⟩ := hbuild.assembled
  obtain rfl := List.right_unique_forall₂' (Loads.rightUnique emptyFiles) hloads hloads'
  refine ⟨(exists_flags_iff table hlt _).mpr ⟨_, List.mem_cons_self, by decide⟩, ?_, fun h => ?_⟩
  · rw [headerOf_flags table hlt]
    exact (headerFlags_announced _ _).1
  · exact absurd ((flagsSummarise_iff table hlt).mp h _ List.mem_cons_self) (by decide)

end Elfr.Compiler
