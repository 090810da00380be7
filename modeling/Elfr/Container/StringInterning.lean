import Elfr.Container.HeaderFlags

/-!
# The string table of a container

Between the offset of the string table and the section behind it a container holds
every name once, in the order of first appearance, and the zeros of the alignment. The
offset of an entry stands for its name: it leads to the bytes of the name and a NUL, and
entries share an offset exactly if they share the name.
-/
namespace Elfr.Compiler

open Library Interning LinearProbing Common Format Elfr.Runtime

/-- Where the section behind the string table starts. -/
def stringSectionEnd (b : Bytes) : ℕ :=
  if (headerOf b).metadataOffset ≠ 0 then (headerOf b).metadataOffset.toNat
  else (headerOf b).hashTableOffset.toNat

/-- The names of the entries are interned in the string table. -/
structure NamesInterned (names : List CString) (b : Bytes) : Prop where
  table : ∃ table padding, FirstAppearances names table ∧ padding < 8 ∧
    slice b (headerOf b).stringOffset.toNat
        (stringSectionEnd b - (headerOf b).stringOffset.toNat) =
      (table.flatMap fun name => name.bytes ++ [0]) ++ List.replicate padding 0
  strings : List.Forall₂ (fun name entry => StringAt b entry.nameOffset.toNat name) names
    (entriesOf b)
  offsets : ∀ p ∈ names.zip (entriesOf b), ∀ q ∈ names.zip (entriesOf b),
    p.2.nameOffset = q.2.nameOffset ↔ p.1 = q.1

/-- Alignment adds the fewest zeros that fill up a multiple. -/
theorem bufAlign_eq (buf : Bytes) {alignment : ℕ} (ha : 0 < alignment) :
    ∃ padding < alignment, bufAlign buf alignment = buf ++ List.replicate padding 0 := by
  unfold bufAlign
  split_ifs with hmod
  · exact ⟨_, Nat.sub_lt ha (Nat.pos_of_ne_zero hmod), rfl⟩
  · exact ⟨0, ha, by simp⟩

theorem appendMetadata_of_nil {metadata : List (List (CString × CString))}
    (h : metadata.any (· ≠ []) = false) (buf : Bytes) : (appendMetadata metadata buf).2 = buf := by
  induction metadata generalizing buf with
  | nil => rfl
  | cons block rest ih =>
    obtain ⟨hblock, hrest⟩ : block = [] ∧ rest.any (· ≠ []) = false := by simpa using h
    unfold appendMetadata
    rw [if_pos hblock]
    exact ih hrest buf

section Assembled

variable {items : List Item} {bucketCount : UInt32} {buckets : List ERFHashBucket}

theorem stringSectionEnd_eq (table : BucketTable (items.map Item.name) bucketCount buckets)
    (hlt : (assemble items (hashTableBytes bucketCount buckets)).length < 2 ^ 64) :
    stringSectionEnd (assemble items (hashTableBytes bucketCount buckets)) =
      (metadataStart items).length := by
  have htables := assemble_tablesAt table hlt
  unfold stringSectionEnd
  by_cases hany : (items.map Item.metadata).any (· ≠ []) = true
  · rw [if_pos ((headerOf_metadataOffset table hlt).mpr hany), htables.headerOf_eq]
    have hgrow := ((metadataStart_isPrefix items).trans (metadataSection_isPrefix_data items
      (hashTableBytes bucketCount buckets))).length_le
    rw [length_assemble] at hlt
    change (if (items.map Item.metadata).any (· ≠ []) then
      UInt64.ofNat (metadataStart items).length else 0).toNat = _
    rw [if_pos hany, toNat_ofNat64 (by omega)]
  · rw [if_neg fun h => hany ((headerOf_metadataOffset table hlt).mp h),
      htables.hashTableOffset_eq hlt]
    have hnone := appendMetadata_of_nil (Bool.not_eq_true _ ▸ hany) (metadataStart items)
    rw [hashTableStart, metadataSection, hnone, metadataStart,
      bufAlign_of_dvd (bufAlign_aligned _ (by decide))]

/-- The table and its padding fill the space up to the next section. -/
theorem stringSection_slice (table : BucketTable (items.map Item.name) bucketCount buckets)
    (hlt : (assemble items (hashTableBytes bucketCount buckets)).length < 2 ^ 64) :
    ∃ padding < 8,
      slice (assemble items (hashTableBytes bucketCount buckets))
          (headerOf (assemble items (hashTableBytes bucketCount buckets))).stringOffset.toNat
          (stringSectionEnd (assemble items (hashTableBytes bucketCount buckets)) -
            (headerOf (assemble items
              (hashTableBytes bucketCount buckets))).stringOffset.toNat) =
        stringTable (items.map Item.name) ++ List.replicate padding 0 := by
  obtain ⟨padding, hpadding, halign⟩ := bufAlign_eq (stringSection items).2 (show 0 < 8 by decide)
  have hstart : metadataStart items = stringStart items ++
      (stringTable (items.map Item.name) ++ List.replicate padding 0) := by
    rw [metadataStart, halign, stringSection_eq, List.append_assoc]
  have hseg : Segment (metadataStart items) (stringStart items).length
      (stringTable (items.map Item.name) ++ List.replicate padding 0) := by
    rw [hstart]
    exact segment_append_self _ _
  have hgrow := (metadataStart_isPrefix items).trans
    (metadataSection_isPrefix_data items (hashTableBytes bucketCount buckets))
  have hslice := (assemble_segment _ _ (hseg.of_isPrefix hgrow)
    (reserved_le_stringStart items)).2
  refine ⟨padding, hpadding, ?_⟩
  rw [stringSectionEnd_eq table hlt, (assemble_tablesAt table hlt).stringOffset_eq hlt, hstart,
    List.length_append, Nat.add_sub_cancel_left]
  exact hslice

theorem namesInterned (table : BucketTable (items.map Item.name) bucketCount buckets)
    (hlt : (assemble items (hashTableBytes bucketCount buckets)).length < 2 ^ 32) :
    NamesInterned (items.map Item.name) (assemble items (hashTableBytes bucketCount buckets)) := by
  have hlt64 : (assemble items (hashTableBytes bucketCount buckets)).length < 2 ^ 64 :=
    hlt.trans (by norm_num)
  have himage := assemble_imageOf table hlt
  have hentries := entriesOf_eq table hlt64
  have hstrings : List.Forall₂ (fun name (entry : ERFDirectoryEntry) =>
      StringAt (assemble items (hashTableBytes bucketCount buckets)) entry.nameOffset.toNat name)
      (items.map Item.name)
      (entriesOf (assemble items (hashTableBytes bucketCount buckets))) := by
    rw [hentries, List.forall₂_map_left_iff]
    exact himage.entries.imp fun it entry hpresent => hpresent.name
  -- An offset is a function of the name alone.
  have hoffsets : List.Forall₂ (fun name (entry : ERFDirectoryEntry) =>
      UInt32.ofNat ((stringStart items).length + namePosition (items.map Item.name) name) =
        entry.nameOffset) (items.map Item.name)
      (entriesOf (assemble items (hashTableBytes bucketCount buckets))) := by
    have hmap := itemEntries_nameOffsets items (hashTableBytes bucketCount buckets)
    rw [stringSection_eq, eq_comm, ← List.forall₂_eq_eq_eq, List.forall₂_map_left_iff,
      List.forall₂_map_right_iff] at hmap
    rwa [hentries]
  refine ⟨?_, hstrings, fun p hp q hq => ⟨fun heq => ?_, fun heq => ?_⟩⟩
  · obtain ⟨padding, hpadding, hslice⟩ := stringSection_slice table hlt64
    exact ⟨_, padding, distinct_firstAppearances _, hpadding, hslice⟩
  · have hleft := List.forall₂_zip hstrings hp
    have hright := List.forall₂_zip hstrings hq
    rw [heq] at hleft
    exact hleft.unique hright
  · rw [← List.forall₂_zip hoffsets hp, ← List.forall₂_zip hoffsets hq, heq]

end Assembled

/-- **Names are interned.** Of every container of less than 2^32 bytes. -/
theorem string_table_interned {fs : FileSystem} {m : ElfrcManifest} {b : Bytes}
    (hbuild : Builds fs m b) (hlt : b.length < 2 ^ 32) :
    ∃ names, m.resources.map ElfrcResource.name = names.map some ∧ NamesInterned names b := by
  obtain ⟨items, bucketCount, buckets, hloads, table, -, rfl⟩ := hbuild.assembled
  exact ⟨items.map Item.name, Loads.map_name hloads, namesInterned table hlt⟩

theorem string_table_interned_pair :
    ∃ names b, Builds pairFiles pairManifest b ∧ NamesInterned names b := by
  obtain ⟨b, -, hbuild, hlen, -⟩ := builds_of_loads pair_loads pair_size
  obtain ⟨names, -, hinterned⟩ := string_table_interned hbuild (hlen ▸ pair_size)
  exact ⟨names, b, hbuild, hinterned⟩

end Elfr.Compiler
