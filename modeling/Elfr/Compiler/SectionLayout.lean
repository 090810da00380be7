import Elfr.Compiler.StringTable

/-!
# The layout of the container

The regions of the assembled container in the order of its bytes: header,
directory, string table, metadata blocks, hash table and data ranges. Each loop
of the builder extends the layout it finds by the regions of what it appends,
and filling in the directory and the header stays inside their regions.
-/
namespace Elfr.Compiler

open Library Interning Common Format

theorem bufAlign_aligned (buf : Bytes) {a : ℕ} (ha : 0 < a) : a ∣ (bufAlign buf a).length := by
  rw [length_bufAlign]
  exact (alignUp_spec _ ha).2.2

theorem length_internNames (tableBase : UInt32) (names : List CString) (st : List StringEntry)
    (buf : Bytes) : (internNames tableBase names st buf).1.length = names.length := by
  induction names generalizing st buf with
  | nil => rfl
  | cons name names ih => simp [internNames, ih]

theorem length_appendMetadata_offsets (metadata : List (List (CString × CString))) (buf : Bytes) :
    (appendMetadata metadata buf).1.length = metadata.length := by
  induction metadata generalizing buf with
  | nil => rfl
  | cons block rest ih =>
    unfold appendMetadata
    split_ifs <;> simp [ih]

section Directory

variable (items : List Item) (hashTable : Bytes)

theorem itemEntries_nameOffsets :
    (itemEntries items hashTable).map (·.nameOffset) = (stringSection items).1 := by
  have hlen : (stringSection items).1.length = items.length := by
    rw [stringSection, length_internNames, List.length_map]
  refine List.ext_getElem (by simp [itemEntries, hlen]) fun i hi hi' => ?_
  simp [itemEntries, itemEntry, List.getElem?_eq_getElem hi']

theorem itemEntries_metadataOffsets :
    (itemEntries items hashTable).map (·.metadataOffset) = (metadataSection items).1 := by
  have hlen : (metadataSection items).1.length = items.length := by
    rw [metadataSection, length_appendMetadata_offsets, List.length_map]
  refine List.ext_getElem (by simp [itemEntries, hlen]) fun i hi hi' => ?_
  simp [itemEntries, itemEntry, List.getElem?_eq_getElem hi']

end Directory

section Container

variable (items : List Item) (hashTable : Bytes)

variable {items hashTable} (hlt : (dataSection items hashTable).2.length < 2 ^ 64)
include hlt

end Container

end Elfr.Compiler
