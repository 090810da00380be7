import Elfr.Compiler.Sections
import Elfr.Compiler.BucketTable

/-!
# The builder as a function of what it loads

An `Item` is a resource as the runtime should see it. A build succeeds exactly
if every resource loads as an item and the two hash-table loops return, and its
result is then `assemble` of the items: no other part of the manifest or the
file system shows in the container.
-/
namespace Elfr.Compiler

open Library LinearProbing Common Format

structure Item where
  name : CString
  metadata : List (CString × CString)
  contents : Bytes
  id : UInt32
  type : UInt32
  language : UInt32
  flags : UInt32

/-- The strings of the resource are present, and its file can be read in full. -/
structure Loads (fs : FileSystem) (r : ElfrcResource) (it : Item) : Prop where
  name : r.name = some it.name
  metadata : r.metadata = it.metadata.map fun kv => ⟨some kv.1, some kv.2⟩
  contents : ReadsFile fs r it.contents
  id : r.finalId = it.id
  type : r.type = it.type
  language : r.language = it.language
  flags : r.flags = it.flags

theorem derefKv_eq_ok {kv : ElfrcMetadataKv} {p : CString × CString} :
    derefKv kv = .ok p ↔ kv = ⟨some p.1, some p.2⟩ := by
  obtain ⟨key, value⟩ := kv
  obtain ⟨k, v⟩ := p
  cases key <;> cases value <;> simp [derefKv]

theorem mapM_derefKv_eq_ok {kvs : List ElfrcMetadataKv} {metadata : List (CString × CString)} :
    kvs.mapM derefKv = .ok metadata ↔ kvs = metadata.map fun kv => ⟨some kv.1, some kv.2⟩ := by
  rw [Exec.mapM_eq_ok, ← List.forall₂_eq_eq_eq, List.forall₂_map_right_iff]
  simp only [derefKv_eq_ok]

section Sections

variable (items : List Item)

def stringStart : Bytes :=
  bufAlign (List.replicate headerBytes 0 ++ List.replicate (items.length * entryBytes) 0) 8

def stringSection : List UInt32 × Bytes :=
  internNames (UInt64.ofNat (stringStart items).length).toUInt32 (items.map Item.name) []
    (stringStart items)

def metadataStart : Bytes := bufAlign (stringSection items).2 8

def metadataSection : List UInt64 × Bytes :=
  appendMetadata (items.map Item.metadata) (metadataStart items)

def hashTableStart : Bytes := bufAlign (metadataSection items).2 8

def dataStart (hashTable : Bytes) : Bytes := bufAlign (hashTableStart items ++ hashTable) 16

def dataSection (hashTable : Bytes) : List DataRange × Bytes :=
  placeContents (items.map Item.contents) (dataStart items hashTable)

def itemEntry (it : Item) (nameOffset : UInt32) (metadataOffset : UInt64) (range : DataRange) :
    ERFDirectoryEntry where
  id := it.id
  type := it.type
  language := it.language
  flags := it.flags
  nameOffset := nameOffset
  reserved0 := 0
  dataOffset := range.offset
  dataSize := range.size
  originalSize := range.size
  metadataOffset := metadataOffset
  hash := elfrFnv1a64 it.name.bytes
  checksum := range.checksum
  timestamp := 0
  reserved := Vector.replicate 6 0

def itemEntries (hashTable : Bytes) : List ERFDirectoryEntry :=
  items.mapIdx fun i it => itemEntry it ((stringSection items).1.getD i 0)
    ((metadataSection items).1.getD i 0) ((dataSection items hashTable).1.getD i default)

def itemOffsets (hashTable : Bytes) : SectionOffsets where
  directory := UInt64.ofNat headerBytes
  string := UInt64.ofNat (stringStart items).length
  metadata := if (items.map Item.metadata).any (· ≠ []) then
    UInt64.ofNat (metadataStart items).length else 0
  hashTable := UInt64.ofNat (hashTableStart items).length
  data := UInt64.ofNat (dataStart items hashTable).length

def itemFlags : UInt32 :=
  headerFlags ((items.map Item.metadata).any (· ≠ [])) (localized (items.map Item.name))

def assemble (hashTable : Bytes) : Bytes :=
  finishContainer (dataSection items hashTable).2 (itemEntries items hashTable)
    (itemOffsets items hashTable) (itemFlags items)

end Sections

section Build

variable {fs : FileSystem} {m : ElfrcManifest} {items : List Item}

theorem Loads.names (h : List.Forall₂ (Loads fs) m.resources items) :
    m.resources.mapM (fun r => Exec.deref r.name) = .ok (items.map Item.name) := by
  rw [Exec.mapM_eq_ok, List.forall₂_map_right_iff]
  exact h.imp fun r it hr => Exec.deref_eq_ok.mpr hr.name

theorem Loads.map_name {rs : List ElfrcResource} (h : List.Forall₂ (Loads fs) rs items) :
    rs.map ElfrcResource.name = (items.map Item.name).map some := by
  rw [List.map_map, ← List.forall₂_eq_eq_eq, List.forall₂_map_left_iff, List.forall₂_map_right_iff]
  exact h.imp fun r it hr => hr.name

theorem Loads.metadatas (h : List.Forall₂ (Loads fs) m.resources items) :
    m.resources.mapM (fun r => r.metadata.mapM derefKv) = .ok (items.map Item.metadata) := by
  rw [Exec.mapM_eq_ok, List.forall₂_map_right_iff]
  exact h.imp fun r it hr => mapM_derefKv_eq_ok.mpr hr.metadata

theorem exists_items {rs : List ElfrcResource} {names : List CString}
    {metadata : List (List (CString × CString))} {contents : List Bytes}
    (hnames : List.Forall₂ (fun r name => Exec.deref r.name = .ok name) rs names)
    (hmetadata : List.Forall₂ (fun r kvs => r.metadata.mapM derefKv = .ok kvs) rs metadata)
    (hcontents : List.Forall₂ (fun r c => (∃ name, r.name = some name) ∧ ReadsFile fs r c)
      rs contents) :
    ∃ items, List.Forall₂ (Loads fs) rs items ∧ items.map Item.name = names ∧
      items.map Item.metadata = metadata ∧ items.map Item.contents = contents := by
  induction rs generalizing names metadata contents with
  | nil =>
    cases hnames; cases hmetadata; cases hcontents
    exact ⟨[], .nil, rfl, rfl, rfl⟩
  | cons r rs ih =>
    cases hnames with
    | @cons _ name _ _ hname hnames =>
      cases hmetadata with
      | @cons _ kvs _ _ hkvs hmetadata =>
        cases hcontents with
        | @cons _ c _ _ hc hcontents =>
          obtain ⟨items, hloads, rfl, rfl, rfl⟩ := ih hnames hmetadata hcontents
          refine ⟨⟨name, kvs, c, r.finalId, r.type, r.language, r.flags⟩ :: items,
            .cons ⟨?_, ?_, hc.2, rfl, rfl, rfl, rfl⟩ hloads, rfl, rfl, rfl⟩
          · exact Exec.deref_eq_ok.mp hname
          · exact mapM_derefKv_eq_ok.mp hkvs

/-- The directory only shows the loaded parts of the resources. -/
theorem directoryEntries_eq (h : List.Forall₂ (Loads fs) m.resources items) (hashTable : Bytes) :
    directoryEntries m.resources (stringSection items).1 (metadataSection items).1
      ((items.map Item.name).map fun name => elfrFnv1a64 name.bytes)
      (dataSection items hashTable).1 = itemEntries items hashTable := by
  have hlen := h.length_eq
  refine List.ext_getElem (by simp [directoryEntries, itemEntries, hlen]) fun i hi hi' => ?_
  simp only [directoryEntries, List.length_mapIdx] at hi
  have hr : Loads fs m.resources[i] items[i] := h.get hi (hlen ▸ hi)
  simp [directoryEntries, itemEntries, directoryEntry, itemEntry, hr.id, hr.type, hr.language,
    hr.flags, hlen ▸ hi]

/-- A build succeeds exactly if the items load and the hash table is filled. -/
theorem elfrcContainerBuild_eq_ok {fuel : ℕ} {b : Bytes} :
    elfrcContainerBuild fs m fuel = .ok (.ok b) ↔
      ∃ items, List.Forall₂ (Loads fs) m.resources items ∧ ∃ hashTable,
        buildHashTable fuel (items.map Item.name) = .ok hashTable ∧
        b = assemble items hashTable := by
  constructor
  · intro h
    unfold elfrcContainerBuild at h
    obtain ⟨names, hnames, h⟩ := Exec.bind_eq_ok.mp h
    obtain ⟨metadata, hmetadata, h⟩ := Exec.bind_eq_ok.mp h
    obtain ⟨hashTable, hhash, h⟩ := Exec.bind_eq_ok.mp h
    obtain ⟨res, hres, h⟩ := Exec.bind_eq_ok.mp h
    cases res with
    | error e => simp at h
    | ok res =>
      obtain ⟨contents, hcontents, rfl⟩ := appendData_eq_ok.mp hres
      obtain ⟨items, hloads, rfl, rfl, rfl⟩ := exists_items (Exec.mapM_eq_ok.mp hnames)
        (Exec.mapM_eq_ok.mp hmetadata) hcontents
      refine ⟨items, hloads, hashTable, hhash, ?_⟩
      rw [hloads.length_eq] at h
      unfold assemble
      rw [← directoryEntries_eq hloads]
      exact (Except.ok.inj (Except.ok.inj h)).symm
  · rintro ⟨items, hloads, hashTable, hhash, rfl⟩
    have hdata : appendData fs m.resources (dataStart items hashTable) =
        .ok (.ok (dataSection items hashTable)) :=
      appendData_eq_ok.mpr ⟨_, List.forall₂_map_right_iff.mpr
        (hloads.imp fun r it hr => ⟨⟨_, hr.name⟩, hr.contents⟩), rfl⟩
    unfold elfrcContainerBuild assemble
    rw [← directoryEntries_eq hloads]
    simp only [hloads.length_eq, Loads.names hloads, Loads.metadatas hloads, hhash, Exec.ok_bind]
    exact Exec.bind_eq_ok.mpr ⟨_, hdata, rfl⟩

end Build

end Elfr.Compiler
