import Elfr.Container.Acceptance
import Elfr.Runtime.MetadataCursor

/-!
# The round trip

What the compiler puts into a container the runtime finds there again, also
when other bytes follow. The lengths in front of metadata strings are stored in
32 bits, and the byte count that is appended is computed in 32 bits, so a string
of 2^32 - 1 bytes or more does not come back; every shorter one does, and
nothing else can get lost below 2^32 bytes.
-/
namespace Elfr.Compiler

open Library Common Format Elfr.Runtime

/-- A string whose length and whose length plus one fit 32 bits. -/
def FitsPrefix (s : CString) : Prop := s.strlen < 2 ^ 32 - 1

theorem prefixedString_of_fits {s : CString} (h : FitsPrefix s) :
    prefixedString s = bytes32 (UInt32.ofNat s.strlen) ++ s.terminated := by
  unfold FitsPrefix at h
  have hlen : (UInt32.ofNat s.strlen + 1).toNat = s.terminated.length := by
    rw [CString.length_terminated, UInt32.toNat_add, toNat_ofNat32 (by omega)]
    change (s.strlen + 1) % 2 ^ 32 = _
    rw [Nat.mod_eq_of_lt (by omega)]
  simp only [prefixedString, hlen, List.take_length]

section Strings

variable {buf : Bytes} {pos : ℕ}

/-- A stored string is where the cursor looks for it, and ends where the cursor goes on. -/
theorem prefixedString_at {s : CString} (h : FitsPrefix s)
    (hseg : Segment buf pos (prefixedString s)) :
    StringAt buf (pos + 4) s ∧ stringEnd buf pos = pos + (prefixedString s).length := by
  rw [prefixedString_of_fits h] at hseg ⊢
  have hlen : (field32 buf pos).toNat = s.strlen := by
    rw [hseg.left.field32]
    exact toNat_ofNat32 (by unfold FitsPrefix at h; omega)
  have hstring : StringAt buf (pos + (bytes32 (UInt32.ofNat s.strlen)).length) s := hseg.right
  rw [length_bytes32] at hstring
  refine ⟨hstring, ?_⟩
  unfold stringEnd
  rw [hlen, List.length_append, length_bytes32, CString.length_terminated]
  omega

/-- Every pair of a stored list is found by walking the cursor over the pairs before it. -/
theorem metadataPairs_at {metadata : List (CString × CString)}
    (hfits : ∀ kv ∈ metadata, FitsPrefix kv.1 ∧ FitsPrefix kv.2)
    (hseg : Segment buf pos (metadata.flatMap fun kv => prefixedString kv.1 ++ prefixedString kv.2))
    {j : ℕ} (hj : j < metadata.length) :
    StringAt buf ((entryEnd buf)^[j] pos + 4) metadata[j].1 ∧
      StringAt buf (stringEnd buf ((entryEnd buf)^[j] pos) + 4) metadata[j].2 ∧
      (entryEnd buf)^[j + 1] pos ≤ buf.length := by
  induction metadata generalizing pos j with
  | nil => exact absurd hj (Nat.not_lt_zero j)
  | cons kv metadata ih =>
    obtain ⟨hkfits, hvfits⟩ := hfits kv List.mem_cons_self
    rw [List.flatMap_cons] at hseg
    obtain ⟨hkey, hkend⟩ := prefixedString_at hkfits hseg.left.left
    have hvalue' := hseg.left.right
    rw [← hkend] at hvalue'
    obtain ⟨hvalue, hvend⟩ := prefixedString_at hvfits hvalue'
    have hend : entryEnd buf pos = pos + (prefixedString kv.1 ++ prefixedString kv.2).length := by
      rw [entryEnd, hvend, hkend, List.length_append]
      omega
    cases j with
    | zero => exact ⟨hkey, hvalue, by
        rw [Function.iterate_one, hend]
        exact hseg.left.le⟩
    | succ j =>
      have hrest := hseg.right
      rw [← hend] at hrest
      exact ih (fun kv' hkv' => hfits kv' (List.mem_cons_of_mem _ hkv')) hrest
        (Nat.lt_of_succ_lt_succ hj)

end Strings

/-- Each pair takes up at least its two lengths. -/
theorem length_metadataBlock_ge (metadata : List (CString × CString)) :
    4 + 8 * metadata.length ≤ (metadataBlock metadata).length := by
  unfold metadataBlock
  rw [List.length_append, length_bytes32]
  induction metadata with
  | nil => simp
  | cons kv metadata ih =>
    rw [List.flatMap_cons, List.length_append, List.length_cons]
    simp only [prefixedString, List.length_append, length_bytes32] at ih ⊢
    omega

/-- The metadata the library shows of the resource `r` is this list, and no more. -/
structure RecoversMetadata (c : ERFContainer) (r : ERFResource)
    (metadata : List (CString × CString)) : Prop where
  count : erfMetadataCount (some c) (some r) = .ok metadata.length
  get : ∀ (j : ℕ) (hj : j < metadata.length) (out : OutVars), ∃ k v,
    erfMetadataGet (some c) (some r) j out = .ok (0, out.store k v) ∧
      StringAt c.base k metadata[j].1 ∧ StringAt c.base v metadata[j].2
  missing : ∀ j : ℤ, j < 2 ^ 31 → j < 0 ∨ metadata.length ≤ j → ∀ out,
    erfMetadataGet (some c) (some r) j out = .ok (-1, out)

/-- The resource `r` of an open container is the item `it`, as far as the library shows it. -/
structure RecoversItem (c : ERFContainer) (r : ERFResource) (it : Item) : Prop where
  id : r.id = it.id
  type : r.type = it.type
  language : r.language = it.language
  flags : r.flags = it.flags
  timestamp : r.timestamp = 0
  name : StringAt c.base r.name it.name
  data : Segment c.base r.data it.contents
  size : r.size.toNat = it.contents.length
  metadata : RecoversMetadata c r it.metadata

/-- The buffer opens, and shows these items in order. -/
def Recovers (buf : Bytes) (items : List Item) : Prop :=
  ∃ c, erfOpenMemory (some buf) buf.length = .ok (.ok c) ∧
    (erfResourceCount (some c)).toNat = items.length ∧
    ∀ (i : ℕ) (hi : i < items.length), ∃ r, c.resources[i]? = some r ∧
      (∀ last, erfResourceAt (some c) (UInt32.ofNat i) last = (some i, last)) ∧
      RecoversItem c r items[i]

section Recovers

variable {c : ERFContainer} {r : ERFResource} (hsize : c.size = c.base.length)
include hsize

theorem recoversMetadata_nil (hzero : r.metadataOffset = 0) : RecoversMetadata c r [] where
  count := by
    have hnone : ¬ HasCount c.base r.metadataOffset := fun h => h.1 hzero
    rw [erfMetadataCount_eq hsize, if_neg hnone]
    rfl
  get := fun j hj => absurd hj (Nat.not_lt_zero j)
  missing := fun j hj _ out => erfMetadataGet_missing hj out (.inl hzero)

theorem recoversMetadata_block (hbuf : c.base.length < 2 ^ 64)
    {metadata : List (CString × CString)} (hlt : metadata.length < 2 ^ 29)
    (hfits : ∀ kv ∈ metadata, FitsPrefix kv.1 ∧ FitsPrefix kv.2) (hpos : r.metadataOffset ≠ 0)
    (hseg : Segment c.base r.metadataOffset.toNat (metadataBlock metadata)) :
    RecoversMetadata c r metadata := by
  have hfield : (field32 c.base r.metadataOffset.toNat).toNat = metadata.length := by
    rw [hseg.left.field32]
    exact toNat_ofNat32 (by omega)
  have hcount : HasCount c.base r.metadataOffset := by
    have hle := hseg.left.le
    rw [length_bytes32] at hle
    exact ⟨hpos, hle⟩
  refine ⟨?_, fun j hj out => ?_, fun j hj hmissing out => erfMetadataGet_missing hj out ?_⟩
  · rw [erfMetadataCount_eq hsize, if_pos hcount, toInt_of_lt (by omega), hfield]
  · have hpairs := metadataPairs_at hfits hseg.right hj
    rw [length_bytes32] at hpairs
    obtain ⟨hkey, hvalue, hend⟩ := hpairs
    have hentry : HasEntry c.base r.metadataOffset j := ⟨hcount, by omega, hend⟩
    refine ⟨_, _, ?_, hkey, hvalue⟩
    rw [erfMetadataGet_eq hsize hbuf (by omega), Int.toNat_natCast, if_pos ⟨by omega, hentry⟩]
    rfl
  · exact .inr (hmissing.imp_right fun hlarge => ⟨hsize, by omega⟩)

end Recovers

/-- A built container shows its items, if every metadata string fits its length field. -/
theorem ImageOf.recovers {items : List Item} {im : Image} {b : Bytes} (h : ImageOf items im b)
    {t : Bytes} (hbuf : (b ++ t).length < 2 ^ 64)
    (hfits : ∀ it ∈ items, ∀ kv ∈ it.metadata, FitsPrefix kv.1 ∧ FitsPrefix kv.2) :
    Recovers (b ++ t) items := by
  have hcount : (erfResourceCount (some (im.container b.length (b ++ t)))).toNat = items.length :=
    h.resourceCount.trans h.length_entries
  refine ⟨_, h.opens t, hcount, fun i hi => ?_⟩
  obtain ⟨entry, hentry, hp⟩ := h.resource t hi
  have hlt := h.table.room.trans im.bucketCount.toNat_lt
  rw [List.length_map] at hlt
  refine ⟨toResource entry, hentry, fun last => ?_, ?_⟩
  · have hindex : (UInt32.ofNat i).toNat = i := toNat_ofNat32 (by omega)
    unfold erfResourceAt
    simp only [ge_iff_le, UInt32.le_iff_toNat_le, hindex]
    rw [if_neg (Nat.not_le.mpr (hcount ▸ hi))]
  · refine ⟨hp.id, hp.type, hp.language, hp.flags, hp.timestamp, hp.name.append t,
      hp.data.append t, hp.dataSize, ?_⟩
    have hmetadata := hp.metadata
    unfold MetadataAt at hmetadata
    split_ifs at hmetadata with hnone
    · rw [hnone]
      exact recoversMetadata_nil rfl hmetadata
    · have hblock := length_metadataBlock_ge items[i].metadata
      have hle := hmetadata.2.le
      have hsize := h.size_lt
      have hpos : entry.metadataOffset ≠ 0 := by
        intro hzero
        rw [hzero] at hmetadata
        exact absurd hmetadata.1 (by decide)
      exact recoversMetadata_block rfl hbuf (by omega) (hfits _ (List.getElem_mem hi)) hpos
        (hmetadata.2.append t)

theorem Recovers.fits {b : Bytes} {items : List Item} (h : Recovers b items)
    (hlt : b.length < 2 ^ 32) :
    ∀ it ∈ items, ∀ kv ∈ it.metadata, FitsPrefix kv.1 ∧ FitsPrefix kv.2 := by
  obtain ⟨c, hopen, -, hitems⟩ := h
  have hbase := (erfOpenMemory_ok_iff.mp hopen).base
  have hshort : ∀ {s : CString} {p : ℕ}, StringAt c.base p s → FitsPrefix s := by
    intro s p hs
    have hle := Segment.le hs
    rw [hbase, CString.length_terminated] at hle
    unfold FitsPrefix
    omega
  intro it hit kv hkv
  obtain ⟨i, hi, rfl⟩ := List.getElem_of_mem hit
  obtain ⟨j, hj, rfl⟩ := List.getElem_of_mem hkv
  obtain ⟨r, -, -, hr⟩ := hitems i hi
  obtain ⟨k, v, -, hkey, hvalue⟩ := hr.metadata.get j hj ⟨none, none⟩
  exact ⟨hshort hkey, hshort hvalue⟩

/-- **The round trip.** Let every resource of a manifest load, and let the container be
smaller than 2^32 bytes. Then the build succeeds with a container that shows the items
again, whatever bytes follow it, exactly if every metadata string is shorter than
2^32 - 1 bytes. -/
theorem round_trip_iff {fs : FileSystem} {m : ElfrcManifest} {items : List Item}
    (hloads : List.Forall₂ (Loads fs) m.resources items) (hsize : containerSize items < 2 ^ 32) :
    (∃ b, Builds fs m b ∧ ∀ t, (b ++ t).length < 2 ^ 64 → Recovers (b ++ t) items) ↔
      ∀ it ∈ items, ∀ kv ∈ it.metadata, kv.1.strlen < 2 ^ 32 - 1 ∧ kv.2.strlen < 2 ^ 32 - 1 := by
  constructor
  · rintro ⟨b, hbuild, hrecovers⟩
    have hlt : b.length < 2 ^ 32 := hbuild.length_eq hloads hsize ▸ hsize
    have hself := hrecovers [] (by rw [List.append_nil]; omega)
    rw [List.append_nil] at hself
    exact hself.fits hlt
  · intro hfits
    obtain ⟨b, im, hbuild, -, him⟩ := builds_of_loads hloads hsize
    exact ⟨b, hbuild, fun t ht => him.recovers ht hfits⟩

theorem round_trip_pair :
    (∃ b, Builds pairFiles pairManifest b ∧
      ∀ t, (b ++ t).length < 2 ^ 64 → Recovers (b ++ t) pairItems) ↔
      ∀ it ∈ pairItems, ∀ kv ∈ it.metadata,
        kv.1.strlen < 2 ^ 32 - 1 ∧ kv.2.strlen < 2 ^ 32 - 1 :=
  round_trip_iff pair_loads pair_size

def longValue : CString where
  bytes := List.replicate (2 ^ 32) 0x61
  noNul h := absurd (List.eq_of_mem_replicate h) (by decide)

def longItem : Item :=
  ⟨.literal "a", [(.literal "k", longValue)], [], 1, 0, 0, 0⟩

def longManifest : ElfrcManifest where
  version := 1
  module := none
  resources :=
    [⟨some (.literal "a"), some (.literal "g"), 0, 0, 0, 0, false, 0, 1,
      [⟨some (.literal "k"), some longValue⟩], 3⟩]

theorem long_loads : List.Forall₂ (Loads pairFiles) longManifest.resources [longItem] := by
  refine .cons ⟨rfl, rfl, ⟨_, _, rfl, rfl, ?_⟩, rfl, rfl, rfl, rfl⟩ .nil
  decide

theorem strlen_longValue : longValue.strlen = 2 ^ 32 := List.length_replicate

/-- Its length is stored as 0, and one byte of it is appended. -/
theorem prefixedString_longValue : (prefixedString longValue).length = 5 := by
  have hzero : UInt32.ofNat (2 ^ 32) = 0 := by decide
  have hone : ((0 : UInt32) + 1).toNat = 1 := by decide
  have hlong : 1 ≤ longValue.terminated.length := by
    rw [CString.length_terminated]
    exact Nat.le_add_left _ _
  simp only [prefixedString, strlen_longValue, hzero, hone, List.length_append, length_bytes32,
    List.length_take, Nat.min_eq_left hlong]

theorem long_size : containerSize [longItem] < 2 ^ 32 := by
  have hkey : (prefixedString (.literal "k")).length = 6 := by decide
  have hblock : (metadataBlock longItem.metadata).length = 15 := by
    simp only [metadataBlock, longItem, List.flatMap_cons, List.flatMap_nil, List.append_nil,
      List.length_append, length_bytes32, hkey, prefixedString_longValue]
  have hsome : longItem.metadata ≠ [] := List.cons_ne_nil _ _
  have hstart : (metadataStart [longItem]).length = 296 := by decide +kernel
  simp only [containerSize, dataSection, length_placeContents, dataStart, length_bufAlign,
    hashTableStart, metadataSection, length_appendMetadata, List.length_append,
    List.length_replicate, List.map_cons, List.map_nil, List.foldl_cons, List.foldl_nil, hsome,
    ↓reduceIte, hblock, hstart]
  decide

/-- The container of that manifest is small, but no container of it brings the value back. -/
theorem long_value_lost :
    List.Forall₂ (Loads pairFiles) longManifest.resources [longItem] ∧
      containerSize [longItem] < 2 ^ 32 ∧
      ¬ ∃ b, Builds pairFiles longManifest b ∧
        ∀ t, (b ++ t).length < 2 ^ 64 → Recovers (b ++ t) [longItem] := by
  refine ⟨long_loads, long_size, ?_⟩
  rintro ⟨b, hbuild, hrecovers⟩
  have hlt : b.length < 2 ^ 32 := hbuild.length_eq long_loads long_size ▸ long_size
  have hself := hrecovers [] (by rw [List.append_nil]; omega)
  rw [List.append_nil] at hself
  have hvalue : FitsPrefix longValue :=
    (hself.fits hlt longItem List.mem_cons_self (.literal "k", longValue)
      List.mem_cons_self).2
  unfold FitsPrefix at hvalue
  rw [strlen_longValue] at hvalue
  omega

end Elfr.Compiler
