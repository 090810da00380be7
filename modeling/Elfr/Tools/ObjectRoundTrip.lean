import Elfr.Compiler.BoundarySymbols
import Elfr.Compiler.ObjectOutput
import Elfr.Tools.SectionSafety

/-!
# Object files written and read back

The writer and the dump tool share no code. On the writer's file the checks of
the tool pass, its walk stops at the section that holds the container, and the
symbol table decodes to the declared names with the bounds of the container.
-/
namespace Elfr.Tools

open Library Elf64 OutputStream Compiler

/-- The parts of an object file with five sections, in the order of the file. -/
def objectFileRegions (file : Bytes) : List Region :=
  [⟨0, ehdrBytes⟩, sectionRegion file 1, sectionRegion file 2, sectionRegion file 3,
    sectionRegion file 4, sectionTable file]

/-- The file holds the container `c` between two symbols of these names. -/
structure Carries (file c : Bytes) (names : CString × CString) : Prop where
  section_names : (List.range 5).map (sectionName file) =
    [some .empty, some (.literal ".resource"), some (.literal ".symtab"),
      some (.literal ".strtab"), some (.literal ".shstrtab")]
  section_count : (fileHeader file).eShnum.toNat = 5
  contents : Segment file (sectionRegion file 1).start c
  size : (sectionRegion file 1).size = c.length
  table_end : (sectionTable file).stop = file.length
  ordered : (objectFileRegions file).Pairwise Region.Before
  inside : ∀ r ∈ objectFileRegions file, r.stop ≤ file.length
  aligned : 16 ∣ (sectionRegion file 1).start ∧ 8 ∣ (sectionRegion file 2).start ∧
    8 ∣ (sectionTable file).start
  symtab : (sectionHeader file 2).shType = shtSymtab
  symbols : ∃ first last : Sym,
    sectionSymbols file 2 =
      [(some .empty, nullSymbol), (some names.1, first), (some names.2, last)] ∧
    first.bind = stbGlobal ∧ last.bind = stbGlobal ∧
    first.stShndx.toNat = 1 ∧ last.stShndx.toNat = 1 ∧
    first.stValue = 0 ∧ last.stValue.toNat = c.length ∧
    (last.stValue - first.stValue).toNat = c.length

theorem sectionNames_eq_resourceName :
    ∀ (k : ℕ) (hk : k < 5), sectionNames[k] = resourceName ↔ k = 1 := by
  decide

section Object

variable {c : Bytes} {symbolPrefix : Option CString}

variable (hsize : (elfObject c symbolPrefix).length < 2 ^ 64)

include hsize

theorem sectionTable_elfObject : sectionTable (elfObject c symbolPrefix) =
    ⟨(objectParts c symbolPrefix).file.length, shdrBytes * secCount⟩ := by
  have hshoff := toNat_eShoff hsize
  have hshnum : (UInt16.ofNat secCount).toNat = secCount := by decide
  have hshentsize : (UInt16.ofNat shdrBytes).toNat = shdrBytes := by decide
  rw [sectionTable, hshoff, fileHeader_elfObject]
  simp only [objectHeader, hshnum, hshentsize, Nat.mul_comm secCount]

theorem objectFileRegions_elfObject :
    objectFileRegions (elfObject c symbolPrefix) = objectRegions c symbolPrefix := by
  obtain ⟨hresource, -⟩ := objectParts_offsets c symbolPrefix
  obtain ⟨h1, h1', -⟩ := resource_elfObject hsize
  obtain ⟨h2, h2', -⟩ := symtab_elfObject hsize
  obtain ⟨h3, h3', -⟩ := strtab_elfObject hsize
  obtain ⟨h4, h4', -⟩ := shstrtab_elfObject hsize
  simp only [objectFileRegions, sectionRegion, sectionTable_elfObject hsize, h1, h1', h2, h2', h3,
    h3', h4, h4', objectRegions, partRegions, List.cons_append, List.nil_append]
  rw [← hresource]
  rfl

theorem sectionTable_stop : (sectionTable (elfObject c symbolPrefix)).stop =
    (elfObject c symbolPrefix).length := by
  rw [sectionTable_elfObject hsize, length_elfObject, Region.stop]

theorem sectionHeaders_stop : (fileHeader (elfObject c symbolPrefix)).eShoff.toNat +
    (fileHeader (elfObject c symbolPrefix)).eShnum.toNat *
      (fileHeader (elfObject c symbolPrefix)).eShentsize.toNat =
    (elfObject c symbolPrefix).length := sectionTable_stop hsize

theorem elfObject_accepted : HeaderAccepted (elfObject c symbolPrefix) := by
  have hstop := sectionHeaders_stop hsize
  have hfile := ehdrBytes_le_file c symbolPrefix
  have hlength := length_elfObject c symbolPrefix
  have hident : Segment (elfObject c symbolPrefix) 0 objectIdent.toList :=
    (segment_fileHeader c symbolPrefix).trans (Ehdr.segment_piece _ 0 (by simp [Ehdr.pieces]) rfl)
  refine ⟨by omega, ?_, ?_, ?_, ?_, ?_, ?_⟩
  · have hmagic : Segment (elfObject c symbolPrefix) 0 (elfMag ++ objectIdent.toList.drop 4) :=
      hident
    exact hmagic.left.2
  · rw [fileHeader_elfObject]
    rfl
  · rw [fileHeader_elfObject]
    rfl
  · rw [Ne, ← UInt64.toNat_inj, toNat_eShoff hsize, UInt64.toNat_zero]
    unfold ehdrBytes at hfile
    omega
  · have hne : UInt16.ofNat secCount ≠ 0 := by decide
    rw [fileHeader_elfObject]
    exact hne
  · rw [toNat_sectionTableEnd (by omega), hstop]

theorem shdrAt_elfObject_le {k : ℕ} (hk : k < 5) :
    shdrAt (fileHeader (elfObject c symbolPrefix)) k + shdrBytes ≤
      (elfObject c symbolPrefix).length := by
  rw [shdrAt, toNat_eShoff hsize, length_elfObject]
  unfold shdrBytes secCount
  omega

theorem nameAt_elfObject {k : ℕ} (hk : k < 5) :
    StringAt (elfObject c symbolPrefix) (nameAt (elfObject c symbolPrefix) k) sectionNames[k] := by
  have hstrings := (elfObject_segments c symbolPrefix).2.2.2
  rw [nameAt, eShstrndx_elfObject, (shstrtab_elfObject hsize).1]
  exact hstrings.trans (shName_elfObject hsize hk)

theorem isResource_elfObject {k : ℕ} (hk : k < 5) :
    IsResource (elfObject c symbolPrefix) k ↔ k = 1 := by
  have hname := nameAt_elfObject hsize hk
  rw [← sectionNames_eq_resourceName k hk]
  constructor
  · exact fun hres => hname.unique hres
  · intro heq
    rwa [heq] at hname

theorem elfObject_fits : SectionsFit (elfObject c symbolPrefix) := by
  have hshnum : (fileHeader (elfObject c symbolPrefix)).eShnum.toNat = 5 := by
    rw [fileHeader_elfObject]
    rfl
  have hstop := sectionHeaders_stop hsize
  obtain ⟨hoffset, hlength, -⟩ := resource_elfObject hsize
  have hcontents := (elfObject_segments c symbolPrefix).1.le
  rw [(objectParts_offsets c symbolPrefix).1] at hcontents
  have hheader : ∀ k < 5, shdrAt (fileHeader (elfObject c symbolPrefix)) k + 64 ≤
      (elfObject c symbolPrefix).length := fun k hk => shdrAt_elfObject_le hsize hk
  refine ⟨by omega, ?_, fun i hi _ => ?_, fun i hi _ hres => ?_⟩
  · rw [eShstrndx_elfObject]
    have hle := hheader 4 (by decide)
    unfold shOffsetAt
    omega
  · rw [hshnum] at hi
    have hle := hheader i hi
    exact ⟨by omega, exists_stringAt_iff.mp ⟨_, nameAt_elfObject hsize hi⟩⟩
  · rw [hshnum] at hi
    obtain rfl := (isResource_elfObject hsize hi).mp hres
    have hle := hheader 1 (by decide)
    rw [hoffset, hlength]
    unfold shSizeAt
    exact ⟨by omega, hcontents⟩

theorem locateResource_elfObject (prog path : CString) :
    locateResource prog path (elfObject c symbolPrefix) =
      .ok (.ok ⟨(sectionHeader (elfObject c symbolPrefix) 1).shOffset,
        (sectionHeader (elfObject c symbolPrefix) 1).shSize⟩) := by
  have hshnum : (fileHeader (elfObject c symbolPrefix)).eShnum.toNat = 5 := by
    rw [fileHeader_elfObject]
    rfl
  obtain ⟨found, hlocate, hfound⟩ := locateResource_of_fit prog path (elfObject_accepted hsize)
    (elfObject_fits hsize)
  rw [hshnum] at hfound
  rw [hlocate]
  cases found with
  | none => exact absurd ((isResource_elfObject hsize (by decide)).mpr rfl) (hfound 1 (by decide))
  | some k =>
    obtain rfl := (isResource_elfObject hsize hfound.1).mp hfound.2.1
    rfl

theorem sectionRegions_aligned :
    16 ∣ (sectionRegion (elfObject c symbolPrefix) 1).start ∧
      8 ∣ (sectionRegion (elfObject c symbolPrefix) 2).start ∧
      8 ∣ (sectionTable (elfObject c symbolPrefix)).start := by
  obtain ⟨-, hsymtab, -, -, hfile⟩ := objectParts_offsets c symbolPrefix
  refine ⟨?_, ?_, ?_⟩
  · have hdvd : 16 ∣ ehdrBytes := by decide
    rwa [sectionRegion, (resource_elfObject hsize).1]
  · rw [sectionRegion, (symtab_elfObject hsize).1, hsymtab]
    exact (alignUp_spec _ (by decide)).2.2
  · rw [sectionTable_elfObject hsize, hfile]
    exact (alignUp_spec _ (by decide)).2.2

theorem boundarySymbols_elfObject : ∃ first last : Sym,
    sectionSymbols (elfObject c symbolPrefix) 2 =
      [(some .empty, nullSymbol), (some (boundaryNames symbolPrefix).1, first),
        (some (boundaryNames symbolPrefix).2, last)] ∧
    first.bind = stbGlobal ∧ last.bind = stbGlobal ∧
    first.stShndx.toNat = 1 ∧ last.stShndx.toNat = 1 ∧
    first.stValue = 0 ∧ last.stValue.toNat = c.length ∧
    (last.stValue - first.stValue).toNat = c.length := by
  have hinfo : Sym.stInfoOf stbGlobal sttObject >>> 4 = stbGlobal := by decide
  have hshndx : (UInt16.ofNat secResource).toNat = 1 := by decide
  have hle := (elfObject_segments c symbolPrefix).1.le
  have hvalue : (UInt64.ofNat c.length).toNat = c.length := toNat_ofNat64 (by omega)
  have hdiff : UInt64.ofNat c.length - 0 = UInt64.ofNat c.length := UInt64.sub_zero _
  exact ⟨_, _, symbols_elfObject hsize, hinfo, hinfo, hshndx, hshndx, rfl, hvalue,
    (congrArg UInt64.toNat hdiff).trans hvalue⟩

theorem carries_elfObject (hshort : (prefixText symbolPrefix).strlen ≤ 234) :
    Carries (elfObject c symbolPrefix) c (declaredNames symbolPrefix) where
  section_names := by
    have hname : ∀ k (hk : k < 5), sectionName (elfObject c symbolPrefix) k =
        some sectionNames[k] := fun k hk => sectionName_elfObject hsize hk
    simp only [List.range_succ, List.range_zero, List.nil_append, List.cons_append, List.map_cons,
      List.map_nil, hname 0 (by decide), hname 1 (by decide), hname 2 (by decide),
      hname 3 (by decide), hname 4 (by decide)]
    rfl
  section_count := by
    rw [fileHeader_elfObject]
    rfl
  contents := by
    rw [sectionRegion, (resource_elfObject hsize).1, ← (objectParts_offsets c symbolPrefix).1]
    exact (elfObject_segments c symbolPrefix).1
  size := (resource_elfObject hsize).2.1
  table_end := sectionTable_stop hsize
  ordered := by
    rw [objectFileRegions_elfObject hsize]
    exact (elfObject_tiled c symbolPrefix).ordered
  inside := by
    rw [objectFileRegions_elfObject hsize]
    exact (elfObject_tiled c symbolPrefix).inside
  aligned := sectionRegions_aligned hsize
  symtab := by
    rw [sectionHeader_elfObject hsize (by simp [objectSections])]
    rfl
  symbols := by
    rw [← (boundaryNames_eq_declared_iff symbolPrefix).mpr hshort]
    exact boundarySymbols_elfObject hsize

/-- What the tool passes to `erf_open_memory` delimits the container. -/
theorem locateResource_delimits (prog path : CString) :
    ∃ range, locateResource prog path (elfObject c symbolPrefix) = .ok (.ok range) ∧
      range.offset.toNat + range.size.toNat ≤ (elfObject c symbolPrefix).length ∧
      ((elfObject c symbolPrefix).drop range.offset.toNat).take range.size.toNat = c ∧
      range.offset.toNat = (sectionRegion (elfObject c symbolPrefix) 1).start ∧
      range.size.toNat = c.length := by
  have hlength : (sectionHeader (elfObject c symbolPrefix) 1).shSize.toNat = c.length :=
    (resource_elfObject hsize).2.1
  have hcontents : Segment (elfObject c symbolPrefix)
      (sectionHeader (elfObject c symbolPrefix) 1).shOffset.toNat c := by
    rw [(resource_elfObject hsize).1, ← (objectParts_offsets c symbolPrefix).1]
    exact (elfObject_segments c symbolPrefix).1
  refine ⟨_, locateResource_elfObject hsize prog path, ?_, ?_, rfl, hlength⟩
  · rw [hlength]
    exact hcontents.le
  · rw [hlength]
    exact hcontents.2

end Object

/-- **Object files round-trip.** The dump tool accepts the header of the writer's file, its
walk finds the container, and the file carries the container between the declared
symbols. The file is an object in memory before it is written, hence the bound on its
length. -/
theorem elf_object_round_trip (prog path : CString) (c : Bytes) (symbolPrefix : Option CString)
    (hshort : (prefixText symbolPrefix).strlen ≤ 234)
    (hsize : (elfObject c symbolPrefix).length < 2 ^ 64) :
    (∃ ehdr, checkElfHeader prog path (elfObject c symbolPrefix) = .ok (.ok ehdr)) ∧
      (∃ range, locateResource prog path (elfObject c symbolPrefix) = .ok (.ok range) ∧
        range.offset.toNat + range.size.toNat ≤ (elfObject c symbolPrefix).length ∧
        ((elfObject c symbolPrefix).drop range.offset.toNat).take range.size.toNat = c ∧
        range.offset.toNat = (sectionRegion (elfObject c symbolPrefix) 1).start ∧
        range.size.toNat = c.length) ∧
      Carries (elfObject c symbolPrefix) c (declaredNames symbolPrefix) := by
  exact ⟨⟨_, checkElfHeader_of_accepted (elfObject_accepted hsize)⟩,
    locateResource_delimits hsize prog path, carries_elfObject hsize hshort⟩

theorem elf_object_round_trip_prefixed :
    let file := elfObject [69, 82, 70, 49, 7] (some (.literal "app"))
    (∃ ehdr, checkElfHeader (.literal "elfresdump") (.literal "a.o") file = .ok (.ok ehdr)) ∧
      (∃ range, locateResource (.literal "elfresdump") (.literal "a.o") file = .ok (.ok range) ∧
        (file.drop range.offset.toNat).take range.size.toNat = [69, 82, 70, 49, 7] ∧
        range.size.toNat = 5) ∧
      Carries file [69, 82, 70, 49, 7]
        (.literal "_elfr_app_resource_start", .literal "_elfr_app_resource_end") := by
  have hle := length_elfObject_le [69, 82, 70, 49, 7] (some (.literal "app"))
  obtain ⟨haccepted, ⟨range, hlocate, -, hbytes, -, hlength⟩, hcarries⟩ := elf_object_round_trip
    (.literal "elfresdump") (.literal "a.o") [69, 82, 70, 49, 7] (some (.literal "app"))
    (by decide) (hle.trans_lt (by decide))
  have hnames : declaredNames (some (.literal "app")) =
      (.literal "_elfr_app_resource_start", .literal "_elfr_app_resource_end") := by decide
  rw [hnames] at hcarries
  exact ⟨haccepted, ⟨range, hlocate, hbytes, hlength⟩, hcarries⟩

/-- The round trip of the file that the writer leaves on a device with room for it. -/
theorem written_object_round_trip {fopen : CString → Option (Device UInt8)}
    {outputPath : CString} {device : Device UInt8} (hopen : fopen outputPath = some device)
    (prog path : CString) (c : Bytes) (symbolPrefix : Option CString)
    (hroom : (elfObject c symbolPrefix).length ≤ device.capacity)
    (hshort : (prefixText symbolPrefix).strlen ≤ 234)
    (hsize : (elfObject c symbolPrefix).length < 2 ^ 64) :
    ∃ file, elfrcWriteElfObject fopen c symbolPrefix outputPath = ⟨0, [], some file⟩ ∧
      (∃ range, locateResource prog path file = .ok (.ok range) ∧
        (file.drop range.offset.toNat).take range.size.toNat = c) ∧
      Carries file c (declaredNames symbolPrefix) := by
  obtain ⟨range, hlocate, -, hbytes, -⟩ := locateResource_delimits hsize prog path
  refine ⟨elfObject c symbolPrefix, ?_, ⟨range, hlocate, hbytes⟩, carries_elfObject hsize hshort⟩
  rw [elfrcWriteElfObject_opened c symbolPrefix hopen,
    if_pos ((Device.eager_le _).trans hroom), List.take_of_length_le hroom]

end Elfr.Tools
