import Elfr.Compiler.ElfWriter
import Elfr.Compiler.Sections

/-!
# The parts of the object file

Every part the writer lays out is a segment of the finished file at the offset
its header records, the parts follow one another without overlap, and the
section header table ends the file.
-/
namespace Elfr.Compiler

open Library Elf64

def sectionNames : Vector CString 5 :=
  #v[.empty, .literal ".resource", .literal ".symtab", .literal ".strtab", .literal ".shstrtab"]

def sectionNameFields : Vector UInt32 5 :=
  #v[0, UInt32.ofNat shstrtab.offResourceName, UInt32.ofNat shstrtab.offSymtabName,
    UInt32.ofNat shstrtab.offStrtabName, UInt32.ofNat shstrtab.offShstrtabName]

theorem shstrtab_names :
    ∀ k : Fin 5, StringAt shstrtab.data sectionNameFields[k].toNat sectionNames[k] := by
  decide

theorem length_shstrtab : shstrtab.data.length = 37 := by decide

theorem strtab_names (s e : CString) :
    StringAt (strtab s e).data 0 .empty ∧
      StringAt (strtab s e).data (strtab s e).offStartSym s ∧
      StringAt (strtab s e).data (strtab s e).offEndSym e := by
  refine ⟨stringAt_empty_iff.mpr ?_, (segment_append_self _ _).append _, segment_append_self _ _⟩
  simp [strtab, byteBufAppend]

theorem strlen_boundaryName_le (text : Bytes) : (boundaryName text).strlen ≤ 255 := by
  have hshort : (boundaryName text).strlen ≤ (text.take 255).length :=
    (List.takeWhile_prefix _).length_le
  exact hshort.trans (List.length_take_le 255 text)

theorem strlen_boundaryNames_le (symbolPrefix : Option CString) :
    (boundaryNames symbolPrefix).1.strlen ≤ 255 ∧ (boundaryNames symbolPrefix).2.strlen ≤ 255 := by
  unfold boundaryNames
  split <;> exact ⟨strlen_boundaryName_le _, strlen_boundaryName_le _⟩

/-- The name buffers are short, so an offset into the string table fits its field. -/
theorem strtab_offsets_lt (symbolPrefix : Option CString) :
    (objectStrtab symbolPrefix).offStartSym < 2 ^ 32 ∧
      (objectStrtab symbolPrefix).offEndSym < 2 ^ 32 := by
  obtain ⟨hstart, -⟩ := strlen_boundaryNames_le symbolPrefix
  simp only [objectStrtab, strtab, byteBufAppend, List.length_append, CString.length_terminated,
    List.length_replicate]
  omega

section Parts

variable (c syms strs shstrs : Bytes)

def partRegions : List Region :=
  let parts := layOutParts c syms strs shstrs
  [⟨0, ehdrBytes⟩, ⟨parts.resourceOff, c.length⟩, ⟨parts.symtabOff, syms.length⟩,
    ⟨parts.strtabOff, strs.length⟩, ⟨parts.shstrtabOff, shstrs.length⟩]

theorem layOutParts_tiled :
    Tiled (layOutParts c syms strs shstrs).file (partRegions c syms strs shstrs) := by
  have hheader := tiled_bufAlign (Tiled.reserve ehdrBytes) 16
  have hresource := tiled_bufAlign (hheader.append c) 8
  have hsyms := tiled_bufAlign (hresource.append syms) 1
  have hstrings := tiled_bufAlign ((hsyms.append strs).append shstrs) 8
  simp only [List.cons_append, List.nil_append] at hstrings
  simp only [partRegions, layOutParts, byteBufAppend]
  exact hstrings

theorem layOutParts_offsets :
    let parts := layOutParts c syms strs shstrs
    parts.resourceOff = ehdrBytes ∧ parts.symtabOff = alignUp (ehdrBytes + c.length) 8 ∧
      parts.strtabOff = parts.symtabOff + syms.length ∧
      parts.shstrtabOff = parts.strtabOff + strs.length ∧
      parts.file.length = alignUp (parts.shstrtabOff + shstrs.length) 8 := by
  have hheader : alignUp ehdrBytes 16 = ehdrBytes := by decide
  have hone : ∀ k, alignUp k 1 = k := fun k => if_neg (by simp [Nat.mod_one])
  simp only [layOutParts, byteBufAppend, length_bufAlign, List.length_append,
    List.length_replicate, hheader, hone, and_self]

theorem layOutParts_segments :
    let parts := layOutParts c syms strs shstrs
    Segment parts.file parts.resourceOff c ∧ Segment parts.file parts.symtabOff syms ∧
      Segment parts.file parts.strtabOff strs ∧ Segment parts.file parts.shstrtabOff shstrs := by
  have hgrow : ∀ (b xs : Bytes) (a : ℕ), b <+: bufAlign b a ++ xs := fun b xs a =>
    (bufAlign_isPrefix b a).trans (List.prefix_append _ _)
  simp only [layOutParts, byteBufAppend]
  refine ⟨?_, ?_, ?_, ?_⟩
  · refine (segment_append_self _ _).of_isPrefix ?_
    exact (hgrow _ _ 8).trans ((hgrow _ _ 1).trans
      ((List.prefix_append _ _).trans (bufAlign_isPrefix _ 8)))
  · refine (segment_append_self _ _).of_isPrefix ?_
    exact (hgrow _ _ 1).trans ((List.prefix_append _ _).trans (bufAlign_isPrefix _ 8))
  · refine (segment_append_self _ _).of_isPrefix ?_
    exact (List.prefix_append _ _).trans (bufAlign_isPrefix _ 8)
  · exact (segment_append_self _ _).of_isPrefix (bufAlign_isPrefix _ 8)

end Parts

section Object

variable (c : Bytes) (symbolPrefix : Option CString)

theorem length_objectSyms : (objectSyms c symbolPrefix).length = symBytes * 3 := by
  simp [objectSyms, boundarySymbols, symBytes]

theorem length_objectSections :
    ((objectSections c symbolPrefix).flatMap Shdr.toBytes).length = shdrBytes * secCount := by
  simp [objectSections, shdrBytes, secCount]

theorem objectParts_offsets :
    let parts := objectParts c symbolPrefix
    parts.resourceOff = ehdrBytes ∧ parts.symtabOff = alignUp (ehdrBytes + c.length) 8 ∧
      parts.strtabOff = parts.symtabOff + symBytes * 3 ∧
      parts.shstrtabOff = parts.strtabOff + (objectStrtab symbolPrefix).data.length ∧
      parts.file.length = alignUp (parts.shstrtabOff + shstrtab.data.length) 8 := by
  have h := layOutParts_offsets c (objectSyms c symbolPrefix) (objectStrtab symbolPrefix).data
    shstrtab.data
  rw [length_objectSyms] at h
  exact h

/-- The regions of the file, the section header table last. -/
def objectRegions : List Region :=
  partRegions c (objectSyms c symbolPrefix) (objectStrtab symbolPrefix).data shstrtab.data ++
    [⟨(objectParts c symbolPrefix).file.length, shdrBytes * secCount⟩]

theorem elfObject_tiled : Tiled (elfObject c symbolPrefix) (objectRegions c symbolPrefix) := by
  have hparts := (layOutParts_tiled c (objectSyms c symbolPrefix) (objectStrtab symbolPrefix).data
    shstrtab.data).append ((objectSections c symbolPrefix).flatMap Shdr.toBytes)
  rw [length_objectSections] at hparts
  refine hparts.patch (r := ⟨0, ehdrBytes⟩) ?_ le_rfl ?_
  · simp [partRegions]
  · simp [Region.stop]

theorem ehdrBytes_le_file : ehdrBytes ≤ (objectParts c symbolPrefix).file.length :=
  (layOutParts_tiled c (objectSyms c symbolPrefix) (objectStrtab symbolPrefix).data
    shstrtab.data).inside ⟨0, ehdrBytes⟩ (by simp [partRegions]) |>.trans' (by simp [Region.stop])

theorem length_elfObject : (elfObject c symbolPrefix).length =
    (objectParts c symbolPrefix).file.length + shdrBytes * secCount := by
  have hle := ehdrBytes_le_file c symbolPrefix
  unfold elfObject
  rw [length_patch (by rw [List.length_append, Ehdr.length_toBytes]; omega), List.length_append,
    length_objectSections]

theorem length_elfObject_le : (elfObject c symbolPrefix).length ≤ c.length + 1020 := by
  obtain ⟨-, hsymtab, hstrtab, hshstrtab, hfile⟩ := objectParts_offsets c symbolPrefix
  obtain ⟨hstart, hend⟩ := strlen_boundaryNames_le symbolPrefix
  have hsyms := (alignUp_spec (ehdrBytes + c.length) (a := 8) (by decide)).2.1
  have hsections := (alignUp_spec ((objectParts c symbolPrefix).shstrtabOff +
    shstrtab.data.length) (a := 8) (by decide)).2.1
  have hstrings : (objectStrtab symbolPrefix).data.length = 1 +
      ((boundaryNames symbolPrefix).1.strlen + 1) +
      ((boundaryNames symbolPrefix).2.strlen + 1) := by
    simp only [objectStrtab, strtab, byteBufAppend, List.length_append,
      CString.length_terminated, List.length_replicate]
  rw [length_elfObject, hfile]
  simp only [length_shstrtab, ehdrBytes, symBytes, shdrBytes, secCount] at *
  omega

theorem segment_elfObject {off : ℕ} {xs : Bytes}
    (h : Segment ((objectParts c symbolPrefix).file ++
      (objectSections c symbolPrefix).flatMap Shdr.toBytes) off xs) (hoff : ehdrBytes ≤ off) :
    Segment (elfObject c symbolPrefix) off xs := by
  have hle := ehdrBytes_le_file c symbolPrefix
  refine h.patch ?_ (Or.inr ?_)
  · rw [List.length_append, Ehdr.length_toBytes]
    omega
  · simpa using hoff

/-- The strings, symbols and contents of the file, at the offsets of its parts. -/
theorem elfObject_segments :
    let parts := objectParts c symbolPrefix
    Segment (elfObject c symbolPrefix) parts.resourceOff c ∧
      Segment (elfObject c symbolPrefix) parts.symtabOff (objectSyms c symbolPrefix) ∧
      Segment (elfObject c symbolPrefix) parts.strtabOff (objectStrtab symbolPrefix).data ∧
      Segment (elfObject c symbolPrefix) parts.shstrtabOff shstrtab.data := by
  obtain ⟨hc, hsyms, hstrs, hshstrs⟩ := layOutParts_segments c (objectSyms c symbolPrefix)
    (objectStrtab symbolPrefix).data shstrtab.data
  obtain ⟨hresource, hsymtab, hstrtab, hshstrtab, -⟩ := objectParts_offsets c symbolPrefix
  have hle := (alignUp_spec (ehdrBytes + c.length) (a := 8) (by decide)).1
  have hpart : ∀ {off : ℕ} {xs : Bytes}, Segment (objectParts c symbolPrefix).file off xs →
      ehdrBytes ≤ off → Segment (elfObject c symbolPrefix) off xs := fun h hoff =>
    segment_elfObject c symbolPrefix (h.append _) hoff
  exact ⟨hpart hc (by omega), hpart hsyms (by omega), hpart hstrs (by omega),
    hpart hshstrs (by omega)⟩

theorem segment_fileHeader : Segment (elfObject c symbolPrefix) 0
    (objectHeader (objectParts c symbolPrefix).file.length).toBytes := by
  have hle := ehdrBytes_le_file c symbolPrefix
  refine segment_patch_self ?_
  rw [List.length_append, Ehdr.length_toBytes]
  omega

theorem fileHeader_elfObject : fileHeader (elfObject c symbolPrefix) =
    objectHeader (objectParts c symbolPrefix).file.length :=
  fileHeader_eq (segment_fileHeader c symbolPrefix)

theorem eShstrndx_elfObject : (fileHeader (elfObject c symbolPrefix)).eShstrndx.toNat = 4 := by
  rw [fileHeader_elfObject]
  rfl

variable {c symbolPrefix}

section Bounded

variable (hsize : (elfObject c symbolPrefix).length < 2 ^ 64)

include hsize

theorem toNat_eShoff : (fileHeader (elfObject c symbolPrefix)).eShoff.toNat =
    (objectParts c symbolPrefix).file.length := by
  have hlen := length_elfObject c symbolPrefix
  rw [fileHeader_elfObject, objectHeader, toNat_ofNat64 (by omega)]

theorem sectionHeader_elfObject {k : ℕ} (hk : k < (objectSections c symbolPrefix).length) :
    sectionHeader (elfObject c symbolPrefix) k = (objectSections c symbolPrefix)[k] := by
  have hle := ehdrBytes_le_file c symbolPrefix
  refine sectionHeader_eq ?_
  rw [toNat_eShoff hsize]
  refine segment_elfObject c symbolPrefix ?_ (hle.trans (Nat.le_add_right _ _))
  exact (segment_append_self _ _).trans
    (segment_flatMap Shdr.toBytes shdrBytes Shdr.length_toBytes _ k hk)

/-- A section header that stores where a part stands finds the part. -/
theorem section_elfObject {k off : ℕ} {xs : Bytes} {header : Shdr}
    (hk : (objectSections c symbolPrefix)[k]? = some header)
    (hoffset : header.shOffset = UInt64.ofNat off)
    (hlength : header.shSize = UInt64.ofNat xs.length)
    (hseg : Segment (elfObject c symbolPrefix) off xs) :
    (sectionHeader (elfObject c symbolPrefix) k).shOffset.toNat = off ∧
      (sectionHeader (elfObject c symbolPrefix) k).shSize.toNat = xs.length ∧
      sectionBytes (elfObject c symbolPrefix) k = xs := by
  obtain ⟨hlt, hget⟩ := List.getElem?_eq_some_iff.mp hk
  have hle := hseg.le
  have hheader : sectionHeader (elfObject c symbolPrefix) k = header := by
    rw [sectionHeader_elfObject hsize hlt, hget]
  have hoffset' : header.shOffset.toNat = off := by rw [hoffset, toNat_ofNat64 (by omega)]
  have hlength' : header.shSize.toNat = xs.length := by rw [hlength, toNat_ofNat64 (by omega)]
  rw [hheader]
  exact ⟨hoffset', hlength', sectionBytes_eq hseg (by rw [hheader, hoffset'])
    (by rw [hheader, hlength'])⟩

theorem resource_elfObject :
    (sectionHeader (elfObject c symbolPrefix) 1).shOffset.toNat = ehdrBytes ∧
      (sectionHeader (elfObject c symbolPrefix) 1).shSize.toNat = c.length ∧
      sectionBytes (elfObject c symbolPrefix) 1 = c := by
  rw [← (objectParts_offsets c symbolPrefix).1]
  exact section_elfObject hsize rfl rfl rfl (elfObject_segments c symbolPrefix).1

theorem symtab_elfObject :
    (sectionHeader (elfObject c symbolPrefix) 2).shOffset.toNat =
        (objectParts c symbolPrefix).symtabOff ∧
      (sectionHeader (elfObject c symbolPrefix) 2).shSize.toNat =
        (objectSyms c symbolPrefix).length ∧
      sectionBytes (elfObject c symbolPrefix) 2 = objectSyms c symbolPrefix :=
  section_elfObject hsize rfl rfl rfl (elfObject_segments c symbolPrefix).2.1

theorem strtab_elfObject :
    (sectionHeader (elfObject c symbolPrefix) 3).shOffset.toNat =
        (objectParts c symbolPrefix).strtabOff ∧
      (sectionHeader (elfObject c symbolPrefix) 3).shSize.toNat =
        (objectStrtab symbolPrefix).data.length ∧
      sectionBytes (elfObject c symbolPrefix) 3 = (objectStrtab symbolPrefix).data :=
  section_elfObject hsize rfl rfl rfl (elfObject_segments c symbolPrefix).2.2.1

theorem shstrtab_elfObject :
    (sectionHeader (elfObject c symbolPrefix) 4).shOffset.toNat =
        (objectParts c symbolPrefix).shstrtabOff ∧
      (sectionHeader (elfObject c symbolPrefix) 4).shSize.toNat = shstrtab.data.length ∧
      sectionBytes (elfObject c symbolPrefix) 4 = shstrtab.data :=
  section_elfObject hsize rfl rfl rfl (elfObject_segments c symbolPrefix).2.2.2

theorem shName_elfObject {k : ℕ} (hk : k < 5) :
    StringAt shstrtab.data (sectionHeader (elfObject c symbolPrefix) k).shName.toNat
      sectionNames[k] := by
  have hfield : (objectSections c symbolPrefix)[k].shName = sectionNameFields[k] := by
    match k, hk with
    | 0, _ => rfl
    | 1, _ => rfl
    | 2, _ => rfl
    | 3, _ => rfl
    | 4, _ => rfl
  have hheader := sectionHeader_elfObject hsize (k := k) hk
  rw [hheader, hfield]
  exact shstrtab_names ⟨k, hk⟩

theorem sectionName_elfObject {k : ℕ} (hk : k < 5) :
    sectionName (elfObject c symbolPrefix) k = some sectionNames[k] := by
  rw [sectionName, eShstrndx_elfObject, (shstrtab_elfObject hsize).2.2]
  exact stringInTable_eq (shName_elfObject hsize hk)

/-- The symbol table decodes to the null symbol and the two boundary symbols. -/
theorem symbols_elfObject :
    sectionSymbols (elfObject c symbolPrefix) 2 =
      [(some .empty, nullSymbol),
        (some (boundaryNames symbolPrefix).1,
          boundarySymbol (objectStrtab symbolPrefix).offStartSym 0),
        (some (boundaryNames symbolPrefix).2,
          boundarySymbol (objectStrtab symbolPrefix).offEndSym c.length)] := by
  have hheader := sectionHeader_elfObject hsize (k := 2) (by simp [objectSections])
  obtain ⟨-, hlength, hbytes⟩ := symtab_elfObject hsize
  have hcount : (boundarySymbols (objectStrtab symbolPrefix) c.length).length = 3 := rfl
  have hentsize : (sectionHeader (elfObject c symbolPrefix) 2).shEntsize.toNat = symBytes := by
    rw [hheader]
    rfl
  have hlink : (sectionHeader (elfObject c symbolPrefix) 2).shLink.toNat = 3 := by
    rw [hheader]
    rfl
  obtain ⟨hempty, hstart, hend⟩ := strtab_names (boundaryNames symbolPrefix).1
    (boundaryNames symbolPrefix).2
  obtain ⟨hstart', hend'⟩ := strtab_offsets_lt symbolPrefix
  rw [sectionSymbols_eq hentsize hbytes (by rw [hlength, length_objectSyms, hcount]), hlink,
    (strtab_elfObject hsize).2.2]
  simp only [boundarySymbols, boundarySymbol, nullSymbol, List.map_cons, List.map_nil,
    toNat_ofNat32 hstart', toNat_ofNat32 hend']
  rw [objectStrtab, stringInTable_eq hstart, stringInTable_eq hend, UInt32.toNat_zero,
    stringInTable_eq hempty]

end Bounded

end Object

end Elfr.Compiler
