import Elfr.Library.CStrings
import Elfr.Library.Layout
import Elfr.Library.LittleEndian

/-!
# ELF object files

`elf.h` for 64-bit little-endian files: the file header, the section headers
and the symbols, each with the bytes of the C structure, and what a consumer
decodes from the bytes of a file. Sections are found through the section header
table, their names through the section that `e_shstrndx` names, and the names of
symbols through the string table their section links to.
-/
namespace Elfr.Library.Elf64

structure Ehdr where
  eIdent : Vector UInt8 16
  eType : UInt16
  eMachine : UInt16
  eVersion : UInt32
  eEntry : UInt64
  ePhoff : UInt64
  eShoff : UInt64
  eFlags : UInt32
  eEhsize : UInt16
  ePhentsize : UInt16
  ePhnum : UInt16
  eShentsize : UInt16
  eShnum : UInt16
  eShstrndx : UInt16
  deriving DecidableEq, Repr

/-- `sizeof(Elf64_Ehdr)`. -/
def ehdrBytes : ℕ := 64

namespace Ehdr

def pieces (h : Ehdr) : List Bytes :=
  [h.eIdent.toList, bytes16 h.eType, bytes16 h.eMachine, bytes32 h.eVersion, bytes64 h.eEntry,
    bytes64 h.ePhoff, bytes64 h.eShoff, bytes32 h.eFlags, bytes16 h.eEhsize, bytes16 h.ePhentsize,
    bytes16 h.ePhnum, bytes16 h.eShentsize, bytes16 h.eShnum, bytes16 h.eShstrndx]

def toBytes (h : Ehdr) : Bytes := h.pieces.flatten

def ofBytes (bs : Bytes) : Ehdr where
  eIdent := Vector.ofFn fun i => bs.getD i 0
  eType := field16 bs 16
  eMachine := field16 bs 18
  eVersion := field32 bs 20
  eEntry := field64 bs 24
  ePhoff := field64 bs 32
  eShoff := field64 bs 40
  eFlags := field32 bs 48
  eEhsize := field16 bs 52
  ePhentsize := field16 bs 54
  ePhnum := field16 bs 56
  eShentsize := field16 bs 58
  eShnum := field16 bs 60
  eShstrndx := field16 bs 62

variable (h : Ehdr)

@[simp] theorem length_toBytes : h.toBytes.length = ehdrBytes := by
  simp [toBytes, pieces, ehdrBytes]

theorem segment_piece (k : ℕ) (hk : k < h.pieces.length) {off : ℕ}
    (hoff : ((h.pieces.take k).map List.length).sum = off) :
    Segment h.toBytes off h.pieces[k] :=
  hoff ▸ segment_flatten h.pieces k hk

theorem eIdent_toBytes : Vector.ofFn (fun i : Fin 16 => h.toBytes.getD i 0) = h.eIdent := by
  have hseg : Segment h.toBytes 0 h.eIdent.toList :=
    h.segment_piece 0 (by simp [pieces]) (by simp)
  ext i hi
  have hget := hseg.getElem? (i := i) (by simpa using hi)
  rw [Nat.zero_add] at hget
  simp [List.getD_eq_getElem?_getD, hget, hi]

@[simp] theorem ofBytes_toBytes : ofBytes h.toBytes = h := by
  have hident := h.eIdent_toBytes
  cases h
  simp only [ofBytes, Ehdr.mk.injEq]
  refine ⟨hident, ?_, ?_, ?_, ?_, ?_, ?_, ?_, ?_, ?_, ?_, ?_, ?_, ?_⟩
  · exact (segment_piece _ 1 (by simp [pieces]) (by simp [pieces])).field16
  · exact (segment_piece _ 2 (by simp [pieces]) (by simp [pieces])).field16
  · exact (segment_piece _ 3 (by simp [pieces]) (by simp [pieces])).field32
  · exact (segment_piece _ 4 (by simp [pieces]) (by simp [pieces])).field64
  · exact (segment_piece _ 5 (by simp [pieces]) (by simp [pieces])).field64
  · exact (segment_piece _ 6 (by simp [pieces]) (by simp [pieces])).field64
  · exact (segment_piece _ 7 (by simp [pieces]) (by simp [pieces])).field32
  · exact (segment_piece _ 8 (by simp [pieces]) (by simp [pieces])).field16
  · exact (segment_piece _ 9 (by simp [pieces]) (by simp [pieces])).field16
  · exact (segment_piece _ 10 (by simp [pieces]) (by simp [pieces])).field16
  · exact (segment_piece _ 11 (by simp [pieces]) (by simp [pieces])).field16
  · exact (segment_piece _ 12 (by simp [pieces]) (by simp [pieces])).field16
  · exact (segment_piece _ 13 (by simp [pieces]) (by simp [pieces])).field16

end Ehdr

structure Shdr where
  shName : UInt32
  shType : UInt32
  shFlags : UInt64
  shAddr : UInt64
  shOffset : UInt64
  shSize : UInt64
  shLink : UInt32
  shInfo : UInt32
  shAddralign : UInt64
  shEntsize : UInt64
  deriving DecidableEq, Repr, Inhabited

/-- `sizeof(Elf64_Shdr)`. -/
def shdrBytes : ℕ := 64

namespace Shdr

def pieces (h : Shdr) : List Bytes :=
  [bytes32 h.shName, bytes32 h.shType, bytes64 h.shFlags, bytes64 h.shAddr, bytes64 h.shOffset,
    bytes64 h.shSize, bytes32 h.shLink, bytes32 h.shInfo, bytes64 h.shAddralign,
    bytes64 h.shEntsize]

def toBytes (h : Shdr) : Bytes := h.pieces.flatten

def ofBytes (bs : Bytes) : Shdr where
  shName := field32 bs 0
  shType := field32 bs 4
  shFlags := field64 bs 8
  shAddr := field64 bs 16
  shOffset := field64 bs 24
  shSize := field64 bs 32
  shLink := field32 bs 40
  shInfo := field32 bs 44
  shAddralign := field64 bs 48
  shEntsize := field64 bs 56

variable (h : Shdr)

@[simp] theorem length_toBytes : h.toBytes.length = shdrBytes := by
  simp [toBytes, pieces, shdrBytes]

theorem segment_piece (k : ℕ) (hk : k < h.pieces.length) {off : ℕ}
    (hoff : ((h.pieces.take k).map List.length).sum = off) :
    Segment h.toBytes off h.pieces[k] :=
  hoff ▸ segment_flatten h.pieces k hk

@[simp] theorem ofBytes_toBytes : ofBytes h.toBytes = h := by
  cases h
  simp only [ofBytes, Shdr.mk.injEq]
  refine ⟨?_, ?_, ?_, ?_, ?_, ?_, ?_, ?_, ?_, ?_⟩
  · exact (segment_piece _ 0 (by simp [pieces]) (by simp [pieces])).field32
  · exact (segment_piece _ 1 (by simp [pieces]) (by simp [pieces])).field32
  · exact (segment_piece _ 2 (by simp [pieces]) (by simp [pieces])).field64
  · exact (segment_piece _ 3 (by simp [pieces]) (by simp [pieces])).field64
  · exact (segment_piece _ 4 (by simp [pieces]) (by simp [pieces])).field64
  · exact (segment_piece _ 5 (by simp [pieces]) (by simp [pieces])).field64
  · exact (segment_piece _ 6 (by simp [pieces]) (by simp [pieces])).field32
  · exact (segment_piece _ 7 (by simp [pieces]) (by simp [pieces])).field32
  · exact (segment_piece _ 8 (by simp [pieces]) (by simp [pieces])).field64
  · exact (segment_piece _ 9 (by simp [pieces]) (by simp [pieces])).field64

end Shdr

structure Sym where
  stName : UInt32
  stInfo : UInt8
  stOther : UInt8
  stShndx : UInt16
  stValue : UInt64
  stSize : UInt64
  deriving DecidableEq, Repr, Inhabited

/-- `sizeof(Elf64_Sym)`. -/
def symBytes : ℕ := 24

namespace Sym

def pieces (s : Sym) : List Bytes :=
  [bytes32 s.stName, [s.stInfo], [s.stOther], bytes16 s.stShndx, bytes64 s.stValue,
    bytes64 s.stSize]

def toBytes (s : Sym) : Bytes := s.pieces.flatten

def ofBytes (bs : Bytes) : Sym where
  stName := field32 bs 0
  stInfo := bs.getD 4 0
  stOther := bs.getD 5 0
  stShndx := field16 bs 6
  stValue := field64 bs 8
  stSize := field64 bs 16

variable (s : Sym)

@[simp] theorem length_toBytes : s.toBytes.length = symBytes := by
  simp [toBytes, pieces, symBytes]

theorem segment_piece (k : ℕ) (hk : k < s.pieces.length) {off : ℕ}
    (hoff : ((s.pieces.take k).map List.length).sum = off) :
    Segment s.toBytes off s.pieces[k] :=
  hoff ▸ segment_flatten s.pieces k hk

@[simp] theorem ofBytes_toBytes : ofBytes s.toBytes = s := by
  cases s
  simp only [ofBytes, Sym.mk.injEq]
  refine ⟨?_, ?_, ?_, ?_, ?_, ?_⟩
  · exact (segment_piece _ 0 (by simp [pieces]) (by simp [pieces])).field32
  · exact (segment_piece _ 1 (by simp [pieces]) (by simp [pieces])).getD_singleton
  · exact (segment_piece _ 2 (by simp [pieces]) (by simp [pieces])).getD_singleton
  · exact (segment_piece _ 3 (by simp [pieces]) (by simp [pieces])).field16
  · exact (segment_piece _ 4 (by simp [pieces]) (by simp [pieces])).field64
  · exact (segment_piece _ 5 (by simp [pieces]) (by simp [pieces])).field64

def stInfoOf (bind type : UInt8) : UInt8 := (bind <<< 4) + (type &&& 0xf)

def bind (s : Sym) : UInt8 := s.stInfo >>> 4

end Sym

def stbGlobal : UInt8 := 1
def sttObject : UInt8 := 1

section Decode

variable (file : Bytes)

def fileHeader : Ehdr := Ehdr.ofBytes (slice file 0 ehdrBytes)

def sectionHeader (k : ℕ) : Shdr :=
  Shdr.ofBytes (slice file ((fileHeader file).eShoff.toNat + shdrBytes * k) shdrBytes)

def sectionRegion (k : ℕ) : Region :=
  ⟨(sectionHeader file k).shOffset.toNat, (sectionHeader file k).shSize.toNat⟩

/-- The section header table, counted as the file header counts it. -/
def sectionTable : Region :=
  ⟨(fileHeader file).eShoff.toNat,
    (fileHeader file).eShnum.toNat * (fileHeader file).eShentsize.toNat⟩

def sectionBytes (k : ℕ) : Bytes :=
  slice file (sectionHeader file k).shOffset.toNat (sectionHeader file k).shSize.toNat

/-- The string at an offset of a string table, if a NUL ends one there. -/
def stringInTable (table : Bytes) (off : ℕ) : Option CString :=
  if 0 ∈ table.drop off then some (CString.ofBytes (table.drop off)) else none

def sectionName (k : ℕ) : Option CString :=
  stringInTable (sectionBytes file (fileHeader file).eShstrndx.toNat)
    (sectionHeader file k).shName.toNat

/-- The symbols of section `k`, each with its name in the linked string table. -/
def sectionSymbols (k : ℕ) : List (Option CString × Sym) :=
  let header := sectionHeader file k
  let stride := header.shEntsize.toNat
  let strings := sectionBytes file header.shLink.toNat
  (List.range (header.shSize.toNat / stride)).map fun i =>
    let sym := Sym.ofBytes (slice (sectionBytes file k) (stride * i) symBytes)
    (stringInTable strings sym.stName.toNat, sym)

end Decode

section DecodeLemmas

variable {file : Bytes}

theorem fileHeader_eq {h : Ehdr} (hseg : Segment file 0 h.toBytes) : fileHeader file = h :=
  hseg.decode_slice Ehdr.ofBytes_toBytes Ehdr.length_toBytes

theorem sectionHeader_eq {k : ℕ} {h : Shdr}
    (hseg : Segment file ((fileHeader file).eShoff.toNat + shdrBytes * k) h.toBytes) :
    sectionHeader file k = h :=
  hseg.decode_slice Shdr.ofBytes_toBytes Shdr.length_toBytes

theorem sectionBytes_eq {k off : ℕ} {xs : Bytes} (hseg : Segment file off xs)
    (hoffset : (sectionHeader file k).shOffset.toNat = off)
    (hsize : (sectionHeader file k).shSize.toNat = xs.length) : sectionBytes file k = xs := by
  rw [sectionBytes, hoffset, hsize, hseg.2]

theorem stringInTable_eq {table : Bytes} {off : ℕ} {s : CString} (h : StringAt table off s) :
    stringInTable table off = some s := by
  obtain ⟨xs, hxs⟩ := h.drop_eq
  rw [stringInTable, if_pos (exists_stringAt_iff.mp ⟨s, h⟩), hxs, CString.ofBytes_terminated_append]

/-- A section that holds consecutive symbols decodes to these. -/
theorem sectionSymbols_eq {k : ℕ} {syms : List Sym}
    (hentsize : (sectionHeader file k).shEntsize.toNat = symBytes)
    (hbytes : sectionBytes file k = syms.flatMap Sym.toBytes)
    (hsize : (sectionHeader file k).shSize.toNat = symBytes * syms.length) :
    sectionSymbols file k = syms.map fun sym =>
      (stringInTable (sectionBytes file (sectionHeader file k).shLink.toNat) sym.stName.toNat,
        sym) := by
  have hcount : symBytes * syms.length / symBytes = syms.length :=
    Nat.mul_div_cancel_left _ (by decide)
  unfold sectionSymbols
  simp only [hentsize, hsize, hcount, hbytes]
  refine List.ext_getElem (by simp) fun i hi hi' => ?_
  have hsym := (segment_self (syms.flatMap Sym.toBytes)).decode_getElem Sym.ofBytes_toBytes
    Sym.length_toBytes i (by simpa using hi)
  rw [Nat.zero_add] at hsym
  simp [hsym]

end DecodeLemmas

end Elfr.Library.Elf64
