import Elfr.Compiler.ContainerBuild
import Elfr.Library.Elf64
import Elfr.Library.OutputStream

/-!
# The ELF object writer

`elf_writer.c`. As in the container builder a `byte_buf` is the list of its
bytes. The two string tables are built first, so that symbols and section
headers can store offsets into them, then the parts of the file one after
another, and at last the file header over the zeros that kept its place.
-/
namespace Elfr.Compiler

open Library Elf64 OutputStream

def secResource : ℕ := 1
def secStrtab : ℕ := 3
def secShstrtab : ℕ := 4
def secCount : ℕ := 5

/-- `byte_buf_append`: the offset of what is appended, and the buffer with it. -/
def byteBufAppend (buf data : Bytes) : ℕ × Bytes := (buf.length, buf ++ data)

/-- What `snprintf` leaves in `start_name` or `end_name`, both of 256 bytes. -/
def boundaryName (text : Bytes) : CString := CString.ofBytes (snprintf 256 text)

def boundaryNames (symbolPrefix : Option CString) : CString × CString :=
  match symbolPrefix.filter fun p => p.bytes ≠ [] with
  | some p =>
    (boundaryName (ascii "_elfr_" ++ p.bytes ++ ascii "_resource_start"),
      boundaryName (ascii "_elfr_" ++ p.bytes ++ ascii "_resource_end"))
  | none => (boundaryName (ascii "_elfr_resource_start"), boundaryName (ascii "_elfr_resource_end"))

structure ShstrtabBuffer where
  offResourceName : ℕ
  offSymtabName : ℕ
  offStrtabName : ℕ
  offShstrtabName : ℕ
  data : Bytes

def shstrtab : ShstrtabBuffer :=
  let buf : Bytes := List.replicate 1 0
  let (offResourceName, buf) := byteBufAppend buf (CString.literal ".resource").terminated
  let (offSymtabName, buf) := byteBufAppend buf (CString.literal ".symtab").terminated
  let (offStrtabName, buf) := byteBufAppend buf (CString.literal ".strtab").terminated
  let (offShstrtabName, buf) := byteBufAppend buf (CString.literal ".shstrtab").terminated
  ⟨offResourceName, offSymtabName, offStrtabName, offShstrtabName, buf⟩

structure StrtabBuffer where
  offStartSym : ℕ
  offEndSym : ℕ
  data : Bytes

def strtab (startName endName : CString) : StrtabBuffer :=
  let buf : Bytes := List.replicate 1 0
  let (offStartSym, buf) := byteBufAppend buf startName.terminated
  let (offEndSym, buf) := byteBufAppend buf endName.terminated
  ⟨offStartSym, offEndSym, buf⟩

def nullSymbol : Sym := ⟨0, 0, 0, 0, 0, 0⟩

def boundarySymbol (off value : ℕ) : Sym where
  stName := UInt32.ofNat off
  stInfo := Sym.stInfoOf stbGlobal sttObject
  stOther := 0
  stShndx := UInt16.ofNat secResource
  stValue := UInt64.ofNat value
  stSize := 0

def boundarySymbols (names : StrtabBuffer) (size : ℕ) : List Sym :=
  [nullSymbol, boundarySymbol names.offStartSym 0, boundarySymbol names.offEndSym size]

/-- Where the parts of the file start, and the file up to the section header table. -/
structure ObjectParts where
  resourceOff : ℕ
  symtabOff : ℕ
  strtabOff : ℕ
  shstrtabOff : ℕ
  file : Bytes

def layOutParts (container syms strtabData shstrtabData : Bytes) : ObjectParts :=
  let file := List.replicate ehdrBytes 0
  let (resourceOff, file) := byteBufAppend (bufAlign file 16) container
  let (symtabOff, file) := byteBufAppend (bufAlign file 8) syms
  let (strtabOff, file) := byteBufAppend (bufAlign file 1) strtabData
  let (shstrtabOff, file) := byteBufAppend file shstrtabData
  ⟨resourceOff, symtabOff, strtabOff, shstrtabOff, bufAlign file 8⟩

/-- `SHT_PROGBITS`, `SHT_SYMTAB`, `SHT_STRTAB` and `SHF_ALLOC`. -/
def shtProgbits : UInt32 := 1
def shtSymtab : UInt32 := 2
def shtStrtab : UInt32 := 3
def shfAlloc : UInt64 := 2

def nullSection : Shdr := ⟨0, 0, 0, 0, 0, 0, 0, 0, 0, 0⟩

def resourceSection (parts : ObjectParts) (size : ℕ) : Shdr where
  shName := UInt32.ofNat shstrtab.offResourceName
  shType := shtProgbits
  shFlags := shfAlloc
  shAddr := 0
  shOffset := UInt64.ofNat parts.resourceOff
  shSize := UInt64.ofNat size
  shLink := 0
  shInfo := 0
  shAddralign := 16
  shEntsize := 0

/-- `sh_info` is the index of the first symbol that is not local. -/
def symtabSection (parts : ObjectParts) (size : ℕ) : Shdr where
  shName := UInt32.ofNat shstrtab.offSymtabName
  shType := shtSymtab
  shFlags := 0
  shAddr := 0
  shOffset := UInt64.ofNat parts.symtabOff
  shSize := UInt64.ofNat size
  shLink := UInt32.ofNat secStrtab
  shInfo := 1
  shAddralign := 8
  shEntsize := UInt64.ofNat symBytes

def stringSection64 (name off size : ℕ) : Shdr where
  shName := UInt32.ofNat name
  shType := shtStrtab
  shFlags := 0
  shAddr := 0
  shOffset := UInt64.ofNat off
  shSize := UInt64.ofNat size
  shLink := 0
  shInfo := 0
  shAddralign := 1
  shEntsize := 0

def strtabSection (parts : ObjectParts) (size : ℕ) : Shdr :=
  stringSection64 shstrtab.offStrtabName parts.strtabOff size

def shstrtabSection (parts : ObjectParts) (size : ℕ) : Shdr :=
  stringSection64 shstrtab.offShstrtabName parts.shstrtabOff size

/-- The magic number, 64 bits, little-endian, version 1, no particular system. -/
def objectIdent : Vector UInt8 16 :=
  #v[0x7F, 0x45, 0x4C, 0x46, 2, 1, 1, 0, 0, 0, 0, 0, 0, 0, 0, 0]

def objectHeader (shoff : ℕ) : Ehdr where
  eIdent := objectIdent
  eType := 1
  eMachine := 62
  eVersion := 1
  eEntry := 0
  ePhoff := 0
  eShoff := UInt64.ofNat shoff
  eFlags := 0
  eEhsize := UInt16.ofNat ehdrBytes
  ePhentsize := 0
  ePhnum := 0
  eShentsize := UInt16.ofNat shdrBytes
  eShnum := UInt16.ofNat secCount
  eShstrndx := UInt16.ofNat secShstrtab

section Object

variable (container : Bytes) (symbolPrefix : Option CString)

def objectStrtab : StrtabBuffer :=
  strtab (boundaryNames symbolPrefix).1 (boundaryNames symbolPrefix).2

def objectSyms : Bytes :=
  (boundarySymbols (objectStrtab symbolPrefix) container.length).flatMap Sym.toBytes

def objectParts : ObjectParts :=
  layOutParts container (objectSyms container symbolPrefix) (objectStrtab symbolPrefix).data
    shstrtab.data

def objectSections : List Shdr :=
  let parts := objectParts container symbolPrefix
  [nullSection, resourceSection parts container.length,
    symtabSection parts (objectSyms container symbolPrefix).length,
    strtabSection parts (objectStrtab symbolPrefix).data.length,
    shstrtabSection parts shstrtab.data.length]

/-- The bytes the writer builds in memory and then writes. -/
def elfObject : Bytes :=
  let parts := objectParts container symbolPrefix
  let shoff := parts.file.length
  let file := parts.file ++ (objectSections container symbolPrefix).flatMap Shdr.toBytes
  patch file 0 (objectHeader shoff).toBytes

end Object

def cannotOpenForWriting (path : CString) : Bytes :=
  snprintf errbufSize (ascii "cannot open '" ++ path.bytes ++ ascii "' for writing")

def shortWrite (path : CString) : Bytes :=
  snprintf errbufSize (ascii "short write to '" ++ path.bytes ++ ascii "'")

/-- The return value, `errbuf`, and what the output path holds, if it was opened. -/
structure WriteResult where
  code : ℤ
  errbuf : Bytes
  file : Option Bytes

/-- `elfrc_write_elf_object`, where `fopen` yields the device behind a path that can be opened
for writing. The result of `fclose` is not looked at. -/
def elfrcWriteElfObject (fopen : CString → Option (Device UInt8)) (container : Bytes)
    (symbolPrefix : Option CString) (outputPath : CString) : WriteResult :=
  let file := elfObject container symbolPrefix
  match fopen outputPath with
  | none => ⟨-1, cannotOpenForWriting outputPath, none⟩
  | some device =>
    let (written, out) := device.fwrite opened file
    let (_, contents) := device.fclose out
    if written ≠ file.length then ⟨-1, shortWrite outputPath, some contents⟩
    else ⟨0, [], some contents⟩

end Elfr.Compiler
