import Elfr.Library.Elf64
import Elfr.Runtime.Reader

/-!
# The dump tool up to the opened container

`elfresdump/main.c` from the mapped file to the container it lists. The file is
the byte string behind `base`, and a pointer into it is its distance from
`base`, not reduced modulo 2^64: a pointer outside of the mapping is as
undefined as a read through it. Where the tool reports an error and exits, the
result is the line it prints.
-/
namespace Elfr.Tools

open Library Elf64 Common Format Elfr.Runtime

section Messages

variable (prog path : CString)

/-- What the tool prints about the file before and after its name. -/
def about (before after : String) : Bytes :=
  prog.bytes ++ ascii ": " ++ ascii before ++ ascii "'" ++ path.bytes ++ ascii "'" ++ ascii after ++
    ascii "\n"

def mmapFailed : Bytes := about prog path "mmap failed on " ""
def notElfFile : Bytes := about prog path "" " is not an ELF file"

def only64Bit : Bytes :=
  prog.bytes ++ ascii ": only 64-bit little-endian ELF files are supported\n"

def noSectionHeaderTable : Bytes := about prog path "" " has no usable section header table"
def noResourceSection : Bytes := about prog path "" " has no .resource section"

end Messages

def erfStrerror : ERFError → String
  | .ok => "ok"
  | .badMagic => "bad ERF magic"
  | .unsupportedVersion => "unsupported ERF major version"
  | .truncated => "container truncated / smaller than header claims"
  | .badOffset => "container has an out-of-bounds offset or size"
  | .notFound => "resource not found"
  | .invalidArgument => "invalid argument"
  | .noDefaultContainer => "no default .resource object linked into this binary"

def invalidContainer (prog path : CString) (e : ERFError) : Bytes :=
  prog.bytes ++ ascii ": '" ++ path.bytes ++ ascii "': invalid ERF container: " ++
    ascii (erfStrerror e) ++ ascii "\n"

def elfMag : Bytes := [0x7F, 0x45, 0x4C, 0x46]

def elfClass64 : UInt8 := 2
def elfData2Lsb : UInt8 := 1

/-- The 64-bit sum the tool compares with the size of the file. -/
def sectionTableEnd (ehdr : Ehdr) : UInt64 :=
  ehdr.eShoff + ehdr.eShnum.toUInt64 * ehdr.eShentsize.toUInt64

/-- The checks before the section headers are touched. -/
def checkElfHeader (prog path : CString) (file : Bytes) : Exec (Except Bytes Ehdr) :=
  if file.length = 0 then pure (.error (mmapFailed prog path))
  else if file.length < ehdrBytes then pure (.error (notElfFile prog path))
  else do
    let magic ← load file 0 elfMag.length
    if magic ≠ elfMag then pure (.error (notElfFile prog path))
    else do
      let bs ← load file 0 ehdrBytes
      let ehdr := Ehdr.ofBytes bs
      if ehdr.eIdent[4] ≠ elfClass64 ∨ ehdr.eIdent[5] ≠ elfData2Lsb then
        pure (.error (only64Bit prog))
      else if ehdr.eShoff = 0 ∨ ehdr.eShnum = 0 ∨ (sectionTableEnd ehdr).toNat > file.length then
        pure (.error (noSectionHeaderTable prog path))
      else pure (.ok ehdr)

def shdrAt (ehdr : Ehdr) (i : ℕ) : ℕ := ehdr.eShoff.toNat + shdrBytes * i

/-- `offsetof(Elf64_Shdr, sh_offset)` and `offsetof(Elf64_Shdr, sh_size)`. -/
def shOffsetAt : ℕ := 24
def shSizeAt : ℕ := 32

def resourceName : CString := .literal ".resource"

/-- The loop that compares section names, from section `i` on, `left` sections
remaining. -/
def findResource (file : Bytes) (ehdr : Ehdr) (shstrtab : ℕ) : (left i : ℕ) → Exec (Option ℕ)
  | 0, _ => pure none
  | left + 1, i => do
    let shName ← load32 file (shdrAt ehdr i)
    let found ← strcmpEq file (shstrtab + shName.toNat) resourceName.bytes
    if found then pure (some i) else findResource file ehdr shstrtab left (i + 1)

/-- What the tool passes to `erf_open_memory`. -/
structure ResourceRange where
  offset : UInt64
  size : UInt64
  deriving DecidableEq, Repr

def locateResource (prog path : CString) (file : Bytes) : Exec (Except Bytes ResourceRange) := do
  match ← checkElfHeader prog path file with
  | .error message => pure (.error message)
  | .ok ehdr => do
    let shstrtab ← load64 file (shdrAt ehdr ehdr.eShstrndx.toNat + shOffsetAt)
    match ← findResource file ehdr shstrtab.toNat ehdr.eShnum.toNat 0 with
    | none => pure (.error (noResourceSection prog path))
    | some i => do
      let offset ← load64 file (shdrAt ehdr i + shOffsetAt)
      let size ← load64 file (shdrAt ehdr i + shSizeAt)
      pure (.ok ⟨offset, size⟩)

def openResource (prog path : CString) (file : Bytes) : Exec (Except Bytes ERFContainer) := do
  match ← locateResource prog path file with
  | .error message => pure (.error message)
  | .ok range => do
    match ← erfOpenMemory (some (file.drop range.offset.toNat)) range.size.toNat with
    | .error e => pure (.error (invalidContainer prog path e))
    | .ok container => pure (.ok container)

end Elfr.Tools
