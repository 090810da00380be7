import Elfr.Library.CStrings

/-!
# Manifests and files

The structures of `manifest.h`, which the manifest parser fills and the
container builder reads. Their strings are pointers, hence may be null. A file
system is what `stat`, `fopen`, `ftell` and `fread` report of it.
-/
namespace Elfr.Compiler

open Library

structure ElfrcMetadataKv where
  key : Option CString
  value : Option CString
  deriving DecidableEq

structure ElfrcResource where
  name : Option CString
  file : Option CString
  type : UInt32
  language : UInt32
  compression : UInt32
  flags : UInt32
  idExplicit : Bool
  id : UInt32
  finalId : UInt32
  metadata : List ElfrcMetadataKv
  line : ℤ
  deriving DecidableEq

structure ElfrcManifest where
  version : ℤ
  module : Option CString
  resources : List ElfrcResource
  deriving DecidableEq

def errbufSize : ℕ := 512

/-- A file open for reading: the length `ftell` reports at its end, and the bytes
`fread` can deliver from its start. -/
structure OpenFile where
  ftell : ℤ
  stream : Bytes

structure FileSystem where
  /-- Whether `stat` succeeds and says the path is a regular file. -/
  isRegular : CString → Bool
  fopen : CString → Option OpenFile

/-- Read a whole file as the builder does, unless the read comes up short. -/
def readFile (f : OpenFile) : Option Bytes :=
  let filedata := if f.ftell > 0 then f.stream.take f.ftell.toNat else []
  if (filedata.length : ℤ) = f.ftell % 2 ^ 64 then some filedata else none

end Elfr.Compiler
