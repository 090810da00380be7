import Elfr.Compiler.CommandLine
import Elfr.Tools.Elfresdump

/-!
# The dump tool as a program

The rest of `elfresdump/main.c`: its options, the listing, and the extraction of one
resource into a file. As in `erf_find_in` a resource found is an index, and what is printed or
written of it is read from the mapped file.
-/
namespace Elfr.Tools

open Library OutputStream Elf64 Common Format Elfr.Runtime
open Elfr.Compiler (Ending asksForHelp printNumber)

structure DumpArguments where
  extractName : Option CString
  outputPath : Option CString
  deriving DecidableEq

inductive DumpKey
  | extract
  | output
  deriving DecidableEq, Repr

section Options

variable (prog : CString)

def usage : Bytes :=
  ascii "usage: " ++ prog.bytes ++
    ascii (" <elf-file> [--extract NAME -o OUTFILE]\n" ++
      "\n" ++
      "Lists (or extracts) resources from the .resource ERF section of an\n" ++
      "ELF object, executable, or shared library built by elfrc.\n")

def unknownArgument (arg : CString) : Bytes :=
  prog.bytes ++ ascii ": unknown argument '" ++ arg.bytes ++ ascii "'\n" ++ usage prog

def extractRequiresOutput : Bytes := prog.bytes ++ ascii ": --extract requires -o OUTFILE\n"

def dumpKey (arg : CString) : Option DumpKey :=
  if arg = .literal "--extract" then some .extract
  else if arg = .literal "-o" then some .output
  else none

def DumpArguments.set (key : DumpKey) (value : CString) (a : DumpArguments) : DumpArguments :=
  match key with
  | .extract => { a with extractName := some value }
  | .output => { a with outputPath := some value }

/-- An argument that is not an option with its value. -/
def readDumpArgument (arg : CString) (_ : DumpArguments) : Except Ending DumpArguments :=
  if asksForHelp arg then .error ⟨0, usage prog⟩ else .error ⟨1, unknownArgument prog arg⟩

def elfresdumpOptions : CommandLine CString DumpKey DumpArguments Ending :=
  ⟨dumpKey, DumpArguments.set, readDumpArgument prog⟩

def parseDumpArguments (args : List CString) : Except Ending DumpArguments := do
  let a ← (elfresdumpOptions prog).scan args ⟨none, none⟩
  if a.extractName.isSome && a.outputPath.isNone then
    .error ⟨1, extractRequiresOutput prog⟩
  else .ok a

end Options

def typeNames : List String :=
  ["binary", "string", "json", "xml", "yaml", "png", "jpeg", "svg", "gif", "icon", "font", "audio",
    "video", "shader", "certificate"]

def typeName (type : UInt32) : String :=
  if type.toNat < typeNames.length then typeNames.getD type.toNat "" else "application-defined"

/-- The conversions `%-6`, `%-24`, `%-12`, `%-8` and `%10`. -/
def listColumns (id name type language size : Bytes) : Bytes :=
  padRight 6 id ++ ascii " " ++ padRight 24 name ++ ascii " " ++ padRight 12 type ++ ascii " " ++
    padRight 8 language ++ ascii " " ++ padLeft 10 size ++ ascii "\n"

def listHeading : Bytes :=
  listColumns (ascii "ID") (ascii "NAME") (ascii "TYPE") (ascii "LANG") (ascii "SIZE")

def listLine (id : UInt32) (name : CString) (type language : UInt32) (size : ℕ) : Bytes :=
  listColumns (printNumber id.toNat) name.bytes (ascii (typeName type))
    (printNumber language.toNat) (printNumber size)

def listResources (c : ERFContainer) : (left i : ℕ) → Exec Bytes
  | 0, _ => pure []
  | left + 1, i => do
    let index ← Exec.deref (erfResourceAt (some c) (UInt32.ofNat i) .ok).1
    let r ← Exec.index c.resources index
    let name ← loadString c.base r.name
    let rest ← listResources c left (i + 1)
    pure (listLine r.id name r.type r.language r.size.toNat ++ rest)

/-- What `open`, `fstat` and `mmap` make of the file. -/
inductive DumpInput
  | unopened (strerror : CString)
  | noStatus
  | unmapped
  | mapped (file : Bytes)

structure DumpHost where
  read : CString → DumpInput
  create : CString → Option (Device UInt8)

/-- The exit status, what was printed, and what the path opened for writing holds then. -/
structure DumpOutcome where
  status : ℤ
  stdout : Bytes
  stderr : Bytes
  written : Option (CString × Bytes)
  deriving DecidableEq

/-- A run that ends with a message. -/
def dumpFailure (message : Bytes) : DumpOutcome := ⟨1, [], message, none⟩

section Messages

variable (prog : CString)

def cannotOpenFile (path strerror : CString) : Bytes :=
  prog.bytes ++ ascii ": cannot open '" ++ path.bytes ++ ascii "': " ++ strerror.bytes ++ ascii "\n"

def fstatFailed (path : CString) : Bytes := about prog path "fstat failed on " ""

def resourceNotFound (name : CString) : Bytes := about prog name "resource " " not found"

def failedToWrite (path : CString) : Bytes := about prog path "failed to write " ""

end Messages

/-- `--extract`: the result of `fclose` is not looked at. -/
def extractResource (host : DumpHost) (prog : CString) (c : ERFContainer)
    (name outputPath : CString) :
    Exec DumpOutcome := do
  let (found, _) ← erfFindIn (some c) (some name)
  match found with
  | none => pure (dumpFailure (resourceNotFound prog name))
  | some i => do
    let r ← Exec.index c.resources i
    match host.create outputPath with
    | none => pure (dumpFailure (failedToWrite prog outputPath))
    | some device => do
      let data ← load c.base r.data r.size.toNat
      let (written, out) := device.fwrite opened data
      let (_, contents) := device.fclose out
      let result := some (outputPath, contents)
      if written ≠ r.size.toNat then pure ⟨1, [], failedToWrite prog outputPath, result⟩
      else pure ⟨0, [], [], result⟩

def dumpContainer (host : DumpHost) (prog : CString) (a : DumpArguments) (c : ERFContainer) :
    Exec DumpOutcome :=
  match a.extractName, a.outputPath with
  | some name, some outputPath => extractResource host prog c name outputPath
  | _, _ => do
    let lines ← listResources c (erfResourceCount (some c)).toNat 0
    pure ⟨0, listHeading ++ lines, [], none⟩

/-- `main`, with its arguments from the second on. -/
def elfresdumpMain (host : DumpHost) (prog : CString) (args : List CString) : Exec DumpOutcome :=
  match args with
  | [] => pure (dumpFailure (usage prog))
  | path :: args =>
    match parseDumpArguments prog args with
    | .error ending => pure ⟨ending.status, [], ending.stderr, none⟩
    | .ok a =>
      match host.read path with
      | .unopened strerror => pure (dumpFailure (cannotOpenFile prog path strerror))
      | .noStatus => pure (dumpFailure (fstatFailed prog path))
      | .unmapped => pure (dumpFailure (mmapFailed prog path))
      | .mapped file => do
        match ← openResource prog path file with
        | .error message => pure (dumpFailure message)
        | .ok c => dumpContainer host prog a c

end Elfr.Tools
