import Elfr.Common.Hashing
import Elfr.Compiler.ParseContext

/-!
# Lookup tables of the manifest parser

The names of types, extensions, compression algorithms, flags and languages. All
tables are searched in the same way, ignoring the case of ASCII letters.
-/
namespace Elfr.Compiler

open Library Common

abbrev NameTable := List (String × UInt32)

/-- The first entry of this name. -/
def lookupName (table : NameTable) (name : CString) : Option UInt32 :=
  (table.find? fun entry => name.caseEq (.literal entry.1)).map (·.2)

def Known (table : NameTable) (name : CString) : Prop :=
  ∃ entry ∈ table, name.caseEq (.literal entry.1) = true

instance (table : NameTable) (name : CString) : Decidable (Known table name) :=
  inferInstanceAs (Decidable (∃ entry ∈ table, _))

theorem lookupName_eq_none_iff {table : NameTable} {name : CString} :
    lookupName table name = none ↔ ¬ Known table name := by
  simp [lookupName, Known]

theorem lookupName_congr (table : NameTable) {name name' : CString}
    (h : name.caseEq name' = true) : lookupName table name = lookupName table name' := by
  simp only [lookupName, CString.caseEq_congr h]

/-- The lookup functions hand their argument to `strcasecmp`, which must not be null. -/
def fromName (table : NameTable) (name : Option CString) : Exec (Option UInt32) := do
  let name ← Exec.deref name
  pure (lookupName table name)

@[simp] theorem fromName_some (table : NameTable) (name : CString) :
    fromName table (some name) = .ok (lookupName table name) := rfl

@[simp] theorem fromName_none (table : NameTable) :
    fromName table none = .error .nullPointer := rfl

def typeNames : NameTable :=
  [("binary", 0), ("string", 1), ("json", 2),
    ("xml", 3), ("yaml", 4), ("png", 5),
    ("jpeg", 6), ("jpg", 6), ("svg", 7),
    ("gif", 8), ("icon", 9), ("ico", 9),
    ("font", 10), ("ttf", 10), ("audio", 11),
    ("video", 12), ("shader", 13), ("certificate", 14),
    ("cert", 14)]

def typeFromName (name : Option CString) : Exec (Option UInt32) := fromName typeNames name

def erfTypeBinary : UInt32 := 0

def extensionTypes : NameTable :=
  [(".png", 5), (".jpg", 6), (".jpeg", 6), (".svg", 7),
    (".gif", 8), (".ico", 9), (".ttf", 10), (".otf", 10),
    (".json", 2), (".xml", 3), (".yaml", 4), (".yml", 4),
    (".wav", 11), (".mp3", 11), (".ogg", 11), (".mp4", 12),
    (".webm", 12), (".spv", 13), (".glsl", 13), (".hlsl", 13),
    (".pem", 14), (".crt", 14), (".cer", 14),
    (".txt", 1)]

def typeFromExtension (filename : CString) : UInt32 :=
  match strrchr filename 46 with
  | none => erfTypeBinary
  | some dot => (lookupName extensionTypes dot).getD erfTypeBinary

def erfCompressionNone : UInt32 := 0

def compressionNames : NameTable :=
  [("none", erfCompressionNone), ("deflate", 1),
    ("zstd", 2), ("zstandard", 2),
    ("lz4", 3), ("brotli", 4),
    ("xz", 5)]

def compressionFromName (name : Option CString) : Exec (Option UInt32) :=
  fromName compressionNames name

theorem lookupName_compressionNames {name : CString} :
    lookupName compressionNames name = some erfCompressionNone ↔
      name.caseEq (.literal "none") = true := by
  unfold lookupName compressionNames
  rw [List.find?_cons]
  cases h : name.caseEq (.literal "none") with
  | true => simp
  | false =>
    simp only [Bool.false_eq_true, iff_false, Option.map_eq_some_iff, not_exists, not_and]
    intro entry hentry
    have hmem := List.mem_of_find?_eq_some hentry
    simp only [List.mem_cons, List.not_mem_nil, or_false] at hmem
    rcases hmem with rfl | rfl | rfl | rfl | rfl | rfl <;> decide

def flagNames : NameTable :=
  [("compressed", 1), ("encrypted", 2),
    ("read_only", 4), ("readonly", 4),
    ("executable", 8), ("optional", 16)]

def flagFromName (name : Option CString) : Exec (Option UInt32) := fromName flagNames name

def erfLanguageNeutral : UInt32 := 0

def languageTags : NameTable :=
  [("en-us", 1033), ("en_us", 1033), ("en", 1033),
    ("de-de", 1031), ("de_de", 1031), ("de", 1031),
    ("fr-fr", 1036), ("fr_fr", 1036), ("fr", 1036)]

/-- The size of the local `lower` of `language_from_tag`. -/
def lowerSize : ℕ := 128

/-- A tag outside of the table is hashed, in lower case and cut to the local buffer. -/
def languageFromTag (tag : Option CString) : UInt32 :=
  match tag with
  | none => erfLanguageNeutral
  | some tag =>
    if tag.bytes = [] ∨ tag.caseEq (.literal "neutral") then erfLanguageNeutral
    else
      match lookupName languageTags tag with
      | some id => id
      | none =>
        let h := elfrFnv1a32 ((tag.bytes.take (lowerSize - 1)).map CString.toLower)
        if h = 0 then 1 else h

end Elfr.Compiler
