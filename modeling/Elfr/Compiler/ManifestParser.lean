import Elfr.Compiler.IdAssignment
import Elfr.Compiler.LookupTables

/-!
# The manifest parser

`manifest_yaml.c` from the document on. A function that may report takes the error
state and returns it; one that hands a string to `strcmp`, `strcasecmp` or `strdup`,
or looks into it, stops at a null one. Some checks report and go on, others end the
resource; the first report ends the list of resources.
-/
namespace Elfr.Compiler

open Library

structure Defaults where
  language : Option CString
  compression : Option CString
  encryption : Option CString
  deriving DecidableEq

/-- `resource '%s': ` and the rest of a message. -/
def aboutResource (r : ElfrcResource) (rest : Bytes) : Bytes :=
  ascii "resource '" ++ printString r.name ++ ascii "': " ++ rest

/-- A text followed by a value in quotes. -/
def quoting (text : String) (value : Option CString) : Bytes :=
  ascii text ++ ascii " '" ++ printString value ++ ascii "'"

/-- The loop over the keys so far. -/
def hasKey (key : CString) : List ElfrcMetadataKv → Exec Bool
  | [] => pure false
  | kv :: metadata => do
    let k ← Exec.deref kv.key
    if k = key then pure true else hasKey key metadata

def parsePairs (ctx : ParseCtx) (line : ℤ) :
    List (ℕ × ℕ) → ErrorState → ElfrcResource → Exec (ErrorState × ElfrcResource)
  | [], err, r => pure (err, r)
  | (k, v) :: pairs, err, r =>
    match scalarDup (nodeAt ctx k), scalarDup (nodeAt ctx v) with
    | some key, some val => do
      if ← hasKey key r.metadata then
        pure (setError ctx err line
          (aboutResource r (quoting "duplicate metadata key" (some key))), r)
      else
        parsePairs ctx line pairs err
          { r with metadata := r.metadata ++ [⟨some key, some val⟩] }
    | _, _ =>
      pure (setError ctx err line
        (aboutResource r (ascii "metadata keys/values must be scalars")), r)

def parseMetadata (ctx : ParseCtx) (metaMap : Option YamlNode) (err : ErrorState)
    (r : ElfrcResource) : Exec (ErrorState × ElfrcResource) :=
  match metaMap with
  | none => pure (err, r)
  | some ⟨_, .mapping pairs⟩ => parsePairs ctx (nodeLine metaMap) pairs err r
  | some _ =>
    pure (setError ctx err (nodeLine metaMap)
      (aboutResource r (ascii "'metadata' must be a mapping")), r)

def parseFlagNames (ctx : ParseCtx) (line : ℤ) :
    List ℕ → ErrorState → ElfrcResource → Exec (ErrorState × ElfrcResource)
  | [], err, r => pure (err, r)
  | item :: items, err, r =>
    match scalarDup (nodeAt ctx item) with
    | none =>
      pure (setError ctx err line
        (aboutResource r (quoting "unknown flag name" (some (.literal "?")))), r)
    | some name => do
      match ← flagFromName (some name) with
      | none =>
        pure (setError ctx err line (aboutResource r (quoting "unknown flag name" (some name))), r)
      | some bit => parseFlagNames ctx line items err { r with flags := r.flags ||| bit }

def parseFlags (ctx : ParseCtx) (flagsNode : Option YamlNode) (err : ErrorState)
    (r : ElfrcResource) : Exec (ErrorState × ElfrcResource) :=
  match flagsNode with
  | none => pure (err, r)
  | some ⟨_, .scalar _⟩ =>
    let s := scalarDup flagsNode
    match parseUint s with
    | some v => pure (err, { r with flags := v })
    | none =>
      pure (setError ctx err (nodeLine flagsNode)
        (aboutResource r (quoting "invalid 'flags' value" s)), r)
  | some ⟨_, .sequence items⟩ => parseFlagNames ctx (nodeLine flagsNode) items err r
  | some _ =>
    pure (setError ctx err (nodeLine flagsNode)
      (aboutResource r (ascii "'flags' must be an integer or a list of flag names")), r)

def zeroResource : ElfrcResource := ⟨none, none, 0, 0, 0, 0, false, 0, 0, [], 0⟩

def field (ctx : ParseCtx) (rnode : YamlNode) (key : String) : Option YamlNode :=
  mapGet ctx (some rnode) (.literal key)

/-- A copy of the resource's own value if it has the field, else of the default. -/
def ownOrDefault (node : Option YamlNode) (default : Option CString) : Exec (Option CString) :=
  match node with
  | some _ => pure (scalarDup node)
  | none => do
    let s ← Exec.deref default
    pure (some s)

def resolvePath (dir file : CString) : CString :=
  if file.bytes.head? = some 47 then file else dir ++ .literal "/" ++ file

def parseType (ctx : ParseCtx) (rnode : YamlNode) (err : ErrorState) (r : ElfrcResource) :
    Exec (ErrorState × ElfrcResource) :=
  match field ctx rnode "type" with
  | some typeN => do
    let typeS := scalarDup (some typeN)
    match ← typeFromName typeS with
    | some t => pure (err, { r with type := t })
    | none =>
      match parseUint typeS with
      | some t => pure (err, { r with type := t })
      | none =>
        pure (setError ctx err (nodeLine (some typeN))
          (aboutResource r (quoting "unknown type" typeS)), r)
  | none => do
    let file ← Exec.deref r.file
    pure (err, { r with type := typeFromExtension file })

def parseId (ctx : ParseCtx) (rnode : YamlNode) (err : ErrorState) (r : ElfrcResource) :
    ErrorState × ElfrcResource :=
  match field ctx rnode "id" with
  | none => (err, r)
  | some idN =>
    let idS := scalarDup (some idN)
    match parseUint idS with
    | some id => (err, { r with id := id, idExplicit := true })
    | none =>
      (setError ctx err (nodeLine (some idN))
        (aboutResource r (quoting "invalid 'id' value" idS)), { r with idExplicit := true })

def parseLanguage (ctx : ParseCtx) (defs : Defaults) (rnode : YamlNode) (r : ElfrcResource) :
    Exec ElfrcResource := do
  let langS ← ownOrDefault (field ctx rnode "language") defs.language
  pure { r with language := languageFromTag langS }

/-- Where a value comes from: the field if there is one, else the whole resource. -/
def fieldOrResource (node : Option YamlNode) (rnode : YamlNode) : Option YamlNode :=
  match node with
  | some n => some n
  | none => some rnode

def onlyNone : Bytes := ascii " (this version of elfrc only implements 'none')"

def parseCompression (ctx : ParseCtx) (defs : Defaults) (rnode : YamlNode) (err : ErrorState)
    (r : ElfrcResource) : Exec (ErrorState × ElfrcResource) := do
  let compN := field ctx rnode "compression"
  let compS ← ownOrDefault compN defs.compression
  match ← compressionFromName compS with
  | none =>
    pure (setError ctx err (nodeLine (fieldOrResource compN rnode))
      (aboutResource r (quoting "unknown compression algorithm" compS)), r)
  | some comp =>
    if comp ≠ erfCompressionNone then
      pure (setError ctx err (nodeLine (fieldOrResource compN rnode))
        (aboutResource r (quoting "unsupported compression algorithm" compS ++ onlyNone)), r)
    else pure (err, { r with compression := comp })

def parseEncryption (ctx : ParseCtx) (defs : Defaults) (rnode : YamlNode) (err : ErrorState)
    (r : ElfrcResource) : Exec ErrorState := do
  let encN := field ctx rnode "encryption"
  let encS ← ownOrDefault encN defs.encryption
  let enc ← Exec.deref encS
  if enc.caseEq (.literal "none") = false ∧ enc.bytes ≠ [] then
    pure (setError ctx err (nodeLine (fieldOrResource encN rnode))
      (aboutResource r (quoting "unsupported encryption algorithm" encS ++ onlyNone)))
  else pure err

/-- `parse_resource` from the type on; nothing here ends it early. -/
def parseFields (ctx : ParseCtx) (defs : Defaults) (rnode : YamlNode) (err : ErrorState)
    (r : ElfrcResource) : Exec (ErrorState × ElfrcResource) := do
  let (err, r) ← parseType ctx rnode err r
  let (err, r) := parseId ctx rnode err r
  let r ← parseLanguage ctx defs rnode r
  let (err, r) ← parseCompression ctx defs rnode err r
  let err ← parseEncryption ctx defs rnode err r
  let (err, r) ← parseMetadata ctx (field ctx rnode "metadata") err r
  parseFlags ctx (field ctx rnode "flags") err r

/-- The resource pushed on the array, if any. -/
def parseResource (ctx : ParseCtx) (fs : FileSystem) (defs : Defaults) (rnode : YamlNode)
    (err : ErrorState) : Exec (ErrorState × Option ElfrcResource) :=
  match rnode.data with
  | .mapping _ =>
    let r := { zeroResource with line := nodeLine (some rnode) }
    match field ctx rnode "name" with
    | none =>
      pure (setError ctx err r.line (ascii "resource is missing required field 'name'"), some r)
    | some nameN =>
      let r := { r with name := scalarDup (some nameN) }
      match field ctx rnode "file" with
      | none =>
        pure (setError ctx err r.line
          (quoting "resource" r.name ++ ascii " is missing required field 'file'"), some r)
      | some fileN => do
        let fileRel ← Exec.deref (scalarDup (some fileN))
        let file := resolvePath ctx.manifestDir fileRel
        let r := { r with file := some file }
        if fs.isRegular file then do
          let (err, r) ← parseFields ctx defs rnode err r
          pure (err, some r)
        else
          pure (setError ctx err r.line
            (aboutResource r (quoting "cannot open file" (some file))), some r)
  | _ =>
    pure (setError ctx err (nodeLine (some rnode))
      (ascii "each entry in 'resources' must be a mapping"), none)

def parseResources (ctx : ParseCtx) (fs : FileSystem) (defs : Defaults) :
    List ℕ → ErrorState → Exec (ErrorState × List ElfrcResource)
  | [], err => pure (err, [])
  | item :: items, err => do
    let rnode ← Exec.deref (nodeAt ctx item)
    let (err, r) ← parseResource ctx fs defs rnode err
    if err.isSome then pure (err, r.toList)
    else do
      let (err, rs) ← parseResources ctx fs defs items err
      pure (err, r.toList ++ rs)

/-- A default: the value of the field if `defaults` has it, else the built-in one. -/
def overridden (ctx : ParseCtx) (defaultsN : Option YamlNode) (key builtin : String) :
    Option CString :=
  match mapGet ctx defaultsN (.literal key) with
  | none => some (.literal builtin)
  | some n => scalarDup (some n)

def parseDefaults (ctx : ParseCtx) (root : YamlNode) : Defaults :=
  let defaultsN := field ctx root "defaults"
  ⟨overridden ctx defaultsN "language" "neutral", overridden ctx defaultsN "compression" "none",
    overridden ctx defaultsN "encryption" "none"⟩

def zeroManifest : ElfrcManifest := ⟨0, none, []⟩

/-- `elfrc_manifest_parse` from the root of the document to the label `done`. -/
def parseRoot (fs : FileSystem) (fuel : ℕ) (ctx : ParseCtx) : Exec (ErrorState × ElfrcManifest) :=
  match ctx.doc.getRootNode with
  | some ⟨line, .mapping pairs⟩ =>
    let root : YamlNode := ⟨line, .mapping pairs⟩
    match field ctx root "version" with
    | none =>
      pure (setError ctx none (nodeLine (some root))
        (ascii "manifest is missing required field 'version'"), zeroManifest)
    | some versionN =>
      let versionS := scalarDup (some versionN)
      if parseUint versionS ≠ some 1 then
        pure (setError ctx none (nodeLine (some versionN))
          (quoting "unsupported manifest version" versionS ++
            ascii " (only version 1 is supported)"), zeroManifest)
      else
        let m : ElfrcManifest := ⟨1, scalarDup (field ctx root "module"), []⟩
        match field ctx root "resources" with
        | some ⟨_, .sequence items⟩ => do
          let (err, resources) ← parseResources ctx fs (parseDefaults ctx root) items none
          let m := { m with resources := resources }
          if err.isSome then pure (err, m) else assignAndValidateIds fuel ctx err m
        | _ =>
          pure (setError ctx none (nodeLine (some root))
            (ascii "manifest is missing required sequence field 'resources'"), m)
  | _ =>
    pure (setError ctx none 0
      (ascii "manifest root must be a mapping with 'version' and 'resources' keys"), zeroManifest)

/-- What `fopen` and libyaml make of the manifest file. -/
inductive ManifestInput
  | unreadable (strerror : CString)
  | noParser
  | malformed (line : ℕ) (problem : Option CString)
  | loaded (doc : YamlDocument)

/-- The return value and what the caller finds in its two variables. -/
structure ParseResult where
  code : ℤ
  manifest : ElfrcManifest
  errbuf : Bytes
  deriving DecidableEq

def parseFailure (message : Bytes) : ParseResult := ⟨-1, zeroManifest, snprintf errbufSize message⟩

/-- The size of the local `pathbuf`. -/
def pathbufSize : ℕ := 4096

def parseCtx (path : CString) (doc : YamlDocument) : ParseCtx :=
  ⟨doc, path, .ofBytes (dirname (snprintf pathbufSize path.bytes))⟩

def elfrcManifestParse (fs : FileSystem) (path : CString) (input : ManifestInput) (fuel : ℕ) :
    Exec ParseResult :=
  match input with
  | .unreadable strerror =>
    pure (parseFailure (path.bytes ++ ascii ": error: cannot open manifest: " ++ strerror.bytes))
  | .noParser =>
    pure (parseFailure (path.bytes ++ ascii ": error: failed to initialize YAML parser"))
  | .malformed line problem =>
    pure (parseFailure (path.bytes ++ ascii ":" ++ printNumber (line + 1) ++
      ascii ": error: YAML parse error: " ++
      (problem.getD (.literal "malformed document")).bytes))
  | .loaded doc => do
    let (err, m) ← parseRoot fs fuel (parseCtx path doc)
    match err with
    | some message => pure (parseFailure message)
    | none => pure ⟨0, m, []⟩

end Elfr.Compiler
