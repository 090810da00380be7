import Elfr.Compiler.ManifestParser

/-!
# Valid manifests and their meaning

What a manifest says, apart from how the parser goes through it. A resource is valid
if each of its fields is, and then the fields determine what the parser stores. Which
strings the parser follows without a test is a question of its own: a resource is
null-safe if these are scalars.
-/
namespace Elfr.Compiler

open Library

section Resource

variable (ctx : ParseCtx) (fs : FileSystem) (defs : Defaults) (item : YamlNode)

/-- The value of a field, or the default where the resource does not have the field. -/
def effective (key : String) (default : Option CString) : Option CString :=
  match field ctx item key with
  | some n => scalarDup (some n)
  | none => default

/-- The path of the resource's file. -/
def filePath : Option CString :=
  (scalarDup (field ctx item "file")).map (resolvePath ctx.manifestDir)

def TypeValid : Prop :=
  ∀ n, field ctx item "type" = some n →
    ∃ s, scalarDup (some n) = some s ∧ (Known typeNames s ∨ parseUint (some s) ≠ none)

def IdValid : Prop :=
  ∀ n, field ctx item "id" = some n → parseUint (scalarDup (some n)) ≠ none

def CompressionValid : Prop :=
  ∃ s, effective ctx item "compression" defs.compression = some s ∧
    s.caseEq (.literal "none") = true

def EncryptionValid : Prop :=
  ∃ s, effective ctx item "encryption" defs.encryption = some s ∧
    (s.caseEq (.literal "none") = true ∨ s.bytes = [])

/-- Keys and values are scalars, and no key is repeated. -/
def MetadataValid : Prop :=
  ∀ n, field ctx item "metadata" = some n → ∃ pairs, n.data = .mapping pairs ∧
    (∀ pair ∈ pairs,
      scalarDup (nodeAt ctx pair.1) ≠ none ∧ scalarDup (nodeAt ctx pair.2) ≠ none) ∧
    (pairs.map fun pair => scalarDup (nodeAt ctx pair.1)).Nodup

/-- A number, or a sequence of the names of flags. -/
def FlagsValid : Prop :=
  ∀ n, field ctx item "flags" = some n → parseUint (scalarDup (some n)) ≠ none ∨
    ∃ ids, n.data = .sequence ids ∧
      ∀ id ∈ ids, ∃ name, scalarDup (nodeAt ctx id) = some name ∧ Known flagNames name

structure ItemValid : Prop where
  mapping : ∃ pairs, item.data = .mapping pairs
  name : field ctx item "name" ≠ none
  file : ∃ path, filePath ctx item = some path ∧ fs.isRegular path = true
  type : TypeValid ctx item
  id : IdValid ctx item
  compression : CompressionValid ctx defs item
  encryption : EncryptionValid ctx defs item
  metadata : MetadataValid ctx item
  flags : FlagsValid ctx item

/-- The strings that are compared or copied from the type on are present. -/
structure FieldsSafe : Prop where
  type : ∀ n, field ctx item "type" = some n → scalarDup (some n) ≠ none
  language : field ctx item "language" = none → defs.language ≠ none
  compression : effective ctx item "compression" defs.compression ≠ none
  encryption : effective ctx item "encryption" defs.encryption ≠ none

/-- So is the path, in a resource that has a name and a file. -/
def ItemSafe : Prop :=
  ∀ pairs nameN fileN, item.data = .mapping pairs → field ctx item "name" = some nameN →
    field ctx item "file" = some fileN → ∃ path, filePath ctx item = some path ∧
      (fs.isRegular path = true → FieldsSafe ctx defs item)

/-- A name before a number; without the field the extension decides. -/
def typeMeaning (path : CString) : Option UInt32 :=
  match field ctx item "type" with
  | some n => ((scalarDup (some n)).bind (lookupName typeNames)).or (parseUint (scalarDup (some n)))
  | none => some (typeFromExtension path)

def metadataMeaning : List ElfrcMetadataKv :=
  match field ctx item "metadata" with
  | some ⟨_, .mapping pairs⟩ =>
    pairs.map fun pair => ⟨scalarDup (nodeAt ctx pair.1), scalarDup (nodeAt ctx pair.2)⟩
  | _ => []

/-- The bits of the names in a sequence, added to some flags. -/
def flagBits (ids : List ℕ) (flags : UInt32) : UInt32 :=
  ids.foldl (fun flags id =>
    flags ||| ((scalarDup (nodeAt ctx id)).bind (lookupName flagNames)).getD 0) flags

def flagsMeaning : UInt32 :=
  match field ctx item "flags" with
  | some ⟨_, .sequence ids⟩ => flagBits ctx ids 0
  | n => (parseUint (scalarDup n)).getD 0

/-- The resource a valid item describes, before identifiers are assigned. -/
def resourceMeaning : ElfrcResource where
  name := scalarDup (field ctx item "name")
  file := filePath ctx item
  type := ((filePath ctx item).bind (typeMeaning ctx item)).getD 0
  language := languageFromTag (effective ctx item "language" defs.language)
  compression := erfCompressionNone
  flags := flagsMeaning ctx item
  idExplicit := (field ctx item "id").isSome
  id := (parseUint (scalarDup (field ctx item "id"))).getD 0
  finalId := 0
  metadata := metadataMeaning ctx item
  line := nodeLine (some item)

end Resource

section Manifest

variable (ctx : ParseCtx) (fs : FileSystem)

/-- The document has a root mapping of version 1 and a sequence of resources, whose
items are these nodes. -/
structure HasResources (root : YamlNode) (nodes : List YamlNode) : Prop where
  isRoot : ctx.doc.getRootNode = some root
  mapping : ∃ pairs, root.data = .mapping pairs
  version : parseUint (scalarDup (field ctx root "version")) = some 1
  resources : ∃ n items, field ctx root "resources" = some n ∧ n.data = .sequence items ∧
    List.Forall₂ (fun id node => nodeAt ctx id = some node) items nodes

/-- What the resources of a manifest inherit in a field: the value in `defaults` if there is
one, else the built-in one. -/
def inherited (root : YamlNode) (key builtin : String) : Option CString :=
  match (field ctx root "defaults").bind fun defaults => field ctx defaults key with
  | some n => scalarDup (some n)
  | none => some (.literal builtin)

def declaredDefaults (root : YamlNode) : Defaults where
  language := inherited ctx root "language" "neutral"
  compression := inherited ctx root "compression" "none"
  encryption := inherited ctx root "encryption" "none"

/-- The resources of a manifest, before identifiers are assigned. -/
def resourcesMeaning (root : YamlNode) (nodes : List YamlNode) : List ElfrcResource :=
  nodes.map (resourceMeaning ctx (declaredDefaults ctx root))

structure ManifestValid (root : YamlNode) (nodes : List YamlNode) : Prop
    extends HasResources ctx root nodes where
  items : ∀ node ∈ nodes, ItemValid ctx fs (declaredDefaults ctx root) node
  ids : (explicitIds (resourcesMeaning ctx root nodes)).Nodup
  keys : ((resourcesMeaning ctx root nodes).map resourceKey).Nodup

theorem overridden_eq_inherited (root : YamlNode) (key builtin : String) :
    overridden ctx (field ctx root "defaults") key builtin = inherited ctx root key builtin := by
  unfold overridden inherited
  cases hd : field ctx root "defaults" with
  | none => rfl
  | some d =>
    have hfield : mapGet ctx (some d) (.literal key) = field ctx d key := rfl
    rw [hfield, Option.bind_some]
    cases field ctx d key <;> rfl

/-- The parser fills in what the document declares. -/
theorem parseDefaults_eq (root : YamlNode) :
    parseDefaults ctx root = declaredDefaults ctx root := by
  unfold parseDefaults declaredDefaults
  simp only [overridden_eq_inherited]

end Manifest

end Elfr.Compiler
