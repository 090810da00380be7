import Elfr.Compiler.Manifest

/-!
# The manifest document and its diagnostics

What `manifest_yaml.c` reads and where it reports. A document is what libyaml's
loader leaves behind: an array of nodes that refer to each other by position,
aliases included, so that a node may occur at several places or inside itself.
Only the first error is kept, hence the state of `set_error` is that error, and a
check that reports at most one leaves the state it found if there was one before.
-/
namespace Elfr.Compiler

open Library

/-- The contents of a node. A node is referred to by its position, counted from 1. -/
inductive YamlNodeData
  | scalar (value : Bytes)
  | sequence (items : List ℕ)
  | mapping (pairs : List (ℕ × ℕ))
  deriving DecidableEq

def YamlNodeData.children : YamlNodeData → List ℕ
  | .scalar _ => []
  | .sequence items => items
  | .mapping pairs => pairs.flatMap fun pair => [pair.1, pair.2]

structure YamlNode where
  /-- `start_mark.line`, counted from 0. -/
  line : ℕ
  data : YamlNodeData
  deriving DecidableEq

/-- A loaded document. Every node it refers to exists, and since libyaml's loader counts
in `int`, a sequence has fewer than 2^31 items. -/
structure YamlDocument where
  nodes : List YamlNode
  linked : ∀ node ∈ nodes, ∀ id ∈ node.data.children, 1 ≤ id ∧ id ≤ nodes.length
  counted : ∀ node ∈ nodes, ∀ items, node.data = .sequence items → items.length < 2 ^ 31

/-- `yaml_document_get_node`. -/
def YamlDocument.getNode (doc : YamlDocument) (id : ℕ) : Option YamlNode :=
  if id = 0 then none else doc.nodes[id - 1]?

def YamlDocument.getRootNode (doc : YamlDocument) : Option YamlNode := doc.nodes.head?

/-- The fields of `struct parse_ctx` that stay as they are. -/
structure ParseCtx where
  doc : YamlDocument
  manifestPath : CString
  manifestDir : CString

def nodeAt (ctx : ParseCtx) (id : ℕ) : Option YamlNode :=
  if id = 0 then none else ctx.doc.getNode id

/-- The conversion to `int` keeps the low 32 bits. -/
def nodeLine (node : Option YamlNode) : ℤ :=
  match node with
  | none => 0
  | some n => (BitVec.ofNat 32 (n.line + 1)).toInt

def scalarDup (node : Option YamlNode) : Option CString :=
  match node with
  | some ⟨_, .scalar value⟩ => some (.ofBytes value)
  | _ => none

/-- The test of `map_get` on the value of a scalar key. -/
def keyMatches (value : Bytes) (key : CString) : Bool :=
  strncmpEq value key.bytes value.length && key.strlen == value.length

def findKey (ctx : ParseCtx) (key : CString) : List (ℕ × ℕ) → Option YamlNode
  | [] => none
  | (k, v) :: pairs =>
    match nodeAt ctx k with
    | some ⟨_, .scalar value⟩ =>
      if keyMatches value key then nodeAt ctx v else findKey ctx key pairs
    | _ => findKey ctx key pairs

def mapGet (ctx : ParseCtx) (map : Option YamlNode) (key : CString) : Option YamlNode :=
  match map with
  | some ⟨_, .mapping pairs⟩ => findKey ctx key pairs
  | _ => none

/-- The value read, or nothing where the source returns -1. -/
def parseUint (s : Option CString) : Option UInt32 :=
  match s with
  | none => none
  | some s =>
    if s.bytes = [] then none
    else
      let (v, rest) := strtol s.bytes
      if rest ≠ [] ∨ v < 0 then none else some (UInt32.ofNat v.toNat)

section Nodes

variable {ctx : ParseCtx}

theorem nodeAt_isSome {node : YamlNode} (hnode : node ∈ ctx.doc.nodes) {id : ℕ}
    (hid : id ∈ node.data.children) : ∃ child ∈ ctx.doc.nodes, nodeAt ctx id = some child := by
  obtain ⟨hpos, hle⟩ := ctx.doc.linked node hnode id hid
  have hlt : id - 1 < ctx.doc.nodes.length := by omega
  refine ⟨ctx.doc.nodes[id - 1], List.getElem_mem hlt, ?_⟩
  simp [nodeAt, YamlDocument.getNode, Nat.ne_of_gt hpos, hlt]

theorem keyMatches_iff {value : Bytes} {key : CString} :
    keyMatches value key = true ↔ value = key.bytes := by
  unfold keyMatches
  rw [Bool.and_eq_true, beq_iff_eq, CString.strlen]
  constructor
  · rintro ⟨hcmp, hlen⟩
    exact (strncmpEq_iff key.noNul hlen).mp hcmp
  · rintro rfl
    exact ⟨(strncmpEq_iff key.noNul rfl).mpr rfl, rfl⟩

theorem scalarDup_eq_none_iff {node : YamlNode} :
    scalarDup (some node) = none ↔ ∀ value, node.data ≠ .scalar value := by
  obtain ⟨line, data⟩ := node
  cases data <;> simp [scalarDup]

end Nodes

/-- What `set_error` changes: `failed`, and with it the text in `errbuf_local`. -/
abbrev ErrorState := Option Bytes

/-- A `%s` argument; the C libraries in use print a null one as `(null)`. -/
def printString (s : Option CString) : Bytes :=
  match s with
  | none => ascii "(null)"
  | some s => s.bytes

/-- A `%d` or `%u` argument. -/
def printNumber (v : ℤ) : Bytes := ascii (toString v)

/-- The size of the local `msg` of `set_error`. -/
def msgSize : ℕ := 400

def errorText (ctx : ParseCtx) (line : ℤ) (message : Bytes) : Bytes :=
  let msg := snprintf msgSize message
  if line > 0 then
    snprintf errbufSize
      (ctx.manifestPath.bytes ++ ascii ":" ++ printNumber line ++ ascii ": error: " ++ msg)
  else snprintf errbufSize (ctx.manifestPath.bytes ++ ascii ": error: " ++ msg)

def setError (ctx : ParseCtx) (err : ErrorState) (line : ℤ) (message : Bytes) : ErrorState :=
  match err with
  | some first => some first
  | none => some (errorText ctx line message)

theorem setError_ne_none (ctx : ParseCtx) (err : ErrorState) (line : ℤ) (message : Bytes) :
    setError ctx err line message ≠ none := by
  cases err <;> simp [setError]

theorem errorText_ne_nil (ctx : ParseCtx) (line : ℤ) (message : Bytes) :
    errorText ctx line message ≠ [] := by
  unfold errorText snprintf
  split_ifs <;> simp [errbufSize, ascii]

/-- Some steps of the parser took the error state from `err` to `err'` and reported
nothing exactly if `valid` holds; an earlier error stays, a new one has a text. -/
structure Checked (err err' : ErrorState) (valid : Prop) : Prop where
  none_iff : err' = none ↔ err = none ∧ valid
  kept : ∀ {first}, err = some first → err' = some first
  text : ∀ {first}, err' = some first → err = some first ∨ first ≠ []

section Checked

variable {err err₁ err₂ : ErrorState} {p q : Prop}

theorem Checked.skip (hp : p) : Checked err err p := ⟨by simp [hp], id, Or.inl⟩

theorem Checked.report (ctx : ParseCtx) (line : ℤ) (message : Bytes) (hp : ¬ p) :
    Checked err (setError ctx err line message) p := by
  have hiff : setError ctx err line message = none ↔ err = none ∧ p :=
    iff_of_false (setError_ne_none ctx err line message) fun h => hp h.2
  cases err with
  | some first => exact ⟨hiff, id, Or.inl⟩
  | none =>
    refine ⟨hiff, by simp, ?_⟩
    rintro first ⟨⟩
    exact Or.inr (errorText_ne_nil ctx line message)

theorem Checked.trans (h₁ : Checked err err₁ p) (h₂ : Checked err₁ err₂ q) :
    Checked err err₂ (p ∧ q) := by
  refine ⟨?_, fun h => h₂.kept (h₁.kept h), fun h => (h₂.text h).elim h₁.text Or.inr⟩
  rw [h₂.none_iff, h₁.none_iff, and_assoc]

theorem Checked.congr (h : Checked err err₁ p) (hpq : p ↔ q) : Checked err err₁ q := by
  rwa [← propext hpq]

theorem Checked.isSome_iff (h : Checked none err p) : err.isSome = true ↔ ¬ p := by
  rw [Option.isSome_iff_ne_none, ne_eq, h.none_iff]
  simp

end Checked

end Elfr.Compiler
