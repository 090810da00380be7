import Elfr.Compiler.ManifestAcceptance
import Elfr.Container.RoundTrip

/-!
# The text of a manifest in its container

Names and metadata leave the document as counted bytes, and go on as C strings:
through the manifest, the string table and the metadata blocks to the reader. All
of a scalar arrives exactly if no NUL ends it early and, in metadata, its length
fits the stored one. The duplicate scan compares the C strings too.
-/
namespace Elfr.Compiler

open Library Common Format Elfr.Runtime

/-- The content of a scalar, all `length` bytes of it. -/
def scalarContent (node : Option YamlNode) : Option Bytes :=
  match node with
  | some ⟨_, .scalar value⟩ => some value
  | _ => none

theorem scalarDup_eq_map (node : Option YamlNode) :
    scalarDup node = (scalarContent node).map CString.ofBytes := by
  rcases node with _ | ⟨line, value | ids | pairs⟩ <;> rfl

def NulFree (node : Option YamlNode) : Prop :=
  ∀ value, scalarContent node = some value → (0 : UInt8) ∉ value

/-- Short enough for a metadata string. -/
def ShortText (node : Option YamlNode) : Prop :=
  ∀ value, scalarContent node = some value → value.length < 2 ^ 32 - 1

/-- The buffer has a string here that is the content of this scalar. -/
def HoldsText (buf : Bytes) (pos : ℕ) (node : Option YamlNode) : Prop :=
  ∃ s : CString, scalarContent node = some s.bytes ∧ StringAt buf pos s

section Scalar

variable {buf : Bytes} {pos : ℕ} {node : Option YamlNode} {s : CString}

theorem scalarContent_of_nulFree (hdup : scalarDup node = some s) (h : NulFree node) :
    scalarContent node = some s.bytes := by
  rw [scalarDup_eq_map] at hdup
  obtain ⟨value, hvalue, rfl⟩ := Option.map_eq_some_iff.mp hdup
  rw [hvalue, CString.bytes_ofBytes_iff.mpr (h value hvalue)]

theorem holdsText_of_nulFree (hdup : scalarDup node = some s) (hs : StringAt buf pos s)
    (h : NulFree node) : HoldsText buf pos node :=
  ⟨s, scalarContent_of_nulFree hdup h, hs⟩

theorem HoldsText.nulFree (h : HoldsText buf pos node) : NulFree node := by
  obtain ⟨s, hcontent, -⟩ := h
  intro value hvalue
  obtain rfl := Option.some.inj (hcontent.symm.trans hvalue)
  exact s.noNul

theorem HoldsText.short (h : HoldsText buf pos node) (hlt : buf.length < 2 ^ 32) :
    ShortText node := by
  obtain ⟨s, hcontent, hs⟩ := h
  intro value hvalue
  obtain rfl := Option.some.inj (hcontent.symm.trans hvalue)
  have hle := Segment.le hs
  rw [CString.length_terminated, CString.strlen] at hle
  omega

theorem ShortText.fits (h : ShortText node) (hdup : scalarDup node = some s)
    (hfree : NulFree node) : FitsPrefix s :=
  h _ (scalarContent_of_nulFree hdup hfree)

end Scalar

section Document

variable (ctx : ParseCtx)

def metadataPairs (item : YamlNode) : List (ℕ × ℕ) :=
  match field ctx item "metadata" with
  | some ⟨_, .mapping pairs⟩ => pairs
  | _ => []

/-- The name and the metadata the library shows of `r` are the scalars of this item. -/
structure ShowsItemText (c : ERFContainer) (r : ERFResource) (item : YamlNode) : Prop where
  name : HoldsText c.base r.name (field ctx item "name")
  count : erfMetadataCount (some c) (some r) = .ok (metadataPairs ctx item).length
  get : ∀ (j : ℕ) (hj : j < (metadataPairs ctx item).length) (out : OutVars), ∃ k v,
    erfMetadataGet (some c) (some r) j out = .ok (0, out.store k v) ∧
      HoldsText c.base k (nodeAt ctx (metadataPairs ctx item)[j].1) ∧
      HoldsText c.base v (nodeAt ctx (metadataPairs ctx item)[j].2)

/-- The buffer opens, and shows the text of these items in order. -/
def ShowsText (nodes : List YamlNode) (buf : Bytes) : Prop :=
  ∃ c, erfOpenMemory (some buf) buf.length = .ok (.ok c) ∧
    ∀ (i : ℕ) (hi : i < nodes.length), ∃ r, c.resources[i]? = some r ∧
      (∀ last, erfResourceAt (some c) (UInt32.ofNat i) last = (some i, last)) ∧
      ShowsItemText ctx c r nodes[i]

/-- No name, key or value has a NUL, and no key or value is too long for its length field. -/
structure TextFits (nodes : List YamlNode) : Prop where
  name : ∀ item ∈ nodes, NulFree (field ctx item "name")
  metadata : ∀ item ∈ nodes, ∀ pair ∈ metadataPairs ctx item,
    (NulFree (nodeAt ctx pair.1) ∧ ShortText (nodeAt ctx pair.1)) ∧
      NulFree (nodeAt ctx pair.2) ∧ ShortText (nodeAt ctx pair.2)

variable {ctx}

theorem metadataMeaning_eq (item : YamlNode) :
    metadataMeaning ctx item = (metadataPairs ctx item).map fun pair =>
      ⟨scalarDup (nodeAt ctx pair.1), scalarDup (nodeAt ctx pair.2)⟩ := by
  unfold metadataMeaning metadataPairs
  rcases field ctx item "metadata" with _ | ⟨line, value | ids | pairs⟩ <;> rfl

/-- The strings of an item are those of its scalars. -/
structure ItemStrings (ctx : ParseCtx) (node : YamlNode) (it : Item) : Prop where
  name : scalarDup (field ctx node "name") = some it.name
  metadata : List.Forall₂ (fun (pair : ℕ × ℕ) (kv : CString × CString) =>
    scalarDup (nodeAt ctx pair.1) = some kv.1 ∧ scalarDup (nodeAt ctx pair.2) = some kv.2)
    (metadataPairs ctx node) it.metadata

theorem AcceptedAs.itemStrings {fs files : FileSystem} {root : YamlNode} {nodes : List YamlNode}
    {m : ElfrcManifest} {items : List Item} (h : AcceptedAs fs ctx root nodes m)
    (hloads : List.Forall₂ (Loads files) m.resources items) :
    List.Forall₂ (ItemStrings ctx) nodes items := by
  rw [List.forall₂_iff_get]
  refine ⟨h.length_eq.symm.trans hloads.length_eq, fun i hi hi' => ?_⟩
  obtain ⟨r, hr, heq, -⟩ := h.get hi
  have hir : i < m.resources.length := h.length_eq ▸ hi
  obtain rfl : m.resources[i] = r :=
    Option.some.inj ((List.getElem?_eq_getElem hir).symm.trans hr)
  have hload : Loads files m.resources[i] items[i] := hloads.get hir hi'
  have hname : m.resources[i].name = scalarDup (field ctx nodes[i] "name") := by rw [heq]; rfl
  have hmetadata : m.resources[i].metadata = metadataMeaning ctx nodes[i] := by rw [heq]; rfl
  refine ⟨hname.symm.trans hload.name, ?_⟩
  have hstrings := (metadataMeaning_eq nodes[i]).symm.trans (hmetadata.symm.trans hload.metadata)
  rw [← List.forall₂_eq_eq_eq, List.forall₂_map_left_iff, List.forall₂_map_right_iff] at hstrings
  refine hstrings.imp fun pair kv hkv => ?_
  exact ElfrcMetadataKv.mk.inj hkv

/-- The strings of an item whose scalars fit are recovered as these. -/
theorem ItemStrings.shows {c : ERFContainer} {r : ERFResource} {node : YamlNode} {it : Item}
    (h : ItemStrings ctx node it) (hr : RecoversItem c r it)
    (hname : NulFree (field ctx node "name"))
    (hmetadata : ∀ pair ∈ metadataPairs ctx node,
      NulFree (nodeAt ctx pair.1) ∧ NulFree (nodeAt ctx pair.2)) : ShowsItemText ctx c r node where
  name := holdsText_of_nulFree h.name hr.name hname
  count := by
    rw [hr.metadata.count, h.metadata.length_eq]
  get := by
    intro j hj out
    have hj' : j < it.metadata.length := h.metadata.length_eq ▸ hj
    obtain ⟨hkey, hvalue⟩ := h.metadata.get hj hj'
    obtain ⟨hkfree, hvfree⟩ := hmetadata _ (List.getElem_mem hj)
    obtain ⟨k, v, hget, hk, hv⟩ := hr.metadata.get j hj' out
    exact ⟨k, v, hget, holdsText_of_nulFree hkey hk hkfree, holdsText_of_nulFree hvalue hv hvfree⟩

theorem ItemStrings.fits {node : YamlNode} {it : Item} (h : ItemStrings ctx node it)
    (hmetadata : ∀ pair ∈ metadataPairs ctx node,
      (NulFree (nodeAt ctx pair.1) ∧ ShortText (nodeAt ctx pair.1)) ∧
        NulFree (nodeAt ctx pair.2) ∧ ShortText (nodeAt ctx pair.2)) :
    ∀ kv ∈ it.metadata, FitsPrefix kv.1 ∧ FitsPrefix kv.2 := by
  intro kv hkv
  obtain ⟨j, hj, rfl⟩ := List.getElem_of_mem hkv
  have hj' : j < (metadataPairs ctx node).length := h.metadata.length_eq ▸ hj
  obtain ⟨hkey, hvalue⟩ := h.metadata.get hj' hj
  obtain ⟨⟨hkfree, hkshort⟩, hvfree, hvshort⟩ := hmetadata _ (List.getElem_mem hj')
  exact ⟨hkshort.fits hkey hkfree, hvshort.fits hvalue hvfree⟩

theorem ShowsText.fits {nodes : List YamlNode} {b : Bytes} (h : ShowsText ctx nodes b)
    (hlt : b.length < 2 ^ 32) : TextFits ctx nodes := by
  obtain ⟨c, hopen, hitems⟩ := h
  have hbase : c.base.length < 2 ^ 32 := by rwa [(erfOpenMemory_ok_iff.mp hopen).base]
  constructor
  · intro item hitem
    obtain ⟨i, hi, rfl⟩ := List.getElem_of_mem hitem
    obtain ⟨r, -, -, hr⟩ := hitems i hi
    exact hr.name.nulFree
  · intro item hitem pair hpair
    obtain ⟨i, hi, rfl⟩ := List.getElem_of_mem hitem
    obtain ⟨j, hj, rfl⟩ := List.getElem_of_mem hpair
    obtain ⟨r, -, -, hr⟩ := hitems i hi
    obtain ⟨k, v, -, hkey, hvalue⟩ := hr.get j hj ⟨none, none⟩
    exact ⟨⟨hkey.nulFree, hkey.short hbase⟩, hvalue.nulFree, hvalue.short hbase⟩

/-- A small container of an accepted manifest shows its text exactly if the text fits. -/
theorem AcceptedAs.showsText_iff {fs files : FileSystem} {root : YamlNode} {nodes : List YamlNode}
    {m : ElfrcManifest} {b : Bytes} (h : AcceptedAs fs ctx root nodes m)
    (hbuild : Builds files m b) (hlt : b.length < 2 ^ 32) :
    ShowsText ctx nodes b ↔ TextFits ctx nodes := by
  refine ⟨fun hshows => hshows.fits hlt, fun hfits => ?_⟩
  obtain ⟨items, im, hloads, him⟩ := hbuild.imageOf hlt
  have hstrings := h.itemStrings hloads
  have hshort : ∀ it ∈ items, ∀ kv ∈ it.metadata, FitsPrefix kv.1 ∧ FitsPrefix kv.2 := by
    intro it hit
    obtain ⟨i, hi, rfl⟩ := List.getElem_of_mem hit
    have hi' : i < nodes.length := hstrings.length_eq ▸ hi
    exact (hstrings.get hi' hi).fits (hfits.metadata _ (List.getElem_mem hi'))
  have hrecovers := him.recovers (t := []) (by rw [List.append_nil]; omega) hshort
  rw [List.append_nil] at hrecovers
  obtain ⟨c, hopen, -, hitems⟩ := hrecovers
  refine ⟨c, hopen, fun i hi => ?_⟩
  have hi' : i < items.length := hstrings.length_eq ▸ hi
  have hmem : nodes[i] ∈ nodes := List.getElem_mem hi
  obtain ⟨r, hr, hat, hitem⟩ := hitems i hi'
  refine ⟨r, hr, hat, (hstrings.get hi hi').shows hitem (hfits.name _ hmem) fun pair hpair => ?_⟩
  obtain ⟨⟨hkey, -⟩, hvalue, -⟩ := hfits.metadata _ hmem pair hpair
  exact ⟨hkey, hvalue⟩

end Document

section Duplicates

variable (ctx : ParseCtx) (root : YamlNode) (nodes : List YamlNode)

def nameContent (i : ℕ) : Option Bytes :=
  nodes[i]?.bind fun item => scalarContent (field ctx item "name")

/-- What a scalar has from its first NUL on. -/
def fromNul (value : Bytes) : Bytes := value.dropWhile (· ≠ 0)

/-- The parse has failed on the resources at `i` and `j`, as one name in one language. -/
def ReportsDuplicate (result : ParseResult) (i j : ℕ) : Prop :=
  ∃ out first second,
    Assigned (takenIds (resourcesMeaning ctx root nodes)) 0 (resourcesMeaning ctx root nodes) out ∧
      findDuplicate out = .ok (some (first, second)) ∧
      i < j ∧ out[i]? = some first ∧ out[j]? = some second ∧
      result = parseFailure (errorText ctx second.line (duplicateResource first second))

variable {ctx root nodes}

theorem eq_iff_fromNul {value value' : Bytes}
    (h : CString.ofBytes value = CString.ofBytes value') :
    value = value' ↔ fromNul value = fromNul value' := by
  have hhead : value.takeWhile (· ≠ 0) = value'.takeWhile (· ≠ 0) := congrArg CString.bytes h
  refine ⟨congrArg fromNul, fun htail => ?_⟩
  calc
    value = value.takeWhile (· ≠ 0) ++ fromNul value := List.takeWhile_append_dropWhile.symm
    _ = value'.takeWhile (· ≠ 0) ++ fromNul value' := by rw [hhead, htail]
    _ = value' := List.takeWhile_append_dropWhile

theorem name_of_assigned {out : List ElfrcResource} {taken : List ℕ}
    (h : Assigned taken 0 (resourcesMeaning ctx root nodes) out) {i : ℕ} {r : ElfrcResource}
    (hr : out[i]? = some r) : ∃ item, nodes[i]? = some item ∧
      r.name = scalarDup (field ctx item "name") := by
  have hkeys := congrArg (fun keys : List (Option CString × UInt32) => keys[i]?) h.map_resourceKey
  simp only [List.getElem?_map, hr, Option.map_some, resourcesMeaning] at hkeys
  obtain ⟨r', hr', hkey⟩ := Option.map_eq_some_iff.mp hkeys.symm
  obtain ⟨item, hitem, rfl⟩ := Option.map_eq_some_iff.mp hr'
  exact ⟨item, hitem, (congrArg Prod.fst hkey).symm⟩

theorem ReportsDuplicate.names {result : ParseResult} {i j : ℕ}
    (h : ReportsDuplicate ctx root nodes result i j) :
    ∃ value value', nameContent ctx nodes i = some value ∧
      nameContent ctx nodes j = some value' ∧ CString.ofBytes value = CString.ofBytes value' := by
  obtain ⟨out, first, second, hassigned, hfound, -, hi, hj, -⟩ := h
  obtain ⟨-, -, -, -, -, hkey, hnonnull⟩ := findDuplicate_eq_some hfound
  obtain ⟨item, hitem, hname⟩ := name_of_assigned hassigned hi
  obtain ⟨item', hitem', hname'⟩ := name_of_assigned hassigned hj
  have hsame : first.name = second.name := congrArg Prod.fst hkey
  obtain ⟨s, hs⟩ := Option.ne_none_iff_exists'.mp hnonnull
  rw [hs, scalarDup_eq_map] at hname
  rw [← hsame, hs, scalarDup_eq_map] at hname'
  obtain ⟨value, hvalue, hdup⟩ := Option.map_eq_some_iff.mp hname.symm
  obtain ⟨value', hvalue', hdup'⟩ := Option.map_eq_some_iff.mp hname'.symm
  refine ⟨value, value', ?_, ?_, hdup.trans hdup'.symm⟩
  · rw [nameContent, hitem, Option.bind_some, hvalue]
  · rw [nameContent, hitem', Option.bind_some, hvalue']

/-- If nothing is wrong with the items and the explicit identifiers, a failed parse is such a
report. -/
theorem exists_reportsDuplicate {fs : FileSystem} {path : CString} {doc : YamlDocument}
    {result : ParseResult} (h : Returns (elfrcManifestParse fs path (.loaded doc)) result)
    (hcode : result.code ≠ 0) (hr : HasResources (parseCtx path doc) root nodes)
    (hitems : ∀ node ∈ nodes,
      ItemValid (parseCtx path doc) fs (declaredDefaults (parseCtx path doc) root) node)
    (hids : (explicitIds (resourcesMeaning (parseCtx path doc) root nodes)).Nodup) :
    ∃ i j, ReportsDuplicate (parseCtx path doc) root nodes result i j := by
  obtain ⟨fuel, err, m, hfuel, hparsed, hok, hfail⟩ := exists_parseRoot h
  obtain ⟨out, found, hassigned, hfound, -, rfl⟩ :=
    (parseRoot_scan hr hfuel hparsed).2 hitems hids
  cases found with
  | none =>
    rw [hok rfl] at hcode
    exact absurd rfl hcode
  | some pair =>
    obtain rfl := hfail _ rfl
    obtain ⟨i, j, hlt, hi, hj, -⟩ := findDuplicate_eq_some hfound
    exact ⟨i, j, out, pair.1, pair.2, hassigned, hfound, hlt, hi, hj, rfl⟩

end Duplicates

/-- **When the text of a manifest is kept.** A small container of an accepted manifest shows
each name, key and value as all bytes of its scalar if and only if none of them has a NUL and no
key or value has 2^32 - 1 bytes or more. Two resources reported as duplicates have the same name
scalar if and only if their names have the same bytes from the first NUL on. -/
theorem manifest_text_kept_iff (fs : FileSystem) (path : CString) (doc : YamlDocument)
    (result : ParseResult) (hreturns : Returns (elfrcManifestParse fs path (.loaded doc)) result) :
    (result.code = 0 → ∃ root nodes, HasResources (parseCtx path doc) root nodes ∧
      ∀ files b, Builds files result.manifest b → b.length < 2 ^ 32 →
        (ShowsText (parseCtx path doc) nodes b ↔ TextFits (parseCtx path doc) nodes)) ∧
    ∀ root nodes i j, ReportsDuplicate (parseCtx path doc) root nodes result i j →
      (nameContent (parseCtx path doc) nodes i = nameContent (parseCtx path doc) nodes j ↔
        (nameContent (parseCtx path doc) nodes i).map fromNul =
          (nameContent (parseCtx path doc) nodes j).map fromNul) := by
  refine ⟨fun hcode => ?_, fun root nodes i j hreport => ?_⟩
  · obtain ⟨root, nodes, haccepted⟩ := acceptedAs_of_code hreturns hcode
    exact ⟨root, nodes, haccepted.toHasResources,
      fun files b hbuild hlt => haccepted.showsText_iff hbuild hlt⟩
  · obtain ⟨value, value', hi, hj, hsame⟩ := hreport.names
    rw [hi, hj, Option.map_some, Option.map_some, Option.some.injEq, Option.some.injEq]
    exact eq_iff_fromNul hsame

def inheritingRoot : YamlNode := ⟨0, .mapping [(2, 3), (4, 5), (6, 7), (14, 15)]⟩

def inheritingItems : List YamlNode :=
  [⟨7, .mapping [(17, 18), (19, 20), (21, 22), (23, 24), (25, 26), (29, 30), (35, 36)]⟩,
    ⟨14, .mapping [(38, 39), (40, 41), (42, 43), (44, 45), (46, 47)]⟩]

theorem inheritingDocument_hasResources {path : CString} :
    HasResources (parseCtx path inheritingDocument) inheritingRoot inheritingItems where
  isRoot := rfl
  mapping := ⟨_, rfl⟩
  version := show parseUint (some (.literal "1")) = some 1 by decide
  resources := ⟨_, _, rfl, rfl, .cons rfl (.cons rfl .nil)⟩

theorem inheritingManifest_builds :
    ∃ b, Builds emptyFiles inheritingManifest b ∧ b.length < 2 ^ 32 := by
  have hloads : List.Forall₂ (Loads emptyFiles) inheritingManifest.resources
      [⟨.literal "logo", [(.literal "width", .literal "16"), (.literal "alt", .literal "")], [],
          7, 5, 1031, 20⟩,
        ⟨.literal "logo", [], [], 1, 1, 1036, 8⟩] :=
    .cons ⟨rfl, rfl, ⟨_, _, rfl, rfl, by decide⟩, rfl, rfl, rfl, rfl⟩
      (.cons ⟨rfl, rfl, ⟨_, _, rfl, rfl, by decide⟩, rfl, rfl, rfl, rfl⟩ .nil)
  obtain ⟨b, im, hbuild, hlen, -⟩ := builds_of_loads hloads (by decide +kernel)
  exact ⟨b, hbuild, hlen ▸ by decide +kernel⟩

theorem manifest_text_kept_iff_inheriting :
    ∃ b, Builds emptyFiles inheritingManifest b ∧
      ShowsText (parseCtx (.literal "sample.elfrc") inheritingDocument) inheritingItems b := by
  have hreturns : Returns (elfrcManifestParse regularFiles (.literal "sample.elfrc")
      (.loaded inheritingDocument)) ⟨0, inheritingManifest, []⟩ := ⟨2, by decide +kernel⟩
  have hnames : ∀ item ∈ inheritingItems,
      ∀ value ∈ scalarContent (field (parseCtx (.literal "sample.elfrc") inheritingDocument)
        item "name"), (0 : UInt8) ∉ value := by decide +kernel
  have hmetadata : ∀ item ∈ inheritingItems,
      ∀ pair ∈ metadataPairs (parseCtx (.literal "sample.elfrc") inheritingDocument) item,
      ∀ id ∈ [pair.1, pair.2], ∀ value ∈ scalarContent
        (nodeAt (parseCtx (.literal "sample.elfrc") inheritingDocument) id),
      (0 : UInt8) ∉ value ∧ value.length < 2 ^ 32 - 1 := by decide +kernel
  obtain ⟨b, hbuild, hlt⟩ := inheritingManifest_builds
  obtain ⟨root, nodes, hresources, hshows⟩ := (manifest_text_kept_iff _ _ _ _ hreturns).1 rfl
  obtain ⟨rfl, rfl⟩ := hresources.unique inheritingDocument_hasResources
  refine ⟨b, hbuild, (hshows emptyFiles b hbuild hlt).mpr ⟨hnames, fun item hitem pair hpair => ?_⟩⟩
  have htext := hmetadata item hitem pair hpair
  exact ⟨⟨fun value hvalue => (htext pair.1 (by simp) value hvalue).1,
      fun value hvalue => (htext pair.1 (by simp) value hvalue).2⟩,
    fun value hvalue => (htext pair.2 (by simp) value hvalue).1,
    fun value hvalue => (htext pair.2 (by simp) value hvalue).2⟩

def singleManifest : ElfrcManifest where
  version := 1
  module := none
  resources :=
    [⟨some (.literal "a"), some (.literal "./f"), 0, 0, 0, 0, false, 0, 1, [], 3⟩]

theorem singleManifest_builds :
    ∃ b, Builds emptyFiles singleManifest b ∧ b.length < 2 ^ 32 := by
  have hloads : List.Forall₂ (Loads emptyFiles) singleManifest.resources
      [⟨.literal "a", [], [], 1, 0, 0, 0⟩] :=
    .cons ⟨rfl, rfl, ⟨_, _, rfl, rfl, by decide⟩, rfl, rfl, rfl, rfl⟩ .nil
  obtain ⟨b, im, hbuild, hlen, -⟩ := builds_of_loads hloads (by decide +kernel)
  exact ⟨b, hbuild, hlen ▸ by decide +kernel⟩

/-- Two resources whose names differ after a NUL. -/
def twinDocument : YamlDocument where
  nodes :=
    [⟨0, .mapping [(2, 3), (4, 5)]⟩,
      ⟨0, .scalar (ascii "version")⟩, ⟨0, .scalar (ascii "1")⟩,
      ⟨1, .scalar (ascii "resources")⟩, ⟨2, .sequence [6, 7]⟩,
      ⟨2, .mapping [(8, 9), (10, 11)]⟩, ⟨4, .mapping [(8, 12), (10, 11)]⟩,
      ⟨2, .scalar (ascii "name")⟩, ⟨2, .scalar [0x61, 0, 0x62]⟩,
      ⟨3, .scalar (ascii "file")⟩, ⟨3, .scalar (ascii "f")⟩, ⟨4, .scalar [0x61, 0, 0x63]⟩]
  linked := by decide
  counted := by simp

def twinItems : List YamlNode :=
  [⟨2, .mapping [(8, 9), (10, 11)]⟩, ⟨4, .mapping [(8, 12), (10, 11)]⟩]

theorem twinDocument_hasResources {path : CString} :
    HasResources (parseCtx path twinDocument) singleRoot twinItems where
  isRoot := rfl
  mapping := ⟨_, rfl⟩
  version := show parseUint (some (.literal "1")) = some 1 by decide
  resources := ⟨_, _, rfl, rfl, .cons rfl (.cons rfl .nil)⟩

theorem twinItems_valid : ∀ node ∈ twinItems,
    ItemValid (parseCtx (.literal "sample.elfrc") twinDocument) regularFiles
      (declaredDefaults (parseCtx (.literal "sample.elfrc") twinDocument) singleRoot) node := by
  have habsent : ∀ node ∈ twinItems, ∀ key ∈ ["type", "id", "metadata", "flags"],
      field (parseCtx (.literal "sample.elfrc") twinDocument) node key = none := by decide
  have hdefault : ∀ node ∈ twinItems, ∀ key ∈ ["compression", "encryption"],
      effective (parseCtx (.literal "sample.elfrc") twinDocument) node key
        (some (.literal "none")) = some (.literal "none") := by decide
  have hpresent : ∀ node ∈ twinItems,
      field (parseCtx (.literal "sample.elfrc") twinDocument) node "name" ≠ none ∧
      filePath (parseCtx (.literal "sample.elfrc") twinDocument) node =
        some (.literal "./f") := by decide +kernel
  intro node hnode
  have hnone : ∀ key ∈ ["type", "id", "metadata", "flags"], ∀ n,
      field (parseCtx (.literal "sample.elfrc") twinDocument) node key ≠ some n := by
    intro key hkey n hn
    rw [habsent node hnode key hkey] at hn
    cases hn
  exact {
    mapping := by
      rcases List.mem_cons.mp hnode with rfl | hnode
      · exact ⟨_, rfl⟩
      · obtain rfl := List.mem_singleton.mp hnode
        exact ⟨_, rfl⟩
    name := (hpresent node hnode).1
    file := ⟨_, (hpresent node hnode).2, rfl⟩
    type := fun n hn => absurd hn (hnone "type" (by simp) n)
    id := fun n hn => absurd hn (hnone "id" (by simp) n)
    compression := ⟨_, hdefault node hnode "compression" (by simp), by decide⟩
    encryption := ⟨_, hdefault node hnode "encryption" (by simp), .inl (by decide)⟩
    metadata := fun n hn => absurd hn (hnone "metadata" (by simp) n)
    flags := fun n hn => absurd hn (hnone "flags" (by simp) n) }

/-- A name with a NUL is accepted and comes back cut off, and two names that differ after a NUL
are reported as one. -/
theorem name_cut_at_nul :
    (∃ b, Returns (elfrcManifestParse regularFiles (.literal "sample.elfrc")
        (.loaded (singleDocument (ascii "1") [0x61, 0, 0x62]))) ⟨0, singleManifest, []⟩ ∧
      HasResources (parseCtx (.literal "sample.elfrc")
        (singleDocument (ascii "1") [0x61, 0, 0x62])) singleRoot [singleItem] ∧
      Builds emptyFiles singleManifest b ∧ b.length < 2 ^ 32 ∧
      ¬ ShowsText (parseCtx (.literal "sample.elfrc")
        (singleDocument (ascii "1") [0x61, 0, 0x62])) [singleItem] b) ∧
    ∃ result i j, Returns (elfrcManifestParse regularFiles (.literal "sample.elfrc")
        (.loaded twinDocument)) result ∧
      HasResources (parseCtx (.literal "sample.elfrc") twinDocument) singleRoot twinItems ∧
      ReportsDuplicate (parseCtx (.literal "sample.elfrc") twinDocument) singleRoot twinItems
        result i j ∧
      nameContent (parseCtx (.literal "sample.elfrc") twinDocument) twinItems i ≠
        nameContent (parseCtx (.literal "sample.elfrc") twinDocument) twinItems j := by
  constructor
  · obtain ⟨b, hbuild, hlt⟩ := singleManifest_builds
    refine ⟨b, ⟨2, by decide +kernel⟩, singleDocument_hasResources (by decide), hbuild, hlt,
      fun hshows => ?_⟩
    exact (hshows.fits hlt).name singleItem List.mem_cons_self [0x61, 0, 0x62] rfl (by decide)
  · have hcode : (elfrcManifestParse regularFiles (.literal "sample.elfrc")
        (.loaded twinDocument) 2).map ParseResult.code = .ok (-1) := by decide +kernel
    cases hparse : elfrcManifestParse regularFiles (.literal "sample.elfrc")
        (.loaded twinDocument) 2 with
    | error stop => simp [hparse, Except.map] at hcode
    | ok result =>
      have hcode' : result.code = -1 := by simpa [hparse, Except.map] using hcode
      obtain ⟨i, j, hreport⟩ := exists_reportsDuplicate ⟨2, hparse⟩ (by omega)
        twinDocument_hasResources twinItems_valid (by decide)
      refine ⟨result, i, j, ⟨2, hparse⟩, twinDocument_hasResources, hreport, ?_⟩
      obtain ⟨value, value', hi, hj, -⟩ := hreport.names
      obtain ⟨-, -, -, -, -, hlt, -⟩ := hreport
      have hj' : j < 2 := by
        by_contra hlarge
        have houtside : twinItems[j]? = none := List.getElem?_eq_none (not_lt.mp hlarge)
        rw [nameContent, houtside] at hj
        cases hj
      obtain ⟨rfl, rfl⟩ : i = 0 ∧ j = 1 := by omega
      decide

end Elfr.Compiler
