import Elfr.Compiler.ResourceParsing

/-!
# Which manifests are accepted

The parser on whole documents. Without the parts every manifest has it reports an
error; with them it goes through the items and then assigns identifiers, and the first
error of all decides. Where the fields that must be text are scalars, it always returns,
and accepts exactly the valid manifests.
-/
namespace Elfr.Compiler

open Library

section Root

variable {ctx : ParseCtx}

theorem nodeAt_mem {id : ℕ} {n : YamlNode} (h : nodeAt ctx id = some n) : n ∈ ctx.doc.nodes := by
  unfold nodeAt YamlDocument.getNode at h
  split_ifs at h
  exact List.mem_of_getElem? h

theorem findKey_mem {key : CString} {pairs : List (ℕ × ℕ)} {n : YamlNode}
    (h : findKey ctx key pairs = some n) : n ∈ ctx.doc.nodes := by
  induction pairs with
  | nil => simp [findKey] at h
  | cons pair pairs ih =>
    unfold findKey at h
    split at h
    · split_ifs at h
      exacts [nodeAt_mem h, ih h]
    · exact ih h

theorem field_mem {node n : YamlNode} {key : String} (h : field ctx node key = some n) :
    n ∈ ctx.doc.nodes := by
  obtain ⟨line, data⟩ := node
  cases data with
  | mapping pairs => exact findKey_mem h
  | scalar value => simp [field, mapGet] at h
  | sequence items => simp [field, mapGet] at h

theorem exists_itemNodes {n : YamlNode} (hn : n ∈ ctx.doc.nodes) {items : List ℕ}
    (hdata : n.data = .sequence items) :
    ∃ nodes, List.Forall₂ (fun id node => nodeAt ctx id = some node) items nodes := by
  have hchildren : ∀ id ∈ items, id ∈ n.data.children := by
    rw [hdata]
    exact fun id hid => hid
  clear hdata
  induction items with
  | nil => exact ⟨[], .nil⟩
  | cons id items ih =>
    obtain ⟨hid, hrest⟩ := List.forall_mem_cons.mp hchildren
    obtain ⟨node, -, hnode⟩ := nodeAt_isSome hn hid
    obtain ⟨nodes, hnodes⟩ := ih hrest
    exact ⟨node :: nodes, .cons hnode hnodes⟩

def manifestOf (ctx : ParseCtx) (root : YamlNode) (resources : List ElfrcResource) :
    ElfrcManifest :=
  ⟨1, scalarDup (field ctx root "module"), resources⟩

/-- What is left of the parser once the resources are found. -/
theorem parseRoot_of_hasResources {root : YamlNode} {nodes : List YamlNode}
    (h : HasResources ctx root nodes) : ∃ items,
      List.Forall₂ (fun id node => nodeAt ctx id = some node) items nodes ∧
      items.length < 2 ^ 31 ∧ ∀ fs fuel, parseRoot fs fuel ctx = (do
        let (err, resources) ← parseResources ctx fs (declaredDefaults ctx root) items none
        if err.isSome then pure (err, manifestOf ctx root resources)
        else assignAndValidateIds fuel ctx err (manifestOf ctx root resources)) := by
  obtain ⟨n, items, hfield, hdata, hnodes⟩ := h.resources
  obtain ⟨pairs, hroot⟩ := h.mapping
  have hversion := h.version
  refine ⟨items, hnodes, ctx.doc.counted n (field_mem hfield) items hdata, fun fs fuel => ?_⟩
  obtain ⟨line, data⟩ := root
  obtain rfl : data = .mapping pairs := hroot
  obtain ⟨nline, ndata⟩ := n
  obtain rfl : ndata = .sequence items := hdata
  cases hversionN : field ctx ⟨line, .mapping pairs⟩ "version" with
  | none => simp [hversionN, scalarDup, parseUint] at hversion
  | some versionN =>
    rw [hversionN] at hversion
    simp only [parseRoot, h.isRoot, hversionN, hversion, ne_eq, not_true_eq_false, ↓reduceIte,
      hfield, manifestOf, parseDefaults_eq]

theorem HasResources.unique {root root' : YamlNode} {nodes nodes' : List YamlNode}
    (h : HasResources ctx root nodes) (h' : HasResources ctx root' nodes') :
    root = root' ∧ nodes = nodes' := by
  obtain rfl : root = root' := Option.some.inj (h.isRoot.symm.trans h'.isRoot)
  obtain ⟨n, items, hfield, hdata, hnodes⟩ := h.resources
  obtain ⟨n', items', hfield', hdata', hnodes'⟩ := h'.resources
  obtain rfl : n = n' := Option.some.inj (hfield.symm.trans hfield')
  obtain rfl : items = items' := by
    rw [hdata] at hdata'
    exact YamlNodeData.sequence.inj hdata'
  have hfunction : Relator.RightUnique fun id node => nodeAt ctx id = some node :=
    fun _ _ _ hnode hnode' => Option.some.inj (hnode.symm.trans hnode')
  exact ⟨rfl, List.right_unique_forall₂' hfunction hnodes hnodes'⟩

theorem parseRoot_of_not_hasResources (h : ∀ root nodes, ¬ HasResources ctx root nodes) :
    ∃ line message m, ∀ fs fuel,
      parseRoot fs fuel ctx = .ok (some (errorText ctx line message), m) := by
  unfold parseRoot
  split
  next line pairs hroot =>
    dsimp only
    split
    · exact ⟨_, _, _, fun _ _ => rfl⟩
    next versionN hversionN =>
      by_cases hversion : parseUint (scalarDup (some versionN)) = some 1
      · simp only [hversion, ne_eq, not_true_eq_false, ↓reduceIte]
        split
        next n nline items hfield =>
          obtain ⟨nodes, hnodes⟩ := exists_itemNodes (field_mem hfield) rfl
          exact absurd ⟨hroot, ⟨pairs, rfl⟩, by rw [hversionN, hversion], ⟨_, items, hfield, rfl,
            hnodes⟩⟩ (h _ nodes)
        · exact ⟨_, _, _, fun _ _ => rfl⟩
      · simp only [ne_eq, hversion, not_false_eq_true, ↓reduceIte]
        exact ⟨_, _, _, fun _ _ => rfl⟩
  · exact ⟨_, _, _, fun _ _ => rfl⟩

/-- Null-safe items are parsed; if they are all valid, the assignment of identifiers is
all that is left. -/
theorem parseRoot_of_reachedSafe {fs : FileSystem} {root : YamlNode} {nodes : List YamlNode}
    (h : HasResources ctx root nodes)
    (hsafe : ReachedSafe ctx fs (declaredDefaults ctx root) nodes) :
    (∃ message m, message ≠ [] ∧ (∀ fuel, parseRoot fs fuel ctx = .ok (some message, m)) ∧
      ¬ ∀ node ∈ nodes, ItemValid ctx fs (declaredDefaults ctx root) node) ∨
    (∀ node ∈ nodes, ItemValid ctx fs (declaredDefaults ctx root) node) ∧
      (resourcesMeaning ctx root nodes).length < 2 ^ 31 ∧
      ∀ fuel, parseRoot fs fuel ctx = assignAndValidateIds fuel ctx none
        (manifestOf ctx root (resourcesMeaning ctx root nodes)) := by
  obtain ⟨items, hnodes, hlt, heq⟩ := parseRoot_of_hasResources h
  obtain ⟨err, rs, hparsed, hchecked, hmeaning⟩ := parseResources_spec hnodes hsafe
  cases err with
  | some message =>
    refine Or.inl ⟨message, manifestOf ctx root rs,
      (hchecked.text rfl).elim (fun h => nomatch h) id,
      fun fuel => ?_, hchecked.isSome_iff.mp rfl⟩
    rw [heq, hparsed]
    rfl
  | none =>
    have hitems := (hchecked.none_iff.mp rfl).2
    refine Or.inr ⟨hitems, ?_, fun fuel => ?_⟩
    · rw [resourcesMeaning, List.length_map, ← hnodes.length_eq]
      exact hlt
    · rw [heq, hparsed, hmeaning hitems]
      rfl

/-- The parser with resources whose items are null-safe and, once valid, have names. -/
theorem parseRoot_spec (fs : FileSystem) (fuel : ℕ) {root : YamlNode} {nodes : List YamlNode}
    (h : HasResources ctx root nodes)
    (hsafe : ReachedSafe ctx fs (declaredDefaults ctx root) nodes)
    (hnames : (∀ node ∈ nodes, ItemValid ctx fs (declaredDefaults ctx root) node) →
      ∀ r ∈ resourcesMeaning ctx root nodes, r.name ≠ none) (hfuel : 2 ^ 31 ≤ fuel) :
    ∃ err m, parseRoot fs fuel ctx = .ok (err, m) ∧
      Checked none err (ManifestValid ctx fs root nodes) ∧
      (ManifestValid ctx fs root nodes → m = manifestOf ctx root m.resources ∧
        Assigned (takenIds (resourcesMeaning ctx root nodes)) 0 (resourcesMeaning ctx root nodes)
          m.resources) := by
  rcases parseRoot_of_reachedSafe h hsafe with
    ⟨message, m, htext, heq, hinvalid⟩ | ⟨hitems, hlength, heq⟩
  · have hnot : ¬ ManifestValid ctx fs root nodes := fun hv => hinvalid hv.items
    refine ⟨_, m, heq fuel, ⟨by simp [hnot], nofun, ?_⟩, fun hv => absurd hv hnot⟩
    rintro first ⟨⟩
    exact Or.inr htext
  · have hvalid : (explicitIds (resourcesMeaning ctx root nodes)).Nodup ∧
        ((resourcesMeaning ctx root nodes).map resourceKey).Nodup ↔
        ManifestValid ctx fs root nodes :=
      ⟨fun hv => ⟨h, hitems, hv.1, hv.2⟩, fun hv => ⟨hv.ids, hv.keys⟩⟩
    obtain ⟨err, m, hassign, hchecked, hassigned⟩ := assignAndValidateIds_spec fuel ctx none
      (m := manifestOf ctx root (resourcesMeaning ctx root nodes))
      (by simp only [manifestOf]; omega) (by simp only [manifestOf]; omega) (hnames hitems)
    refine ⟨err, m, (heq fuel).trans hassign, hchecked.congr hvalid, fun hv => ?_⟩
    obtain ⟨out, rfl, hout⟩ := hassigned hv.ids
    exact ⟨rfl, hout⟩

end Root

section Manifest

variable (ctx : ParseCtx)

def IsScalar (n : YamlNode) : Prop := ∃ value, n.data = .scalar value

/-- The fields of a resource that must be text. -/
def textFields : List String :=
  ["name", "file", "type", "id", "language", "compression", "encryption"]

/-- These fields, the version and the defaults are scalars where they are present. -/
structure ScalarFields : Prop where
  version : ∀ root n, ctx.doc.getRootNode = some root → field ctx root "version" = some n →
    IsScalar n
  defaults : ∀ root d n, ctx.doc.getRootNode = some root → field ctx root "defaults" = some d →
    ∀ key ∈ ["language", "compression", "encryption"], field ctx d key = some n → IsScalar n
  resources : ∀ root list items, ctx.doc.getRootNode = some root →
    field ctx root "resources" = some list → list.data = .sequence items →
    ∀ id ∈ items, ∀ item n, nodeAt ctx id = some item →
      ∀ key ∈ textFields, field ctx item key = some n → IsScalar n

variable {ctx}

theorem isScalar_iff {n : YamlNode} : IsScalar n ↔ scalarDup (some n) ≠ none := by
  simp [IsScalar, scalarDup_eq_none_iff]

/-- A present field, or else a present default. -/
theorem effective_ne_none {item : YamlNode} {key : String} {default : Option CString}
    (hfield : ∀ n, field ctx item key = some n → IsScalar n) (hdefault : default ≠ none) :
    effective ctx item key default ≠ none := by
  unfold effective
  cases hn : field ctx item key with
  | none => exact hdefault
  | some n => exact isScalar_iff.mp (hfield n hn)

theorem ScalarFields.inherited_ne_none (h : ScalarFields ctx) {root : YamlNode}
    (hroot : ctx.doc.getRootNode = some root) {key builtin : String}
    (hkey : key ∈ ["language", "compression", "encryption"]) :
    inherited ctx root key builtin ≠ none := by
  unfold inherited
  cases hn : (field ctx root "defaults").bind fun defaults => field ctx defaults key with
  | none => simp
  | some n =>
    obtain ⟨d, hd, hkeyed⟩ := Option.bind_eq_some_iff.mp hn
    exact isScalar_iff.mp (h.defaults root d n hroot hd key hkey hkeyed)

theorem itemSafe_of_scalars {fs : FileSystem} {defs : Defaults} {item : YamlNode}
    (hitem : ∀ key ∈ textFields, ∀ n, field ctx item key = some n → IsScalar n)
    (hlanguage : defs.language ≠ none) (hcompression : defs.compression ≠ none)
    (hencryption : defs.encryption ≠ none) : ItemSafe ctx fs defs item := by
  intro pairs nameN fileN _ _ hfile
  have hscalar := isScalar_iff.mp (hitem "file" (by simp [textFields]) fileN hfile)
  obtain ⟨file, hfile'⟩ := Option.ne_none_iff_exists'.mp hscalar
  refine ⟨_, by rw [filePath, hfile, hfile', Option.map_some],
    fun _ => ⟨fun n hn => ?_, fun _ => ?_,
    ?_, ?_⟩⟩
  · exact isScalar_iff.mp (hitem "type" (by simp [textFields]) n hn)
  · exact hlanguage
  · exact effective_ne_none (hitem "compression" (by simp [textFields])) hcompression
  · exact effective_ne_none (hitem "encryption" (by simp [textFields])) hencryption

theorem ScalarFields.item (h : ScalarFields ctx) {root : YamlNode} {nodes : List YamlNode}
    (hr : HasResources ctx root nodes) {node : YamlNode} (hnode : node ∈ nodes) :
    ∀ key ∈ textFields, ∀ n, field ctx node key = some n → IsScalar n := by
  obtain ⟨list, items, hlist, hdata, hnodes⟩ := hr.resources
  obtain ⟨i, hi, rfl⟩ := List.getElem_of_mem hnode
  have hi' : i < items.length := hnodes.length_eq ▸ hi
  exact fun key hkey n hn => h.resources root list items hr.isRoot hlist hdata _
    (List.getElem_mem hi') _ n (hnodes.get hi' hi) key hkey hn

theorem ScalarFields.reachedSafe (h : ScalarFields ctx) {fs : FileSystem} {root : YamlNode}
    {nodes : List YamlNode} (hr : HasResources ctx root nodes) :
    ReachedSafe ctx fs (declaredDefaults ctx root) nodes := by
  intro before node after hsplit _
  have hnode : node ∈ nodes := hsplit ▸ List.mem_append_right _ (List.mem_cons_self ..)
  exact itemSafe_of_scalars (h.item hr hnode) (h.inherited_ne_none hr.isRoot (by simp))
    (h.inherited_ne_none hr.isRoot (by simp)) (h.inherited_ne_none hr.isRoot (by simp))

theorem ScalarFields.name_ne_none (h : ScalarFields ctx) {fs : FileSystem} {root : YamlNode}
    {nodes : List YamlNode} (hr : HasResources ctx root nodes)
    (hitems : ∀ node ∈ nodes, ItemValid ctx fs (declaredDefaults ctx root) node) :
    ∀ r ∈ resourcesMeaning ctx root nodes, r.name ≠ none := by
  intro r hr'
  obtain ⟨node, hnode, rfl⟩ := List.mem_map.mp hr'
  obtain ⟨n, hn⟩ := Option.ne_none_iff_exists'.mp (hitems node hnode).name
  have hscalar := h.item hr hnode "name" (by simp [textFields]) n hn
  change scalarDup (field ctx node "name") ≠ none
  rw [hn]
  exact isScalar_iff.mp hscalar

end Manifest

theorem elfrcManifestParse_eq {fs : FileSystem} {path : CString} {doc : YamlDocument} {fuel : ℕ}
    {err : ErrorState} {m : ElfrcManifest}
    (h : parseRoot fs fuel (parseCtx path doc) = .ok (err, m)) :
    elfrcManifestParse fs path (.loaded doc) fuel = .ok (match err with
      | some message => parseFailure message
      | none => ⟨0, m, []⟩) := by
  simp only [elfrcManifestParse, h, Exec.ok_bind]
  cases err <;> rfl

theorem elfrcManifestParse_mono {fs : FileSystem} {path : CString} {input : ManifestInput}
    {fuel fuel' : ℕ} (hle : fuel ≤ fuel') {result : ParseResult}
    (h : elfrcManifestParse fs path input fuel = .ok result) :
    elfrcManifestParse fs path input fuel' = .ok result := by
  cases input with
  | unreadable strerror => exact h
  | noParser => exact h
  | malformed line problem => exact h
  | loaded doc =>
    obtain ⟨⟨err, m⟩, hparsed, h⟩ := Exec.bind_eq_ok.mp h
    have hparsed' : parseRoot fs fuel' (parseCtx path doc) = .ok (err, m) := by
      by_cases hresources : ∃ root nodes, HasResources (parseCtx path doc) root nodes
      · obtain ⟨root, nodes, hr⟩ := hresources
        obtain ⟨items, -, -, heq⟩ := parseRoot_of_hasResources hr
        rw [heq] at hparsed ⊢
        obtain ⟨⟨err', resources⟩, hresources, hparsed⟩ := Exec.bind_eq_ok.mp hparsed
        rw [hresources, Exec.ok_bind]
        dsimp only at hparsed ⊢
        split_ifs at hparsed ⊢ with herr
        exacts [hparsed, assignAndValidateIds_mono hle hparsed]
      · obtain ⟨line, message, m', heq⟩ := parseRoot_of_not_hasResources
          fun root nodes hr => hresources ⟨root, nodes, hr⟩
        rwa [heq, ← heq fs fuel]
    simp only [elfrcManifestParse, hparsed', Exec.ok_bind]
    exact h

/-- What an accepted document says, whatever the kinds of its nodes. -/
structure AcceptedAs (fs : FileSystem) (ctx : ParseCtx) (root : YamlNode) (nodes : List YamlNode)
    (m : ElfrcManifest) : Prop extends HasResources ctx root nodes where
  items : ∀ node ∈ nodes, ItemValid ctx fs (declaredDefaults ctx root) node
  shape : m = manifestOf ctx root m.resources
  assigned : Assigned (takenIds (resourcesMeaning ctx root nodes)) 0
    (resourcesMeaning ctx root nodes) m.resources
  scanned : findDuplicate m.resources = .ok none

theorem AcceptedAs.get {fs : FileSystem} {ctx : ParseCtx} {root : YamlNode} {nodes : List YamlNode}
    {m : ElfrcManifest} (h : AcceptedAs fs ctx root nodes m) {i : ℕ} (hi : i < nodes.length) :
    ∃ r, m.resources[i]? = some r ∧
      r = { resourceMeaning ctx (declaredDefaults ctx root) nodes[i] with finalId := r.finalId } ∧
      ((field ctx nodes[i] "id").isSome = true → r.finalId = r.id) := by
  have hmeaning : (resourcesMeaning ctx root nodes)[i]? =
      some (resourceMeaning ctx (declaredDefaults ctx root) nodes[i]) := by
    simp [resourcesMeaning, hi]
  obtain ⟨r, hr, heq, hexplicit, -⟩ := h.assigned.get hmeaning
  refine ⟨r, hr, heq, fun hsome => ?_⟩
  rw [hexplicit hsome, heq]

theorem AcceptedAs.length_eq {fs : FileSystem} {ctx : ParseCtx} {root : YamlNode}
    {nodes : List YamlNode} {m : ElfrcManifest} (h : AcceptedAs fs ctx root nodes m) :
    m.resources.length = nodes.length := by
  rw [h.assigned.length_eq, resourcesMeaning, List.length_map]

theorem reachedSafe_of_parseRoot {fs : FileSystem} {ctx : ParseCtx} {root : YamlNode}
    {nodes : List YamlNode} (hr : HasResources ctx root nodes) {fuel : ℕ}
    {result : ErrorState × ElfrcManifest} (h : parseRoot fs fuel ctx = .ok result) :
    ReachedSafe ctx fs (declaredDefaults ctx root) nodes := by
  by_contra hnot
  obtain ⟨items, hnodes, -, heq⟩ := parseRoot_of_hasResources hr
  rw [heq, parseResources_null hnodes hnot] at h
  cases h

/-- What an item or a repeated identifier leaves undecided, the duplicate scan decides. -/
theorem parseRoot_scan {fs : FileSystem} {ctx : ParseCtx} {root : YamlNode} {nodes : List YamlNode}
    (hr : HasResources ctx root nodes) {fuel : ℕ} (hfuel : 2 ^ 31 ≤ fuel) {err : ErrorState}
    {m : ElfrcManifest} (h : parseRoot fs fuel ctx = .ok (err, m)) :
    (err = none → (∀ node ∈ nodes, ItemValid ctx fs (declaredDefaults ctx root) node) ∧
      (explicitIds (resourcesMeaning ctx root nodes)).Nodup) ∧
    ((∀ node ∈ nodes, ItemValid ctx fs (declaredDefaults ctx root) node) →
      (explicitIds (resourcesMeaning ctx root nodes)).Nodup →
      ∃ out found, Assigned (takenIds (resourcesMeaning ctx root nodes)) 0
          (resourcesMeaning ctx root nodes) out ∧
        findDuplicate out = .ok found ∧ m = manifestOf ctx root out ∧
        err = found.map fun pair =>
          errorText ctx pair.2.line (duplicateResource pair.1 pair.2)) := by
  have hsafe := reachedSafe_of_parseRoot hr h
  rcases parseRoot_of_reachedSafe hr hsafe with ⟨message, m', -, heq, hnot⟩ | ⟨hitems, hlength, heq⟩
  · obtain ⟨rfl, -⟩ := Prod.mk.inj (Except.ok.inj ((heq fuel).symm.trans h))
    exact ⟨nofun, fun hitems => absurd hitems hnot⟩
  rw [heq] at h
  by_cases hids : (explicitIds (resourcesMeaning ctx root nodes)).Nodup
  · refine ⟨fun _ => ⟨hitems, hids⟩, fun _ _ => ?_⟩
    obtain ⟨out, hassigned, hassign⟩ := assignAndValidateIds_of_nodup fuel ctx none
      (m := manifestOf ctx root (resourcesMeaning ctx root nodes)) hids
      (by simp only [manifestOf]; omega) (by simp only [manifestOf]; omega)
    rw [hassign] at h
    obtain ⟨found, hscan, h⟩ := Exec.bind_eq_ok.mp h
    refine ⟨out, found, hassigned, hscan, ?_⟩
    cases found with
    | some pair =>
      obtain ⟨rfl, rfl⟩ := Prod.mk.inj (Except.ok.inj h)
      exact ⟨rfl, rfl⟩
    | none =>
      obtain ⟨rfl, rfl⟩ := Prod.mk.inj (Except.ok.inj h)
      exact ⟨rfl, rfl⟩
  · obtain ⟨err', hassign, hchecked⟩ := assignAndValidateIds_of_repeated fuel ctx none
      (m := manifestOf ctx root (resourcesMeaning ctx root nodes)) hids
    rw [hassign] at h
    obtain ⟨rfl, -⟩ := Prod.mk.inj (Except.ok.inj h)
    exact ⟨fun hnone => (hchecked.none_iff.mp hnone).2.elim, fun _ hids' => absurd hids' hids⟩

theorem acceptedAs_of_parseRoot {fs : FileSystem} {ctx : ParseCtx} {fuel : ℕ} {m : ElfrcManifest}
    (hfuel : 2 ^ 31 ≤ fuel) (h : parseRoot fs fuel ctx = .ok (none, m)) :
    ∃ root nodes, AcceptedAs fs ctx root nodes m := by
  by_cases hresources : ∃ root nodes, HasResources ctx root nodes
  · obtain ⟨root, nodes, hr⟩ := hresources
    obtain ⟨hnone, hscan⟩ := parseRoot_scan hr hfuel h
    obtain ⟨hitems, hids⟩ := hnone rfl
    obtain ⟨out, found, hassigned, hfound, rfl, herr⟩ := hscan hitems hids
    obtain rfl := Option.map_eq_none_iff.mp herr.symm
    exact ⟨root, nodes, hr, hitems, rfl, hassigned, hfound⟩
  · obtain ⟨line, message, m', heq⟩ := parseRoot_of_not_hasResources
      fun root nodes hr => hresources ⟨root, nodes, hr⟩
    exact absurd ((heq fs fuel).symm.trans h) (by simp)

/-- A result on a loaded document is what the parser of the root leaves, after enough steps. -/
theorem exists_parseRoot {fs : FileSystem} {path : CString} {doc : YamlDocument}
    {result : ParseResult} (h : Returns (elfrcManifestParse fs path (.loaded doc)) result) :
    ∃ fuel err m, 2 ^ 31 ≤ fuel ∧ parseRoot fs fuel (parseCtx path doc) = .ok (err, m) ∧
      (err = none → result = ⟨0, m, []⟩) ∧
      ∀ message, err = some message → result = parseFailure message := by
  obtain ⟨fuel, h⟩ := h
  have hmono := elfrcManifestParse_mono (Nat.le_add_right fuel (2 ^ 31)) h
  obtain ⟨⟨err, m⟩, hparsed, hresult⟩ := Exec.bind_eq_ok.mp hmono
  refine ⟨fuel + 2 ^ 31, err, m, Nat.le_add_left _ _, hparsed, ?_, ?_⟩
  · rintro rfl
    exact (Except.ok.inj hresult).symm
  · rintro message rfl
    exact (Except.ok.inj hresult).symm

theorem exists_parseRoot_of_code {fs : FileSystem} {path : CString} {doc : YamlDocument}
    {result : ParseResult} (h : Returns (elfrcManifestParse fs path (.loaded doc)) result)
    (hcode : result.code = 0) : ∃ fuel, 2 ^ 31 ≤ fuel ∧ result = ⟨0, result.manifest, []⟩ ∧
      parseRoot fs fuel (parseCtx path doc) = .ok (none, result.manifest) := by
  obtain ⟨fuel, err, m, hfuel, hparsed, hok, hfail⟩ := exists_parseRoot h
  cases err with
  | none =>
    obtain rfl := hok rfl
    exact ⟨fuel, hfuel, rfl, hparsed⟩
  | some message =>
    rw [hfail message rfl] at hcode
    exact absurd hcode (by simp [parseFailure])

/-- A parse that returns 0 has accepted the document. -/
theorem acceptedAs_of_code {fs : FileSystem} {path : CString} {doc : YamlDocument}
    {result : ParseResult} (h : Returns (elfrcManifestParse fs path (.loaded doc)) result)
    (hcode : result.code = 0) :
    ∃ root nodes, AcceptedAs fs (parseCtx path doc) root nodes result.manifest := by
  obtain ⟨fuel, hfuel, -, hparsed⟩ := exists_parseRoot_of_code h hcode
  exact acceptedAs_of_parseRoot hfuel hparsed

theorem elfrcManifestParse_unique {fs : FileSystem} {path : CString} {input : ManifestInput}
    {result result' : ParseResult} (h : Returns (elfrcManifestParse fs path input) result)
    (h' : Returns (elfrcManifestParse fs path input) result') : result = result' := by
  obtain ⟨fuel, h⟩ := h
  obtain ⟨fuel', h'⟩ := h'
  have hmax := elfrcManifestParse_mono (le_max_left fuel fuel') h
  exact Except.ok.inj (hmax.symm.trans (elfrcManifestParse_mono (le_max_right fuel fuel') h'))

theorem parseFailure_errbuf_ne_nil {message : Bytes} (h : message ≠ []) :
    (parseFailure message).errbuf ≠ [] := by
  simp [parseFailure, snprintf, errbufSize, h]

/-- **The manifest parser accepts exactly the valid manifests.** On a loaded document whose
text fields are scalars it returns 0 if and only if the document is a valid manifest, with
the resources it describes and their identifiers assigned; else -1, with a reason and
nothing of the manifest. -/
theorem manifest_accepted_iff (fs : FileSystem) (path : CString) (doc : YamlDocument)
    (hscalar : ScalarFields (parseCtx path doc)) :
    ∃ result, Returns (elfrcManifestParse fs path (.loaded doc)) result ∧
      (result.code = 0 ↔ ∃ root nodes, ManifestValid (parseCtx path doc) fs root nodes) ∧
      (∀ root nodes, ManifestValid (parseCtx path doc) fs root nodes →
        result.errbuf = [] ∧
        result.manifest = manifestOf (parseCtx path doc) root result.manifest.resources ∧
        Assigned (takenIds (resourcesMeaning (parseCtx path doc) root nodes)) 0
          (resourcesMeaning (parseCtx path doc) root nodes) result.manifest.resources) ∧
      (result.code ≠ 0 →
        result.code = -1 ∧ result.manifest = zeroManifest ∧ result.errbuf ≠ []) := by
  by_cases hresources : ∃ root nodes, HasResources (parseCtx path doc) root nodes
  · obtain ⟨root, nodes, hr⟩ := hresources
    obtain ⟨err, m, hparsed, hchecked, hmeaning⟩ := parseRoot_spec fs (2 ^ 31) hr
      (hscalar.reachedSafe hr) (fun hitems => hscalar.name_ne_none hr hitems) le_rfl
    refine ⟨_, ⟨_, elfrcManifestParse_eq hparsed⟩, ?_⟩
    have hvalid : (∃ root nodes, ManifestValid (parseCtx path doc) fs root nodes) ↔
        ManifestValid (parseCtx path doc) fs root nodes := by
      refine ⟨fun ⟨root', nodes', hv⟩ => ?_, fun hv => ⟨root, nodes, hv⟩⟩
      obtain ⟨rfl, rfl⟩ := hr.unique hv.toHasResources
      exact hv
    rw [hvalid]
    cases err with
    | some message =>
      have hnot := hchecked.isSome_iff.mp rfl
      have htext : message ≠ [] := (hchecked.text rfl).elim (fun h => nomatch h) id
      refine ⟨iff_of_false (by simp [parseFailure]) hnot, fun root' nodes' hv => ?_,
        fun _ => ⟨rfl, rfl, parseFailure_errbuf_ne_nil htext⟩⟩
      exact absurd (hvalid.mp ⟨root', nodes', hv⟩) hnot
    | none =>
      have hv := (hchecked.none_iff.mp rfl).2
      refine ⟨iff_of_true rfl hv, fun root' nodes' hv' => ⟨rfl, ?_⟩, fun hcode => absurd rfl hcode⟩
      obtain ⟨rfl, rfl⟩ := hr.unique hv'.toHasResources
      exact hmeaning hv
  · have hnot : ∀ root nodes, ¬ HasResources (parseCtx path doc) root nodes :=
      fun root nodes hr => hresources ⟨root, nodes, hr⟩
    obtain ⟨line, message, m, hparsed⟩ := parseRoot_of_not_hasResources hnot
    refine ⟨_, ⟨0, elfrcManifestParse_eq (hparsed fs 0)⟩, iff_of_false (by simp [parseFailure]) ?_,
      fun root nodes hv => absurd hv.toHasResources (hnot root nodes), fun _ => ⟨rfl, rfl, ?_⟩⟩
    · exact fun ⟨root, nodes, hv⟩ => hnot root nodes hv.toHasResources
    · exact parseFailure_errbuf_ne_nil (errorText_ne_nil _ _ _)

/-- A manifest of version 1 with one resource, which has a name and a file. -/
def sampleDocument : YamlDocument where
  nodes :=
    [⟨0, .mapping [(2, 3), (4, 5)]⟩,
      ⟨0, .scalar (ascii "version")⟩, ⟨0, .scalar (ascii "1")⟩,
      ⟨1, .scalar (ascii "resources")⟩, ⟨2, .sequence [6]⟩, ⟨2, .mapping [(7, 8), (9, 10)]⟩,
      ⟨2, .scalar (ascii "name")⟩, ⟨2, .scalar (ascii "a")⟩,
      ⟨3, .scalar (ascii "file")⟩, ⟨3, .scalar (ascii "f")⟩]
  linked := by decide
  counted := by simp

/-- Every path names a regular file. -/
def regularFiles : FileSystem := ⟨fun _ => true, fun _ => none⟩

def emptyFiles : FileSystem := ⟨fun _ => true, fun _ => some ⟨0, []⟩⟩

/-- Two resources of one name. The first inherits its language and encryption, the second
its compression. -/
def inheritingDocument : YamlDocument where
  nodes :=
    [⟨0, .mapping [(2, 3), (4, 5), (6, 7), (14, 15)]⟩,
      ⟨0, .scalar (ascii "version")⟩, ⟨0, .scalar (ascii "1")⟩,
      ⟨1, .scalar (ascii "module")⟩, ⟨1, .scalar (ascii "app")⟩,
      ⟨2, .scalar (ascii "defaults")⟩, ⟨3, .mapping [(8, 9), (10, 11), (12, 13)]⟩,
      ⟨3, .scalar (ascii "language")⟩, ⟨3, .scalar (ascii "de")⟩,
      ⟨4, .scalar (ascii "compression")⟩, ⟨4, .scalar (ascii "NONE")⟩,
      ⟨5, .scalar (ascii "encryption")⟩, ⟨5, .scalar []⟩,
      ⟨6, .scalar (ascii "resources")⟩, ⟨7, .sequence [16, 37]⟩,
      ⟨7, .mapping [(17, 18), (19, 20), (21, 22), (23, 24), (25, 26), (29, 30), (35, 36)]⟩,
      ⟨7, .scalar (ascii "name")⟩, ⟨7, .scalar (ascii "logo")⟩,
      ⟨8, .scalar (ascii "file")⟩, ⟨8, .scalar (ascii "logo.dat")⟩,
      ⟨9, .scalar (ascii "type")⟩, ⟨9, .scalar (ascii "Png")⟩,
      ⟨10, .scalar (ascii "id")⟩, ⟨10, .scalar (ascii "7")⟩,
      ⟨11, .scalar (ascii "flags")⟩, ⟨11, .sequence [27, 28]⟩,
      ⟨11, .scalar (ascii "read_only")⟩, ⟨11, .scalar (ascii "Optional")⟩,
      ⟨12, .scalar (ascii "metadata")⟩, ⟨12, .mapping [(31, 32), (33, 34)]⟩,
      ⟨12, .scalar (ascii "width")⟩, ⟨12, .scalar (ascii "16")⟩,
      ⟨12, .scalar (ascii "alt")⟩, ⟨12, .scalar []⟩,
      ⟨13, .scalar (ascii "compression")⟩, ⟨13, .scalar (ascii "none")⟩,
      ⟨14, .mapping [(38, 39), (40, 41), (42, 43), (44, 45), (46, 47)]⟩,
      ⟨14, .scalar (ascii "name")⟩, ⟨14, .scalar (ascii "logo")⟩,
      ⟨15, .scalar (ascii "file")⟩, ⟨15, .scalar (ascii "/logo.txt")⟩,
      ⟨16, .scalar (ascii "language")⟩, ⟨16, .scalar (ascii "fr-FR")⟩,
      ⟨17, .scalar (ascii "flags")⟩, ⟨17, .scalar (ascii "8")⟩,
      ⟨18, .scalar (ascii "encryption")⟩, ⟨18, .scalar (ascii "None")⟩]
  linked := by decide +kernel
  counted := by simp

def inheritingManifest : ElfrcManifest where
  version := 1
  module := some (.literal "app")
  resources :=
    [⟨some (.literal "logo"), some (.literal "./logo.dat"), 5, 1031, 0, 20, true, 7, 7,
        [⟨some (.literal "width"), some (.literal "16")⟩,
          ⟨some (.literal "alt"), some (.literal "")⟩], 8⟩,
      ⟨some (.literal "logo"), some (.literal "/logo.txt"), 1, 1036, 0, 8, false, 0, 1, [], 15⟩]

theorem inheritingDocument_scalarFields :
    ScalarFields (parseCtx (.literal "sample.elfrc") inheritingDocument) := by
  generalize hctx : parseCtx (.literal "sample.elfrc") inheritingDocument = ctx
  have hversion : ∀ root ∈ ctx.doc.getRootNode, ∀ n ∈ field ctx root "version",
      scalarDup (some n) ≠ none := by
    subst hctx
    decide +kernel
  have hdefaults : ∀ root ∈ ctx.doc.getRootNode, ∀ d ∈ field ctx root "defaults",
      ∀ key ∈ ["language", "compression", "encryption"], ∀ n ∈ field ctx d key,
      scalarDup (some n) ≠ none := by
    subst hctx
    decide +kernel
  have hresources : ∀ root ∈ ctx.doc.getRootNode, ∀ list ∈ field ctx root "resources",
      ∀ id ∈ list.data.children, ∀ item ∈ nodeAt ctx id, ∀ key ∈ textFields,
      ∀ n ∈ field ctx item key, scalarDup (some n) ≠ none := by
    subst hctx
    decide +kernel
  refine ⟨fun root n hroot hn => isScalar_iff.mpr (hversion root hroot n hn),
    fun root d n hroot hd key hkey hn => isScalar_iff.mpr (hdefaults root hroot d hd key hkey n hn),
    fun root list items hroot hlist hdata id hid item n hitem key hkey hn => ?_⟩
  have hchild : id ∈ list.data.children := by
    rw [hdata]
    exact hid
  exact isScalar_iff.mpr (hresources root hroot list hlist id hchild item hitem key hkey n hn)

theorem manifest_accepted_iff_inheriting :
    ∃ root nodes result,
      ManifestValid (parseCtx (.literal "sample.elfrc") inheritingDocument) regularFiles
        root nodes ∧
      Returns (elfrcManifestParse regularFiles (.literal "sample.elfrc")
        (.loaded inheritingDocument)) result ∧
      result.code = 0 ∧ result.manifest = inheritingManifest := by
  obtain ⟨result, hreturns, hiff, -⟩ := manifest_accepted_iff regularFiles
    (.literal "sample.elfrc") inheritingDocument inheritingDocument_scalarFields
  have hparsed : Returns (elfrcManifestParse regularFiles (.literal "sample.elfrc")
      (.loaded inheritingDocument)) ⟨0, inheritingManifest, []⟩ := ⟨2, by decide +kernel⟩
  obtain rfl := elfrcManifestParse_unique hparsed hreturns
  obtain ⟨root, nodes, hvalid⟩ := hiff.mp rfl
  exact ⟨root, nodes, _, hvalid, hreturns, rfl, rfl⟩

def singleDocument (version name : Bytes) : YamlDocument where
  nodes :=
    [⟨0, .mapping [(2, 3), (4, 5)]⟩,
      ⟨0, .scalar (ascii "version")⟩, ⟨0, .scalar version⟩,
      ⟨1, .scalar (ascii "resources")⟩, ⟨2, .sequence [6]⟩, ⟨2, .mapping [(7, 8), (9, 10)]⟩,
      ⟨2, .scalar (ascii "name")⟩, ⟨2, .scalar name⟩,
      ⟨3, .scalar (ascii "file")⟩, ⟨3, .scalar (ascii "f")⟩]
  linked := by simp [YamlNodeData.children]
  counted := by simp

def singleRoot : YamlNode := ⟨0, .mapping [(2, 3), (4, 5)]⟩

def singleItem : YamlNode := ⟨2, .mapping [(7, 8), (9, 10)]⟩

theorem singleDocument_hasResources {version name : Bytes} {path : CString}
    (h : parseUint (some (.ofBytes version)) = some 1) :
    HasResources (parseCtx path (singleDocument version name)) singleRoot [singleItem] where
  isRoot := rfl
  mapping := ⟨_, rfl⟩
  version := h
  resources := ⟨_, _, rfl, rfl, .cons rfl .nil⟩

end Elfr.Compiler
