import Elfr.Compiler.ContainerImage
import Elfr.Compiler.ManifestAcceptance

/-!
# Builds in another directory

The directory of a manifest goes into the paths of its files and into the texts of
errors. The type of a resource is inferred from the whole path, directory included, but
what follows a dot in the directory contains a slash and no known extension does. So a
project that is moved is accepted or refused as before, and its container is the same.
-/
namespace Elfr.Compiler

open Library

theorem toLower_slash : CString.toLower 47 = 47 := by decide

theorem extensionTypes_slash : ∀ entry ∈ extensionTypes,
    (47 : UInt8) ∉ (CString.literal entry.1).bytes.map CString.toLower := by
  decide

theorem lookupName_of_slash {name : CString} (h : 47 ∈ name.bytes) :
    lookupName extensionTypes name = none := by
  rw [lookupName_eq_none_iff]
  rintro ⟨entry, hentry, heq⟩
  have hlower : name.bytes.map CString.toLower =
      (CString.literal entry.1).bytes.map CString.toLower := by
    simpa [CString.caseEq] using heq
  refine extensionTypes_slash entry hentry ?_
  rw [← hlower]
  exact List.mem_map.mpr ⟨47, h, toLower_slash⟩

/-- Only the part behind the directory decides about the type. -/
theorem typeFromExtension_below (dir file : CString) :
    typeFromExtension (dir ++ .literal "/" ++ file) = typeFromExtension file := by
  have hbytes : (dir ++ .literal "/" ++ file).bytes = dir.bytes ++ [47] ++ file.bytes := rfl
  have hslash : fromLast 46 (dir.bytes ++ [47]) = (fromLast 46 dir.bytes).map (· ++ [47]) := by
    rw [fromLast_append]
    rfl
  unfold typeFromExtension strrchr
  rw [hbytes, fromLast_append, hslash]
  cases fromLast 46 file.bytes with
  | some tail => rfl
  | none =>
    cases hdir : fromLast 46 dir.bytes with
    | none => rfl
    | some tail =>
      -- The last dot of the path is in the directory, and the slash follows it.
      have hnul : (0 : UInt8) ∉ tail ++ [47] ++ file.bytes := by
        have htail : (0 : UInt8) ∉ tail := fun h => dir.noNul ((fromLast_isSuffix hdir).mem h)
        simp [htail, file.noNul]
      have hmem : 47 ∈ (CString.ofBytes (tail ++ [47] ++ file.bytes)).bytes := by
        rw [CString.bytes_ofBytes_iff.mpr hnul]
        simp
      simp only [Option.map_some, Option.map_none, Option.none_or, lookupName_of_slash hmem,
        Option.getD_none]

theorem typeFromExtension_resolvePath (dir dir' file : CString) :
    typeFromExtension (resolvePath dir file) = typeFromExtension (resolvePath dir' file) := by
  unfold resolvePath
  split_ifs
  · rfl
  · rw [typeFromExtension_below, typeFromExtension_below]

section Document

variable {ctx ctx' : ParseCtx} (hdoc : ctx.doc = ctx'.doc)
include hdoc

theorem nodeAt_congr : nodeAt ctx = nodeAt ctx' := by
  funext id
  rw [nodeAt, nodeAt, hdoc]

theorem field_congr : field ctx = field ctx' := by
  have hnode := nodeAt_congr hdoc
  have hfind : ∀ key pairs, findKey ctx key pairs = findKey ctx' key pairs := by
    intro key pairs
    induction pairs with
    | nil => rfl
    | cons pair pairs ih => simp only [findKey, hnode, ih]
  funext node key
  unfold field mapGet
  split
  · exact hfind _ _
  · rfl

theorem declaredDefaults_congr (root : YamlNode) :
    declaredDefaults ctx root = declaredDefaults ctx' root := by
  simp only [declaredDefaults, inherited, field_congr hdoc]

theorem fieldsValid_congr {defs : Defaults} {item : YamlNode} :
    FieldsValid ctx defs item ↔ FieldsValid ctx' defs item := by
  simp only [FieldsValid, TypeValid, IdValid, CompressionValid, EncryptionValid, MetadataValid,
    FlagsValid, effective, field_congr hdoc, nodeAt_congr hdoc]

theorem fieldsSafe_congr {defs : Defaults} {item : YamlNode} (h : FieldsSafe ctx defs item) :
    FieldsSafe ctx' defs item := by
  obtain ⟨htype, hlanguage, hcompression, hencryption⟩ := h
  simp only [effective, field_congr hdoc] at htype hlanguage hcompression hencryption
  exact ⟨htype, hlanguage, hcompression, hencryption⟩

theorem hasResources_congr {root : YamlNode} {nodes : List YamlNode}
    (h : HasResources ctx root nodes) : HasResources ctx' root nodes := by
  obtain ⟨hroot, hmapping, hversion, hresources⟩ := h
  rw [hdoc] at hroot
  simp only [field_congr hdoc, nodeAt_congr hdoc] at hversion hresources
  exact ⟨hroot, hmapping, hversion, hresources⟩

end Document

/-- The same resource, except for the path of its file, which names the same file. -/
structure Relocated (fs fs' : FileSystem) (r r' : ElfrcResource) : Prop where
  same : r' = { r with file := r'.file }
  file : r'.file.bind fs'.fopen = r.file.bind fs.fopen

section Relocated

variable {fs fs' : FileSystem} {rs rs' out : List ElfrcResource}

theorem Relocated.resourceKey_eq {r r' : ElfrcResource} (h : Relocated fs fs' r r') :
    resourceKey r' = resourceKey r := by
  rw [h.same]
  rfl

theorem Relocated.map_resourceKey (h : List.Forall₂ (Relocated fs fs') rs rs') :
    rs'.map resourceKey = rs.map resourceKey := by
  induction h with
  | nil => rfl
  | cons hr _ ih => rw [List.map_cons, List.map_cons, hr.resourceKey_eq, ih]

theorem Relocated.explicitIds_eq (h : List.Forall₂ (Relocated fs fs') rs rs') :
    explicitIds rs' = explicitIds rs := by
  unfold explicitIds
  induction h with
  | nil => rfl
  | @cons r r' rs rs' hr _ ih =>
    have hexplicit : r'.idExplicit = r.idExplicit := by rw [hr.same]
    have hid : r'.id = r.id := by rw [hr.same]
    simp only [List.filter_cons, hexplicit]
    split_ifs
    · rw [List.map_cons, List.map_cons, ih, hid]
    · exact ih

theorem Assigned.relocate {taken : List ℕ} {k : ℕ} {out' : List ElfrcResource}
    (h : Assigned taken k rs out) (h' : Assigned taken k rs' out')
    (hrs : List.Forall₂ (Relocated fs fs') rs rs') :
    List.Forall₂ (Relocated fs fs') out out' := by
  induction h generalizing rs' out' with
  | nil =>
    cases hrs
    cases h'
    exact .nil
  | @explicit k r rs out hr _ ih =>
    cases hrs with
    | @cons _ r' _ rs' hrr' hrs =>
      have hexplicit : r'.idExplicit = r.idExplicit := by rw [hrr'.same]
      have hid : r'.id = r.id := by rw [hrr'.same]
      cases h' with
      | explicit _ h' => exact .cons ⟨by rw [hid, hrr'.same], hrr'.file⟩ (ih h' hrs)
      | automatic hr' _ _ => exact absurd (hr'.symm.trans (hexplicit.trans hr)) (by decide)
  | @automatic k r rs out id hr hid _ ih =>
    cases hrs with
    | @cons _ r' _ rs' hrr' hrs =>
      have hexplicit : r'.idExplicit = r.idExplicit := by rw [hrr'.same]
      cases h' with
      | explicit hr' _ => exact absurd (hr'.symm.trans (hexplicit.trans hr)) (by decide)
      | automatic _ hid' h' =>
        obtain rfl := UInt32.toNat_inj.mp (hid.trans hid'.symm)
        exact .cons ⟨by rw [hrr'.same], hrr'.file⟩ (ih h' hrs)

theorem readsFile_iff {r : ElfrcResource} {contents : Bytes} :
    ReadsFile fs r contents ↔ ∃ f, r.file.bind fs.fopen = some f ∧ readFile f = some contents := by
  constructor
  · rintro ⟨file, f, hfile, hopen, hread⟩
    exact ⟨f, by rw [hfile, Option.bind_some, hopen], hread⟩
  · rintro ⟨f, hopen, hread⟩
    obtain ⟨file, hfile, hopen⟩ := Option.bind_eq_some_iff.mp hopen
    exact ⟨file, f, hfile, hopen, hread⟩

theorem Loads.relocate {r r' : ElfrcResource} (h : Relocated fs fs' r r') {it : Item}
    (hloads : Loads fs r it) : Loads fs' r' it := by
  have hcontents := readsFile_iff.mp hloads.contents
  rw [← h.file, ← readsFile_iff] at hcontents
  obtain ⟨hname, hmetadata, -, hid, htype, hlanguage, hflags⟩ := hloads
  rw [h.same] at hcontents ⊢
  exact ⟨hname, hmetadata, hcontents, hid, htype, hlanguage, hflags⟩

theorem Loads.relocate_all {items : List Item} (h : List.Forall₂ (Relocated fs fs') rs rs')
    (hloads : List.Forall₂ (Loads fs) rs items) : List.Forall₂ (Loads fs') rs' items := by
  induction h generalizing items with
  | nil =>
    cases hloads
    exact .nil
  | cons hr _ ih =>
    cases hloads with
    | cons hit hloads => exact .cons (hit.relocate hr) (ih hloads)

theorem Builds.relocate {m m' : ElfrcManifest}
    (h : List.Forall₂ (Relocated fs fs') m.resources m'.resources) {b : Bytes}
    (hbuild : Builds fs m b) : Builds fs' m' b := by
  obtain ⟨fuel, hbuild⟩ := hbuild
  obtain ⟨items, hloads, hashTable, hhash, rfl⟩ := elfrcContainerBuild_eq_ok.mp hbuild
  exact ⟨fuel, elfrcContainerBuild_eq_ok.mpr
    ⟨items, Loads.relocate_all h hloads, hashTable, hhash, rfl⟩⟩

end Relocated

/-- The directory in which a manifest of this path lies. -/
def directoryOf (path : CString) : CString := .ofBytes (dirname path.bytes)

/-- The files that the items name are the same from either directory: those of relative
paths in the directories, the others in the two file systems. -/
def SameFiles (ctx : ParseCtx) (fs fs' : FileSystem) (dir dir' : CString) : Prop :=
  ∀ root nodes, HasResources ctx root nodes → ∀ node ∈ nodes, ∀ file,
    scalarDup (field ctx node "file") = some file →
      fs.isRegular (resolvePath dir file) = fs'.isRegular (resolvePath dir' file) ∧
      fs.fopen (resolvePath dir file) = fs'.fopen (resolvePath dir' file)

theorem manifestDir_eq {path : CString} (h : path.strlen < pathbufSize) (doc : YamlDocument) :
    (parseCtx path doc).manifestDir = directoryOf path := by
  have hfits : path.bytes.take (pathbufSize - 1) = path.bytes :=
    List.take_of_length_le (Nat.le_sub_one_of_lt h)
  rw [parseCtx, snprintf, hfits]
  rfl

section Parser

variable {ctx ctx' : ParseCtx} (hdoc : ctx.doc = ctx'.doc) {fs fs' : FileSystem}
  {defs : Defaults} {node : YamlNode}
  (hfile : ∀ file, scalarDup (field ctx node "file") = some file →
    fs.isRegular (resolvePath ctx.manifestDir file) =
      fs'.isRegular (resolvePath ctx'.manifestDir file) ∧
    fs.fopen (resolvePath ctx.manifestDir file) = fs'.fopen (resolvePath ctx'.manifestDir file))
include hdoc hfile

theorem ItemValid.relocate (h : ItemValid ctx fs defs node) : ItemValid ctx' fs' defs node := by
  obtain ⟨path, hpath, hregular⟩ := h.file
  obtain ⟨file, hscalar, rfl⟩ := Option.map_eq_some_iff.mp hpath
  have hname := h.name
  rw [field_congr hdoc] at hname
  have hpath' : filePath ctx' node = some (resolvePath ctx'.manifestDir file) := by
    rw [filePath, ← field_congr hdoc, hscalar, Option.map_some]
  have hregular' : fs'.isRegular (resolvePath ctx'.manifestDir file) = true := by
    rw [← (hfile file hscalar).1, hregular]
  exact (itemValid_iff_of_path h.mapping hname hpath' hregular').mp ((fieldsValid_congr hdoc).mp
    ((itemValid_iff_of_path h.mapping h.name hpath hregular).mpr h))

theorem ItemSafe.relocate (h : ItemSafe ctx fs defs node) : ItemSafe ctx' fs' defs node := by
  intro pairs nameN fileN hdata hname hfileN
  rw [← field_congr hdoc] at hname hfileN
  obtain ⟨path, hpath, hsafe⟩ := h pairs nameN fileN hdata hname hfileN
  obtain ⟨file, hscalar, rfl⟩ := Option.map_eq_some_iff.mp hpath
  refine ⟨resolvePath ctx'.manifestDir file, ?_, fun hregular => fieldsSafe_congr hdoc (hsafe ?_)⟩
  · rw [filePath, ← field_congr hdoc, hscalar, Option.map_some]
  · rw [(hfile file hscalar).1, hregular]

theorem resourceMeaning_relocate :
    Relocated fs fs' (resourceMeaning ctx defs node) (resourceMeaning ctx' defs node) := by
  have hfield := field_congr hdoc
  have htype : (filePath ctx' node).bind (typeMeaning ctx' node) =
      (filePath ctx node).bind (typeMeaning ctx node) := by
    simp only [filePath, ← hfield]
    cases scalarDup (field ctx node "file") with
    | none => rfl
    | some file =>
      simp only [Option.map_some, Option.bind_some, typeMeaning, ← hfield,
        typeFromExtension_resolvePath ctx'.manifestDir ctx.manifestDir]
  constructor
  · simp only [resourceMeaning, htype, flagsMeaning, flagBits, metadataMeaning, effective, hfield,
      nodeAt_congr hdoc]
  · simp only [resourceMeaning, filePath, ← hfield]
    cases hscalar : scalarDup (field ctx node "file") with
    | none => rfl
    | some file => exact (hfile file hscalar).2.symm

end Parser

theorem resourcesMeaning_relocate {ctx ctx' : ParseCtx} (hdoc : ctx.doc = ctx'.doc)
    {fs fs' : FileSystem} {root : YamlNode} {nodes : List YamlNode}
    (hr : HasResources ctx root nodes)
    (hfiles : SameFiles ctx fs fs' ctx.manifestDir ctx'.manifestDir) :
    List.Forall₂ (Relocated fs fs') (resourcesMeaning ctx root nodes)
      (resourcesMeaning ctx' root nodes) := by
  rw [resourcesMeaning, resourcesMeaning, List.forall₂_map_left_iff, List.forall₂_map_right_iff,
    List.forall₂_same, declaredDefaults_congr hdoc]
  exact fun node hnode => resourceMeaning_relocate hdoc (hfiles root nodes hr node hnode)

theorem ReachedSafe.relocate {ctx ctx' : ParseCtx} (hdoc : ctx.doc = ctx'.doc)
    {fs fs' : FileSystem} {defs : Defaults} {root : YamlNode} {nodes : List YamlNode}
    (hr : HasResources ctx root nodes)
    (hfiles : SameFiles ctx fs fs' ctx.manifestDir ctx'.manifestDir)
    (hitems : ∀ node ∈ nodes, ItemValid ctx fs defs node) (h : ReachedSafe ctx fs defs nodes) :
    ReachedSafe ctx' fs' defs nodes := by
  intro before node after hsplit _
  have hnode : node ∈ nodes := hsplit ▸ List.mem_append_right _ List.mem_cons_self
  have hbefore : ∀ earlier ∈ before, ItemValid ctx fs defs earlier := fun earlier hearlier =>
    hitems earlier (hsplit ▸ List.mem_append_left _ hearlier)
  exact (h before node after hsplit hbefore).relocate hdoc (hfiles root nodes hr node hnode)

/-- What the parser accepts in one directory it accepts in the other. -/
theorem parseRoot_relocate {ctx ctx' : ParseCtx} (hdoc : ctx.doc = ctx'.doc) {fs fs' : FileSystem}
    (hfiles : SameFiles ctx fs fs' ctx.manifestDir ctx'.manifestDir) {fuel : ℕ}
    (hfuel : 2 ^ 31 ≤ fuel) {m : ElfrcManifest} (h : parseRoot fs fuel ctx = .ok (none, m)) :
    ∃ resources, parseRoot fs' fuel ctx' = .ok (none, { m with resources := resources }) ∧
      List.Forall₂ (Relocated fs fs') m.resources resources := by
  obtain ⟨root, nodes, haccepted⟩ := acceptedAs_of_parseRoot hfuel h
  have hr := haccepted.toHasResources
  have hr' := hasResources_congr hdoc hr
  have hdefs := declaredDefaults_congr hdoc root
  have hitems : ∀ node ∈ nodes, ItemValid ctx' fs' (declaredDefaults ctx' root) node := by
    intro node hnode
    rw [← hdefs]
    exact (haccepted.items node hnode).relocate hdoc (hfiles root nodes hr node hnode)
  have hsafe : ReachedSafe ctx' fs' (declaredDefaults ctx' root) nodes := by
    rw [← hdefs]
    exact (reachedSafe_of_parseRoot hr h).relocate hdoc hr hfiles haccepted.items
  have hrelocated := resourcesMeaning_relocate hdoc hr hfiles
  have hids := ((parseRoot_scan hr hfuel h).1 rfl).2
  rw [← Relocated.explicitIds_eq hrelocated] at hids
  rcases parseRoot_of_reachedSafe hr' hsafe with ⟨-, -, -, -, hnot⟩ | ⟨-, hlength, heq⟩
  · exact absurd hitems hnot
  · obtain ⟨out, hassigned, hassign⟩ := assignAndValidateIds_of_nodup fuel ctx' none
      (m := manifestOf ctx' root (resourcesMeaning ctx' root nodes)) hids
      (by simp only [manifestOf]; omega) (by simp only [manifestOf]; omega)
    have hout : List.Forall₂ (Relocated fs fs') m.resources out := by
      have htaken : takenIds (resourcesMeaning ctx root nodes) =
          takenIds (resourcesMeaning ctx' root nodes) := by
        rw [takenIds, takenIds, Relocated.explicitIds_eq hrelocated]
      exact (htaken ▸ haccepted.assigned).relocate hassigned hrelocated
    have hscanned : findDuplicate out = .ok none := by
      rw [findDuplicate_eq_none_iff, Relocated.map_resourceKey hout, ← findDuplicate_eq_none_iff]
      exact haccepted.scanned
    refine ⟨out, ?_, hout⟩
    rw [heq, hassign, hscanned, haccepted.shape]
    simp only [Exec.ok_bind, manifestOf, field_congr hdoc]
    rfl

/-- The manifests agree in everything but the paths of the files. -/
structure SameButFiles (m m' : ElfrcManifest) : Prop where
  version : m'.version = m.version
  module : m'.module = m.module
  resources : List.Forall₂ (fun r r' => r' = { r with file := r'.file }) m.resources m'.resources

theorem parse_relocate {fs fs' : FileSystem} {path path' : CString} {doc : YamlDocument}
    (hpath : path.strlen < pathbufSize) (hpath' : path'.strlen < pathbufSize)
    (hfiles : SameFiles (parseCtx path doc) fs fs' (directoryOf path) (directoryOf path'))
    {result : ParseResult} (h : Returns (elfrcManifestParse fs path (.loaded doc)) result)
    (hcode : result.code = 0) :
    ∃ result', Returns (elfrcManifestParse fs' path' (.loaded doc)) result' ∧ result'.code = 0 ∧
      SameButFiles result.manifest result'.manifest ∧
      List.Forall₂ (Relocated fs fs') result.manifest.resources result'.manifest.resources := by
  rw [← manifestDir_eq hpath doc, ← manifestDir_eq hpath' doc] at hfiles
  obtain ⟨fuel, hfuel, -, hparsed⟩ := exists_parseRoot_of_code h hcode
  have hdoc : (parseCtx path doc).doc = (parseCtx path' doc).doc := rfl
  obtain ⟨resources, hparsed', hrelocated⟩ := parseRoot_relocate hdoc hfiles hfuel hparsed
  exact ⟨_, ⟨_, elfrcManifestParse_eq hparsed'⟩, rfl,
    ⟨rfl, rfl, hrelocated.imp fun r r' hrr' => hrr'.same⟩, hrelocated⟩

theorem SameFiles.symm {ctx ctx' : ParseCtx} (hdoc : ctx.doc = ctx'.doc) {fs fs' : FileSystem}
    {dir dir' : CString} (h : SameFiles ctx fs fs' dir dir') : SameFiles ctx' fs' fs dir' dir := by
  intro root nodes hr node hnode file hfile
  rw [← field_congr hdoc] at hfile
  obtain ⟨hregular, hopen⟩ := h root nodes (hasResources_congr hdoc.symm hr) node hnode file hfile
  exact ⟨hregular.symm, hopen.symm⟩

theorem Relocated.symm {fs fs' : FileSystem} {r r' : ElfrcResource} (h : Relocated fs fs' r r') :
    Relocated fs' fs r' r :=
  ⟨by rw [h.same], h.file.symm⟩

theorem exists_loaded_of_code {fs : FileSystem} {path : CString} {input : ManifestInput}
    {result : ParseResult} (h : Returns (elfrcManifestParse fs path input) result)
    (hcode : result.code = 0) : ∃ doc, input = .loaded doc := by
  obtain ⟨fuel, h⟩ := h
  cases input with
  | loaded doc => exact ⟨doc, rfl⟩
  | unreadable strerror =>
    obtain rfl := Except.ok.inj h
    cases hcode
  | noParser =>
    obtain rfl := Except.ok.inj h
    cases hcode
  | malformed line problem =>
    obtain rfl := Except.ok.inj h
    cases hcode

/-- **Builds do not depend on where the project lives.** Of one manifest text under two paths,
and so in two directories of any name, from which its items name the same files: it is accepted
in both or in none, the manifests differ in the paths of the files only, and they build the
same containers. -/
theorem build_relocatable {fs fs' : FileSystem} {path path' : CString} {input : ManifestInput}
    (hpath : path.strlen < pathbufSize) (hpath' : path'.strlen < pathbufSize)
    (hfiles : ∀ doc, input = .loaded doc →
      SameFiles (parseCtx path doc) fs fs' (directoryOf path) (directoryOf path')) :
    ((∃ result, Returns (elfrcManifestParse fs path input) result ∧ result.code = 0) ↔
      ∃ result, Returns (elfrcManifestParse fs' path' input) result ∧ result.code = 0) ∧
    ∀ result result', Returns (elfrcManifestParse fs path input) result →
      Returns (elfrcManifestParse fs' path' input) result' → result.code = 0 → result'.code = 0 →
      SameButFiles result.manifest result'.manifest ∧
      ∀ b, Builds fs result.manifest b ↔ Builds fs' result'.manifest b := by
  have hback : ∀ doc, input = .loaded doc →
      SameFiles (parseCtx path' doc) fs' fs (directoryOf path') (directoryOf path) :=
    fun doc hdoc => (hfiles doc hdoc).symm
      (show (parseCtx path doc).doc = (parseCtx path' doc).doc from rfl)
  refine ⟨⟨?_, ?_⟩, ?_⟩
  · rintro ⟨result, h, hcode⟩
    obtain ⟨doc, rfl⟩ := exists_loaded_of_code h hcode
    obtain ⟨result', h', hcode', -⟩ := parse_relocate hpath hpath' (hfiles doc rfl) h hcode
    exact ⟨result', h', hcode'⟩
  · rintro ⟨result, h, hcode⟩
    obtain ⟨doc, rfl⟩ := exists_loaded_of_code h hcode
    obtain ⟨result', h', hcode', -⟩ := parse_relocate hpath' hpath (hback doc rfl) h hcode
    exact ⟨result', h', hcode'⟩
  · intro result result' h h' hcode _
    obtain ⟨doc, rfl⟩ := exists_loaded_of_code h hcode
    obtain ⟨result'', h'', -, hsame, hrelocated⟩ :=
      parse_relocate hpath hpath' (hfiles doc rfl) h hcode
    obtain rfl := elfrcManifestParse_unique h'' h'
    refine ⟨hsame, fun b => ⟨Builds.relocate hrelocated, Builds.relocate ?_⟩⟩
    exact hrelocated.flip.imp fun r r' hrr' => hrr'.symm

/-- A manifest under `a.png`, which would be the extension of its file, moved to `b`. -/
theorem build_relocatable_sample :
    ∃ result, Returns (elfrcManifestParse emptyFiles (.literal "b/sample.elfrc")
      (.loaded sampleDocument)) result ∧ result.code = 0 := by
  have hcode : (elfrcManifestParse emptyFiles (.literal "a.png/sample.elfrc")
      (.loaded sampleDocument) 2).map ParseResult.code = .ok 0 := by decide +kernel
  have hpath : (CString.literal "a.png/sample.elfrc").strlen < pathbufSize := by decide
  have hpath' : (CString.literal "b/sample.elfrc").strlen < pathbufSize := by decide
  have hsame : ∀ p p' : CString, emptyFiles.isRegular p = emptyFiles.isRegular p' ∧
      emptyFiles.fopen p = emptyFiles.fopen p' := fun _ _ => ⟨rfl, rfl⟩
  have hmoved : (∃ result, Returns (elfrcManifestParse emptyFiles (.literal "a.png/sample.elfrc")
        (.loaded sampleDocument)) result ∧ result.code = 0) ↔
      ∃ result, Returns (elfrcManifestParse emptyFiles (.literal "b/sample.elfrc")
        (.loaded sampleDocument)) result ∧ result.code = 0 :=
    (build_relocatable hpath hpath' fun _ _ _ _ _ _ _ _ _ => hsame _ _).1
  have haccepted : ∃ result, Returns (elfrcManifestParse emptyFiles
      (.literal "a.png/sample.elfrc") (.loaded sampleDocument)) result ∧ result.code = 0 := by
    cases heq : elfrcManifestParse emptyFiles (.literal "a.png/sample.elfrc")
        (.loaded sampleDocument) 2 with
    | error stop => simp [heq, Except.map] at hcode
    | ok result => exact ⟨result, ⟨2, heq⟩, by simpa [heq, Except.map] using hcode⟩
  exact hmoved.mp haccepted

end Elfr.Compiler
