import Elfr.Compiler.DocumentContents
import Elfr.Container.RelocatedBuilds

/-!
# What a manifest says

Documents that say the same are accepted alike and describe the same resources, whatever the
order of their keys and the lines they are on. Only the order of metadata is kept.
-/
namespace Elfr.Compiler

open Library

/-- The same resource, except for its line and the order of its metadata. -/
structure SameResource (r r' : ElfrcResource) : Prop where
  same : r' = { r with line := r'.line, metadata := r'.metadata }
  metadata : r.metadata.Perm r'.metadata

structure SameManifest (m m' : ElfrcManifest) : Prop where
  version : m'.version = m.version
  module : m'.module = m.module
  resources : List.Forall₂ SameResource m.resources m'.resources

theorem exists_relatedNodes {ctx ctx' : ParseCtx} {R : YamlNode → YamlNode → Prop}
    {items items' : List ℕ} {nodes : List YamlNode}
    (hchildren : List.Forall₂ (Child ctx.doc ctx'.doc R) items items')
    (hitems : List.Forall₂ (fun id node => nodeAt ctx id = some node) items nodes) :
    ∃ nodes', List.Forall₂ (fun id node => nodeAt ctx' id = some node) items' nodes' ∧
      List.Forall₂ R nodes nodes' := by
  induction hchildren generalizing nodes with
  | nil =>
    cases hitems
    exact ⟨[], .nil, .nil⟩
  | cons hchild _ ih =>
    obtain ⟨n, n', hn, hn', hR⟩ := hchild
    cases hitems with
    | cons hnode hitems =>
      rw [nodeAt_eq_getNode] at hnode
      obtain rfl := Option.some.inj (hn.symm.trans hnode)
      obtain ⟨nodes', hitems', hnodes⟩ := ih hitems
      exact ⟨n' :: nodes', .cons ((nodeAt_eq_getNode ctx' _).trans hn') hitems',
        .cons hR hnodes⟩

section Resources

variable {ctx ctx' : ParseCtx} {R : YamlNode → YamlNode → Prop} (h : Alike ctx.doc ctx'.doc R)
  (hdir : ctx.manifestDir = ctx'.manifestDir) {fs : FileSystem} {defs : Defaults}
  {root : YamlNode} {nodes nodes' : List YamlNode}
include h hdir

theorem Alike.resourceMeaning {n n' : YamlNode} (hR : R n n') :
    SameResource (resourceMeaning ctx defs n) (resourceMeaning ctx' defs n') where
  same := by
    have htype : typeMeaning ctx n = typeMeaning ctx' n' :=
      funext fun path => h.typeMeaning_eq hR path
    simp only [Elfr.Compiler.resourceMeaning, htype, h.filePath_eq hR hdir,
      h.scalarDup_field hR, h.effective_eq hR, h.isSome_field hR, h.flagsMeaning_eq hR]
  metadata := h.metadataMeaning_perm hR

theorem Alike.reachedSafe (hnodes : List.Forall₂ R nodes nodes')
    (hs : ReachedSafe ctx fs defs nodes) : ReachedSafe ctx' fs defs nodes' := by
  induction hnodes with
  | nil => exact fun _ _ _ hsplit => by simp at hsplit
  | cons hR _ ih =>
    obtain ⟨hsafe, hrest⟩ := reachedSafe_cons.mp hs
    refine reachedSafe_cons.mpr ⟨h.itemSafe hR hdir hsafe, fun hvalid' => ih (hrest ?_)⟩
    exact h.symm.itemValid hR hdir.symm hvalid'

theorem Alike.itemsValid (hnodes : List.Forall₂ R nodes nodes')
    (hv : ∀ node ∈ nodes, ItemValid ctx fs defs node) :
    ∀ node' ∈ nodes', ItemValid ctx' fs defs node' := by
  induction hnodes with
  | nil => exact fun _ hmem => absurd hmem List.not_mem_nil
  | cons hR _ ih =>
    obtain ⟨hvalid, hrest⟩ := List.forall_mem_cons.mp hv
    exact List.forall_mem_cons.mpr ⟨h.itemValid hR hdir hvalid, ih hrest⟩

omit hdir in
theorem Alike.hasResources (hr : HasResources ctx root nodes) : ∃ root' nodes',
    HasResources ctx' root' nodes' ∧ R root root' ∧ List.Forall₂ R nodes nodes' := by
  obtain ⟨root', hroot', hRroot⟩ : ∃ root', ctx'.doc.getRootNode = some root' ∧ R root root' := by
    have hroot := h.root
    rw [hr.isRoot] at hroot
    generalize ctx'.doc.getRootNode = found at hroot ⊢
    cases hroot with
    | some hR => exact ⟨_, rfl, hR⟩
  obtain ⟨pairs, hmapping⟩ := hr.mapping
  obtain ⟨pairs', hmapping', -⟩ := h.mapping hRroot hmapping
  obtain ⟨list, items, hlist, hdata, hitems⟩ := hr.resources
  obtain ⟨list', hlist', hRlist⟩ := h.field_some hRroot hlist
  obtain ⟨items', hdata', hchildren⟩ := h.sequence hRlist hdata
  obtain ⟨nodes', hitems', hnodes⟩ := exists_relatedNodes hchildren hitems
  refine ⟨root', nodes', ⟨hroot', ⟨pairs', hmapping'⟩, ?_, ⟨list', items', hlist', hdata',
    hitems'⟩⟩, hRroot, hnodes⟩
  rw [← h.scalarDup_field hRroot]
  exact hr.version

end Resources

section Same

variable {rs rs' out out' : List ElfrcResource}

theorem SameResource.finalId {r r' : ElfrcResource} (h : SameResource r r') (id : UInt32) :
    SameResource { r with finalId := id } { r' with finalId := id } := by
  refine ⟨?_, h.metadata⟩
  rw [h.same]

theorem SameResource.resourceKey_eq {r r' : ElfrcResource} (h : SameResource r r') :
    resourceKey r' = resourceKey r := by
  rw [h.same]
  rfl

theorem SameResource.explicitIds_eq (h : List.Forall₂ SameResource rs rs') :
    explicitIds rs' = explicitIds rs := by
  unfold explicitIds
  induction h with
  | nil => rfl
  | @cons r r' rs rs' hr _ ih =>
    have hexplicit : r'.idExplicit = r.idExplicit := by rw [hr.same]
    have hid : r'.id = r.id := by rw [hr.same]
    simp only [List.filter_cons, hexplicit]
    split_ifs
    · rw [List.map_cons, List.map_cons, ih, hid]
    · exact ih

theorem Assigned.same {taken : List ℕ} {k : ℕ} (h : Assigned taken k rs out)
    (h' : Assigned taken k rs' out') (hrs : List.Forall₂ SameResource rs rs') :
    List.Forall₂ SameResource out out' := by
  induction h generalizing rs' out' with
  | nil =>
    cases hrs
    cases h'
    exact .nil
  | @explicit k r rs out hr _ ih =>
    cases hrs with
    | @cons _ r' _ rs' hrr' hrs =>
      have hexplicit : r'.idExplicit = r.idExplicit := by rw [hrr'.same]
      have hid : r'.id = r.id := by rw [hrr'.same]
      cases h' with
      | explicit _ h' => exact .cons (hid ▸ hrr'.finalId r'.id) (ih h' hrs)
      | automatic hr' _ _ => exact absurd (hr'.symm.trans (hexplicit.trans hr)) (by decide)
  | @automatic k r rs out id hr hid _ ih =>
    cases hrs with
    | @cons _ r' _ rs' hrr' hrs =>
      have hexplicit : r'.idExplicit = r.idExplicit := by rw [hrr'.same]
      cases h' with
      | explicit hr' _ => exact absurd (hr'.symm.trans (hexplicit.trans hr)) (by decide)
      | automatic _ hid' h' =>
        obtain rfl := UInt32.toNat_inj.mp (hid.trans hid'.symm)
        exact .cons (hrr'.finalId _) (ih h' hrs)

theorem duplicateOf_same {r r' : ElfrcResource} (hr : SameResource r r')
    (hrs : List.Forall₂ SameResource rs rs') {found : Option ElfrcResource}
    (h : duplicateOf r rs = .ok found) :
    ∃ found', duplicateOf r' rs' = .ok found' ∧ found'.isSome = found.isSome := by
  obtain ⟨hrname, hrlanguage⟩ := Prod.mk.inj hr.resourceKey_eq
  induction hrs with
  | nil => exact ⟨none, rfl, by rw [← Except.ok.inj h]⟩
  | @cons s s' rs rs' hs _ ih =>
    obtain ⟨hsname, hslanguage⟩ := Prod.mk.inj hs.resourceKey_eq
    unfold duplicateOf at h ⊢
    rw [hrname, hsname, hrlanguage, hslanguage]
    obtain ⟨name, hname, h⟩ := Exec.bind_eq_ok.mp h
    obtain ⟨name', hname', h⟩ := Exec.bind_eq_ok.mp h
    rw [hname, Exec.ok_bind, hname', Exec.ok_bind]
    split_ifs at h ⊢ with hsame
    · exact ⟨some s', rfl, by rw [← Except.ok.inj h]; rfl⟩
    · exact ih h

theorem findDuplicate_same (hrs : List.Forall₂ SameResource rs rs')
    {found : Option (ElfrcResource × ElfrcResource)} (h : findDuplicate rs = .ok found) :
    ∃ found', findDuplicate rs' = .ok found' ∧ found'.isSome = found.isSome := by
  induction hrs with
  | nil => exact ⟨none, rfl, by rw [← Except.ok.inj h]⟩
  | @cons r r' rs rs' hr hrs ih =>
    obtain ⟨one, hone, h⟩ := Exec.bind_eq_ok.mp h
    obtain ⟨one', hone', hsome⟩ := duplicateOf_same hr hrs hone
    unfold findDuplicate
    rw [hone', Exec.ok_bind]
    cases one with
    | some s =>
      obtain ⟨s', rfl⟩ := Option.isSome_iff_exists.mp hsome
      exact ⟨some (r', s'), rfl, by rw [← Except.ok.inj h]; rfl⟩
    | none =>
      obtain rfl : one' = none := by simpa using hsome
      exact ih h

theorem assignAndValidateIds_same {ctx ctx' : ParseCtx} {m m' m₁ : ElfrcManifest}
    (hm : SameManifest m m') {fuel : ℕ} {err : ErrorState}
    (hlt : m.resources.length < 2 ^ 31) (hfuel : 2 ^ 31 ≤ fuel)
    (h : assignAndValidateIds fuel ctx none m = .ok (err, m₁)) :
    ∃ err' m₁', assignAndValidateIds fuel ctx' none m' = .ok (err', m₁') ∧
      err'.isSome = err.isSome ∧ SameManifest m₁ m₁' := by
  have hids := SameResource.explicitIds_eq hm.resources
  have hlength := hm.resources.length_eq
  by_cases hnodup : (explicitIds m.resources).Nodup
  · have hnodup' : (explicitIds m'.resources).Nodup := hids ▸ hnodup
    obtain ⟨out, hassigned, heq⟩ := assignAndValidateIds_of_nodup fuel ctx none hnodup
      (by omega) (by omega)
    obtain ⟨out', hassigned', heq'⟩ := assignAndValidateIds_of_nodup fuel ctx' none hnodup'
      (by omega) (by omega)
    have htaken : takenIds m'.resources = takenIds m.resources := by
      rw [takenIds, takenIds, hids]
    have hout := hassigned.same (htaken ▸ hassigned') hm.resources
    rw [heq] at h
    obtain ⟨found, hfound, h⟩ := Exec.bind_eq_ok.mp h
    obtain ⟨found', hfound', hsome⟩ := findDuplicate_same hout hfound
    rw [heq', hfound', Exec.ok_bind]
    cases found with
    | some pair =>
      obtain ⟨pair', rfl⟩ := Option.isSome_iff_exists.mp hsome
      obtain ⟨rfl, rfl⟩ := Prod.mk.inj (Except.ok.inj h)
      exact ⟨_, _, rfl, rfl, ⟨hm.version, hm.module, hout⟩⟩
    | none =>
      obtain rfl : found' = none := by simpa using hsome
      obtain ⟨rfl, rfl⟩ := Prod.mk.inj (Except.ok.inj h)
      exact ⟨_, _, rfl, rfl, ⟨hm.version, hm.module, hout⟩⟩
  · have hnodup' : ¬ (explicitIds m'.resources).Nodup := hids ▸ hnodup
    obtain ⟨err₁, heq, hchecked⟩ := assignAndValidateIds_of_repeated fuel ctx none hnodup
    obtain ⟨err₁', heq', hchecked'⟩ := assignAndValidateIds_of_repeated fuel ctx' none hnodup'
    rw [heq] at h
    obtain ⟨rfl, rfl⟩ := Prod.mk.inj (Except.ok.inj h)
    have hsome := hchecked.isSome_iff.mpr not_false
    have hsome' := hchecked'.isSome_iff.mpr not_false
    exact ⟨_, _, heq', hsome'.trans hsome.symm, hm⟩

end Same

theorem parseRoot_same {ctx ctx' : ParseCtx} {R : YamlNode → YamlNode → Prop}
    (h : Alike ctx.doc ctx'.doc R) (hdir : ctx.manifestDir = ctx'.manifestDir) {fs : FileSystem}
    {fuel : ℕ} (hfuel : 2 ^ 31 ≤ fuel) {err : ErrorState} {m : ElfrcManifest}
    (hparsed : parseRoot fs fuel ctx = .ok (err, m)) :
    ∃ err' m', parseRoot fs fuel ctx' = .ok (err', m') ∧ err'.isSome = err.isSome ∧
      (err = none → SameManifest m m') := by
  by_cases hresources : ∃ root nodes, HasResources ctx root nodes
  · obtain ⟨root, nodes, hr⟩ := hresources
    obtain ⟨root', nodes', hr', hRroot, hnodes⟩ := h.hasResources hr
    have hdefs := h.declaredDefaults_eq hRroot
    have hsafe := reachedSafe_of_parseRoot hr hparsed
    have hsafe' := h.reachedSafe hdir hnodes hsafe
    rw [hdefs] at hsafe'
    rcases parseRoot_of_reachedSafe hr hsafe with
      ⟨message, m₁, -, heq, hinvalid⟩ | ⟨hitems, hlt, heq⟩
    · obtain ⟨rfl, rfl⟩ := Prod.mk.inj (Except.ok.inj ((heq fuel).symm.trans hparsed))
      rcases parseRoot_of_reachedSafe hr' hsafe' with
        ⟨message', m', -, heq', -⟩ | ⟨hitems', -, -⟩
      · exact ⟨_, _, heq' fuel, rfl, fun hnone => absurd hnone (Option.some_ne_none _)⟩
      · refine absurd (h.symm.itemsValid hdir.symm hnodes.flip ?_) hinvalid
        rwa [hdefs]
    · rcases parseRoot_of_reachedSafe hr' hsafe' with
        ⟨-, -, -, -, hinvalid'⟩ | ⟨-, -, heq'⟩
      · refine absurd (h.itemsValid hdir hnodes ?_) hinvalid'
        rwa [← hdefs]
      · have hmeaning : List.Forall₂ SameResource (resourcesMeaning ctx root nodes)
            (resourcesMeaning ctx' root' nodes') := by
          rw [resourcesMeaning, resourcesMeaning, List.forall₂_map_left_iff,
            List.forall₂_map_right_iff, hdefs]
          exact hnodes.imp fun n n' hR => h.resourceMeaning hdir hR
        have hmanifest : SameManifest (manifestOf ctx root (resourcesMeaning ctx root nodes))
            (manifestOf ctx' root' (resourcesMeaning ctx' root' nodes')) :=
          ⟨rfl, (h.scalarDup_field hRroot "module").symm, hmeaning⟩
        rw [heq] at hparsed
        obtain ⟨err', m', hassign, hsome, hsame⟩ :=
          assignAndValidateIds_same hmanifest hlt hfuel hparsed
        exact ⟨err', m', (heq' fuel).trans hassign, hsome, fun _ => hsame⟩
  · have hnot : ∀ root nodes, ¬ HasResources ctx root nodes :=
      fun root nodes hr => hresources ⟨root, nodes, hr⟩
    have hnot' : ∀ root nodes, ¬ HasResources ctx' root nodes := by
      intro root' nodes' hr'
      obtain ⟨root, nodes, hr, -⟩ := h.symm.hasResources hr'
      exact hnot root nodes hr
    obtain ⟨line, message, m₁, heq⟩ := parseRoot_of_not_hasResources hnot
    obtain ⟨line', message', m₁', heq'⟩ := parseRoot_of_not_hasResources hnot'
    obtain ⟨rfl, -⟩ := Prod.mk.inj (Except.ok.inj ((heq fs fuel).symm.trans hparsed))
    exact ⟨_, _, heq' fs fuel, rfl, fun hnone => absurd hnone (Option.some_ne_none _)⟩

/-- The same resource on another line. -/
structure Moved (r r' : ElfrcResource) : Prop extends SameResource r r' where
  kept : r'.metadata = r.metadata

theorem Moved.symm {r r' : ElfrcResource} (h : Moved r r') : Moved r' r where
  same := by
    rw [h.same]
  metadata := h.metadata.symm
  kept := h.kept.symm

theorem Moved.loads {fs : FileSystem} {r r' : ElfrcResource} (h : Moved r r') {it : Item}
    (hloads : Loads fs r it) : Loads fs r' it := by
  obtain ⟨hname, hmetadata, hcontents, hid, htype, hlanguage, hflags⟩ := hloads
  rw [h.same, h.kept]
  exact ⟨hname, hmetadata, hcontents, hid, htype, hlanguage, hflags⟩

theorem Moved.loads_all {fs : FileSystem} {rs rs' : List ElfrcResource} {items : List Item}
    (h : List.Forall₂ Moved rs rs') (hloads : List.Forall₂ (Loads fs) rs items) :
    List.Forall₂ (Loads fs) rs' items := by
  induction h generalizing items with
  | nil =>
    cases hloads
    exact .nil
  | cons hr _ ih =>
    cases hloads with
    | cons hit hloads => exact .cons (hr.loads hit) (ih hloads)

theorem Moved.builds {fs : FileSystem} {m m' : ElfrcManifest}
    (h : List.Forall₂ Moved m.resources m'.resources) {b : Bytes} (hbuild : Builds fs m b) :
    Builds fs m' b := by
  obtain ⟨fuel, hbuild⟩ := hbuild
  obtain ⟨items, hloads, hashTable, hhash, rfl⟩ := elfrcContainerBuild_eq_ok.mp hbuild
  exact ⟨fuel, elfrcContainerBuild_eq_ok.mpr
    ⟨items, Moved.loads_all h hloads, hashTable, hhash, rfl⟩⟩

theorem SameManifest.moved {m m' : ElfrcManifest} (h : SameManifest m m')
    (hmetadata : m'.resources.map (·.metadata) = m.resources.map (·.metadata)) :
    List.Forall₂ Moved m.resources m'.resources := by
  have hresources := h.resources
  generalize m.resources = rs, m'.resources = rs' at hresources hmetadata ⊢
  induction hresources with
  | nil => exact .nil
  | cons hr _ ih =>
    obtain ⟨hhead, htail⟩ := List.cons.inj hmetadata
    exact .cons ⟨hr, hhead⟩ (ih htail)

/-- **What a manifest says decides what is compiled.** Of two documents that say the same, the
parser returns on both or on none, and accepts both or none. The manifests then differ in the
lines and in the order of metadata only; where that is the same, so are the containers. -/
theorem contents_decide (fs : FileSystem) (path : CString) (doc doc' : YamlDocument)
    (h : SameContents doc doc') (result : ParseResult)
    (hparse : Returns (elfrcManifestParse fs path (.loaded doc)) result) :
    ∃ result', Returns (elfrcManifestParse fs path (.loaded doc')) result' ∧
      result'.code = result.code ∧ SameManifest result.manifest result'.manifest ∧
      (result'.manifest.resources.map (·.metadata) = result.manifest.resources.map (·.metadata) →
        ∀ b, Builds fs result.manifest b ↔ Builds fs result'.manifest b) := by
  obtain ⟨R, halike⟩ := h
  obtain ⟨fuel, err, m, hfuel, hparsed, hok, hfail⟩ := exists_parseRoot hparse
  have hdocs : Alike (parseCtx path doc).doc (parseCtx path doc').doc R := halike
  have hdir : (parseCtx path doc).manifestDir = (parseCtx path doc').manifestDir := rfl
  obtain ⟨err', m', hparsed', hsome, hsame⟩ := parseRoot_same hdocs hdir hfuel hparsed
  have hbuilds : ∀ {m₁ m₂ : ElfrcManifest}, SameManifest m₁ m₂ →
      m₂.resources.map (·.metadata) = m₁.resources.map (·.metadata) →
      ∀ b, Builds fs m₁ b ↔ Builds fs m₂ b := by
    intro m₁ m₂ hm hmetadata b
    have hmoved := hm.moved hmetadata
    exact ⟨Moved.builds hmoved, Moved.builds (hmoved.flip.imp fun _ _ hr => hr.symm)⟩
  refine ⟨_, ⟨fuel, elfrcManifestParse_eq hparsed'⟩, ?_⟩
  cases err with
  | none =>
    obtain rfl := hok rfl
    obtain rfl : err' = none := by simpa using hsome
    exact ⟨rfl, hsame rfl, hbuilds (hsame rfl)⟩
  | some message =>
    obtain rfl := hfail message rfl
    obtain ⟨message', rfl⟩ := Option.isSome_iff_exists.mp hsome
    have hzero : SameManifest zeroManifest zeroManifest := ⟨rfl, rfl, .nil⟩
    exact ⟨rfl, hzero, hbuilds hzero⟩

/-- The sample on one line, with all keys in reverse. -/
def reversedDocument : YamlDocument where
  nodes :=
    [⟨0, .mapping [(4, 5), (2, 3)]⟩,
      ⟨0, .scalar (ascii "version")⟩, ⟨0, .scalar (ascii "1")⟩,
      ⟨0, .scalar (ascii "resources")⟩, ⟨0, .sequence [6]⟩, ⟨0, .mapping [(9, 10), (7, 8)]⟩,
      ⟨0, .scalar (ascii "name")⟩, ⟨0, .scalar (ascii "a")⟩,
      ⟨0, .scalar (ascii "file")⟩, ⟨0, .scalar (ascii "f")⟩]
  linked := by decide
  counted := by simp

theorem reversedDocument_same : SameContents sampleDocument reversedDocument := by
  refine sameContents_of_reordered ?_
  have hroot : KeysDistinct sampleDocument [(2, 3), (4, 5)] := by
    unfold KeysDistinct
    decide
  have hitem : KeysDistinct sampleDocument [(7, 8), (9, 10)] := by
    unfold KeysDistinct
    decide
  have hself : ∀ pairs : List (ℕ × ℕ),
      List.Forall₂ (fun p q => p.1 = q.1 ∧ p.2 = q.2) pairs pairs :=
    fun pairs => List.forall₂_same.mpr fun _ _ => ⟨rfl, rfl⟩
  exact .cons (.mapping hroot (hself _) (.swap ..)) (.cons .scalar (.cons .scalar (.cons .scalar
    (.cons (.sequence (.cons rfl .nil)) (.cons (.mapping hitem (hself _) (.swap ..))
      (.cons .scalar (.cons .scalar (.cons .scalar (.cons .scalar .nil)))))))))

theorem contents_decide_sample : ∃ result', Returns (elfrcManifestParse emptyFiles
    (.literal "sample.elfrc") (.loaded reversedDocument)) result' ∧ result'.code = 0 := by
  have hcode : (elfrcManifestParse emptyFiles (.literal "sample.elfrc") (.loaded sampleDocument)
      2).map ParseResult.code = .ok 0 := by decide +kernel
  cases heq : elfrcManifestParse emptyFiles (.literal "sample.elfrc")
      (.loaded sampleDocument) 2 with
  | error stop => simp [heq, Except.map] at hcode
  | ok result =>
    obtain ⟨result', hreturns, hsame, -⟩ := contents_decide emptyFiles (.literal "sample.elfrc")
      sampleDocument reversedDocument reversedDocument_same result ⟨2, heq⟩
    refine ⟨result', hreturns, hsame.trans ?_⟩
    simpa [heq, Except.map] using hcode

end Elfr.Compiler
