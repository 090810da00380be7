import Elfr.Compiler.FieldChecks

/-!
# Parsing resources

The parts of `parse_resource` put together, and the loop over the items. The loop ends
with the first item that is not valid, so what matters for null safety is an item that
follows valid ones only.
-/
namespace Elfr.Compiler

open Library

section Resource

variable {ctx : ParseCtx} {fs : FileSystem} {defs : Defaults} {item : YamlNode}

/-- The resource when the first checks are done: a name, a file, and zeros. -/
def openedResource (ctx : ParseCtx) (item : YamlNode) (path : CString) : ElfrcResource :=
  { zeroResource with
    line := nodeLine (some item), name := scalarDup (field ctx item "name"), file := some path }

/-- What the checks from the type on ask for. -/
def FieldsValid (ctx : ParseCtx) (defs : Defaults) (item : YamlNode) : Prop :=
  ((((TypeValid ctx item ∧ IdValid ctx item) ∧ CompressionValid ctx defs item) ∧
    EncryptionValid ctx defs item) ∧ MetadataValid ctx item) ∧ FlagsValid ctx item

theorem parseFields_spec (err : ErrorState) {path : CString} (hpath : filePath ctx item = some path)
    (hsafe : FieldsSafe ctx defs item) :
    ∃ err' r, parseFields ctx defs item err (openedResource ctx item path) = .ok (err', r) ∧
      Checked err err' (FieldsValid ctx defs item) ∧
      (FieldsValid ctx defs item → r = resourceMeaning ctx defs item) := by
  obtain ⟨err₁, htype, c₁⟩ := parseType_spec err
    (r := openedResource ctx item path) rfl hsafe.type
  set r₁ : ElfrcResource := { openedResource ctx item path with
    type := (typeMeaning ctx item path).getD (openedResource ctx item path).type } with hr₁
  obtain ⟨err₂, hid, c₂⟩ := parseId_spec err₁ ctx item r₁
  set r₂ : ElfrcResource := { r₁ with
    id := (parseUint (scalarDup (field ctx item "id"))).getD r₁.id
    idExplicit := (field ctx item "id").isSome || r₁.idExplicit } with hr₂
  have hlanguage := parseLanguage_spec (r := r₂) hsafe.language
  set r₃ : ElfrcResource := { r₂ with
    language := languageFromTag (effective ctx item "language" defs.language) } with hr₃
  obtain ⟨err₃, hcompression, c₃⟩ :=
    parseCompression_spec err₂ (r := r₃) rfl hsafe.compression
  obtain ⟨err₄, hencryption, c₄⟩ := parseEncryption_spec err₃ (r := r₃) hsafe.encryption
  obtain ⟨err₅, metadata, hmetadata, c₅, hmeaning⟩ :=
    parseMetadata_spec err₄ (r := r₃) ctx item rfl
  obtain ⟨err₆, flags, hflags, c₆, hbits⟩ := parseFlags_spec err₅
    (r := { r₃ with metadata := metadata }) ctx item rfl
  refine ⟨err₆, { r₃ with metadata := metadata, flags := flags }, ?_,
    ((((c₁.trans c₂).trans c₃).trans c₄).trans c₅).trans c₆, fun hvalid => ?_⟩
  · simp only [parseFields, htype, hid, hlanguage, hcompression, hencryption, hmetadata, hflags,
      Exec.ok_bind]
  · rw [hmeaning hvalid.1.2, hbits hvalid.2]
    simp [hr₃, hr₂, hr₁, openedResource, zeroResource, resourceMeaning, hpath, erfCompressionNone]

/-- A null string among those that are followed stops the parser. -/
theorem parseFields_null (err : ErrorState) (path : CString) (hnull : ¬ FieldsSafe ctx defs item) :
    parseFields ctx defs item err (openedResource ctx item path) = .error .nullPointer := by
  by_cases htype : ∀ n, field ctx item "type" = some n → scalarDup (some n) ≠ none
  · obtain ⟨err₁, htype', -⟩ := parseType_spec err
      (r := openedResource ctx item path) rfl htype
    set r₁ : ElfrcResource := { openedResource ctx item path with
      type := (typeMeaning ctx item path).getD (openedResource ctx item path).type }
    obtain ⟨err₂, hid, -⟩ := parseId_spec err₁ ctx item r₁
    set r₂ : ElfrcResource := { r₁ with
      id := (parseUint (scalarDup (field ctx item "id"))).getD r₁.id
      idExplicit := (field ctx item "id").isSome || r₁.idExplicit }
    simp only [parseFields, htype', hid, Exec.ok_bind]
    by_cases hlanguage : field ctx item "language" = none → defs.language ≠ none
    · rw [parseLanguage_spec hlanguage, Exec.ok_bind]
      set r₃ : ElfrcResource := { r₂ with
        language := languageFromTag (effective ctx item "language" defs.language) }
      by_cases hcompression : effective ctx item "compression" defs.compression = none
      · rw [parseCompression_null _ hcompression, Exec.error_bind]
      · obtain ⟨err₃, hcompression', -⟩ :=
          parseCompression_spec err₂ (r := r₃) rfl hcompression
        have hencryption : effective ctx item "encryption" defs.encryption = none := by
          by_contra hencryption
          exact hnull ⟨htype, hlanguage, hcompression, hencryption⟩
        rw [hcompression', Exec.ok_bind, parseEncryption_null _ hencryption, Exec.error_bind]
    · rw [parseLanguage_null hlanguage, Exec.error_bind]
  · obtain ⟨n, hn, hscalar⟩ : ∃ n, field ctx item "type" = some n ∧ scalarDup (some n) = none := by
      simpa using htype
    simp only [parseFields, parseType_null _ hn hscalar, Exec.error_bind]

theorem itemValid_iff_of_path {path : CString} (hmapping : ∃ pairs, item.data = .mapping pairs)
    (hname : field ctx item "name" ≠ none) (hpath : filePath ctx item = some path)
    (hregular : fs.isRegular path = true) :
    FieldsValid ctx defs item ↔ ItemValid ctx fs defs item := by
  constructor
  · rintro ⟨⟨⟨⟨⟨htype, hid⟩, hcompression⟩, hencryption⟩, hmetadata⟩, hflags⟩
    exact ⟨hmapping, hname, ⟨path, hpath, hregular⟩, htype, hid, hcompression, hencryption,
      hmetadata, hflags⟩
  · intro h
    exact ⟨⟨⟨⟨⟨h.type, h.id⟩, h.compression⟩, h.encryption⟩, h.metadata⟩, h.flags⟩

theorem parseResource_spec (err : ErrorState) (hsafe : ItemSafe ctx fs defs item) :
    ∃ err' r, parseResource ctx fs defs item err = .ok (err', r) ∧
      Checked err err' (ItemValid ctx fs defs item) ∧
      (ItemValid ctx fs defs item → r = some (resourceMeaning ctx defs item)) := by
  -- every early return refuses the item, so only the path to the end needs a meaning
  have hrefused : ∀ {r : Option ElfrcResource} {line : ℤ} {message : Bytes},
      parseResource ctx fs defs item err = .ok (setError ctx err line message, r) →
      ¬ ItemValid ctx fs defs item →
      ∃ err' r, parseResource ctx fs defs item err = .ok (err', r) ∧
        Checked err err' (ItemValid ctx fs defs item) ∧
        (ItemValid ctx fs defs item → r = some (resourceMeaning ctx defs item)) :=
    fun heq hnot => ⟨_, _, heq, Checked.report ctx _ _ hnot, fun h => absurd h hnot⟩
  cases hdata : item.data with
  | mapping pairs =>
    cases hname : field ctx item "name" with
    | none =>
      exact hrefused (by simp only [parseResource, hdata, hname]; rfl) fun h => h.name hname
    | some nameN =>
      cases hfile : field ctx item "file" with
      | none =>
        refine hrefused (by simp only [parseResource, hdata, hname, hfile]; rfl) fun h => ?_
        obtain ⟨path, hpath, -⟩ := h.file
        simp [filePath, hfile, scalarDup] at hpath
      | some fileN =>
        obtain ⟨path, hpath, hfields⟩ := hsafe pairs nameN fileN hdata hname hfile
        obtain ⟨file, hscalar, hresolve⟩ : ∃ file, scalarDup (some fileN) = some file ∧
            resolvePath ctx.manifestDir file = path := by
          simpa [filePath, hfile] using hpath
        cases hregular : fs.isRegular path with
        | false =>
          refine hrefused (by
            simp only [parseResource, hdata, hname, hfile, hscalar, Exec.deref_some, Exec.ok_bind,
              hresolve, hregular, Bool.false_eq_true, ↓reduceIte]
            rfl) fun h => ?_
          obtain ⟨path', hpath', hregular'⟩ := h.file
          obtain rfl := Option.some.inj (hpath.symm.trans hpath')
          simp [hregular] at hregular'
        | true =>
          obtain ⟨err', r, heq, hchecked, hmeaning⟩ :=
            parseFields_spec err hpath (hfields hregular)
          have hiff : FieldsValid ctx defs item ↔ ItemValid ctx fs defs item :=
            itemValid_iff_of_path ⟨pairs, hdata⟩ (by simp [hname]) hpath hregular
          refine ⟨err', some r, ?_, hchecked.congr hiff,
            fun h => congrArg some (hmeaning (hiff.mpr h))⟩
          simp only [openedResource, hname] at heq
          simp only [parseResource, hdata, hname, hfile, hscalar, Exec.deref_some, Exec.ok_bind,
            hresolve, hregular, ↓reduceIte, heq]
          rfl
  | scalar value =>
    exact hrefused (by simp only [parseResource, hdata]; rfl) fun h => by
      simpa [hdata] using h.mapping
  | sequence items =>
    exact hrefused (by simp only [parseResource, hdata]; rfl) fun h => by
      simpa [hdata] using h.mapping

theorem parseResource_null (err : ErrorState) (hitem : ¬ ItemSafe ctx fs defs item) :
    parseResource ctx fs defs item err = .error .nullPointer := by
  obtain ⟨pairs, nameN, fileN, hdata, hname, hfile, hnull⟩ : ∃ pairs nameN fileN,
      item.data = .mapping pairs ∧ field ctx item "name" = some nameN ∧
      field ctx item "file" = some fileN ∧ ¬ ∃ path, filePath ctx item = some path ∧
        (fs.isRegular path = true → FieldsSafe ctx defs item) := by
    simpa only [ItemSafe, not_forall, exists_prop] using hitem
  cases hscalar : scalarDup (some fileN) with
  | none => simp [parseResource, hdata, hname, hfile, hscalar]
  | some file =>
    have hpath : filePath ctx item = some (resolvePath ctx.manifestDir file) := by
      simp [filePath, hfile, hscalar]
    obtain ⟨hregular, hfields⟩ : fs.isRegular (resolvePath ctx.manifestDir file) = true ∧
        ¬ FieldsSafe ctx defs item := by
      by_contra hnot
      exact hnull ⟨_, hpath, fun hregular => by_contra fun hfields => hnot ⟨hregular, hfields⟩⟩
    have heq := parseFields_null err (resolvePath ctx.manifestDir file) hfields
    simp only [openedResource, hname] at heq
    simp only [parseResource, hdata, hname, hfile, hscalar, Exec.deref_some, Exec.ok_bind,
      hregular, ↓reduceIte, heq, Exec.error_bind]

end Resource

section Loop

variable {ctx : ParseCtx} {fs : FileSystem} {defs : Defaults}

/-- Every item that the loop reaches, valid ones before it, is null-safe. -/
def ReachedSafe (ctx : ParseCtx) (fs : FileSystem) (defs : Defaults) (nodes : List YamlNode) :
    Prop :=
  ∀ before node after, nodes = before ++ node :: after →
    (∀ earlier ∈ before, ItemValid ctx fs defs earlier) → ItemSafe ctx fs defs node

theorem reachedSafe_cons {node : YamlNode} {nodes : List YamlNode} :
    ReachedSafe ctx fs defs (node :: nodes) ↔ ItemSafe ctx fs defs node ∧
      (ItemValid ctx fs defs node → ReachedSafe ctx fs defs nodes) := by
  constructor
  · refine fun h => ⟨h [] node nodes rfl (by simp), fun hvalid before n after hsplit hbefore => ?_⟩
    exact h (node :: before) n after (by rw [hsplit]; rfl) (List.forall_mem_cons.mpr
      ⟨hvalid, hbefore⟩)
  · rintro ⟨hsafe, hrest⟩ before n after hsplit hbefore
    cases before with
    | nil =>
      obtain ⟨rfl, rfl⟩ := List.cons.inj hsplit
      exact hsafe
    | cons m before =>
      obtain ⟨rfl, htail⟩ := List.cons.inj hsplit
      obtain ⟨hvalid, hbefore⟩ := List.forall_mem_cons.mp hbefore
      exact hrest hvalid before n after htail hbefore

theorem parseResources_spec {items : List ℕ} {nodes : List YamlNode}
    (hnodes : List.Forall₂ (fun id node => nodeAt ctx id = some node) items nodes)
    (hsafe : ReachedSafe ctx fs defs nodes) :
    ∃ err rs, parseResources ctx fs defs items none = .ok (err, rs) ∧
      Checked none err (∀ node ∈ nodes, ItemValid ctx fs defs node) ∧
      ((∀ node ∈ nodes, ItemValid ctx fs defs node) →
        rs = nodes.map (resourceMeaning ctx defs)) := by
  induction hnodes with
  | nil => exact ⟨none, [], rfl, Checked.skip (by simp), fun _ => rfl⟩
  | @cons id node items nodes hnode _ ih =>
    obtain ⟨hitem, hrest⟩ := reachedSafe_cons.mp hsafe
    obtain ⟨err₁, r, heq, hchecked, hmeaning⟩ := parseResource_spec none hitem
    simp only [parseResources, hnode, Exec.deref_some, Exec.ok_bind, heq, List.forall_mem_cons]
    cases err₁ with
    | some message =>
      have hnot : ¬ ItemValid ctx fs defs node := hchecked.isSome_iff.mp rfl
      refine ⟨_, _, rfl, ?_, fun h => absurd h.1 hnot⟩
      exact hchecked.congr (by simp [hnot])
    | none =>
      have hvalid := (hchecked.none_iff.mp rfl).2
      obtain ⟨err, rs, heq', hchecked', hmeaning'⟩ := ih (hrest hvalid)
      refine ⟨err, r.toList ++ rs, ?_, hchecked'.congr (by simp [hvalid]), fun h => ?_⟩
      · simp [heq']
      · rw [hmeaning hvalid, hmeaning' h.2]
        rfl

theorem parseResources_null {items : List ℕ} {nodes : List YamlNode}
    (hnodes : List.Forall₂ (fun id node => nodeAt ctx id = some node) items nodes)
    (hnull : ¬ ReachedSafe ctx fs defs nodes) :
    parseResources ctx fs defs items none = .error .nullPointer := by
  induction hnodes with
  | nil => exact absurd (fun _ _ _ hsplit => by simp at hsplit) hnull
  | @cons id node items nodes hnode _ ih =>
    rw [reachedSafe_cons, not_and, Classical.not_imp] at hnull
    simp only [parseResources, hnode, Exec.deref_some, Exec.ok_bind]
    by_cases hitem : ItemSafe ctx fs defs node
    · obtain ⟨hvalid, hrest⟩ := hnull hitem
      obtain ⟨err₁, r, heq, hchecked, -⟩ := parseResource_spec none hitem
      obtain rfl : err₁ = none := hchecked.none_iff.mpr ⟨rfl, hvalid⟩
      simp [heq, ih hrest]
    · rw [parseResource_null _ hitem, Exec.error_bind]

end Loop

end Elfr.Compiler
