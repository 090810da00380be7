import Elfr.Compiler.ManifestMeaning

/-!
# The checks of one resource

One lemma for each part of `parse_resource`: what it makes of the resource, and that
it reports an error exactly if its field is not valid. Where the string it follows is
null, it stops.
-/
namespace Elfr.Compiler

open Library

section Fields

variable {ctx : ParseCtx} {defs : Defaults} {item : YamlNode} (err : ErrorState)
  {r : ElfrcResource}

theorem parseType_spec {path : CString} (hfile : r.file = some path)
    (hsafe : ∀ n, field ctx item "type" = some n → scalarDup (some n) ≠ none) :
    ∃ err', parseType ctx item err r =
        .ok (err', { r with type := (typeMeaning ctx item path).getD r.type }) ∧
      Checked err err' (TypeValid ctx item) := by
  unfold parseType typeMeaning TypeValid
  cases hn : field ctx item "type" with
  | none =>
    refine ⟨err, by simp [hfile], Checked.skip ?_⟩
    rintro n ⟨⟩
  | some n =>
    obtain ⟨s, hs⟩ := Option.ne_none_iff_exists'.mp (hsafe n hn)
    simp only [hs, typeFromName, fromName_some, Exec.ok_bind, Option.bind_some, Option.some.injEq,
      forall_eq', exists_eq_left']
    cases hname : lookupName typeNames s with
    | some t =>
      refine ⟨err, by simp, Checked.skip (Or.inl ?_)⟩
      by_contra hnot
      simp [lookupName_eq_none_iff.mpr hnot] at hname
    | none =>
      cases huint : parseUint (some s) with
      | some t => exact ⟨err, by simp, Checked.skip (Or.inr (by simp))⟩
      | none =>
        refine ⟨_, by simp; rfl, Checked.report ctx _ _ ?_⟩
        simpa using lookupName_eq_none_iff.mp hname

theorem parseType_null {n : YamlNode} (hn : field ctx item "type" = some n)
    (hnull : scalarDup (some n) = none) : parseType ctx item err r = .error .nullPointer := by
  simp [parseType, hn, hnull, typeFromName]

theorem parseId_spec (ctx : ParseCtx) (item : YamlNode) (r : ElfrcResource) :
    ∃ err', parseId ctx item err r =
      (err', { r with
        id := (parseUint (scalarDup (field ctx item "id"))).getD r.id
        idExplicit := (field ctx item "id").isSome || r.idExplicit }) ∧
    Checked err err' (IdValid ctx item) := by
  unfold parseId IdValid
  cases hn : field ctx item "id" with
  | none =>
    refine ⟨err, by simp [scalarDup, parseUint], Checked.skip ?_⟩
    rintro n ⟨⟩
  | some n =>
    cases huint : parseUint (scalarDup (some n)) with
    | some id => exact ⟨err, by simp [huint], Checked.skip (by simp [huint])⟩
    | none => exact ⟨_, by simp [huint]; rfl, Checked.report ctx _ _ (by simp [huint])⟩

theorem ownOrDefault_eq {key : String} {default : Option CString}
    (h : field ctx item key = none → default ≠ none) :
    ownOrDefault (field ctx item key) default = .ok (effective ctx item key default) := by
  unfold ownOrDefault effective
  cases hn : field ctx item key with
  | some n => rfl
  | none =>
    obtain ⟨s, hs⟩ := Option.ne_none_iff_exists'.mp (h hn)
    simp [hs]

theorem ownOrDefault_null {key : String} {default : Option CString}
    (h : ¬ (field ctx item key = none → default ≠ none)) :
    ownOrDefault (field ctx item key) default = .error .nullPointer := by
  obtain ⟨hn, hdefault⟩ : field ctx item key = none ∧ default = none := by simpa using h
  simp [ownOrDefault, hn, hdefault]

theorem ownOrDefault_of_effective {key : String} {default : Option CString} {s : CString}
    (h : effective ctx item key default = some s) :
    ownOrDefault (field ctx item key) default = .ok (some s) := by
  rw [← h]
  refine ownOrDefault_eq fun hn hdefault => ?_
  simp [effective, hn, hdefault] at h

/-- Without a value in either place, neither copying it nor following it works. -/
theorem ownOrDefault_bind_null {key : String} {default : Option CString} {α : Type}
    {f : Option CString → Exec α} (hf : f none = .error .nullPointer)
    (h : effective ctx item key default = none) :
    (ownOrDefault (field ctx item key) default >>= f) = .error .nullPointer := by
  by_cases hcopy : field ctx item key = none → default ≠ none
  · rw [ownOrDefault_eq hcopy, h, Exec.ok_bind, hf]
  · rw [ownOrDefault_null hcopy, Exec.error_bind]

theorem parseLanguage_spec (hsafe : field ctx item "language" = none → defs.language ≠ none) :
    parseLanguage ctx defs item r = .ok { r with
      language := languageFromTag (effective ctx item "language" defs.language) } := by
  simp [parseLanguage, ownOrDefault_eq hsafe]

theorem parseLanguage_null
    (hnull : ¬ (field ctx item "language" = none → defs.language ≠ none)) :
    parseLanguage ctx defs item r = .error .nullPointer := by
  simp [parseLanguage, ownOrDefault_null hnull]

theorem parseCompression_spec (hr : r.compression = erfCompressionNone)
    (hsafe : effective ctx item "compression" defs.compression ≠ none) :
    ∃ err', parseCompression ctx defs item err r = .ok (err', r) ∧
      Checked err err' (CompressionValid ctx defs item) := by
  obtain ⟨s, hs⟩ := Option.ne_none_iff_exists'.mp hsafe
  unfold parseCompression CompressionValid
  simp only [ownOrDefault_of_effective hs, hs, compressionFromName, fromName_some, Exec.ok_bind,
    Option.some.injEq, exists_eq_left', ← lookupName_compressionNames]
  cases hname : lookupName compressionNames s with
  | none => exact ⟨_, rfl, Checked.report ctx _ _ (by simp)⟩
  | some comp =>
    by_cases hnone : comp = erfCompressionNone
    · refine ⟨err, ?_, Checked.skip (by simp [hnone])⟩
      simp [hnone, ← hr]
    · exact ⟨_, by simp [hnone]; rfl, Checked.report ctx _ _ (by simp [hnone])⟩

theorem parseCompression_null (hnull : effective ctx item "compression" defs.compression = none) :
    parseCompression ctx defs item err r = .error .nullPointer :=
  ownOrDefault_bind_null rfl hnull

theorem parseEncryption_spec
    (hsafe : effective ctx item "encryption" defs.encryption ≠ none) :
    ∃ err', parseEncryption ctx defs item err r = .ok err' ∧
      Checked err err' (EncryptionValid ctx defs item) := by
  obtain ⟨s, hs⟩ := Option.ne_none_iff_exists'.mp hsafe
  unfold parseEncryption EncryptionValid
  simp only [ownOrDefault_of_effective hs, hs, Exec.ok_bind, Exec.deref_some, Option.some.injEq,
    exists_eq_left']
  split_ifs with hbad
  · exact ⟨_, rfl, Checked.report ctx _ _ (by simpa [not_or] using hbad)⟩
  · refine ⟨err, rfl, Checked.skip ?_⟩
    rcases not_and_or.mp hbad with hcase | hempty
    · exact Or.inl (by simpa using hcase)
    · exact Or.inr (by simpa using hempty)

theorem parseEncryption_null (hnull : effective ctx item "encryption" defs.encryption = none) :
    parseEncryption ctx defs item err r = .error .nullPointer :=
  ownOrDefault_bind_null rfl hnull

theorem hasKey_eq {key : CString} {metadata : List ElfrcMetadataKv}
    (hkeys : none ∉ metadata.map (·.key)) :
    hasKey key metadata = .ok (decide (some key ∈ metadata.map (·.key))) := by
  induction metadata with
  | nil => simp [hasKey]
  | cons kv metadata ih =>
    obtain ⟨hkv, hrest⟩ : none ≠ kv.key ∧ none ∉ metadata.map (·.key) := by simpa using hkeys
    obtain ⟨k, hk⟩ := Option.ne_none_iff_exists'.mp (Ne.symm hkv)
    by_cases hsame : k = key
    · simp [hasKey, hk, hsame]
    · simp [hasKey, hk, hsame, ih hrest, Ne.symm hsame]

def pairMeaning (ctx : ParseCtx) (pair : ℕ × ℕ) : ElfrcMetadataKv :=
  ⟨scalarDup (nodeAt ctx pair.1), scalarDup (nodeAt ctx pair.2)⟩

/-- The pairs are entries whose keys differ from each other and from those so far. -/
def PairsValid (ctx : ParseCtx) (sofar : List ElfrcMetadataKv) (pairs : List (ℕ × ℕ)) : Prop :=
  (∀ pair ∈ pairs, (pairMeaning ctx pair).key ≠ none ∧ (pairMeaning ctx pair).value ≠ none) ∧
    ((sofar ++ pairs.map (pairMeaning ctx)).map (·.key)).Nodup

theorem parsePairs_spec (ctx : ParseCtx) (line : ℤ) (pairs : List (ℕ × ℕ))
    (hkeys : none ∉ r.metadata.map (·.key)) (hnodup : (r.metadata.map (·.key)).Nodup) :
    ∃ err' metadata, parsePairs ctx line pairs err r =
        .ok (err', { r with metadata := metadata }) ∧
      Checked err err' (PairsValid ctx r.metadata pairs) ∧
      (PairsValid ctx r.metadata pairs →
        metadata = r.metadata ++ pairs.map (pairMeaning ctx)) := by
  induction pairs generalizing r with
  | nil =>
    exact ⟨err, r.metadata, rfl, Checked.skip ⟨by simp, by simpa using hnodup⟩, by simp⟩
  | cons pair pairs ih =>
    obtain ⟨k, v⟩ := pair
    unfold parsePairs
    cases hk : scalarDup (nodeAt ctx k) with
    | none =>
      have hnot : ¬ PairsValid ctx r.metadata ((k, v) :: pairs) :=
        fun h => (h.1 (k, v) (List.mem_cons_self ..)).1 hk
      exact ⟨_, r.metadata, rfl, Checked.report ctx _ _ hnot, fun h => absurd h hnot⟩
    | some key =>
      cases hv : scalarDup (nodeAt ctx v) with
      | none =>
        have hnot : ¬ PairsValid ctx r.metadata ((k, v) :: pairs) :=
          fun h => (h.1 (k, v) (List.mem_cons_self ..)).2 hv
        exact ⟨_, r.metadata, rfl, Checked.report ctx _ _ hnot, fun h => absurd h hnot⟩
      | some val =>
        have hpair : pairMeaning ctx (k, v) = ⟨some key, some val⟩ := by simp [pairMeaning, hk, hv]
        simp only [hasKey_eq hkeys, Exec.ok_bind, decide_eq_true_iff]
        split_ifs with hmem
        · have hnot : ¬ PairsValid ctx r.metadata ((k, v) :: pairs) := by
            intro h
            have hdisjoint := h.2
            rw [List.map_append, List.map_cons, hpair, List.nodup_append] at hdisjoint
            exact hdisjoint.2.2 _ hmem _ (List.mem_cons_self ..) rfl
          exact ⟨_, r.metadata, rfl, Checked.report ctx _ _ hnot, fun h => absurd h hnot⟩
        · have hsplit : PairsValid ctx (r.metadata ++ [⟨some key, some val⟩]) pairs ↔
              PairsValid ctx r.metadata ((k, v) :: pairs) := by
            simp [PairsValid, hpair]
          obtain ⟨err', metadata, heq, hchecked, hmeaning⟩ :=
            ih (r := { r with metadata := r.metadata ++ [⟨some key, some val⟩] })
              (by simpa using hkeys)
              (by rw [List.map_append, List.nodup_append]; simpa [hnodup] using hmem)
          refine ⟨err', metadata, heq, hchecked.congr hsplit, fun h => ?_⟩
          rw [hmeaning (hsplit.mpr h), List.map_cons, hpair, List.append_assoc]
          rfl

theorem parseMetadata_spec (ctx : ParseCtx) (item : YamlNode) (hr : r.metadata = []) :
    ∃ err' metadata, parseMetadata ctx (field ctx item "metadata") err r =
        .ok (err', { r with metadata := metadata }) ∧
      Checked err err' (MetadataValid ctx item) ∧
      (MetadataValid ctx item → metadata = metadataMeaning ctx item) := by
  unfold MetadataValid metadataMeaning parseMetadata
  cases hn : field ctx item "metadata" with
  | none => exact ⟨err, [], by simp [← hr], Checked.skip (by simp), fun _ => rfl⟩
  | some n =>
    obtain ⟨line, data⟩ := n
    cases data with
    | mapping pairs =>
      obtain ⟨err', metadata, heq, hchecked, hmeaning⟩ := parsePairs_spec err (r := r) ctx
        (nodeLine (some ⟨line, .mapping pairs⟩)) pairs (by simp [hr]) (by simp [hr])
      have hvalid : PairsValid ctx r.metadata pairs ↔
          (∀ pair ∈ pairs,
            scalarDup (nodeAt ctx pair.1) ≠ none ∧ scalarDup (nodeAt ctx pair.2) ≠ none) ∧
          (pairs.map fun pair => scalarDup (nodeAt ctx pair.1)).Nodup := by
        simp [PairsValid, hr, pairMeaning, Function.comp_def]
      refine ⟨err', metadata, heq, hchecked.congr ?_, fun h => ?_⟩
      · simp [hvalid]
      · obtain ⟨pairs', hpairs, h⟩ := h _ rfl
        cases hpairs
        rw [hmeaning (hvalid.mpr h), hr]
        rfl
    | scalar value =>
      refine ⟨_, [], by simp [← hr]; rfl, Checked.report ctx _ _ (by simp), by simp⟩
    | sequence items =>
      refine ⟨_, [], by simp [← hr]; rfl, Checked.report ctx _ _ (by simp), by simp⟩

theorem parseFlagNames_spec (ctx : ParseCtx) (line : ℤ) (ids : List ℕ) :
    ∃ err' flags, parseFlagNames ctx line ids err r = .ok (err', { r with flags := flags }) ∧
      Checked err err'
        (∀ id ∈ ids, ∃ name, scalarDup (nodeAt ctx id) = some name ∧ Known flagNames name) ∧
      ((∀ id ∈ ids, ∃ name, scalarDup (nodeAt ctx id) = some name ∧ Known flagNames name) →
        flags = flagBits ctx ids r.flags) := by
  induction ids generalizing r with
  | nil => exact ⟨err, r.flags, rfl, Checked.skip (by simp), fun _ => rfl⟩
  | cons id ids ih =>
    unfold parseFlagNames
    simp only [List.forall_mem_cons]
    cases hname : scalarDup (nodeAt ctx id) with
    | none =>
      exact ⟨_, r.flags, rfl, Checked.report ctx _ _ (by simp), by simp⟩
    | some name =>
      simp only [flagFromName, fromName_some, Exec.ok_bind, Option.some.injEq, exists_eq_left']
      cases hbit : lookupName flagNames name with
      | none =>
        have hnot := lookupName_eq_none_iff.mp hbit
        exact ⟨_, r.flags, rfl, Checked.report ctx _ _ (fun h => hnot h.1),
          fun h => absurd h.1 hnot⟩
      | some bit =>
        have hknown : Known flagNames name := by
          by_contra hnot
          simp [lookupName_eq_none_iff.mpr hnot] at hbit
        obtain ⟨err', flags, heq, hchecked, hmeaning⟩ :=
          ih (r := { r with flags := r.flags ||| bit })
        refine ⟨err', flags, heq, hchecked.congr (by simp [hknown]), fun h => ?_⟩
        rw [hmeaning h.2]
        simp [flagBits, hname, hbit]

theorem parseFlags_spec (ctx : ParseCtx) (item : YamlNode) (hr : r.flags = 0) :
    ∃ err' flags, parseFlags ctx (field ctx item "flags") err r =
        .ok (err', { r with flags := flags }) ∧
      Checked err err' (FlagsValid ctx item) ∧
      (FlagsValid ctx item → flags = flagsMeaning ctx item) := by
  unfold FlagsValid flagsMeaning parseFlags
  cases hn : field ctx item "flags" with
  | none =>
    refine ⟨err, 0, by simp [← hr], Checked.skip (by simp), fun _ => rfl⟩
  | some n =>
    obtain ⟨line, data⟩ := n
    cases data with
    | scalar value =>
      cases huint : parseUint (scalarDup (some ⟨line, .scalar value⟩)) with
      | some v =>
        exact ⟨err, v, by simp [huint], Checked.skip (by simp [huint]), by simp [huint]⟩
      | none =>
        refine ⟨_, 0, by simp [huint, ← hr]; rfl, Checked.report ctx _ _ (by simp [huint]), ?_⟩
        simp [huint]
    | sequence ids =>
      obtain ⟨err', flags, heq, hchecked, hmeaning⟩ := parseFlagNames_spec err (r := r) ctx
        (nodeLine (some ⟨line, .sequence ids⟩)) ids
      have hno : parseUint (scalarDup (some ⟨line, .sequence ids⟩)) = none := rfl
      refine ⟨err', flags, heq, hchecked.congr (by simp [hno]), fun h => ?_⟩
      rw [hmeaning (by simpa [hno] using h), hr]
    | mapping pairs =>
      have hno : parseUint (scalarDup (some ⟨line, .mapping pairs⟩)) = none := rfl
      refine ⟨_, 0, by simp [← hr]; rfl, Checked.report ctx _ _ (by simp [hno]), by simp [hno]⟩

end Fields

end Elfr.Compiler
