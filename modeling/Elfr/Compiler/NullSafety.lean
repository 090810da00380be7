import Elfr.Compiler.ContainerBuild
import Elfr.Compiler.ManifestAcceptance

/-!
# Null strings in the compiler

A field that is no scalar becomes a null string, and most users of a string do not test
for one. This module says when the parser meets such a string, and that the container
builder does not where the parser left none.
-/
namespace Elfr.Compiler

open Library

/-- The name and language of the first resource recur, and no name up to there is null. -/
def FirstRecurs (keys : List (Option CString × UInt32)) : Prop :=
  ∃ first between after, keys = first :: (between ++ first :: after) ∧ first.1 ≠ none ∧
    ∀ key ∈ between, key.1 ≠ none

section Scan

variable {r : ElfrcResource} {rest : List ElfrcResource}

/-- One row of the scan finds a duplicate that no null name precedes. -/
theorem duplicateOf_of_recurs (hr : r.name ≠ none) {between after : List (Option CString × UInt32)}
    (hsplit : rest.map resourceKey = between ++ resourceKey r :: after)
    (hbetween : ∀ key ∈ between, key.1 ≠ none) : ∃ s, duplicateOf r rest = .ok (some s) := by
  induction rest generalizing between with
  | nil => simp at hsplit
  | cons s rest ih =>
    obtain ⟨name, hname⟩ := Option.ne_none_iff_exists'.mp hr
    have hs : s.name ≠ none := by
      cases between with
      | nil =>
        have hkey : s.name = r.name := congrArg Prod.fst (List.cons.inj hsplit).1
        exact hkey ▸ hr
      | cons key between =>
        have hkey : s.name = key.1 := congrArg Prod.fst (List.cons.inj hsplit).1
        exact hkey ▸ hbetween key (List.mem_cons_self ..)
    obtain ⟨name', hname'⟩ := Option.ne_none_iff_exists'.mp hs
    simp only [duplicateOf, hname, hname', Exec.deref_some, Exec.ok_bind]
    split_ifs with hdup
    · exact ⟨s, rfl⟩
    · cases between with
      | nil =>
        have hkey := (List.cons.inj hsplit).1
        simp only [resourceKey, hname, hname', Prod.mk.injEq, Option.some.injEq] at hkey
        exact absurd ⟨hkey.1.symm, hkey.2.symm⟩ hdup
      | cons key between =>
        exact ih (List.cons.inj hsplit).2 fun k hk => hbetween k (List.mem_cons_of_mem _ hk)

theorem duplicateOf_null (hr : r.name ≠ none) (hnull : ∃ s ∈ rest, s.name = none)
    (hnot : ¬ ∃ between after, rest.map resourceKey = between ++ resourceKey r :: after ∧
      ∀ key ∈ between, key.1 ≠ none) : duplicateOf r rest = .error .nullPointer := by
  induction rest with
  | nil => simp at hnull
  | cons s rest ih =>
    obtain ⟨name, hname⟩ := Option.ne_none_iff_exists'.mp hr
    cases hs : s.name with
    | none => simp [duplicateOf, hname, hs]
    | some name' =>
      have hdup : ¬ (name = name' ∧ r.language = s.language) := by
        rintro ⟨rfl, hlanguage⟩
        exact hnot ⟨[], rest.map resourceKey, by simp [resourceKey, hname, hs, hlanguage], by simp⟩
      simp only [duplicateOf, hname, hs, Exec.deref_some, Exec.ok_bind, hdup, ↓reduceIte]
      refine ih (by simpa [hs] using hnull) ?_
      rintro ⟨between, after, hsplit, hbetween⟩
      refine hnot ⟨resourceKey s :: between, after, by simp [hsplit], ?_⟩
      exact List.forall_mem_cons.mpr ⟨by simp [resourceKey, hs], hbetween⟩

variable {rs : List ElfrcResource}

theorem findDuplicate_of_recurs (h : FirstRecurs (rs.map resourceKey)) :
    ∃ pair, findDuplicate rs = .ok (some pair) := by
  obtain ⟨first, between, after, hkeys, hfirst, hbetween⟩ := h
  cases rs with
  | nil => simp at hkeys
  | cons r rs =>
    obtain ⟨rfl, hkeys⟩ := List.cons.inj hkeys
    obtain ⟨s, hs⟩ := duplicateOf_of_recurs hfirst hkeys hbetween
    exact ⟨(r, s), by simp [findDuplicate, hs]⟩

/-- With a null name and no such recurrence the scan stops, except on a single resource. -/
theorem findDuplicate_null (hnull : ∃ r ∈ rs, r.name = none)
    (hnot : ¬ FirstRecurs (rs.map resourceKey)) :
    findDuplicate rs = .error .nullPointer ∨ rs.length = 1 ∧ findDuplicate rs = .ok none := by
  cases rs with
  | nil => simp at hnull
  | cons r rs =>
    cases hr : r.name with
    | none =>
      cases rs with
      | nil => exact Or.inr ⟨rfl, rfl⟩
      | cons s rs => exact Or.inl (by simp [findDuplicate, duplicateOf, hr])
    | some name =>
      have hname : r.name ≠ none := by simp [hr]
      have hlater : ∃ s ∈ rs, s.name = none := by simpa [hr] using hnull
      have hrow := duplicateOf_null hname hlater (by
        rintro ⟨between, after, hsplit, hbetween⟩
        exact hnot ⟨resourceKey r, between, after, by simp [hsplit], hname, hbetween⟩)
      exact Or.inl (by simp [findDuplicate, hrow])

end Scan

structure StringsPresent (m : ElfrcManifest) : Prop where
  name : ∀ r ∈ m.resources, r.name ≠ none
  file : ∀ r ∈ m.resources, r.file ≠ none
  metadata : ∀ r ∈ m.resources, ∀ kv ∈ r.metadata, kv.key ≠ none ∧ kv.value ≠ none

theorem buildHashTable_noNull (fuel : ℕ) (names : List CString) :
    (buildHashTable fuel names).NoNull := by
  have hslot : ∀ {bucketCount buckets} {slot : UInt32},
      (loop (slotStep bucketCount buckets) fuel slot).NoNull :=
    loop_noNull fun slot => (Exec.noNull_index _ _).bind fun bucket _ => by
      split_ifs <;> exact Exec.noNull_ok _
  have hfill : ∀ {bucketCount} {names : List CString} {i buckets},
      (fillBuckets fuel bucketCount names i buckets).NoNull := by
    intro bucketCount names
    induction names with
    | nil => exact Exec.noNull_ok _
    | cons name names ih => exact hslot.bind fun _ _ => ih
  refine Exec.NoNull.bind (loop_noNull fun p => ?_)
    fun _ _ => hfill.bind fun _ _ => Exec.noNull_ok _
  unfold nextPow2Step
  split_ifs <;> exact Exec.noNull_ok _

theorem appendData_noNull {fs : FileSystem} {rs : List ElfrcResource}
    (hname : ∀ r ∈ rs, r.name ≠ none) (hfile : ∀ r ∈ rs, r.file ≠ none) (buf : Bytes) :
    (appendData fs rs buf).NoNull := by
  induction rs generalizing buf with
  | nil => exact Exec.noNull_ok _
  | cons r rs ih =>
    obtain ⟨hr, hname⟩ := List.forall_mem_cons.mp hname
    obtain ⟨hr', hfile⟩ := List.forall_mem_cons.mp hfile
    unfold appendData
    refine (Exec.noNull_deref hr).bind fun name _ => (Exec.noNull_deref hr').bind fun file _ => ?_
    split
    · exact Exec.noNull_ok _
    · split
      · exact Exec.noNull_ok _
      · exact (ih hname hfile _).bind fun _ _ => Exec.noNull_ok _

/-- The builder follows names, files and metadata strings only. -/
theorem StringsPresent.containerBuild_noNull {m : ElfrcManifest} (h : StringsPresent m)
    (fs : FileSystem) (fuel : ℕ) : (elfrcContainerBuild fs m fuel).NoNull := by
  have hkv : ∀ r ∈ m.resources, (r.metadata.mapM derefKv).NoNull := fun r hr =>
    Exec.noNull_mapM fun kv hkv => (Exec.noNull_deref (h.metadata r hr kv hkv).1).bind fun _ _ =>
      (Exec.noNull_deref (h.metadata r hr kv hkv).2).bind fun _ _ => Exec.noNull_ok _
  unfold elfrcContainerBuild
  refine (Exec.noNull_mapM fun r hr => Exec.noNull_deref (h.name r hr)).bind fun names _ => ?_
  refine (Exec.noNull_mapM hkv).bind fun metadata _ => ?_
  refine (buildHashTable_noNull fuel names).bind fun hashTable _ => ?_
  refine (appendData_noNull h.name h.file _).bind fun data _ => ?_
  split <;> exact Exec.noNull_ok _

section Parser

variable {ctx : ParseCtx} {fs : FileSystem}

theorem ItemValid.metadata_present {defs : Defaults} {item : YamlNode}
    (h : ItemValid ctx fs defs item) :
    ∀ kv ∈ metadataMeaning ctx item, kv.key ≠ none ∧ kv.value ≠ none := by
  intro kv hkv
  unfold metadataMeaning at hkv
  split at hkv
  next n line pairs hfield =>
    obtain ⟨pairs', hdata, hscalars, -⟩ := h.metadata _ hfield
    obtain rfl : pairs = pairs' := YamlNodeData.mapping.inj hdata
    obtain ⟨pair, hpair, rfl⟩ := List.mem_map.mp hkv
    exact hscalars pair hpair
  · simp at hkv

/-- Valid items with names leave no null string. -/
theorem stringsPresent_of_assigned {defs : Defaults} {nodes : List YamlNode} {taken : List ℕ}
    {k : ℕ} {m : ElfrcManifest} (hitems : ∀ node ∈ nodes, ItemValid ctx fs defs node)
    (hnames : ∀ r ∈ nodes.map (resourceMeaning ctx defs), r.name ≠ none)
    (hassigned : Assigned taken k (nodes.map (resourceMeaning ctx defs)) m.resources) :
    StringsPresent m := by
  have hmem : ∀ r ∈ m.resources, ∃ node ∈ nodes,
      r = { resourceMeaning ctx defs node with finalId := r.finalId } := by
    intro r hr
    obtain ⟨s, hs, heq⟩ := hassigned.exists_mem hr
    obtain ⟨node, hnode, rfl⟩ := List.mem_map.mp hs
    exact ⟨node, hnode, heq⟩
  refine ⟨fun r hr => ?_, fun r hr => ?_, fun r hr => ?_⟩
  · obtain ⟨node, hnode, heq⟩ := hmem r hr
    rw [heq]
    exact hnames (resourceMeaning ctx defs node) (List.mem_map_of_mem hnode)
  · obtain ⟨node, hnode, heq⟩ := hmem r hr
    obtain ⟨path, hpath, -⟩ := (hitems node hnode).file
    rw [heq]
    simp [resourceMeaning, hpath]
  · obtain ⟨node, hnode, heq⟩ := hmem r hr
    rw [heq]
    exact (hitems node hnode).metadata_present

/-- In a document with resources: each item the parser reaches is null-safe, and if it
gets to the duplicate scan, names are scalars or the scan ends before the first that is
not. -/
def NullSafe (ctx : ParseCtx) (fs : FileSystem) : Prop :=
  ∀ root nodes, HasResources ctx root nodes →
    ReachedSafe ctx fs (declaredDefaults ctx root) nodes ∧
    ((∀ node ∈ nodes, ItemValid ctx fs (declaredDefaults ctx root) node) →
      (explicitIds (resourcesMeaning ctx root nodes)).Nodup →
      (∀ r ∈ resourcesMeaning ctx root nodes, r.name ≠ none) ∨
        FirstRecurs ((resourcesMeaning ctx root nodes).map resourceKey))

/-- A null-safe parse reports an error or leaves no null string. -/
theorem NullSafe.parsed (h : NullSafe ctx fs) :
    ∃ err m, parseRoot fs (2 ^ 31) ctx = .ok (err, m) ∧ (err = none → StringsPresent m) := by
  by_cases hresources : ∃ root nodes, HasResources ctx root nodes
  · obtain ⟨root, nodes, hr⟩ := hresources
    obtain ⟨hsafe, hscan⟩ := h root nodes hr
    rcases parseRoot_of_reachedSafe hr hsafe with
      ⟨message, m, -, heq, -⟩ | ⟨hitems, hlength, heq⟩
    · exact ⟨_, m, heq _, fun hnone => absurd hnone (by simp)⟩
    rw [heq]
    by_cases hids : (explicitIds (resourcesMeaning ctx root nodes)).Nodup
    · have hlt : (manifestOf ctx root (resourcesMeaning ctx root nodes)).resources.length + 1 <
          2 ^ 32 := by
        simp only [manifestOf]
        omega
      obtain ⟨out, hassigned, hassign⟩ := assignAndValidateIds_of_nodup (2 ^ 31) ctx none
        hids hlt (by simp only [manifestOf]; omega)
      rw [hassign]
      rcases hscan hitems hids with hnames | hrecurs
      · obtain ⟨found, hfound, -⟩ := findDuplicate_spec (hassigned.name_ne_none hnames)
        rw [hfound, Exec.ok_bind]
        cases found with
        | some pair => exact ⟨_, _, rfl, fun hnone => absurd hnone (setError_ne_none _ _ _ _)⟩
        | none => exact ⟨_, _, rfl, fun _ => stringsPresent_of_assigned hitems hnames hassigned⟩
      · have hkeys : out.map resourceKey = (resourcesMeaning ctx root nodes).map resourceKey :=
          hassigned.map_resourceKey
        rw [← hkeys] at hrecurs
        obtain ⟨pair, hpair⟩ := findDuplicate_of_recurs hrecurs
        rw [hpair]
        exact ⟨_, _, rfl, fun hnone => absurd hnone (setError_ne_none _ _ _ _)⟩
    · obtain ⟨err, hassign, hchecked⟩ := assignAndValidateIds_of_repeated (2 ^ 31) ctx none
        (m := manifestOf ctx root (resourcesMeaning ctx root nodes)) hids
      exact ⟨err, _, hassign, fun hnone => ((hchecked.none_iff.mp hnone).2).elim⟩
  · obtain ⟨line, message, m, heq⟩ := parseRoot_of_not_hasResources
      fun root nodes hr => hresources ⟨root, nodes, hr⟩
    exact ⟨_, m, heq fs _, fun hnone => absurd hnone (by simp)⟩

/-- Conversely, a parse that returns has met no null string. -/
theorem nullSafe_of_parseRoot {fuel : ℕ} {err : ErrorState} {m : ElfrcManifest}
    (hfuel : 2 ^ 31 ≤ fuel) (hparsed : parseRoot fs fuel ctx = .ok (err, m))
    (hpresent : err = none → StringsPresent m) : NullSafe ctx fs := by
  intro root nodes hr
  have hsafe : ReachedSafe ctx fs (declaredDefaults ctx root) nodes := by
    by_contra hnot
    obtain ⟨items, hnodes, -, heq⟩ := parseRoot_of_hasResources hr
    rw [heq, parseResources_null hnodes hnot] at hparsed
    simp at hparsed
  refine ⟨hsafe, fun hitems hids => ?_⟩
  by_contra hnot
  obtain ⟨hnames, hrecurs⟩ := not_or.mp hnot
  rcases parseRoot_of_reachedSafe hr hsafe with ⟨-, -, -, -, hinvalid⟩ | ⟨-, hlength, heq⟩
  · exact hinvalid hitems
  have hlt : (manifestOf ctx root (resourcesMeaning ctx root nodes)).resources.length + 1 <
      2 ^ 32 := by
    simp only [manifestOf]
    omega
  obtain ⟨out, hassigned, hassign⟩ := assignAndValidateIds_of_nodup fuel ctx none
    hids hlt (by simp only [manifestOf]; omega)
  have hkeys := hassigned.map_resourceKey
  have hnull : ∃ r ∈ out, r.name = none := by
    obtain ⟨r, hmem, hname⟩ : ∃ r ∈ resourcesMeaning ctx root nodes, r.name = none := by
      simpa using hnames
    have hkey : resourceKey r ∈ out.map resourceKey := hkeys ▸ List.mem_map_of_mem hmem
    obtain ⟨r', hmem', hkey'⟩ := List.mem_map.mp hkey
    exact ⟨r', hmem', (congrArg Prod.fst hkey').trans hname⟩
  rw [heq, hassign] at hparsed
  rcases findDuplicate_null hnull (hkeys ▸ hrecurs) with hstop | ⟨-, hnone⟩
  · simp [hstop] at hparsed
  · rw [hnone, Exec.ok_bind] at hparsed
    obtain ⟨rfl, rfl⟩ := Prod.mk.inj (Except.ok.inj hparsed)
    obtain ⟨r, hmem, hname⟩ := hnull
    exact (hpresent rfl).name r hmem hname

end Parser

/-- **When a malformed manifest is reported.** The parser returns 0 or -1, and after 0 no
string the container builder follows is null, exactly if the document is null-safe. -/
theorem malformed_reported_iff (fs : FileSystem) (path : CString) (doc : YamlDocument) :
    (∃ result, Returns (elfrcManifestParse fs path (.loaded doc)) result ∧
      (result.code = 0 ∨ result.code = -1) ∧
      (result.code = 0 → StringsPresent result.manifest ∧
        ∀ fuel, (elfrcContainerBuild fs result.manifest fuel).NoNull)) ↔
    NullSafe (parseCtx path doc) fs := by
  constructor
  · rintro ⟨result, h, -, hpresent⟩
    obtain ⟨fuel, err, m, hfuel, hparsed, hok, -⟩ := exists_parseRoot h
    refine nullSafe_of_parseRoot hfuel hparsed fun hnone => ?_
    obtain rfl := hok hnone
    exact (hpresent rfl).1
  · intro h
    obtain ⟨err, m, hparsed, hpresent⟩ := h.parsed
    refine ⟨_, ⟨_, elfrcManifestParse_eq hparsed⟩, ?_⟩
    cases err with
    | some message => exact ⟨Or.inr rfl, fun hcode => absurd hcode (by simp [parseFailure])⟩
    | none =>
      exact ⟨Or.inl rfl, fun _ => ⟨hpresent rfl, (hpresent rfl).containerBuild_noNull fs⟩⟩

/-- The manifest of `sampleDocument` with an empty sequence for the file. -/
def sequenceFileDocument : YamlDocument where
  nodes :=
    [⟨0, .mapping [(2, 3), (4, 5)]⟩,
      ⟨0, .scalar (ascii "version")⟩, ⟨0, .scalar (ascii "1")⟩,
      ⟨1, .scalar (ascii "resources")⟩, ⟨2, .sequence [6]⟩, ⟨2, .mapping [(7, 8), (9, 10)]⟩,
      ⟨2, .scalar (ascii "name")⟩, ⟨2, .scalar (ascii "a")⟩,
      ⟨3, .scalar (ascii "file")⟩, ⟨3, .sequence []⟩]
  linked := by decide
  counted := by simp

theorem sequence_file_dereferenced :
    ¬ ∃ result, Returns (elfrcManifestParse regularFiles (.literal "sample.elfrc")
        (.loaded sequenceFileDocument)) result ∧
      (result.code = 0 ∨ result.code = -1) ∧
      (result.code = 0 → StringsPresent result.manifest ∧
        ∀ fuel, (elfrcContainerBuild regularFiles result.manifest fuel).NoNull) := by
  rintro ⟨result, ⟨fuel, h⟩, -⟩
  have hstop : elfrcManifestParse regularFiles (.literal "sample.elfrc")
      (.loaded sequenceFileDocument) fuel = .error .nullPointer := rfl
  rw [hstop] at h
  cases h

end Elfr.Compiler
