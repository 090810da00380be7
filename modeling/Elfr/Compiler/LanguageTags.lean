import Elfr.Compiler.ManifestAcceptance

/-!
# The case of language tags

A tag goes through a search of the table or, cut to the local buffer, through a hash. The
search compares in lower case and the hash is of the tag in lower case, so tags that are
equal up to case stand for one language, and the scan for duplicates, which looks at names
and languages, does not see how the languages are spelled.
-/
namespace Elfr.Compiler

open Library Common

theorem languageFromTag_congr {tag tag' : CString} (h : tag.caseEq tag' = true) :
    languageFromTag (some tag) = languageFromTag (some tag') := by
  have hlower := CString.caseEq_iff.mp h
  have hempty : tag.bytes = [] ↔ tag'.bytes = [] := by
    rw [← List.map_eq_nil_iff, hlower, List.map_eq_nil_iff]
  simp only [languageFromTag, hempty, CString.caseEq_congr h, lookupName_congr languageTags h,
    List.map_take, hlower]

theorem languageTags_ne_neutral : ∀ entry ∈ languageTags, entry.2 ≠ erfLanguageNeutral := by
  decide

theorem languageFromTag_ne_neutral {tag : CString} (hempty : tag.bytes ≠ [])
    (hneutral : tag.caseEq (.literal "neutral") = false) :
    languageFromTag (some tag) ≠ erfLanguageNeutral := by
  have hnot : ¬ (tag.bytes = [] ∨ tag.caseEq (.literal "neutral") = true) := by
    simp [hempty, hneutral]
  rw [languageFromTag, if_neg hnot]
  cases hfound : lookupName languageTags tag with
  | some id =>
    obtain ⟨entry, hentry, rfl⟩ := Option.map_eq_some_iff.mp hfound
    exact languageTags_ne_neutral entry (List.mem_of_find?_eq_some hentry)
  | none =>
    dsimp only
    split_ifs with hzero
    · decide
    · exact hzero

/-- Tags that are equal up to case, or both missing. -/
def TagsAgree : Option CString → Option CString → Prop :=
  Option.Rel fun tag tag' => tag.caseEq tag' = true

theorem TagsAgree.language_eq {tag tag' : Option CString} (h : TagsAgree tag tag') :
    languageFromTag tag = languageFromTag tag' := by
  cases h with
  | some h => exact languageFromTag_congr h
  | none => rfl

/-- Two items, perhaps of different documents, have one name and languages that are spelled
alike up to case; a language may come from the defaults. -/
structure Respelled (ctx ctx' : ParseCtx) (defs defs' : Defaults) (item item' : YamlNode) :
    Prop where
  name : scalarDup (field ctx item "name") = scalarDup (field ctx' item' "name")
  language : TagsAgree (effective ctx item "language" defs.language)
    (effective ctx' item' "language" defs'.language)

theorem Respelled.key_eq {ctx ctx' : ParseCtx} {defs defs' : Defaults} {item item' : YamlNode}
    (h : Respelled ctx ctx' defs defs' item item') :
    resourceKey (resourceMeaning ctx defs item) = resourceKey (resourceMeaning ctx' defs' item') :=
  congrArg₂ Prod.mk h.name h.language.language_eq

theorem Respelled.keys_eq {ctx ctx' : ParseCtx} {root root' : YamlNode}
    {nodes nodes' : List YamlNode}
    (h : List.Forall₂ (Respelled ctx ctx' (declaredDefaults ctx root) (declaredDefaults ctx' root'))
      nodes nodes') :
    (resourcesMeaning ctx root nodes).map resourceKey =
      (resourcesMeaning ctx' root' nodes').map resourceKey := by
  unfold resourcesMeaning
  induction h with
  | nil => rfl
  | cons hitem _ ih => rw [List.map_cons, List.map_cons, List.map_cons, hitem.key_eq, ih]; rfl

/-- The test of the scan on one resource and a later one. -/
def CountAsDuplicates (r s : ElfrcResource) : Prop := duplicateOf r [s] = .ok (some s)

theorem countAsDuplicates_iff {r s : ElfrcResource} :
    CountAsDuplicates r s ↔ r.name ≠ none ∧ resourceKey r = resourceKey s := by
  unfold CountAsDuplicates duplicateOf resourceKey
  cases hr : r.name with
  | none => simp
  | some name =>
    cases hs : s.name with
    | none => simp
    | some name' =>
      simp only [Exec.deref_some, Exec.ok_bind, duplicateOf, Prod.mk.injEq, Option.some.injEq]
      split_ifs with hsame
      · simp [hsame]
      · simp [hsame]

/-- All that precedes the scan has succeeded. -/
structure ReachesScan (fs : FileSystem) (ctx : ParseCtx) (root : YamlNode)
    (nodes : List YamlNode) : Prop extends HasResources ctx root nodes where
  items : ∀ node ∈ nodes, ItemValid ctx fs (declaredDefaults ctx root) node
  ids : (explicitIds (resourcesMeaning ctx root nodes)).Nodup

theorem ReachesScan.code_eq_zero_iff {fs : FileSystem} {path : CString} {doc : YamlDocument}
    {root : YamlNode} {nodes : List YamlNode} {result : ParseResult}
    (hscan : ReachesScan fs (parseCtx path doc) root nodes)
    (h : Returns (elfrcManifestParse fs path (.loaded doc)) result) :
    result.code = 0 ↔
      ((resourcesMeaning (parseCtx path doc) root nodes).map resourceKey).Pairwise KeysDiffer := by
  obtain ⟨fuel, err, m, hfuel, hparsed, hok, hfail⟩ := exists_parseRoot h
  obtain ⟨out, found, hassigned, hfound, -, rfl⟩ :=
    (parseRoot_scan hscan.toHasResources hfuel hparsed).2 hscan.items hscan.ids
  rw [← hassigned.map_resourceKey, ← findDuplicate_eq_none_iff, hfound]
  cases found with
  | none =>
    rw [hok rfl]
    exact iff_of_true rfl rfl
  | some pair =>
    rw [hfail _ rfl]
    exact iff_of_false (by simp [parseFailure]) (by simp)

/-- **Languages are compared without regard to case.** One language for tags equal up to case,
not the neutral one unless the tag says so, and one verdict of the duplicate scan. -/
theorem language_case_insensitive :
    (∀ tag tag' : CString, tag.caseEq tag' = true →
      languageFromTag (some tag) = languageFromTag (some tag')) ∧
    (∀ tag : CString, tag.bytes ≠ [] → tag.caseEq (.literal "neutral") = false →
      languageFromTag (some tag) ≠ erfLanguageNeutral) ∧
    (∀ ctx ctx' defs defs' item item' other other', Respelled ctx ctx' defs defs' item item' →
      Respelled ctx ctx' defs defs' other other' →
      (CountAsDuplicates (resourceMeaning ctx defs item) (resourceMeaning ctx defs other) ↔
        CountAsDuplicates (resourceMeaning ctx' defs' item') (resourceMeaning ctx' defs' other'))) ∧
    ∀ fs fs' path path' doc doc' root root' nodes nodes' result result',
      ReachesScan fs (parseCtx path doc) root nodes →
      ReachesScan fs' (parseCtx path' doc') root' nodes' →
      List.Forall₂ (Respelled (parseCtx path doc) (parseCtx path' doc')
        (declaredDefaults (parseCtx path doc) root) (declaredDefaults (parseCtx path' doc') root'))
        nodes nodes' →
      Returns (elfrcManifestParse fs path (.loaded doc)) result →
      Returns (elfrcManifestParse fs' path' (.loaded doc')) result' →
      (result.code = 0 ↔ result'.code = 0) := by
  refine ⟨fun _ _ => languageFromTag_congr, fun _ => languageFromTag_ne_neutral, ?_, ?_⟩
  · intro ctx ctx' defs defs' item item' other other' hitem hother
    have hname : (resourceMeaning ctx defs item).name = (resourceMeaning ctx' defs' item').name :=
      hitem.name
    rw [countAsDuplicates_iff, countAsDuplicates_iff, hitem.key_eq, hother.key_eq, hname]
  · intro fs fs' path path' doc doc' root root' nodes nodes' result result' hscan hscan'
      hrespelled h h'
    rw [hscan.code_eq_zero_iff h, hscan'.code_eq_zero_iff h', Respelled.keys_eq hrespelled]

/-- One name in two languages, of which only one is in the table. -/
def taggedDocument (first second : Bytes) : YamlDocument where
  nodes :=
    [⟨0, .mapping [(2, 3), (4, 5)]⟩,
      ⟨0, .scalar (ascii "version")⟩, ⟨0, .scalar (ascii "1")⟩,
      ⟨1, .scalar (ascii "resources")⟩, ⟨2, .sequence [6, 7]⟩,
      ⟨2, .mapping [(8, 9), (10, 11), (12, 13)]⟩, ⟨5, .mapping [(8, 9), (10, 11), (12, 14)]⟩,
      ⟨2, .scalar (ascii "name")⟩, ⟨2, .scalar (ascii "a")⟩,
      ⟨3, .scalar (ascii "file")⟩, ⟨3, .scalar (ascii "f")⟩,
      ⟨4, .scalar (ascii "language")⟩, ⟨4, .scalar first⟩, ⟨7, .scalar second⟩]
  linked := by simp [YamlNodeData.children]
  counted := by simp

def taggedItems : List YamlNode :=
  [⟨2, .mapping [(8, 9), (10, 11), (12, 13)]⟩, ⟨5, .mapping [(8, 9), (10, 11), (12, 14)]⟩]

theorem taggedDocument_hasResources (first second : Bytes) (path : CString) :
    HasResources (parseCtx path (taggedDocument first second)) singleRoot taggedItems where
  isRoot := rfl
  mapping := ⟨_, rfl⟩
  version := show parseUint (some (.literal "1")) = some 1 by decide
  resources := ⟨_, _, rfl, rfl, .cons rfl (.cons rfl .nil)⟩

theorem taggedDocument_respelled {path : CString} {first first' second second' : Bytes}
    (hfirst : (CString.ofBytes first).caseEq (CString.ofBytes first') = true)
    (hsecond : (CString.ofBytes second).caseEq (CString.ofBytes second') = true) :
    List.Forall₂ (Respelled (parseCtx path (taggedDocument first second))
      (parseCtx path (taggedDocument first' second'))
      (declaredDefaults (parseCtx path (taggedDocument first second)) singleRoot)
      (declaredDefaults (parseCtx path (taggedDocument first' second')) singleRoot))
      taggedItems taggedItems :=
  .cons ⟨rfl, .some hfirst⟩ (.cons ⟨rfl, .some hsecond⟩ .nil)

theorem reachesScan_of_code {fs : FileSystem} {path : CString} {doc : YamlDocument}
    {root : YamlNode} {nodes : List YamlNode} {result : ParseResult}
    (hr : HasResources (parseCtx path doc) root nodes)
    (h : Returns (elfrcManifestParse fs path (.loaded doc)) result) (hcode : result.code = 0) :
    ReachesScan fs (parseCtx path doc) root nodes := by
  obtain ⟨fuel, hfuel, -, hparsed⟩ := exists_parseRoot_of_code h hcode
  obtain ⟨hitems, hids⟩ := (parseRoot_scan hr hfuel hparsed).1 rfl
  exact ⟨hr, hitems, hids⟩

def taggedManifest : ElfrcManifest where
  version := 1
  module := none
  resources :=
    [⟨some (.literal "a"), some (.literal "./f"), 0, 1031, 0, 0, false, 0, 1, [], 3⟩,
      ⟨some (.literal "a"), some (.literal "./f"), 0, 1230118684, 0, 0, false, 0, 2, [], 6⟩]

theorem language_case_insensitive_spellings :
    languageFromTag (some (.literal "sv")) = languageFromTag (some (.literal "SV")) ∧
    languageFromTag (some (.literal "sv")) ≠ erfLanguageNeutral ∧
    ∃ result, Returns (elfrcManifestParse regularFiles (.literal "sample.elfrc")
      (.loaded (taggedDocument (ascii "DE-de") (ascii "SV")))) result ∧ result.code = 0 := by
  have hreturns : Returns (elfrcManifestParse regularFiles (.literal "sample.elfrc")
      (.loaded (taggedDocument (ascii "de-DE") (ascii "sv")))) ⟨0, taggedManifest, []⟩ :=
    ⟨2, by decide +kernel⟩
  have hreturns' : Returns (elfrcManifestParse regularFiles (.literal "sample.elfrc")
      (.loaded (taggedDocument (ascii "DE-de") (ascii "SV")))) ⟨0, taggedManifest, []⟩ :=
    ⟨2, by decide +kernel⟩
  have hscan := reachesScan_of_code
    (taggedDocument_hasResources (ascii "de-DE") (ascii "sv") _) hreturns rfl
  have hscan' := reachesScan_of_code
    (taggedDocument_hasResources (ascii "DE-de") (ascii "SV") _) hreturns' rfl
  refine ⟨language_case_insensitive.1 _ _ (by decide),
    language_case_insensitive.2.1 _ (by decide) (by decide), _, hreturns', ?_⟩
  exact (language_case_insensitive.2.2.2 _ _ _ _ _ _ _ _ _ _ _ _ hscan hscan'
    (taggedDocument_respelled (by decide) (by decide)) hreturns hreturns').mp rfl

end Elfr.Compiler
