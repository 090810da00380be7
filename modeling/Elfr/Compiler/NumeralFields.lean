import Elfr.Compiler.ManifestAcceptance
import Elfr.Library.Numerals

/-!
# Numerals in a manifest

`parse_uint` reads a text exactly if it is a numeral that is not negative, but
what it stores is the value modulo 2^32 after the clamping of `strtol`. So a
numeral is kept, in a single call as in a whole manifest, exactly if it denotes
less than 2^32.
-/
namespace Elfr.Compiler

open Library

/-- The value stored for a numeral that denotes `n`. -/
def storedValue (n : ℤ) : UInt32 := UInt32.ofNat (min (2 ^ 63 - 1) n).toNat

theorem storedValue_of_lt {n : ℤ} (hpos : 0 ≤ n) (hlt : n < 2 ^ 32) :
    ((storedValue n).toNat : ℤ) = n := by
  have hmin : min (2 ^ 63 - 1) n = n := min_eq_right (by omega)
  rw [storedValue, hmin, UInt32.toNat_ofNat', Nat.mod_eq_of_lt (by omega)]
  omega

theorem parseUint_of_numeral {s : CString} {n : ℤ} (hn : Numeral s.bytes n) :
    parseUint (some s) = if n < 0 then none else some (storedValue n) := by
  have hne : s.bytes ≠ [] := by
    intro hempty
    rw [hempty, numeral_iff] at hn
    cases hn
  have hclamp : max (-2 ^ 63) (min (2 ^ 63 - 1) n) < 0 ↔ n < 0 := by omega
  unfold parseUint
  simp only [if_neg hne, strtol_of_numeral hn, ne_eq, not_true_eq_false, false_or, hclamp]
  split_ifs with hneg
  · rfl
  · rw [storedValue, max_eq_right (by omega)]

theorem parseUint_eq_some_iff {s : CString} {v : UInt32} :
    parseUint (some s) = some v ↔ ∃ n, Numeral s.bytes n ∧ 0 ≤ n ∧ v = storedValue n := by
  constructor
  · intro h
    obtain ⟨n, hn⟩ : ∃ n, Numeral s.bytes n := by
      unfold parseUint at h
      cases hread : strtol s.bytes with
      | mk c rest =>
        simp only [hread] at h
        split_ifs at h with hempty hbad
        exact exists_numeral_of_strtol hempty (by rw [hread]; exact not_not.mp (not_or.mp hbad).1)
    rw [parseUint_of_numeral hn] at h
    split_ifs at h with hneg
    exact ⟨n, hn, by omega, (Option.some.inj h).symm⟩
  · rintro ⟨n, hn, hpos, rfl⟩
    rw [parseUint_of_numeral hn, if_neg (by omega)]

/-- The call reads exactly the numerals that fit 32 bits, as what they denote. -/
def ReadsNumeral (s : CString) : Prop :=
  ∀ v, parseUint (some s) = some v ↔
    ∃ n, Numeral s.bytes n ∧ 0 ≤ n ∧ n < 2 ^ 32 ∧ (v.toNat : ℤ) = n

/-- The text does not denote a number from 2^32 on. -/
def FitsUint (s : CString) : Prop := ∀ n, Numeral s.bytes n → n < 2 ^ 32

theorem readsNumeral_iff {s : CString} : ReadsNumeral s ↔ FitsUint s := by
  constructor
  · intro h n hn
    by_contra hlarge
    have hread := parseUint_eq_some_iff.mpr ⟨n, hn, by omega, rfl⟩
    obtain ⟨n', hn', -, hlt, -⟩ := (h _).mp hread
    exact hlarge (hn.unique hn' ▸ hlt)
  · intro h v
    rw [parseUint_eq_some_iff]
    refine exists_congr fun n => and_congr_right fun hn => and_congr_right fun hpos => ?_
    have hlt := h n hn
    have hstored := storedValue_of_lt hpos hlt
    constructor
    · rintro rfl
      exact ⟨hlt, hstored⟩
    · rintro ⟨-, hv⟩
      exact UInt32.toNat_inj.mp (by omega)

section Manifest

variable (ctx : ParseCtx)

/-- What is stored for a node is the number it denotes, if it denotes one. -/
def Keeps (node : Option YamlNode) (v : UInt32) : Prop :=
  ∀ s n, scalarDup node = some s → Numeral s.bytes n → (v.toNat : ℤ) = n

def NodeFits (node : Option YamlNode) : Prop := ∀ s, scalarDup node = some s → FitsUint s

/-- Identifier, type and flags of a resource are those written. -/
structure ResourceKeeps (item : YamlNode) (r : ElfrcResource) : Prop where
  id : Keeps (field ctx item "id") r.id
  finalId : Keeps (field ctx item "id") r.finalId
  type : Keeps (field ctx item "type") r.type
  flags : Keeps (field ctx item "flags") r.flags

/-- The version is really 1, and the resources keep what is written. -/
structure KeepsNumerals (root : YamlNode) (nodes : List YamlNode) (m : ElfrcManifest) : Prop where
  version : ∃ s, scalarDup (field ctx root "version") = some s ∧ Numeral s.bytes 1
  resources : List.Forall₂ (ResourceKeeps ctx) nodes m.resources

/-- None of these texts denotes a number from 2^32 on. -/
structure NumeralsFit (root : YamlNode) (nodes : List YamlNode) : Prop where
  version : NodeFits (field ctx root "version")
  id : ∀ item ∈ nodes, NodeFits (field ctx item "id")
  type : ∀ item ∈ nodes, NodeFits (field ctx item "type")
  flags : ∀ item ∈ nodes, NodeFits (field ctx item "flags")

variable {ctx}

theorem keeps_iff {node : Option YamlNode} {v : UInt32} (h : parseUint (scalarDup node) = some v) :
    Keeps node v ↔ NodeFits node := by
  cases hs : scalarDup node with
  | none => simp [Keeps, NodeFits, hs]
  | some s =>
    rw [hs] at h
    obtain ⟨n, hn, hpos, rfl⟩ := parseUint_eq_some_iff.mp h
    constructor
    · intro hkeeps s' hs' n' hn'
      have hstored := hkeeps s' n' hs' hn'
      have hlt := (storedValue n).toNat_lt
      omega
    · intro hfits s' n' hs' hn'
      obtain rfl := Option.some.inj (hs.symm.trans hs')
      obtain rfl := hn.unique hn'
      exact storedValue_of_lt hpos (hfits s hs n hn)

theorem keeps_iff_of_none {node : Option YamlNode} {v : UInt32} (h : scalarDup node = none) :
    Keeps node v ↔ NodeFits node := by
  simp [Keeps, NodeFits, h]

/-- No name of a type has a digit, so none is a numeral. -/
theorem Known.not_numeral {s : CString} (h : Known typeNames s) (n : ℤ) :
    ¬ Numeral s.bytes n := by
  rintro ⟨space, sign, digits, negative, hsplit, -, -, hne, hdigits, -⟩
  obtain ⟨d, rest, rfl⟩ := List.exists_cons_of_ne_nil hne
  have hd : isDigit d = true := hdigits d List.mem_cons_self
  have hmem : d ∈ s.bytes := by simp [hsplit]
  obtain ⟨entry, hentry, hsame⟩ := h
  have hnone : ∀ entry ∈ typeNames, ∀ b ∈ (CString.literal entry.1).bytes.map CString.toLower,
      isDigit b = false := by decide +kernel
  have hlower : CString.toLower d = d := by
    simp only [isDigit, decide_eq_true_eq] at hd
    refine if_neg fun hupper => ?_
    exact absurd (UInt8.le_trans hupper.1 hd.2) (by decide)
  have hmem' : d ∈ (CString.literal entry.1).bytes.map CString.toLower := by
    rw [← beq_iff_eq.mp hsame]
    exact List.mem_map.mpr ⟨d, hmem, hlower⟩
  exact absurd hd (by rw [hnone entry hentry d hmem']; decide)

section Resource

variable {defs : Defaults} {fs : FileSystem} {item : YamlNode}

theorem id_keeps_iff (h : IdValid ctx item) :
    Keeps (field ctx item "id") (resourceMeaning ctx defs item).id ↔
      NodeFits (field ctx item "id") := by
  cases hn : field ctx item "id" with
  | none => exact keeps_iff_of_none rfl
  | some n =>
    obtain ⟨v, hv⟩ := Option.ne_none_iff_exists'.mp (h n hn)
    refine keeps_iff ?_
    rw [hv]
    simp [resourceMeaning, hn, hv]

theorem type_keeps_iff (h : TypeValid ctx item) {path : CString}
    (hpath : filePath ctx item = some path) :
    Keeps (field ctx item "type") (resourceMeaning ctx defs item).type ↔
      NodeFits (field ctx item "type") := by
  cases hn : field ctx item "type" with
  | none => exact keeps_iff_of_none rfl
  | some n =>
    obtain ⟨s, hs, hvalid⟩ := h n hn
    by_cases hknown : Known typeNames s
    · refine iff_of_true (fun s' m hs' hm => ?_) fun s' hs' m hm => ?_
      · obtain rfl := Option.some.inj (hs.symm.trans hs')
        exact absurd hm (hknown.not_numeral m)
      · obtain rfl := Option.some.inj (hs.symm.trans hs')
        exact absurd hm (hknown.not_numeral m)
    · obtain ⟨v, hv⟩ := Option.ne_none_iff_exists'.mp (hvalid.resolve_left hknown)
      refine keeps_iff ?_
      rw [hs, hv]
      simp [resourceMeaning, hpath, typeMeaning, hn, hs, hv, lookupName_eq_none_iff.mpr hknown]

theorem flags_keeps_iff (h : FlagsValid ctx item) :
    Keeps (field ctx item "flags") (resourceMeaning ctx defs item).flags ↔
      NodeFits (field ctx item "flags") := by
  cases hn : field ctx item "flags" with
  | none => exact keeps_iff_of_none rfl
  | some n =>
    rcases h n hn with huint | ⟨ids, hdata, -⟩
    · obtain ⟨v, hv⟩ := Option.ne_none_iff_exists'.mp huint
      refine keeps_iff ?_
      obtain ⟨line, data⟩ := n
      cases data with
      | scalar value => simp [resourceMeaning, flagsMeaning, hn, hv]
      | sequence ids => cases hv
      | mapping pairs => cases hv
    · refine keeps_iff_of_none (scalarDup_eq_none_iff.mpr fun value hvalue => ?_)
      rw [hdata] at hvalue
      cases hvalue

/-- A resource of an accepted manifest keeps its numerals exactly if they fit. -/
theorem resourceKeeps_iff (h : ItemValid ctx fs defs item) {r : ElfrcResource}
    (hr : r = { resourceMeaning ctx defs item with finalId := r.finalId })
    (hexplicit : (field ctx item "id").isSome = true → r.finalId = r.id) :
    ResourceKeeps ctx item r ↔ NodeFits (field ctx item "id") ∧
      NodeFits (field ctx item "type") ∧ NodeFits (field ctx item "flags") := by
  obtain ⟨path, hpath, -⟩ := h.file
  have hid : r.id = (resourceMeaning ctx defs item).id := by rw [hr]
  have htype : r.type = (resourceMeaning ctx defs item).type := by rw [hr]
  have hflags : r.flags = (resourceMeaning ctx defs item).flags := by rw [hr]
  rw [← id_keeps_iff h.id, ← type_keeps_iff h.type hpath, ← flags_keeps_iff h.flags, ← hid,
    ← htype, ← hflags]
  constructor
  · exact fun hkeeps => ⟨hkeeps.id, hkeeps.type, hkeeps.flags⟩
  · rintro ⟨hkeeps, hkeeps', hkeeps''⟩
    refine ⟨hkeeps, ?_, hkeeps', hkeeps''⟩
    cases hn : field ctx item "id" with
    | none => exact fun s n hs => by cases hs
    | some n =>
      rw [hexplicit (by simp [hn]), ← hn]
      exact hkeeps

end Resource

/-- An accepted manifest keeps its numerals exactly if they fit. -/
theorem AcceptedAs.keepsNumerals_iff {fs : FileSystem} {root : YamlNode} {nodes : List YamlNode}
    {m : ElfrcManifest} (h : AcceptedAs fs ctx root nodes m) :
    KeepsNumerals ctx root nodes m ↔ NumeralsFit ctx root nodes := by
  have hversion : (∃ s, scalarDup (field ctx root "version") = some s ∧ Numeral s.bytes 1) ↔
      NodeFits (field ctx root "version") := by
    rw [← keeps_iff h.version]
    cases hs : scalarDup (field ctx root "version") with
    | none =>
      have hnone := h.version
      rw [hs] at hnone
      cases hnone
    | some s =>
      have hread := h.version
      rw [hs] at hread
      obtain ⟨n, hn, -⟩ := parseUint_eq_some_iff.mp hread
      simp only [Keeps, hs, Option.some.injEq, exists_eq_left']
      constructor
      · rintro hone s' n' rfl hn'
        rw [← hone.unique hn']
        rfl
      · intro hkeeps
        obtain rfl : 1 = n := hkeeps s n rfl hn
        exact hn
  have hresources : List.Forall₂ (ResourceKeeps ctx) nodes m.resources ↔
      ∀ item ∈ nodes, NodeFits (field ctx item "id") ∧
        NodeFits (field ctx item "type") ∧ NodeFits (field ctx item "flags") := by
    have hlength := h.length_eq.symm
    have heach : ∀ i (hi : i < nodes.length) (hi' : i < m.resources.length),
        ResourceKeeps ctx nodes[i] m.resources[i] ↔ NodeFits (field ctx nodes[i] "id") ∧
          NodeFits (field ctx nodes[i] "type") ∧ NodeFits (field ctx nodes[i] "flags") := by
      intro i hi hi'
      obtain ⟨r, hr, heq, hexplicit⟩ := h.get hi
      obtain rfl : m.resources[i] = r :=
        Option.some.inj ((List.getElem?_eq_getElem hi').symm.trans hr)
      exact resourceKeeps_iff (h.items _ (List.getElem_mem hi)) heq hexplicit
    rw [List.forall₂_iff_get]
    constructor
    · rintro ⟨-, hall⟩ item hitem
      obtain ⟨i, hi, rfl⟩ := List.getElem_of_mem hitem
      exact (heach i hi (hlength ▸ hi)).mp (hall i hi (hlength ▸ hi))
    · exact fun hall => ⟨hlength, fun i hi hi' =>
        (heach i hi hi').mpr (hall _ (List.getElem_mem hi))⟩
  constructor
  · rintro ⟨hv, hr⟩
    have hfits := hresources.mp hr
    exact ⟨hversion.mp hv, fun item hitem => (hfits item hitem).1,
      fun item hitem => (hfits item hitem).2.1, fun item hitem => (hfits item hitem).2.2⟩
  · rintro ⟨hv, hid, htype, hflags⟩
    exact ⟨hversion.mpr hv, hresources.mpr fun item hitem =>
      ⟨hid item hitem, htype item hitem, hflags item hitem⟩⟩

end Manifest

/-- **When numerals are kept.** `parse_uint` reads exactly the numerals from 0 below 2^32, as
what they denote, unless its text denotes a larger number; and a manifest that the parser
accepts has version 1 and the identifiers, types and flags that are written if and only if none
of these texts denotes a number from 2^32 on. -/
theorem numerals_kept_iff (s : CString) :
    (ReadsNumeral s ↔ FitsUint s) ∧
    ∀ fs path doc result, Returns (elfrcManifestParse fs path (.loaded doc)) result →
      result.code = 0 → ∃ root nodes, HasResources (parseCtx path doc) root nodes ∧
        (KeepsNumerals (parseCtx path doc) root nodes result.manifest ↔
          NumeralsFit (parseCtx path doc) root nodes) := by
  refine ⟨readsNumeral_iff, fun fs path doc result hreturns hcode => ?_⟩
  obtain ⟨root, nodes, haccepted⟩ := acceptedAs_of_code hreturns hcode
  exact ⟨root, nodes, haccepted.toHasResources, haccepted.keepsNumerals_iff⟩

theorem singleDocument_accepted (version : String)
    (h : (elfrcManifestParse regularFiles (.literal "sample.elfrc")
      (.loaded (singleDocument (ascii version) (ascii "a"))) 2).map ParseResult.code = .ok 0) :
    ∃ result, Returns (elfrcManifestParse regularFiles (.literal "sample.elfrc")
      (.loaded (singleDocument (ascii version) (ascii "a")))) result ∧ result.code = 0 := by
  cases heq : elfrcManifestParse regularFiles (.literal "sample.elfrc")
      (.loaded (singleDocument (ascii version) (ascii "a"))) 2 with
  | error stop => simp [heq, Except.map] at h
  | ok result => exact ⟨result, ⟨2, heq⟩, by simpa [heq, Except.map] using h⟩

theorem numerals_kept_iff_one :
    ReadsNumeral (.literal "1") ∧
    ∃ result, Returns (elfrcManifestParse regularFiles (.literal "sample.elfrc")
        (.loaded (singleDocument (ascii "1") (ascii "a")))) result ∧ result.code = 0 ∧
      KeepsNumerals (parseCtx (.literal "sample.elfrc") (singleDocument (ascii "1") (ascii "a")))
        singleRoot [singleItem] result.manifest := by
  have hone : FitsUint (.literal "1") := by
    intro n hn
    obtain rfl : 1 = n := Option.some.inj (numeral_iff.mp hn ▸ by decide)
    decide
  obtain ⟨hiff, hmanifests⟩ := numerals_kept_iff (.literal "1")
  obtain ⟨result, hreturns, hcode⟩ := singleDocument_accepted "1" (by decide +kernel)
  obtain ⟨root, nodes, hresources, hkeeps⟩ := hmanifests _ _ _ _ hreturns hcode
  obtain ⟨rfl, rfl⟩ := hresources.unique (singleDocument_hasResources (by decide))
  refine ⟨hiff.mpr hone, result, hreturns, hcode, hkeeps.mpr ⟨?_, ?_, ?_, ?_⟩⟩
  · rintro s hs
    obtain rfl : CString.literal "1" = s := Option.some.inj (hs ▸ by decide)
    exact hone
  all_goals
    intro item hitem s hs
    obtain rfl := List.mem_singleton.mp hitem
    exact absurd (hs.symm.trans (show _ = none by decide)) (by simp)

/-- 2^32 + 1 is read as 1, also as the version of a manifest. -/
theorem version_wraps :
    parseUint (some (.literal "4294967297")) = some 1 ∧
    ¬ ReadsNumeral (.literal "4294967297") ∧
    ∃ result, Returns (elfrcManifestParse regularFiles (.literal "sample.elfrc")
        (.loaded (singleDocument (ascii "4294967297") (ascii "a")))) result ∧ result.code = 0 ∧
      HasResources (parseCtx (.literal "sample.elfrc")
        (singleDocument (ascii "4294967297") (ascii "a"))) singleRoot [singleItem] ∧
      ¬ KeepsNumerals (parseCtx (.literal "sample.elfrc")
        (singleDocument (ascii "4294967297") (ascii "a"))) singleRoot [singleItem]
        result.manifest := by
  have hread : parseUint (some (.literal "4294967297")) = some 1 := by decide
  have hlarge : Numeral (CString.literal "4294967297").bytes 4294967297 :=
    numeral_iff.mpr (by decide)
  obtain ⟨result, hreturns, hcode⟩ := singleDocument_accepted "4294967297" (by decide +kernel)
  refine ⟨hread, fun hreads => ?_, result, hreturns, hcode,
    singleDocument_hasResources (by decide), fun hkeeps => ?_⟩
  · obtain ⟨n, hn, -, hlt, -⟩ := (hreads 1).mp hread
    obtain rfl := hlarge.unique hn
    omega
  · obtain ⟨s, hs, hone⟩ := hkeeps.version
    obtain rfl : CString.literal "4294967297" = s := Option.some.inj (hs ▸ by decide)
    exact absurd (hlarge.unique hone) (by decide)

end Elfr.Compiler
