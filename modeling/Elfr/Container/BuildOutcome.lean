import Elfr.Container.BuilderLimits

/-!
# How a build ends

The builder reads the files in the order of the resources, and the first that cannot be
opened or read in full ends the build with a message about it. Only the hash table asks for
a budget, so that a build has one outcome, whatever the budget.
-/
namespace Elfr.Compiler

open Library Common Format

theorem fillBuckets_mono {fuel fuel' : ℕ} (hle : fuel ≤ fuel') {bucketCount : UInt32}
    {names : List CString} {i : ℕ} {buckets result : List ERFHashBucket}
    (h : fillBuckets fuel bucketCount names i buckets = .ok result) :
    fillBuckets fuel' bucketCount names i buckets = .ok result := by
  induction names generalizing i buckets with
  | nil => exact h
  | cons name names ih =>
    obtain ⟨slot, hslot, h⟩ := Exec.bind_eq_ok.mp h
    exact Exec.bind_eq_ok.mpr ⟨slot, loop_mono hle hslot, ih h⟩

theorem buildHashTable_mono {fuel fuel' : ℕ} (hle : fuel ≤ fuel') {names : List CString}
    {hashTable : Bytes} (h : buildHashTable fuel names = .ok hashTable) :
    buildHashTable fuel' names = .ok hashTable := by
  obtain ⟨bucketCount, hcount, h⟩ := Exec.bind_eq_ok.mp h
  obtain ⟨buckets, hbuckets, h⟩ := Exec.bind_eq_ok.mp h
  exact Exec.bind_eq_ok.mpr ⟨bucketCount, loop_mono hle hcount,
    Exec.bind_eq_ok.mpr ⟨buckets, fillBuckets_mono hle hbuckets, h⟩⟩

section Outcome

variable {fs : FileSystem} {m : ElfrcManifest} {outcome outcome' : Except Bytes Bytes}

theorem elfrcContainerBuild_mono {fuel fuel' : ℕ} (hle : fuel ≤ fuel')
    (h : elfrcContainerBuild fs m fuel = .ok outcome) :
    elfrcContainerBuild fs m fuel' = .ok outcome := by
  unfold elfrcContainerBuild at h ⊢
  obtain ⟨names, hnames, h⟩ := Exec.bind_eq_ok.mp h
  obtain ⟨metadata, hmetadata, h⟩ := Exec.bind_eq_ok.mp h
  obtain ⟨hashTable, hhash, h⟩ := Exec.bind_eq_ok.mp h
  exact Exec.bind_eq_ok.mpr ⟨names, hnames, Exec.bind_eq_ok.mpr ⟨metadata, hmetadata,
    Exec.bind_eq_ok.mpr ⟨hashTable, buildHashTable_mono hle hhash, h⟩⟩⟩

theorem elfrcContainerBuild_unique (h : Returns (elfrcContainerBuild fs m) outcome)
    (h' : Returns (elfrcContainerBuild fs m) outcome') : outcome = outcome' := by
  obtain ⟨fuel, h⟩ := h
  obtain ⟨fuel', h'⟩ := h'
  have hmax := elfrcContainerBuild_mono (le_max_left fuel fuel') h
  exact Except.ok.inj (hmax.symm.trans (elfrcContainerBuild_mono (le_max_right fuel fuel') h'))

end Outcome

/-- What the builder reports about a resource whose file it cannot read. -/
def readFailure (fs : FileSystem) (r : ElfrcResource) : Option Bytes :=
  match r.name, r.file with
  | some name, some file =>
    match fs.fopen file with
    | none => some (cannotOpenForReading name file)
    | some f =>
      match readFile f with
      | none => some (shortRead name file)
      | some _ => none
  | _, _ => none

section Data

variable {fs : FileSystem}

/-- A named resource with a file either fails or has contents. -/
theorem readFailure_eq_none_iff {r : ElfrcResource} (hname : r.name ≠ none)
    (hfile : r.file ≠ none) : readFailure fs r = none ↔ ∃ contents, ReadsFile fs r contents := by
  obtain ⟨name, hname⟩ := Option.ne_none_iff_exists'.mp hname
  obtain ⟨file, hfile⟩ := Option.ne_none_iff_exists'.mp hfile
  simp only [readFailure, ReadsFile, hname, hfile, Option.some.injEq, exists_eq_left',
    exists_and_left]
  cases hopen : fs.fopen file with
  | none => simp
  | some f => cases hread : readFile f <;> simp [hread]

theorem appendData_eq_error {rs : List ElfrcResource} {message : Bytes}
    (hname : ∀ r ∈ rs, r.name ≠ none) (hfile : ∀ r ∈ rs, r.file ≠ none) (buf : Bytes) :
    appendData fs rs buf = .ok (.error message) ↔
      rs.findSome? (readFailure fs) = some message := by
  induction rs generalizing buf with
  | nil => simp [appendData]
  | cons r rs ih =>
    obtain ⟨hr, hname⟩ := List.forall_mem_cons.mp hname
    obtain ⟨hr', hfile⟩ := List.forall_mem_cons.mp hfile
    obtain ⟨name, hr⟩ := Option.ne_none_iff_exists'.mp hr
    obtain ⟨file, hr'⟩ := Option.ne_none_iff_exists'.mp hr'
    rw [List.findSome?_cons]
    unfold appendData
    simp only [hr, hr', Exec.deref_some, Exec.ok_bind, readFailure]
    cases hopen : fs.fopen file with
    | none => simp
    | some f =>
      cases hread : readFile f with
      | none => simp [hread]
      | some contents =>
        simp only [hread]
        have ih' := ih hname hfile (bufAlign buf 16 ++ contents)
        rw [← ih', Exec.bind_eq_ok]
        constructor
        · rintro ⟨rest, hrest, hmap⟩
          cases rest with
          | error e =>
            obtain rfl := Except.error.inj (Except.ok.inj hmap)
            exact hrest
          | ok rest => cases hmap
        · exact fun herror => ⟨_, herror, rfl⟩

end Data

section Builds

variable {fs : FileSystem} {m : ElfrcManifest}

theorem build_fails_iff (h : StringsPresent m) {message : Bytes} :
    Returns (elfrcContainerBuild fs m) (.error message) ↔ m.resources.length ≤ 2 ^ 30 ∧
      m.resources.findSome? (readFailure fs) = some message := by
  constructor
  · intro hfails
    refine ⟨(containerBuild_returns_iff h).mp ⟨_, hfails⟩, ?_⟩
    obtain ⟨fuel, hfails⟩ := hfails
    unfold elfrcContainerBuild at hfails
    obtain ⟨names, -, hfails⟩ := Exec.bind_eq_ok.mp hfails
    obtain ⟨metadata, -, hfails⟩ := Exec.bind_eq_ok.mp hfails
    obtain ⟨hashTable, -, hfails⟩ := Exec.bind_eq_ok.mp hfails
    obtain ⟨data, hdata, hfails⟩ := Exec.bind_eq_ok.mp hfails
    cases data with
    | ok data => cases hfails
    | error message' =>
      obtain rfl := Except.error.inj (Except.ok.inj hfails)
      exact (appendData_eq_error h.name h.file _).mp hdata
  · rintro ⟨hfew, hfirst⟩
    obtain ⟨names, metadata, hnames, hmetadata, hlen⟩ := h.exists_strings
    have hnames_few : names.length * 2 ≤ 2 ^ 31 := by omega
    obtain ⟨bucketCount, buckets, -, htotal, -⟩ := buildHashTable_spec hnames_few
    refine ⟨2 ^ 32, ?_⟩
    unfold elfrcContainerBuild
    simp only [hnames, hmetadata, htotal _ le_rfl, Exec.ok_bind]
    rw [(appendData_eq_error h.name h.file _).mpr hfirst]
    rfl

theorem exists_builds_iff (h : StringsPresent m) : (∃ b, Builds fs m b) ↔
    m.resources.length ≤ 2 ^ 30 ∧ m.resources.findSome? (readFailure fs) = none := by
  constructor
  · rintro ⟨b, hbuild⟩
    have hfew := (containerBuild_returns_iff h).mp ⟨_, hbuild⟩
    refine ⟨hfew, ?_⟩
    cases hfirst : m.resources.findSome? (readFailure fs) with
    | none => rfl
    | some message =>
      cases elfrcContainerBuild_unique hbuild ((build_fails_iff h).mpr ⟨hfew, hfirst⟩)
  · rintro ⟨hfew, hnone⟩
    obtain ⟨outcome, houtcome⟩ : ∃ outcome fuel, elfrcContainerBuild fs m fuel = .ok outcome :=
      (containerBuild_returns_iff h).mpr hfew
    cases outcome with
    | ok b => exact ⟨b, houtcome⟩
    | error message =>
      have hfirst := ((build_fails_iff h).mp houtcome).2
      rw [hnone] at hfirst
      cases hfirst

end Builds

/-- **How a build ends.** A manifest with its strings present and at most 2^30 resources is
built exactly if every file can be read in full. Otherwise the build reports the first file,
in the order of the resources, that cannot be opened or is shorter than its length. -/
theorem build_outcome_iff (fs : FileSystem) (m : ElfrcManifest) (h : StringsPresent m)
    (hfew : m.resources.length ≤ 2 ^ 30) :
    ((∃ b, Builds fs m b) ↔ ∀ r ∈ m.resources, ∃ contents, ReadsFile fs r contents) ∧
      (∀ message, Returns (elfrcContainerBuild fs m) (.error message) ↔
        ∃ before r after, m.resources = before ++ r :: after ∧
          (∀ r' ∈ before, ∃ contents, ReadsFile fs r' contents) ∧
          readFailure fs r = some message) ∧
      ((∃ b, Builds fs m b) ∨ ∃ message, Returns (elfrcContainerBuild fs m) (.error message)) := by
  have hreads : ∀ r ∈ m.resources,
      (readFailure fs r = none ↔ ∃ contents, ReadsFile fs r contents) :=
    fun r hr => readFailure_eq_none_iff (h.name r hr) (h.file r hr)
  refine ⟨?_, fun message => ?_, ?_⟩
  · rw [exists_builds_iff h, List.findSome?_eq_none_iff, and_iff_right hfew]
    exact forall₂_congr hreads
  · rw [build_fails_iff h, and_iff_right hfew, List.findSome?_eq_some_iff]
    refine exists_congr fun before => exists_congr fun r => exists_congr fun after => ?_
    refine and_congr_right fun hsplit => ?_
    have hbefore : ∀ r' ∈ before,
        (readFailure fs r' = none ↔ ∃ contents, ReadsFile fs r' contents) :=
      fun r' hr' => hreads r' (hsplit ▸ List.mem_append_left _ hr')
    rw [and_comm]
    exact and_congr_left fun _ => forall₂_congr hbefore
  · obtain ⟨outcome, houtcome⟩ : ∃ outcome fuel, elfrcContainerBuild fs m fuel = .ok outcome :=
      (containerBuild_returns_iff h).mpr hfew
    cases outcome with
    | ok b => exact .inl ⟨b, houtcome⟩
    | error message => exact .inr ⟨message, houtcome⟩

/-- The files of the pair, with the second one missing. -/
def oneFile : FileSystem where
  isRegular := fun _ => true
  fopen := fun file => if file.bytes = [0x66] then some ⟨3, [1, 2, 3]⟩ else none

theorem build_outcome_pair : Returns (elfrcContainerBuild oneFile pairManifest)
    (.error (ascii "a: error: cannot open 'g' for reading")) := by
  have hpresent : StringsPresent pairManifest := ⟨by decide, by decide, by decide⟩
  obtain ⟨-, hfails, -⟩ := build_outcome_iff oneFile pairManifest hpresent (by decide)
  have hread : ReadsFile oneFile pairManifest.resources[0] [1, 2, 3] :=
    ⟨⟨[0x66], by decide⟩, ⟨3, [1, 2, 3]⟩, rfl, rfl, by decide⟩
  refine (hfails _).mpr ⟨[pairManifest.resources[0]], pairManifest.resources[1], [], rfl, ?_, ?_⟩
  · exact List.forall_mem_singleton.mpr ⟨_, hread⟩
  · decide

end Elfr.Compiler
