import Elfr.Compiler.ElfWriter
import Elfr.Runtime.Opening
import Elfr.Tools.Elfresdump

/-!
# What the dump tool reads

The tool compares the end of the section header table with the size of the
file, and nothing else. `SectionsFit` says of the fields of a file what the walk
over its sections relies on: with it every read is in the file, and without it
the walk leaves the file or passes on a range that does.
-/
namespace Elfr.Tools

open Library Elf64 Common Format Elfr.Runtime

/-- The header of the file passes the checks of the tool. -/
structure HeaderAccepted (file : Bytes) : Prop where
  length : ehdrBytes ≤ file.length
  magic : slice file 0 elfMag.length = elfMag
  class64 : (fileHeader file).eIdent[4] = elfClass64
  data2Lsb : (fileHeader file).eIdent[5] = elfData2Lsb
  shoff : (fileHeader file).eShoff ≠ 0
  shnum : (fileHeader file).eShnum ≠ 0
  table_end : (sectionTableEnd (fileHeader file)).toNat ≤ file.length

variable {prog path : CString} {file : Bytes}

theorem checkElfHeader_of_accepted (h : HeaderAccepted file) :
    checkElfHeader prog path file = .ok (.ok (fileHeader file)) := by
  have hlength := h.length
  have hpos : file.length ≠ 0 := by
    unfold ehdrBytes at hlength
    omega
  have hmagic : elfMag.length ≤ file.length := by
    unfold ehdrBytes at hlength
    simp only [elfMag, List.length_cons, List.length_nil]
    omega
  have hheader : Ehdr.ofBytes (slice file 0 ehdrBytes) = fileHeader file := rfl
  unfold checkElfHeader
  simp only [hpos, Nat.not_lt.mpr hlength, if_false]
  rw [load_of_le (by omega), Exec.ok_bind, if_neg (not_not.mpr h.magic), load_of_le (by omega),
    Exec.ok_bind, hheader]
  simp only [h.class64, h.data2Lsb, h.shoff, h.shnum, ne_eq, not_true_eq_false, or_self, if_false,
    gt_iff_lt, Nat.not_lt.mpr h.table_end]
  rfl

theorem checkElfHeader_of_not_accepted (prog path : CString) (h : ¬ HeaderAccepted file) :
    ∃ message, checkElfHeader prog path file = .ok (.error message) := by
  unfold checkElfHeader
  split_ifs with hpos hlength
  · exact ⟨_, rfl⟩
  · exact ⟨_, rfl⟩
  have hmagic : elfMag.length ≤ file.length := by
    simp only [elfMag, List.length_cons, List.length_nil, ehdrBytes] at hlength ⊢
    omega
  have hheader : Ehdr.ofBytes (slice file 0 ehdrBytes) = fileHeader file := rfl
  rw [load_of_le (by omega), Exec.ok_bind]
  split_ifs with hmagic'
  · exact ⟨_, rfl⟩
  rw [load_of_le (by omega), Exec.ok_bind, hheader]
  dsimp only
  split_ifs with hident hshdrs
  · exact ⟨_, rfl⟩
  · exact ⟨_, rfl⟩
  · simp only [not_or, not_not, gt_iff_lt, Nat.not_lt] at hident hshdrs hmagic'
    exact absurd ⟨Nat.not_lt.mp hlength, hmagic', hident.1, hident.2, hshdrs.1, hshdrs.2.1,
      hshdrs.2.2⟩ h

theorem toNat_sectionTableEnd {ehdr : Ehdr}
    (h : ehdr.eShoff.toNat + ehdr.eShnum.toNat * ehdr.eShentsize.toNat < 2 ^ 64) :
    (sectionTableEnd ehdr).toNat =
      ehdr.eShoff.toNat + ehdr.eShnum.toNat * ehdr.eShentsize.toNat := by
  have hmul : ehdr.eShnum.toNat * ehdr.eShentsize.toNat < 2 ^ 64 := by omega
  rw [sectionTableEnd, UInt64.toNat_add, UInt64.toNat_mul, UInt16.toNat_toUInt64,
    UInt16.toNat_toUInt64, Nat.mod_eq_of_lt hmul, Nat.mod_eq_of_lt h]

def nameAt (file : Bytes) (i : ℕ) : ℕ :=
  (sectionHeader file (fileHeader file).eShstrndx.toNat).shOffset.toNat +
    (sectionHeader file i).shName.toNat

def IsResource (file : Bytes) (i : ℕ) : Prop := StringAt file (nameAt file i) resourceName

/-- What the walk relies on: the sum of the check is exact, the header of the string
table is in the file, and so is, for every section up to the first `.resource`, its name
with a terminator, and for that one its range too. -/
structure SectionsFit (file : Bytes) : Prop where
  no_wrap : (fileHeader file).eShoff.toNat +
    (fileHeader file).eShnum.toNat * (fileHeader file).eShentsize.toNat < 2 ^ 64
  strings : shdrAt (fileHeader file) (fileHeader file).eShstrndx.toNat + shOffsetAt + 8 ≤
    file.length
  names : ∀ i < (fileHeader file).eShnum.toNat, (∀ j < i, ¬ IsResource file j) →
    shdrAt (fileHeader file) i + 4 ≤ file.length ∧ 0 ∈ file.drop (nameAt file i)
  range : ∀ i < (fileHeader file).eShnum.toNat, (∀ j < i, ¬ IsResource file j) →
    IsResource file i → shdrAt (fileHeader file) i + shSizeAt + 8 ≤ file.length ∧
      (sectionHeader file i).shOffset.toNat + (sectionHeader file i).shSize.toNat ≤ file.length

theorem load_shName {i : ℕ} (h : shdrAt (fileHeader file) i + 4 ≤ file.length) :
    load32 file (shdrAt (fileHeader file) i) = .ok (sectionHeader file i).shName := by
  rw [load32_of_le h]
  have hfield : field32 (slice file (shdrAt (fileHeader file) i) shdrBytes) 0 =
      field32 file (shdrAt (fileHeader file) i) := field32_slice (by decide)
  exact congrArg Except.ok hfield.symm

theorem load_shOffset {i : ℕ} (h : shdrAt (fileHeader file) i + shOffsetAt + 8 ≤ file.length) :
    load64 file (shdrAt (fileHeader file) i + shOffsetAt) =
      .ok (sectionHeader file i).shOffset := by
  rw [load64_of_le h]
  have hfield : field64 (slice file (shdrAt (fileHeader file) i) shdrBytes) shOffsetAt =
      field64 file (shdrAt (fileHeader file) i + shOffsetAt) := field64_slice (by decide)
  exact congrArg Except.ok hfield.symm

theorem load_shSize {i : ℕ} (h : shdrAt (fileHeader file) i + shSizeAt + 8 ≤ file.length) :
    load64 file (shdrAt (fileHeader file) i + shSizeAt) = .ok (sectionHeader file i).shSize := by
  rw [load64_of_le h]
  have hfield : field64 (slice file (shdrAt (fileHeader file) i) shdrBytes) shSizeAt =
      field64 file (shdrAt (fileHeader file) i + shSizeAt) := field64_slice (by decide)
  exact congrArg Except.ok hfield.symm

def walkSections (file : Bytes) (left i : ℕ) : Exec (Option ℕ) :=
  findResource file (fileHeader file)
    (sectionHeader file (fileHeader file).eShstrndx.toNat).shOffset.toNat left i

/-- The header of section `i` and its name, with a terminator, are in the file. -/
def Named (file : Bytes) (i : ℕ) : Prop :=
  shdrAt (fileHeader file) i + 4 ≤ file.length ∧ 0 ∈ file.drop (nameAt file i)

instance (i : ℕ) : Decidable (IsResource file i) := inferInstanceAs (Decidable (StringAt _ _ _))

theorem Named.strcmpEq {i : ℕ} (h : Named file i) :
    strcmpEq file (nameAt file i) resourceName.bytes = .ok (decide (IsResource file i)) := by
  obtain ⟨s, hs⟩ := exists_stringAt_iff.mpr h.2
  have hiff : s = resourceName ↔ IsResource file i :=
    ⟨fun heq => by rwa [heq] at hs, fun hres => hs.unique hres⟩
  rw [strcmpEq_of_stringAt hs, decide_eq_decide.mpr hiff]

theorem walkSections_step {i : ℕ} (h : Named file i) (left : ℕ) :
    walkSections file (left + 1) i =
      if IsResource file i then .ok (some i) else walkSections file left (i + 1) := by
  have hcompare := h.strcmpEq
  unfold nameAt at hcompare
  rw [walkSections, findResource, load_shName h.1, Exec.ok_bind, hcompare, Exec.ok_bind]
  by_cases hres : IsResource file i
  · simp [hres]
  · simp [hres, walkSections]

/-- A walk that starts behind sections of other names finds the first `.resource`. -/
theorem walkSections_spec {n : ℕ}
    (hnamed : ∀ i < n, (∀ j < i, ¬ IsResource file j) → Named file i) :
    ∀ {left i : ℕ}, i + left = n → (∀ j < i, ¬ IsResource file j) →
      ∃ found, walkSections file left i = .ok found ∧
        found.elim (∀ j < n, ¬ IsResource file j)
          fun k => k < n ∧ IsResource file k ∧ ∀ j < k, ¬ IsResource file j
  | 0, i, hi, hbefore => ⟨none, rfl, by
      obtain rfl : i = n := hi
      exact hbefore⟩
  | left + 1, i, hi, hbefore => by
    rw [walkSections_step (hnamed i (by omega) hbefore)]
    by_cases hres : IsResource file i
    · exact ⟨some i, if_pos hres, by omega, hres, hbefore⟩
    · rw [if_neg hres]
      refine walkSections_spec hnamed (by omega) fun j hj => ?_
      rcases Nat.lt_succ_iff_lt_or_eq.mp hj with hlt | rfl
      · exact hbefore j hlt
      · exact hres

theorem walkSections_add (a b i : ℕ) : walkSections file (a + b) i =
    walkSections file a i >>= fun found =>
      found.elim (walkSections file b (i + a)) fun k => .ok (some k) := by
  induction a generalizing i with
  | zero => simp [walkSections, findResource]
  | succ a ih =>
    have ih' := ih (i + 1)
    unfold walkSections at ih' ⊢
    rw [Nat.add_right_comm, findResource, findResource, bind_assoc]
    refine bind_congr fun shName => ?_
    rw [bind_assoc]
    refine bind_congr fun same => ?_
    cases same with
    | true => rfl
    | false =>
      rw [if_neg Bool.false_ne_true, if_neg Bool.false_ne_true, ih', Nat.add_assoc,
        Nat.add_comm 1 a]

/-- Behind the header checks: the string table is found, then the sections are walked. -/
theorem locateResource_of_accepted (h : HeaderAccepted file) :
    locateResource prog path file =
      load64 file (shdrAt (fileHeader file) (fileHeader file).eShstrndx.toNat + shOffsetAt) >>=
        fun shstrtab =>
          findResource file (fileHeader file) shstrtab.toNat (fileHeader file).eShnum.toNat 0 >>=
            fun found => found.elim (.ok (.error (noResourceSection prog path))) fun i =>
              load64 file (shdrAt (fileHeader file) i + shOffsetAt) >>= fun offset =>
                load64 file (shdrAt (fileHeader file) i + shSizeAt) >>= fun size =>
                  .ok (.ok ⟨offset, size⟩) := by
  rw [locateResource, checkElfHeader_of_accepted h, Exec.ok_bind]
  refine bind_congr fun shstrtab => bind_congr fun found => ?_
  cases found <;> rfl

/-- On a file whose sections fit, the tool finds the first `.resource` section. -/
theorem locateResource_of_fit (prog path : CString) (h : HeaderAccepted file)
    (hfit : SectionsFit file) :
    ∃ found : Option ℕ, locateResource prog path file = .ok (found.elim
        (.error (noResourceSection prog path))
        fun i => .ok ⟨(sectionHeader file i).shOffset, (sectionHeader file i).shSize⟩) ∧
      found.elim (∀ j < (fileHeader file).eShnum.toNat, ¬ IsResource file j)
        fun k => k < (fileHeader file).eShnum.toNat ∧ IsResource file k ∧
          ∀ j < k, ¬ IsResource file j := by
  obtain ⟨found, hwalk, hfound⟩ := walkSections_spec hfit.names (Nat.zero_add _)
    fun j hj => absurd hj (Nat.not_lt_zero j)
  refine ⟨found, ?_, hfound⟩
  unfold walkSections at hwalk
  rw [locateResource_of_accepted h, load_shOffset hfit.strings, Exec.ok_bind, hwalk, Exec.ok_bind]
  cases found with
  | none => rfl
  | some k =>
    obtain ⟨hk, hres, hbefore⟩ := hfound
    have hsize := (hfit.range k hk hbefore hres).1
    have hoffset : shdrAt (fileHeader file) k + shOffsetAt + 8 ≤ file.length := by
      unfold shSizeAt at hsize
      unfold shOffsetAt
      omega
    simp only [Option.elim_some, load_shOffset hoffset, load_shSize hsize, Exec.ok_bind]

/-- The tool stays in the file: it never stops, so every byte it reads is there; the sum
of the header check does not wrap; every section name it compares, that is the name of
every section before which the walk finds nothing, ends in the file; and so does the
range it opens. -/
structure DumpsInside (prog path : CString) (file : Bytes) : Prop where
  safe : (openResource prog path file).Safe
  no_wrap : ∀ ehdr, checkElfHeader prog path file = .ok (.ok ehdr) →
    ehdr.eShoff.toNat + ehdr.eShnum.toNat * ehdr.eShentsize.toNat < 2 ^ 64
  names : ∀ ehdr, checkElfHeader prog path file = .ok (.ok ehdr) → ∀ i < ehdr.eShnum.toNat,
    walkSections file i 0 = .ok none → 0 ∈ file.drop (nameAt file i)
  range : ∀ range, locateResource prog path file = .ok (.ok range) →
    range.offset.toNat + range.size.toNat ≤ file.length

theorem dumpsInside_of_not_accepted (h : ¬ HeaderAccepted file) : DumpsInside prog path file := by
  obtain ⟨message, hcheck⟩ := checkElfHeader_of_not_accepted prog path h
  have hlocate : locateResource prog path file = .ok (.error message) := by
    rw [locateResource, hcheck]
    rfl
  refine ⟨⟨.error message, ?_⟩, ?_, ?_, ?_⟩
  · rw [openResource, hlocate]
    rfl
  · intro ehdr hehdr
    rw [hcheck] at hehdr
    cases hehdr
  · intro ehdr hehdr
    rw [hcheck] at hehdr
    cases hehdr
  · intro range hrange
    rw [hlocate] at hrange
    cases hrange

theorem walkSections_eq_none_iff {n : ℕ}
    (hnamed : ∀ i < n, (∀ j < i, ¬ IsResource file j) → Named file i) :
    walkSections file n 0 = .ok none ↔ ∀ j < n, ¬ IsResource file j := by
  obtain ⟨found, hwalk, hfound⟩ := walkSections_spec hnamed (Nat.zero_add n)
    fun j hj => absurd hj (Nat.not_lt_zero j)
  rw [hwalk]
  cases found with
  | none => exact ⟨fun _ => hfound, fun _ => rfl⟩
  | some k =>
    have hne : (Except.ok (some k) : Exec (Option ℕ)) ≠ .ok none := by simp
    exact ⟨fun h => absurd h hne, fun h => absurd hfound.2.1 (h k hfound.1)⟩

theorem dumpsInside_of_fit (h : HeaderAccepted file) (hfit : SectionsFit file) :
    DumpsInside prog path file := by
  have hheader : ∀ ehdr, checkElfHeader prog path file = .ok (.ok ehdr) →
      fileHeader file = ehdr := fun ehdr hehdr => by
    rw [checkElfHeader_of_accepted h] at hehdr
    exact Except.ok.inj (Except.ok.inj hehdr)
  obtain ⟨found, hlocate, hfound⟩ := locateResource_of_fit prog path h hfit
  have hrange : ∀ k, found = some k → (sectionHeader file k).shOffset.toNat +
      (sectionHeader file k).shSize.toNat ≤ file.length := by
    rintro k rfl
    exact (hfit.range k hfound.1 hfound.2.2 hfound.2.1).2
  refine ⟨?_, ?_, ?_, ?_⟩
  · rw [openResource, hlocate, Exec.ok_bind]
    cases found with
    | none => exact ⟨_, rfl⟩
    | some k =>
      have hle := hrange k rfl
      have hdrop : (sectionHeader file k).shSize.toNat ≤
          (file.drop (sectionHeader file k).shOffset.toNat).length := by
        rw [List.length_drop]
        omega
      obtain ⟨r, hr⟩ := erfOpenMemory_safe_of_le hdrop
      simp only [Option.elim_some, hr, Exec.ok_bind]
      cases r <;> exact ⟨_, rfl⟩
  · intro ehdr hehdr
    obtain rfl := hheader ehdr hehdr
    exact hfit.no_wrap
  · intro ehdr hehdr i hi hnone
    obtain rfl := hheader ehdr hehdr
    have hnamed : ∀ k < i, (∀ j < k, ¬ IsResource file j) → Named file k := fun k hk =>
      hfit.names k (hk.trans hi)
    exact (hfit.names i hi ((walkSections_eq_none_iff hnamed).mp hnone)).2
  · intro range hr
    rw [hlocate] at hr
    cases found with
    | none => cases hr
    | some k =>
      obtain rfl := Except.ok.inj (Except.ok.inj hr)
      exact hrange k rfl

/-- What a run that stays in the file shows of it, section after section: the walk gets
to every section before which there is no `.resource`. -/
theorem named_of_dumpsInside (h : HeaderAccepted file) (hd : DumpsInside prog path file)
    (hwalk : (walkSections file (fileHeader file).eShnum.toNat 0).Safe) :
    ∀ i < (fileHeader file).eShnum.toNat, (∀ j < i, ¬ IsResource file j) → Named file i := by
  intro i
  induction i using Nat.strong_induction_on with
  | _ i ih =>
    intro hi hbefore
    have hnamed : ∀ k < i, (∀ j < k, ¬ IsResource file j) → Named file k := fun k hk =>
      ih k hk (hk.trans hi)
    have hnone := (walkSections_eq_none_iff hnamed).mpr hbefore
    refine ⟨?_, hd.names _ (checkElfHeader_of_accepted h) i hi hnone⟩
    obtain ⟨left, hleft⟩ := Nat.exists_eq_add_of_lt hi
    rw [hleft, Nat.add_assoc, walkSections_add, hnone, Exec.ok_bind, Nat.zero_add] at hwalk
    obtain ⟨shName, hload, -⟩ := Exec.Safe.of_bind hwalk
    exact le_of_load32_eq_ok hload

theorem sectionsFit_of_dumpsInside (h : HeaderAccepted file) (hd : DumpsInside prog path file) :
    SectionsFit file := by
  obtain ⟨_, hlocate, -⟩ := Exec.Safe.of_bind hd.safe
  have hrun := hlocate
  rw [locateResource_of_accepted h] at hrun
  obtain ⟨shstrtab, hstrtab, hrun⟩ := Exec.bind_eq_ok.mp hrun
  have hstrings := le_of_load64_eq_ok hstrtab
  obtain rfl := Except.ok.inj ((load_shOffset hstrings).symm.trans hstrtab)
  obtain ⟨found, hwalk, hrun⟩ := Exec.bind_eq_ok.mp hrun
  have hnamed := named_of_dumpsInside h hd ⟨found, hwalk⟩
  obtain ⟨found', hwalk', hfound⟩ := walkSections_spec hnamed (Nat.zero_add _)
    fun j hj => absurd hj (Nat.not_lt_zero j)
  obtain rfl : found = found' := Except.ok.inj (hwalk.symm.trans hwalk')
  refine ⟨hd.no_wrap _ (checkElfHeader_of_accepted h), hstrings, hnamed,
    fun i hi hbefore hres => ?_⟩
  cases found with
  | none => exact absurd hres (hfound i hi)
  | some k =>
    obtain ⟨hk, hres', hbefore'⟩ := hfound
    obtain rfl : k = i := by
      rcases Nat.lt_trichotomy k i with hlt | heq | hgt
      · exact absurd hres' (hbefore k hlt)
      · exact heq
      · exact absurd hres (hbefore' i hgt)
    obtain ⟨offset, hoffset, hrun⟩ := Exec.bind_eq_ok.mp hrun
    obtain ⟨size, hsize, hrun⟩ := Exec.bind_eq_ok.mp hrun
    have hle := le_of_load64_eq_ok hsize
    obtain rfl := Except.ok.inj ((load_shOffset (le_of_load64_eq_ok hoffset)).symm.trans hoffset)
    obtain rfl := Except.ok.inj ((load_shSize hle).symm.trans hsize)
    obtain rfl := Except.ok.inj hrun
    exact ⟨hle, hd.range _ hlocate⟩

/-- **When the tool stays in its file.** Exactly if the file fails a check of its header, or
its sections fit: the header of the string table is inside, and so are, up to the first
`.resource` section, the names with their terminators and the range of that section. -/
theorem elfresdump_reads_inside_file_iff (prog path : CString) (file : Bytes) :
    DumpsInside prog path file ↔ (HeaderAccepted file → SectionsFit file) := by
  constructor
  · exact fun hd h => sectionsFit_of_dumpsInside h hd
  · intro hfit
    by_cases h : HeaderAccepted file
    · exact dumpsInside_of_fit h (hfit h)
    · exact dumpsInside_of_not_accepted h

/-- A file of a header alone, whose one section header would stand behind it. -/
def headerOnly : Bytes :=
  Ehdr.toBytes
    { eIdent := Compiler.objectIdent, eType := 1,
      eMachine := 62, eVersion := 1, eEntry := 0, ePhoff := 0, eShoff := 64, eFlags := 0,
      eEhsize := 64, ePhentsize := 0, ePhnum := 0, eShentsize := 0, eShnum := 1, eShstrndx := 0 }

/-- The check counts its section headers as empty, so the walk starts and reads on. -/
theorem headerOnly_read_outside :
    headerOnly.length = 64 ∧
      openResource (.literal "elfresdump") (.literal "a.o") headerOnly =
        .error (.outOfBounds 88) ∧
      ¬ DumpsInside (.literal "elfresdump") (.literal "a.o") headerOnly := by
  have hstop : openResource (.literal "elfresdump") (.literal "a.o") headerOnly =
      .error (.outOfBounds 88) := by decide +kernel
  refine ⟨by decide, hstop, fun hd => ?_⟩
  obtain ⟨_, hrun⟩ := hd.safe
  rw [hstop] at hrun
  cases hrun

end Elfr.Tools
