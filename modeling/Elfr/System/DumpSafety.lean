import Elfr.Runtime.LookupSafety
import Elfr.System.DumpRun

/-!
# Where the dump tool reads

The checks on the section headers do not look at the names of the resources. Given a file
whose section headers fit, the whole run of the tool stays inside the file as long as every
resource name ends there, and a listing does so only then.
-/
namespace Elfr.System

open Library OutputStream Elf64 Format Elfr.Runtime Compiler Tools

section Container

variable {c : ERFContainer} (h : Accepted c.base { c with size := c.base.length })
include h

theorem length_resources_eq : c.resources.length = c.resourceCount.toNat := h.length_resources

theorem findName_safe (hnames : NamesTerminated c) (q : CString) : (findName c q).Safe := by
  have hnames' : NamesTerminated { c with size := c.base.length } := hnames
  rw [← findName_withSize c q c.base.length]
  unfold findName
  split_ifs with hhash
  · obtain ⟨found, hfound, -⟩ := findHashed_spec (q := q) h hnames' hhash.2
    exact ⟨found, hfound⟩
  · obtain ⟨found, hfound, -⟩ := findScanning_spec (q := q) h hnames'
    exact ⟨found, hfound⟩

theorem data_fits {r : ERFResource} (hr : r ∈ c.resources) :
    r.data + r.size.toNat ≤ c.base.length := by
  have hdata := h.data_le (r := r) hr
  have htotal := h.total_le
  exact hdata.trans htotal

theorem found_lt (hnames : NamesTerminated c) {q : CString} {i : ℕ}
    (hfound : findName c q = .ok (some i)) : i < c.resources.length := by
  have hnames' : NamesTerminated { c with size := c.base.length } := hnames
  rw [← findName_withSize c q c.base.length] at hfound
  have hnamed : Named { c with size := c.base.length } q i := by
    unfold findName at hfound
    split_ifs at hfound with hhash
    · obtain ⟨found, hfound', hspec⟩ := findHashed_spec (q := q) h hnames' hhash.2
      rw [hfound'] at hfound
      exact hspec i (Except.ok.inj hfound)
    · obtain ⟨found, hfound', hspec⟩ := findScanning_spec (q := q) h hnames'
      rw [hfound'] at hfound
      exact ((hspec i).mp (Except.ok.inj hfound)).1
  obtain ⟨r, hr, -⟩ := hnamed
  exact (List.getElem?_eq_some_iff.mp hr).1

theorem extractResource_safe (hnames : NamesTerminated c) (host : DumpHost)
    (prog q dest : CString) :
    (extractResource host prog c q dest).Safe := by
  obtain ⟨found, hfound⟩ := findName_safe h hnames q
  unfold extractResource
  rw [erfFindIn_of_findName hfound, Exec.ok_bind]
  cases found with
  | none => exact ⟨_, rfl⟩
  | some i =>
    have hi := found_lt h hnames hfound
    dsimp only [lookupResult]
    rw [Exec.index_of_lt hi, Exec.ok_bind]
    split
    · exact ⟨_, rfl⟩
    · rw [load_of_le (data_fits h (List.getElem_mem hi)), Exec.ok_bind]
      split_ifs
      exacts [⟨_, rfl⟩, ⟨_, rfl⟩]

/-- The listing from an index on is safe exactly if the names from there on end. -/
theorem listResources_safe_iff {left i : ℕ} (hi : i + left = c.resources.length) :
    (listResources c left i).Safe ↔ ∀ r ∈ c.resources.drop i, (0 : UInt8) ∈ c.base.drop r.name := by
  induction left generalizing i with
  | zero =>
    rw [List.drop_eq_nil_of_le (by omega)]
    exact iff_of_true ⟨_, rfl⟩ (by simp)
  | succ left ih =>
    have hlt : i < c.resources.length := by omega
    have hcount := length_resources_eq h
    have hle := c.resourceCount.toNat_lt
    have hindex : (UInt32.ofNat i).toNat = i := toNat_ofNat32 (by omega)
    have hat : erfResourceAt (some c) (UInt32.ofNat i) .ok = (some i, .ok) := by
      unfold erfResourceAt
      simp only [ge_iff_le, UInt32.le_iff_toNat_le, hindex]
      rw [if_neg (by omega)]
    rw [List.drop_eq_getElem_cons hlt, List.forall_mem_cons, ← ih (by omega), listResources, hat,
      Exec.deref_some, Exec.ok_bind, Exec.index_of_lt hlt, Exec.ok_bind, loadString]
    by_cases hname : (0 : UInt8) ∈ c.base.drop c.resources[i].name
    · rw [if_pos hname, Exec.ok_bind, and_iff_right hname]
      constructor
      · intro hsafe
        obtain ⟨rest, hrest, -⟩ := hsafe.of_bind
        exact ⟨rest, hrest⟩
      · exact fun hsafe => hsafe.bind fun _ _ => ⟨_, rfl⟩
    · rw [if_neg hname, Exec.error_bind]
      constructor
      · rintro ⟨rest, hrest⟩
        cases hrest
      · intro hnames
        exact absurd hnames.1 hname

end Container

section File

variable {file : Bytes}

/-- With section headers that fit, the tool opens what is at the start of a part of the file. -/
theorem accepted_of_openResource (hfit : HeaderAccepted file → SectionsFit file)
    {c : ERFContainer} (h : openResource prog path file = .ok (.ok c)) :
    Accepted c.base { c with size := c.base.length } := by
  obtain ⟨located, hlocate, h⟩ := Exec.bind_eq_ok.mp h
  cases located with
  | error message => cases h
  | ok range =>
    have haccepted : HeaderAccepted file := by
      by_contra hnot
      obtain ⟨message, hcheck⟩ := checkElfHeader_of_not_accepted prog path hnot
      rw [locateResource, hcheck] at hlocate
      cases hlocate
    have hrange := (dumpsInside_of_fit haccepted (hfit haccepted)).range range hlocate
    obtain ⟨opened, hopened, h⟩ := Exec.bind_eq_ok.mp h
    cases opened with
    | error e => cases h
    | ok c' =>
      obtain rfl := Except.ok.inj (Except.ok.inj h)
      have hle : range.size.toNat ≤ (file.drop range.offset.toNat).length := by
        rw [List.length_drop]
        omega
      have hwhole := erfOpenMemory_ok_iff.mp (erfOpenMemory_of_le hle hopened)
      have hbase : c'.base = file.drop range.offset.toNat := hwhole.base
      rwa [← hbase] at hwhole

theorem elfresdumpMain_of_rejected {host : DumpHost} {args : List CString} {ending : Ending}
    (h : parseDumpArguments prog args = .error ending) :
    elfresdumpMain host prog (path :: args) = .ok ⟨ending.status, [], ending.stderr, none⟩ := by
  simp only [elfresdumpMain, h]
  rfl

theorem openResource_safe (prog path : CString) (hfit : HeaderAccepted file → SectionsFit file) :
    (openResource prog path file).Safe := by
  by_cases h : HeaderAccepted file
  · exact (dumpsInside_of_fit h (hfit h)).safe
  · exact (dumpsInside_of_not_accepted h).safe

end File

section Listing

variable {c : ERFContainer} (h : Accepted c.base { c with size := c.base.length })
  (host : DumpHost) (prog : CString)
include h

theorem listing_safe_iff :
    (dumpContainer host prog ⟨none, none⟩ c).Safe ↔ NamesTerminated c := by
  have hcount : 0 + c.resourceCount.toNat = c.resources.length :=
    (Nat.zero_add _).trans (length_resources_eq h).symm
  have hlines := listResources_safe_iff h hcount
  rw [List.drop_zero] at hlines
  refine Iff.trans ⟨fun hsafe => ?_, fun hsafe => ?_⟩ hlines
  · obtain ⟨lines, hlines, -⟩ := hsafe.of_bind
    exact ⟨lines, hlines⟩
  · exact hsafe.bind fun _ _ => ⟨_, rfl⟩

theorem dumpContainer_safe (hnames : NamesTerminated c) (a : DumpArguments) :
    (dumpContainer host prog a c).Safe := by
  have hlisting := (listing_safe_iff h host prog).mpr hnames
  obtain ⟨extractName, outputPath⟩ := a
  cases extractName with
  | none => exact hlisting
  | some q =>
    cases outputPath with
    | none => exact hlisting
    | some dest => exact extractResource_safe h hnames host prog q dest

end Listing

/-- **A dump stays inside the file.** Let the section headers of a file fit, whatever else it
holds. Then no run of the tool on it, for any arguments, reads outside of the file if all
resource names of the container it opens end there, and a listing does not only if they do. -/
theorem dump_inside_file (host : DumpHost) (prog path : CString) (file : Bytes)
    (hread : host.read path = .mapped file) (hfit : HeaderAccepted file → SectionsFit file) :
    ((elfresdumpMain host prog [path]).Safe ↔
        ∀ c, openResource prog path file = .ok (.ok c) → NamesTerminated c) ∧
      ((∀ c, openResource prog path file = .ok (.ok c) → NamesTerminated c) →
        ∀ args, (elfresdumpMain host prog (path :: args)).Safe) := by
  obtain ⟨opened, hopen⟩ := openResource_safe prog path hfit
  have hmain : ∀ a args, parseDumpArguments prog args = .ok a →
      elfresdumpMain host prog (path :: args) =
        match opened with
        | .error message => .ok (dumpFailure message)
        | .ok c => dumpContainer host prog a c := by
    intro a args hargs
    unfold elfresdumpMain
    simp only [hargs, hread, hopen, Exec.ok_bind]
    cases opened <;> rfl
  cases opened with
  | error message =>
    have hvacuous : ∀ c, openResource prog path file = .ok (.ok c) → NamesTerminated c := by
      intro c hc
      cases hopen.symm.trans hc
    refine ⟨iff_of_true ⟨_, hmain _ [] rfl⟩ hvacuous, fun _ args => ?_⟩
    cases hargs : parseDumpArguments prog args with
    | ok a => exact ⟨_, hmain a args hargs⟩
    | error ending => exact ⟨_, elfresdumpMain_of_rejected hargs⟩
  | ok c =>
    have haccepted := accepted_of_openResource hfit hopen
    have hself : (∀ c', openResource prog path file = .ok (.ok c') → NamesTerminated c') ↔
        NamesTerminated c := by
      refine ⟨fun hall => hall c hopen, fun hnames c' hc' => ?_⟩
      obtain rfl := Except.ok.inj (Except.ok.inj (hopen.symm.trans hc'))
      exact hnames
    rw [hself, hmain _ [] rfl]
    refine ⟨listing_safe_iff haccepted host prog, fun hnames args => ?_⟩
    cases hargs : parseDumpArguments prog args with
    | error ending => exact ⟨_, elfresdumpMain_of_rejected hargs⟩
    | ok a =>
      rw [hmain a args hargs]
      exact dumpContainer_safe haccepted host prog hnames a

/-- The object of the sample stays inside itself. -/
theorem dump_inside_file_sample : ∃ b, ∀ args, (elfresdumpMain (sampleDumpHost b)
    (.literal "elfresdump") (.literal "sample.o" :: args)).Safe := by
  obtain ⟨b, im, hlt, him, -⟩ := exists_sampleRun
  have hlength := length_sampleRun hlt
  have hsize : (elfObject b (sampleRun b).symbolPrefix).length < 2 ^ 64 :=
    Nat.lt_of_le_of_lt hlength (by decide)
  obtain ⟨-, hsafe⟩ := dump_inside_file (sampleDumpHost b) (.literal "elfresdump")
    (.literal "sample.o") (sampleRun b).object rfl fun _ => elfObject_fits hsize
  refine ⟨b, hsafe fun c hc => ?_⟩
  obtain ⟨t, hopen⟩ := openResource_elfObject (.literal "elfresdump") (.literal "sample.o")
    (sampleRun b).symbolPrefix hsize him
  obtain rfl := Except.ok.inj (Except.ok.inj (hopen.symm.trans hc))
  intro r hr
  have hnames := him.namesTerminated [] r (by rwa [List.append_nil])
  obtain ⟨s, hs⟩ := exists_stringAt_iff.mpr hnames
  rw [List.append_nil] at hs
  exact exists_stringAt_iff.mp ⟨s, hs.append t⟩

end Elfr.System
