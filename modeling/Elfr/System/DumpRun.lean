import Elfr.Container.ResourceStore
import Elfr.Runtime.LongerBuffer
import Elfr.System.CompilerRun
import Elfr.Tools.DumpCommand
import Elfr.Tools.ObjectRoundTrip

/-!
# The dump tool on object files

What `elfresdump` does with an object file that `elfrc` wrote: the listing has a line for each
resource of the manifest, and a resource is extracted as the bytes of its file.
-/
namespace Elfr.System

open Library OutputStream Elf64 Format Elfr.Runtime Compiler Tools

section Object

variable {items : List Item} {im : Image} {b : Bytes}

/-- The tool opens the container of an object file, with the rest of the file behind it. -/
theorem openResource_elfObject (prog path : CString) (symbolPrefix : Option CString)
    (hsize : (elfObject b symbolPrefix).length < 2 ^ 64) (h : ImageOf items im b) :
    ∃ t, openResource prog path (elfObject b symbolPrefix) =
      .ok (.ok ((im.container b.length b).followedBy t)) := by
  obtain ⟨hoffset, hlength, -⟩ := resource_elfObject hsize
  have hcontents := (elfObject_segments b symbolPrefix).1
  rw [(objectParts_offsets b symbolPrefix).1] at hcontents
  obtain ⟨t, hdrop⟩ : ∃ t, (elfObject b symbolPrefix).drop ehdrBytes = b ++ t := by
    refine ⟨((elfObject b symbolPrefix).drop ehdrBytes).drop b.length, ?_⟩
    conv_lhs => rw [← List.take_append_drop b.length ((elfObject b symbolPrefix).drop ehdrBytes)]
    exact congrArg (· ++ _) hcontents.2
  have hopen := h.opens []
  rw [List.append_nil] at hopen
  refine ⟨t, ?_⟩
  unfold openResource
  rw [locateResource_elfObject hsize, Exec.ok_bind]
  dsimp only
  rw [hoffset, hlength, hdrop, erfOpenMemory_append b t hopen, Exec.ok_bind]
  rfl

end Object

def itemLine (it : Item) : Bytes := listLine it.id it.name it.type it.language it.contents.length

section Shows

variable {c : ERFContainer} {items : List Item} (h : Shows c items)
include h

theorem listResources_eq {left i : ℕ} (hi : i + left = items.length) :
    listResources c left i = .ok ((items.drop i).flatMap itemLine) := by
  induction left generalizing i with
  | zero =>
    rw [List.drop_eq_nil_of_le (by omega)]
    rfl
  | succ left ih =>
    have hlt : i < items.length := by omega
    obtain ⟨entry, hentry, hp⟩ := h.resource i hlt
    have hname : loadString c.base (toResource entry).name = .ok items[i].name :=
      loadString_of_stringAt hp.name
    unfold listResources
    rw [h.resourceAt hlt, Exec.deref_some, Exec.ok_bind, Exec.index_eq_ok.mpr hentry, Exec.ok_bind,
      hname, Exec.ok_bind, ih (by omega), Exec.ok_bind, List.drop_eq_getElem_cons hlt,
      List.flatMap_cons]
    simp only [itemLine, toResource, hp.id, hp.type, hp.language, hp.dataSize]
    rfl

/-- A resource that is found is written as far as the device takes it. -/
theorem extract_found {host : DumpHost} {prog q dest : CString} {i : ℕ}
    {device : Device UInt8} (hi : i < items.length) (hq : items[i].name = q)
    (hfirst : ∀ j < i, (items.map Item.name)[j]? ≠ some q) (hopen : host.create dest = some device)
    (hroom : items[i].contents.length ≤ device.capacity) :
    extractResource host prog c q dest = .ok ⟨0, [], [], some (dest, items[i].contents)⟩ := by
  have hfound := h.find q
  rw [findIdx?_name_iff.mpr ⟨by simp [hi, hq], hfirst⟩] at hfound
  obtain ⟨entry, hentry, hp⟩ := h.resource i hi
  have hload : load c.base (toResource entry).data (toResource entry).size.toNat =
      .ok items[i].contents := by
    refine load_eq_ok.mpr ?_
    change _ + entry.dataSize.toNat ≤ _ ∧ slice _ _ entry.dataSize.toNat = _
    rw [hp.dataSize]
    exact hp.data
  have hwritten := device.fwrite_of_room hroom
  have hclosed : (device.fclose (device.fwrite opened items[i].contents).2).2 =
      items[i].contents := (device.fclose_putAll _).trans (List.take_of_length_le hroom)
  unfold extractResource
  rw [erfFindIn_of_findName hfound, Exec.ok_bind]
  simp only [lookupResult, Exec.index_eq_ok.mpr hentry, Exec.ok_bind, hopen, hload, hwritten]
  change (if _ ≠ entry.dataSize.toNat then _ else _) = _
  rw [hp.dataSize, if_neg (not_not.mpr rfl), hclosed]
  rfl

theorem extract_missing {host : DumpHost} {prog q dest : CString}
    (hnone : ∀ i : ℕ, (items.map Item.name)[i]? ≠ some q) :
    extractResource host prog c q dest = .ok (dumpFailure (resourceNotFound prog q)) := by
  have hfound := h.find q
  have hmissing : items.findIdx? (·.name = q) = none := by
    by_contra hsome
    obtain ⟨i, hi⟩ := Option.ne_none_iff_exists'.mp hsome
    exact hnone i (findIdx?_name_iff.mp hi).1
  rw [hmissing] at hfound
  unfold extractResource
  rw [erfFindIn_of_findName hfound, Exec.ok_bind]
  rfl

end Shows

section Toolchain

variable {host : Host} {prog : CString} {args : List CString} {run : Run}

theorem writeObject_of_room {device : Device UInt8}
    (hopen : host.create run.outputPath = some device)
    (hroom : run.object.length ≤ device.capacity) :
    writeObject host run.container run.symbolPrefix run.outputPath run.manifest.resources.length =
      ⟨0, wroteObject run.outputPath run.container.length run.manifest.resources.length,
        some (run.outputPath, run.object)⟩ := by
  unfold Run.object at hroom ⊢
  rw [writeObject_opened hopen, if_pos (Nat.le_trans (Device.eager_le _) hroom),
    List.take_of_length_le hroom]

/-- The tool comes to a container that shows what the resources of the manifest load. -/
theorem Compiles.dumps (h : Compiles host prog args run) (hlt : run.container.length < 2 ^ 32)
    (dumpHost : DumpHost) (prog' path : CString) (a : DumpArguments)
    (hread : dumpHost.read path = .mapped run.object) :
    ∃ items c, List.Forall₂ (Loads host.files) run.manifest.resources items ∧ Shows c items ∧
      ∀ args', parseDumpArguments prog' args' = .ok a →
        elfresdumpMain dumpHost prog' (path :: args') = dumpContainer dumpHost prog' a c := by
  obtain ⟨items, im, hloads, him⟩ := h.container.imageOf hlt
  have hle := length_elfObject_le run.container run.symbolPrefix
  obtain ⟨t, hopen⟩ := openResource_elfObject prog' path run.symbolPrefix (by omega) him
  have hshows := him.shows []
  rw [List.append_nil] at hshows
  refine ⟨items, _, hloads, hshows.followedBy t, fun args' hargs => ?_⟩
  unfold elfresdumpMain
  simp only [hargs, hread]
  change (openResource prog' path (elfObject run.container run.symbolPrefix) >>= _) = _
  rw [hopen]
  rfl

end Toolchain

def extractArguments (path q dest : CString) : List CString :=
  [path, .literal "--extract", q, .literal "-o", dest]

theorem parse_extractArguments (prog q dest : CString) :
    parseDumpArguments prog [.literal "--extract", q, .literal "-o", dest] =
      .ok ⟨some q, some dest⟩ := rfl

/-- **What goes in comes out.** A run of `elfrc` that gets its container together, below 2^32
bytes, leaves an object from which `elfresdump` extracts for every name the bytes of the
file of the first resource with that name, and for a name of no resource it says so and
writes nothing. -/
theorem extracts_what_was_compiled (host : Host) (prog : CString) (args : List CString)
    (run : Run) (device : Device UInt8) (h : Compiles host prog args run)
    (hlt : run.container.length < 2 ^ 32) (hopen : host.create run.outputPath = some device)
    (hroom : run.object.length ≤ device.capacity) :
    Returns (elfrcMain host prog args) ⟨0, wroteObject run.outputPath run.container.length
      run.manifest.resources.length, some (run.outputPath, run.object)⟩ ∧
    ∀ (dumpHost : DumpHost) (prog' path q dest : CString),
      dumpHost.read path = .mapped run.object →
      (∀ (i : ℕ) r contents device', run.manifest.resources[i]? = some r → r.name = some q →
        (∀ j < i, ¬ run.manifest.Named q j) → ReadsFile host.files r contents →
        dumpHost.create dest = some device' → contents.length ≤ device'.capacity →
        elfresdumpMain dumpHost prog' (extractArguments path q dest) =
          .ok ⟨0, [], [], some (dest, contents)⟩) ∧
      ((∀ i, ¬ run.manifest.Named q i) →
        elfresdumpMain dumpHost prog' (extractArguments path q dest) =
          .ok (dumpFailure (resourceNotFound prog' q))) := by
  refine ⟨writeObject_of_room hopen hroom ▸ h.returns, ?_⟩
  intro dumpHost prog' path q dest hread
  obtain ⟨items, c, hloads, hshows, hdump⟩ :=
    h.dumps hlt dumpHost prog' path ⟨some q, some dest⟩ hread
  have hrun : elfresdumpMain dumpHost prog' (extractArguments path q dest) =
      extractResource dumpHost prog' c q dest := hdump _ (parse_extractArguments prog' q dest)
  have hnamed := named_iff_of_loads hloads q
  rw [hrun]
  constructor
  · intro i r contents device' hr hname hfirst hcontents hopen' hroom'
    obtain ⟨hi, rfl⟩ := List.getElem?_eq_some_iff.mp hr
    have hi' : i < items.length := hloads.length_eq ▸ hi
    have hload : Loads host.files run.manifest.resources[i] items[i] := hloads.get hi hi'
    obtain rfl : items[i].contents = contents := by
      obtain ⟨file, f, hfile, hf, hread⟩ := hload.contents
      obtain ⟨file', f', hfile', hf', hread'⟩ := hcontents
      obtain rfl := Option.some.inj (hfile.symm.trans hfile')
      obtain rfl := Option.some.inj (hf.symm.trans hf')
      exact Option.some.inj (hread.symm.trans hread')
    have hq : items[i].name = q := Option.some.inj (hload.name.symm.trans hname)
    exact extract_found hshows hi' hq (fun j hj => mt (hnamed j).mpr (hfirst j hj)) hopen' hroom'
  · exact fun hnone => extract_missing hshows fun i => mt (hnamed i).mpr (hnone i)

/-- The object of the sample is there to be read, and the extracted file fits. -/
def sampleDumpHost (b : Bytes) : DumpHost :=
  ⟨fun _ => .mapped (sampleRun b).object, fun _ => some sampleDevice⟩

theorem extracts_what_was_compiled_sample : ∃ b, elfresdumpMain (sampleDumpHost b)
    (.literal "elfresdump") (extractArguments (.literal "sample.o") (.literal "a") (.literal "f")) =
      .ok ⟨0, [], [], some (.literal "f", [1, 2, 3])⟩ := by
  obtain ⟨b, im, hlt, -, hrun⟩ := exists_sampleRun
  have hroom : (sampleRun b).object.length ≤ sampleDevice.capacity := length_sampleRun hlt
  have hsmall : (sampleRun b).container.length < 2 ^ 32 := by
    change b.length < _
    omega
  obtain ⟨-, hextract⟩ := extracts_what_was_compiled sampleHost _ _ _ sampleDevice hrun hsmall rfl
    hroom
  have hreads : ReadsFile sampleFiles sampleManifest.resources[0] [1, 2, 3] :=
    ⟨.literal "./f", ⟨3, [1, 2, 3]⟩, rfl, rfl, by decide⟩
  refine ⟨b, (hextract (sampleDumpHost b) _ _ _ _ rfl).1 0 _ [1, 2, 3] sampleDevice rfl rfl
    (fun j hj => absurd hj (Nat.not_lt_zero j)) hreads rfl (by decide)⟩

/-- **The listing is the manifest.** On the object of a run, `elfresdump` prints under the
heading one line for each resource of the manifest in order, with the identifier, the name,
the type, the language and the size of the file. -/
theorem lists_what_was_compiled (host : Host) (prog : CString) (args : List CString) (run : Run)
    (h : Compiles host prog args run) (hlt : run.container.length < 2 ^ 32) :
    ∃ items, List.Forall₂ (Loads host.files) run.manifest.resources items ∧
      ∀ (dumpHost : DumpHost) (prog' path : CString),
        dumpHost.read path = .mapped run.object →
        elfresdumpMain dumpHost prog' [path] =
          .ok ⟨0, listHeading ++ items.flatMap itemLine, [], none⟩ := by
  obtain ⟨items, im, hloads, -⟩ := h.container.imageOf hlt
  refine ⟨items, hloads, fun dumpHost prog' path hread => ?_⟩
  obtain ⟨items', c, hloads', hshows, hdump⟩ :=
    h.dumps hlt dumpHost prog' path ⟨none, none⟩ hread
  obtain rfl := List.right_unique_forall₂' (Loads.rightUnique host.files) hloads hloads'
  have hlines := listResources_eq hshows (Nat.zero_add items.length)
  rw [hdump [] rfl]
  unfold dumpContainer
  dsimp only
  rw [show (erfResourceCount (some c)).toNat = items.length from hshows.count, hlines]
  rfl

theorem lists_what_was_compiled_sample : ∃ b, elfresdumpMain (sampleDumpHost b)
    (.literal "elfresdump") [.literal "sample.o"] = .ok ⟨0, ascii
      ("ID     NAME                     TYPE         LANG           SIZE\n" ++
       "1      a                        binary       0                 3\n"), [], none⟩ := by
  obtain ⟨b, im, hlt, -, hrun⟩ := exists_sampleRun
  have hsmall : (sampleRun b).container.length < 2 ^ 32 := by
    change b.length < _
    omega
  obtain ⟨items, hloads, hlists⟩ := lists_what_was_compiled sampleHost _ _ _ hrun hsmall
  obtain rfl := List.right_unique_forall₂' (Loads.rightUnique sampleFiles) sample_loads hloads
  have htext : listHeading ++ sampleItems.flatMap itemLine = ascii
      ("ID     NAME                     TYPE         LANG           SIZE\n" ++
       "1      a                        binary       0                 3\n") := by
    decide +kernel
  exact ⟨b, htext ▸ hlists (sampleDumpHost b) _ _ rfl⟩

end Elfr.System
