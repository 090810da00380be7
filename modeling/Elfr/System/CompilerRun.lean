import Elfr.Compiler.CommandLine
import Elfr.Compiler.ManifestAcceptance
import Elfr.Compiler.ObjectOutput
import Elfr.Container.BuildOutcome
import Elfr.Container.RelocatedBuilds

/-!
# Runs of the compiler

What is left behind by a run of `elfrc`, read off its arguments, the manifest and the
files. A run that fails before the writer has opened nothing for writing, so that an object
of an earlier run stays as it was.
-/
namespace Elfr.System

open Library OutputStream Compiler

/-- What a run that comes to the writer has computed by then. -/
structure Run where
  arguments : Arguments
  manifestPath : CString
  manifest : ElfrcManifest
  container : Bytes

namespace Run

variable (run : Run)

def symbolPrefix : Option CString := run.arguments.symbolPrefix.or run.manifest.module

def outputPath : CString := run.arguments.outputPath.getD (deriveOutputName run.manifestPath)

def object : Bytes := elfObject run.container run.symbolPrefix

end Run

structure Compiles (host : Host) (prog : CString) (args : List CString) (run : Run) : Prop where
  arguments : parseArguments prog args = .ok run.arguments
  manifestPath : run.arguments.manifestPath = some run.manifestPath
  manifest : Returns (elfrcManifestParse host.files run.manifestPath (host.yaml run.manifestPath))
    ⟨0, run.manifest, []⟩
  container : Builds host.files run.manifest run.container

section Main

variable {host : Host} {prog : CString} {args : List CString} {out : Outcome} {run : Run}

theorem Compiles.unique {run' : Run} (h : Compiles host prog args run)
    (h' : Compiles host prog args run') : run = run' := by
  obtain ⟨a, path, m, b⟩ := run
  obtain ⟨a', path', m', b'⟩ := run'
  obtain rfl : a = a' := Except.ok.inj (h.arguments.symm.trans h'.arguments)
  obtain rfl : path = path' := Option.some.inj (h.manifestPath.symm.trans h'.manifestPath)
  have hparsed := elfrcManifestParse_unique h.manifest h'.manifest
  obtain rfl : m = m' := congrArg ParseResult.manifest hparsed
  obtain rfl : b = b' := Except.ok.inj (elfrcContainerBuild_unique h.container h'.container)
  rfl

theorem Compiles.returns (h : Compiles host prog args run) :
    Returns (elfrcMain host prog args) (writeObject host run.container run.symbolPrefix
      run.outputPath run.manifest.resources.length) := by
  obtain ⟨fuel, hparsed⟩ := h.manifest
  obtain ⟨fuel', hbuilt⟩ := h.container
  refine ⟨max fuel fuel', ?_⟩
  have hparsed := elfrcManifestParse_mono (le_max_left fuel fuel') hparsed
  have hbuilt := elfrcContainerBuild_mono (le_max_right fuel fuel') hbuilt
  unfold elfrcMain
  simp only [h.arguments, h.manifestPath, hparsed, Exec.ok_bind, ne_eq, not_true_eq_false,
    ↓reduceIte, hbuilt]
  rfl

theorem parse_of_code {fs : FileSystem} {path : CString} {input : ManifestInput}
    {parsed : ParseResult} (h : Returns (elfrcManifestParse fs path input) parsed)
    (hcode : parsed.code = 0) : parsed = ⟨0, parsed.manifest, []⟩ := by
  obtain ⟨doc, rfl⟩ := exists_loaded_of_code h hcode
  obtain ⟨fuel, -, hparsed, -⟩ := exists_parseRoot_of_code h hcode
  exact hparsed

theorem append_newline_ne_nil (message : Bytes) : message ++ newline ≠ [] := by
  simp [newline, ascii]

theorem writeObject_unopened {path : CString} (hclosed : host.create path = none)
    (container : Bytes) (symbolPrefix : Option CString) (n : ℕ) :
    writeObject host container symbolPrefix path n =
      ⟨1, cannotOpenForWriting path ++ newline, none⟩ := by
  simp [writeObject, elfrcWriteElfObject, hclosed]

theorem writeObject_opened {path : CString} {device : Device UInt8}
    (hopen : host.create path = some device) (container : Bytes) (symbolPrefix : Option CString)
    (n : ℕ) :
    writeObject host container symbolPrefix path n =
      if device.eager (elfObject container symbolPrefix) ≤ device.capacity then
        ⟨0, wroteObject path container.length n,
          some (path, (elfObject container symbolPrefix).take device.capacity)⟩
      else
        ⟨1, shortWrite path ++ newline,
          some (path, (elfObject container symbolPrefix).take device.capacity)⟩ := by
  unfold writeObject
  rw [elfrcWriteElfObject_opened container symbolPrefix hopen]
  split_ifs <;> rfl

theorem writeObject_failed {container : Bytes} {symbolPrefix : Option CString} {path : CString}
    {n : ℕ} (h : (writeObject host container symbolPrefix path n).status ≠ 0) :
    (writeObject host container symbolPrefix path n).status = 1 ∧
      (writeObject host container symbolPrefix path n).stderr ≠ [] := by
  cases hopen : host.create path with
  | none =>
    rw [writeObject_unopened hopen]
    exact ⟨rfl, append_newline_ne_nil _⟩
  | some device =>
    rw [writeObject_opened hopen] at h ⊢
    split_ifs at h ⊢
    · exact absurd rfl h
    · exact ⟨rfl, append_newline_ne_nil _⟩

theorem writeObject_status_iff (container : Bytes) (symbolPrefix : Option CString)
    (path : CString) (n : ℕ) :
    (writeObject host container symbolPrefix path n).status = 0 ↔
      ∃ device, host.create path = some device ∧
        device.eager (elfObject container symbolPrefix) ≤ device.capacity := by
  cases hopen : host.create path with
  | none => simp [writeObject_unopened hopen]
  | some device =>
    rw [writeObject_opened hopen]
    split_ifs with heager <;> simp [heager]

theorem writeObject_written_iff (container : Bytes) (symbolPrefix : Option CString)
    (path : CString) (n : ℕ) {path' : CString} {contents : Bytes} :
    (writeObject host container symbolPrefix path n).written = some (path', contents) ↔
      path = path' ∧ ∃ device, host.create path = some device ∧
        contents = (elfObject container symbolPrefix).take device.capacity := by
  cases hopen : host.create path with
  | none => simp [writeObject_unopened hopen]
  | some device =>
    rw [writeObject_opened hopen]
    have hsome : ∀ x : Bytes, some (path, x) = some (path', contents) ↔
        path = path' ∧ contents = x := by
      intro x
      rw [Option.some.injEq, Prod.mk.injEq]
      exact and_congr_right fun _ => eq_comm
    split_ifs <;> simp [hsome]

/-- A run ends at its arguments, at the manifest, at a file, or in the writer. -/
theorem elfrcMain_cases (h : Returns (elfrcMain host prog args) out) :
    (∃ run, Compiles host prog args run ∧ out = writeObject host run.container run.symbolPrefix
        run.outputPath run.manifest.resources.length) ∨
      (¬ ∃ run, Compiles host prog args run) ∧ out.written = none ∧
        (out.status = 0 ∧ parseArguments prog args = .error ⟨0, usage prog⟩ ∨
          out.status = 1 ∧ out.stderr ≠ [] ∧
            parseArguments prog args ≠ .error ⟨0, usage prog⟩) := by
  obtain ⟨fuel, h⟩ := h
  unfold elfrcMain at h
  cases hargs : parseArguments prog args with
  | error ending =>
    rw [hargs] at h
    obtain rfl := Except.ok.inj h
    refine .inr ⟨fun ⟨run, hrun⟩ => (nomatch hargs.symm.trans hrun.arguments), rfl, ?_⟩
    rcases parseArguments_ending hargs with rfl | ⟨hstatus, hstderr⟩
    · exact .inl ⟨rfl, rfl⟩
    · refine .inr ⟨hstatus, hstderr, ?_⟩
      rintro ⟨⟩
      cases hstatus
  | ok a =>
    simp only [hargs] at h
    have hhelp : (Except.ok a : Except Ending Arguments) ≠ .error ⟨0, usage prog⟩ := nofun
    cases hpath : a.manifestPath with
    | none =>
      simp only [hpath] at h
      obtain rfl := Except.ok.inj h
      refine .inr ⟨fun ⟨run, hrun⟩ => ?_, rfl, .inr ⟨rfl, usage_ne_nil prog, hhelp⟩⟩
      obtain rfl := Except.ok.inj (hargs.symm.trans hrun.arguments)
      cases hpath.symm.trans hrun.manifestPath
    | some path =>
      simp only [hpath] at h
      obtain ⟨parsed, hparsed, h⟩ := Exec.bind_eq_ok.mp h
      split_ifs at h with hcode
      · obtain rfl := Except.ok.inj h
        refine .inr ⟨fun ⟨run, hrun⟩ => ?_, rfl, .inr ⟨rfl, append_newline_ne_nil _, hhelp⟩⟩
        obtain rfl := Except.ok.inj (hargs.symm.trans hrun.arguments)
        obtain rfl := Option.some.inj (hpath.symm.trans hrun.manifestPath)
        exact hcode (congrArg ParseResult.code
          (elfrcManifestParse_unique ⟨fuel, hparsed⟩ hrun.manifest))
      · rw [ne_eq, not_not] at hcode
        have hmanifest := parse_of_code ⟨fuel, hparsed⟩ hcode
        obtain ⟨built, hbuilt, h⟩ := Exec.bind_eq_ok.mp h
        cases built with
        | error message =>
          obtain rfl := Except.ok.inj h
          refine .inr ⟨fun ⟨run, hrun⟩ => ?_, rfl, .inr ⟨rfl, append_newline_ne_nil _, hhelp⟩⟩
          obtain rfl := Except.ok.inj (hargs.symm.trans hrun.arguments)
          obtain rfl := Option.some.inj (hpath.symm.trans hrun.manifestPath)
          have hsame := elfrcManifestParse_unique ⟨fuel, hparsed⟩ hrun.manifest
          rw [hsame] at hbuilt
          cases elfrcContainerBuild_unique ⟨fuel, hbuilt⟩ hrun.container
        | ok container =>
          obtain rfl := Except.ok.inj h
          exact .inl ⟨⟨a, path, parsed.manifest, container⟩,
            ⟨hargs, hpath, hmanifest ▸ ⟨fuel, hparsed⟩, ⟨fuel, hbuilt⟩⟩, rfl⟩

end Main

/-- **What a run of the compiler leaves behind.** A run that ends exits with 0 exactly if it
was asked for help, or if arguments, manifest and files were in order and nothing was refused
of what was handed over to the output before `fwrite` returned; otherwise with 1 and a
message. A path is opened for writing exactly by a run that got the container together, and
then holds as much of the object as fits. -/
theorem elfrc_run_iff (host : Host) (prog : CString) (args : List CString) (out : Outcome)
    (h : Returns (elfrcMain host prog args) out) :
    (out.status = 0 ↔ parseArguments prog args = .error ⟨0, usage prog⟩ ∨
        ∃ run device, Compiles host prog args run ∧ host.create run.outputPath = some device ∧
          device.eager run.object ≤ device.capacity) ∧
      (out.status ≠ 0 → out.status = 1 ∧ out.stderr ≠ []) ∧
      ∀ path contents, out.written = some (path, contents) ↔
        ∃ run device, Compiles host prog args run ∧ run.outputPath = path ∧
          host.create path = some device ∧ contents = run.object.take device.capacity := by
  rcases elfrcMain_cases h with ⟨run, hrun, rfl⟩ | ⟨hnone, hwritten, hstatus⟩
  · have hhelp : parseArguments prog args ≠ .error ⟨0, usage prog⟩ := by
      rw [hrun.arguments]
      exact nofun
    have hself : ∀ P : Run → Device UInt8 → Prop,
        (∃ run' device, Compiles host prog args run' ∧ P run' device) ↔ ∃ device, P run device := by
      intro P
      constructor
      · rintro ⟨run', device, hrun', hP⟩
        obtain rfl := hrun.unique hrun'
        exact ⟨device, hP⟩
      · exact fun ⟨device, hP⟩ => ⟨run, device, hrun, hP⟩
    refine ⟨?_, writeObject_failed, fun path contents => ?_⟩
    · rw [writeObject_status_iff, or_iff_right hhelp, hself]
      rfl
    · rw [writeObject_written_iff, hself]
      constructor
      · rintro ⟨rfl, device, hopen, hcontents⟩
        exact ⟨device, rfl, hopen, hcontents⟩
      · rintro ⟨device, rfl, hopen, hcontents⟩
        exact ⟨rfl, device, hopen, hcontents⟩
  · have hcompiles : ∀ P : Run → Device UInt8 → Prop,
        ¬ ∃ run device, Compiles host prog args run ∧ P run device :=
      fun P ⟨run, device, hrun, _⟩ => hnone ⟨run, hrun⟩
    refine ⟨?_, fun hfailed => ?_, fun path contents => ?_⟩
    · rw [or_iff_left (hcompiles _)]
      rcases hstatus with ⟨hzero, hhelp⟩ | ⟨hone, -, hhelp⟩
      · exact iff_of_true hzero hhelp
      · exact iff_of_false (by rw [hone]; decide) hhelp
    · rcases hstatus with ⟨hzero, -⟩ | ⟨hone, hstderr, -⟩
      · exact absurd hzero hfailed
      · exact ⟨hone, hstderr⟩
    · rw [hwritten]
      exact iff_of_false nofun (hcompiles _)

def sampleFiles : FileSystem where
  isRegular := fun _ => true
  fopen := fun file => if file.bytes = ascii "./f" then some ⟨3, [1, 2, 3]⟩ else none

/-- Room for a mebibyte behind a buffer of 4096 bytes. -/
def sampleDevice : Device UInt8 := Device.blocks 0x100000 4096

def sampleHost : Host := ⟨sampleFiles, fun _ => .loaded sampleDocument, fun _ => some sampleDevice⟩

def sampleManifest : ElfrcManifest :=
  ⟨1, none, [⟨some (.literal "a"), some (.literal "./f"), 0, 0, 0, 0, false, 0, 1, [], 3⟩]⟩

def sampleItems : List Item := [⟨.literal "a", [], [1, 2, 3], 1, 0, 0, 0⟩]

theorem sample_parsed : Returns (elfrcManifestParse sampleFiles (.literal "sample.elfrc")
    (.loaded sampleDocument)) ⟨0, sampleManifest, []⟩ := ⟨2, by decide +kernel⟩

theorem sample_loads : List.Forall₂ (Loads sampleFiles) sampleManifest.resources sampleItems := by
  refine .cons ⟨rfl, rfl, ⟨_, _, rfl, rfl, ?_⟩, rfl, rfl, rfl, rfl⟩ .nil
  decide

theorem sample_size : containerSize sampleItems < 0x1000 := by decide +kernel

def sampleArguments : List CString := [.literal "sample.elfrc"]

def sampleRun (b : Bytes) : Run :=
  ⟨⟨some (.literal "sample.elfrc"), none, none⟩, .literal "sample.elfrc", sampleManifest, b⟩

theorem exists_sampleRun : ∃ b im, b.length < 0x1000 ∧ ImageOf sampleItems im b ∧
    Compiles sampleHost (.literal "elfrc") sampleArguments (sampleRun b) := by
  have hsize := sample_size
  obtain ⟨b, im, hbuild, hlen, him⟩ := builds_of_loads sample_loads (by omega)
  exact ⟨b, im, hlen ▸ hsize, him, rfl, rfl, sample_parsed, hbuild⟩

theorem length_sampleRun {b : Bytes} (hlt : b.length < 0x1000) :
    (sampleRun b).object.length ≤ 0x100000 := by
  have hle := length_elfObject_le b (sampleRun b).symbolPrefix
  unfold Run.object
  change (elfObject b (sampleRun b).symbolPrefix).length ≤ _
  omega

theorem elfrc_run_sample : ∃ out b, Returns (elfrcMain sampleHost (.literal "elfrc")
      sampleArguments) out ∧ out.status = 0 ∧
    out.written = some (.literal "sample.o", elfObject b none) := by
  obtain ⟨b, im, hlt, -, hrun⟩ := exists_sampleRun
  have hroom := length_sampleRun hlt
  have hblocks := Device.eager_blocks 0x100000 (show 0 < 4096 by decide) (sampleRun b).object
  have heager : sampleDevice.eager (sampleRun b).object ≤ sampleDevice.capacity := by
    rw [sampleDevice, hblocks]
    exact (Nat.div_mul_le_self _ _).trans hroom
  have hfits : (sampleRun b).object.take sampleDevice.capacity = (sampleRun b).object :=
    List.take_of_length_le hroom
  obtain ⟨hstatus, -, hwritten⟩ := elfrc_run_iff sampleHost _ _ _ hrun.returns
  have hpath : (sampleRun b).outputPath = .literal "sample.o" :=
    (show deriveOutputName (.literal "sample.elfrc") = _ by decide)
  refine ⟨_, b, hrun.returns, hstatus.mpr (.inr ⟨_, _, hrun, rfl, heager⟩), ?_⟩
  exact (hwritten _ _).mpr ⟨_, sampleDevice, hrun, hpath, rfl, hfits.symm⟩

end Elfr.System
