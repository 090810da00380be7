import Elfr.Compiler.ElfObject
import Elfr.Compiler.ContainerImage

/-!
# The object file on the device

What the output path holds after `elfrc_write_elf_object`. The writer compares what
`fwrite` reports with the length of the object and drops the result of `fclose`, so that a
device that fills up is noticed only if it does so during `fwrite`, which depends on the
length of the object, on the room on the device, and on the buffering in between.
-/
namespace Elfr.Compiler

open Library OutputStream

/-- Success with the whole object in the file, or a failure with a message. -/
def CompleteOrReported (object : Bytes) (result : WriteResult) : Prop :=
  (result.code = 0 ∧ result.file = some object) ∨ (result.code = -1 ∧ result.errbuf ≠ [])

theorem completeOrReported_zero (object errbuf : Bytes) (file : Option Bytes) :
    CompleteOrReported object ⟨0, errbuf, file⟩ ↔ file = some object := by
  simp [CompleteOrReported]

theorem cannotOpenForWriting_ne_nil (path : CString) : cannotOpenForWriting path ≠ [] := by
  simp [cannotOpenForWriting, snprintf, errbufSize, ascii]

theorem shortWrite_ne_nil (path : CString) : shortWrite path ≠ [] := by
  simp [shortWrite, snprintf, errbufSize, ascii]

section Output

variable {fopen : CString → Option (Device UInt8)} {outputPath : CString} {device : Device UInt8}
variable (container : Bytes) (symbolPrefix : Option CString)

theorem elfObject_ne_nil : elfObject container symbolPrefix ≠ [] := by
  rw [← List.length_pos_iff, length_elfObject]
  exact Nat.add_pos_right _ (by decide)

/-- What was opened holds what fits of the object, and the code says whether any of what
`fwrite` handed over was refused. -/
theorem elfrcWriteElfObject_opened (hopen : fopen outputPath = some device) :
    elfrcWriteElfObject fopen container symbolPrefix outputPath =
      if device.eager (elfObject container symbolPrefix) ≤ device.capacity then
        ⟨0, [], some ((elfObject container symbolPrefix).take device.capacity)⟩
      else
        ⟨-1, shortWrite outputPath,
          some ((elfObject container symbolPrefix).take device.capacity)⟩ := by
  have hwritten := device.fwrite_eq_length _ (elfObject_ne_nil container symbolPrefix)
  have hfile := device.fclose_putAll (elfObject container symbolPrefix)
  simp only [elfrcWriteElfObject, hopen, ne_eq, hwritten, ite_not]
  rw [← hfile]
  rfl

end Output

/-- **When success means a complete object.** For every way in which the device fills up and
the stream is buffered: unless the device ends in what is left for `fclose` to hand over. -/
theorem object_complete_iff (fopen : CString → Option (Device UInt8)) (container : Bytes)
    (symbolPrefix : Option CString) (outputPath : CString) :
    CompleteOrReported (elfObject container symbolPrefix)
        (elfrcWriteElfObject fopen container symbolPrefix outputPath) ↔
      ∀ device, fopen outputPath = some device →
        (elfObject container symbolPrefix).length ≤ device.capacity ∨
          device.capacity < device.eager (elfObject container symbolPrefix) := by
  cases hopen : fopen outputPath with
  | none =>
    have hresult : elfrcWriteElfObject fopen container symbolPrefix outputPath =
        ⟨-1, cannotOpenForWriting outputPath, none⟩ := by
      rw [elfrcWriteElfObject, hopen]
    rw [hresult]
    refine iff_of_true (.inr ⟨rfl, cannotOpenForWriting_ne_nil outputPath⟩) fun device h => ?_
    exact absurd h (Option.some_ne_none device).symm
  | some device =>
    rw [elfrcWriteElfObject_opened container symbolPrefix hopen]
    constructor
    · rintro hresult device' ⟨⟩
      by_cases heager : device.eager (elfObject container symbolPrefix) ≤ device.capacity
      · rw [if_pos heager, completeOrReported_zero, Option.some_inj, List.take_eq_self_iff]
          at hresult
        exact .inl hresult
      · exact .inr (Nat.not_le.mp heager)
    · intro hnoticed
      by_cases heager : device.eager (elfObject container symbolPrefix) ≤ device.capacity
      · rw [if_pos heager, completeOrReported_zero, Option.some_inj, List.take_eq_self_iff]
        exact (hnoticed device rfl).resolve_right (Nat.not_lt.mpr heager)
      · rw [if_neg heager]
        exact .inr ⟨rfl, shortWrite_ne_nil outputPath⟩

/-- `/dev/full`, which refuses everything, behind a buffer of 4096 bytes. -/
def devFull : Device UInt8 := Device.blocks 0 4096

/-- The object of a built container goes there, and nothing arrives. -/
theorem full_device_unnoticed :
    ∃ b, Builds pairFiles pairManifest b ∧
      (elfrcWriteElfObject (fun _ => some devFull) b none (.literal "/dev/full")).code = 0 ∧
      (elfrcWriteElfObject (fun _ => some devFull) b none (.literal "/dev/full")).file = some [] ∧
      ¬ CompleteOrReported (elfObject b none)
        (elfrcWriteElfObject (fun _ => some devFull) b none (.literal "/dev/full")) := by
  obtain ⟨b, -, hbuild, hlen, -⟩ := builds_of_loads pair_loads pair_size
  have hsize : containerSize pairItems < 3000 := by decide +kernel
  have hblock : (elfObject b none).length / 4096 = 0 := by
    have hle := length_elfObject_le b none
    omega
  have heager : devFull.eager (elfObject b none) ≤ devFull.capacity := by
    rw [devFull, Device.eager_blocks 0 (by decide), hblock]
    exact Nat.le_refl 0
  have hresult : elfrcWriteElfObject (fun _ => some devFull) b none (.literal "/dev/full") =
      ⟨0, [], some []⟩ := (elfrcWriteElfObject_opened b none rfl).trans (if_pos heager)
  refine ⟨b, hbuild, by rw [hresult], by rw [hresult], ?_⟩
  rw [hresult, completeOrReported_zero, Option.some_inj]
  exact (elfObject_ne_nil b none).symm

end Elfr.Compiler
