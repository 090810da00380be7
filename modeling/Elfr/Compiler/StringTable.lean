import Elfr.Compiler.ContainerImage
import Elfr.Library.Interning

/-!
# The string table

Whatever its size, the loop over the names appends exactly the distinct names
in the order of their first appearance, and records for each name the place of
its bytes, cut to 32 bits.
-/
namespace Elfr.Compiler

open Library Interning

/-- The bytes of the string table: every name once, terminated. -/
def stringTable (names : List CString) : Bytes := (distinct names).flatMap CString.terminated

/-- Where a name starts in the string table. -/
def namePosition (names : List CString) (name : CString) : ℕ :=
  position CString.terminated (distinct names) name

theorem stringAt_namePosition {names : List CString} {name : CString} (h : name ∈ names) :
    StringAt (stringTable names) (namePosition names name) name :=
  segment_position _ (mem_distinct.mpr h)

/-- The entries of the table are the names interned so far, each with the place it was
written to. -/
structure InternedAt (start : ℕ) (known : List CString) (st : List StringEntry) (buf : Bytes) :
    Prop where
  names : st.map StringEntry.name = known
  length : buf.length = start + (known.flatMap CString.terminated).length
  offsets : ∀ entry ∈ st, entry.offset =
    UInt32.ofNat (start + position CString.terminated known entry.name)

section Intern

variable {start : ℕ} {known : List CString} {st : List StringEntry} {buf : Bytes}
  {tableBase : UInt32}

theorem stringTableIntern_of_mem (h : InternedAt start known st buf) {name : CString}
    (hname : name ∈ known) : stringTableIntern st buf tableBase name =
      (UInt32.ofNat (start + position CString.terminated known name), st, buf) := by
  have hsome : (st.find? fun entry => entry.name = name).isSome = true := by
    rw [List.find?_isSome]
    rw [← h.names, List.mem_map] at hname
    obtain ⟨entry, hentry, rfl⟩ := hname
    exact ⟨entry, hentry, by simp⟩
  obtain ⟨entry, hfind⟩ := Option.isSome_iff_exists.mp hsome
  have heq : entry.name = name := by simpa using List.find?_some hfind
  unfold stringTableIntern
  rw [hfind, ← heq, ← h.offsets entry (List.mem_of_find?_eq_some hfind)]

theorem stringTableIntern_of_not_mem (h : InternedAt start known st buf) {name : CString}
    (hname : name ∉ known) :
    let offset := UInt32.ofNat (start + position CString.terminated (known ++ [name]) name)
    stringTableIntern st buf tableBase name =
        (offset, st ++ [⟨name, offset⟩], buf ++ name.terminated) ∧
      InternedAt start (known ++ [name]) (st ++ [⟨name, offset⟩]) (buf ++ name.terminated) := by
  have hpos : start + position CString.terminated (known ++ [name]) name = buf.length := by
    rw [position_append_self _ hname, h.length]
  have hfind : (st.find? fun entry => entry.name = name) = none := by
    rw [List.find?_eq_none]
    intro entry hentry heq
    rw [← h.names] at hname
    exact hname (List.mem_map.mpr ⟨entry, hentry, by simpa using heq⟩)
  intro offset
  refine ⟨?_, ?_, ?_, ?_⟩
  · unfold stringTableIntern
    rw [hfind]
    simp only [internOffset_eq, offset, hpos]
  · rw [List.map_append, h.names]
    rfl
  · rw [List.length_append, h.length, List.flatMap_append, List.length_append, Nat.add_assoc]
    simp
  · intro entry hentry
    rcases List.mem_append.mp hentry with hold | hnew
    · have hmem : entry.name ∈ known := h.names ▸ List.mem_map_of_mem hold
      rw [position_append_of_mem _ hmem]
      exact h.offsets entry hold
    · rw [List.mem_singleton.mp hnew]

/-- The loop over the names, from any table on. -/
theorem internNames_eq {names : List CString} (h : InternedAt start known st buf) :
    internNames tableBase names st buf =
      (names.map fun name => UInt32.ofNat
          (start + position CString.terminated (known ++ added known names) name),
        buf ++ (added known names).flatMap CString.terminated) := by
  induction names generalizing known st buf with
  | nil => simp [internNames, added]
  | cons name names ih =>
    unfold internNames
    by_cases hname : name ∈ known
    · simp only [stringTableIntern_of_mem h hname, ih h, added, if_pos hname, List.map_cons,
        position_append_of_mem _ hname]
    · obtain ⟨heq, hnext⟩ := @stringTableIntern_of_not_mem _ _ _ _ tableBase h name hname
      have hmem : name ∈ known ++ [name] := by simp
      have hpos := position_append_of_mem CString.terminated hmem (added (known ++ [name]) names)
      simp only [List.append_assoc, List.singleton_append] at hpos
      simp only [heq, ih hnext, added, if_neg hname, List.map_cons, List.flatMap_cons,
        List.append_assoc, List.singleton_append, hpos]

end Intern

/-- The string section of the builder: the distinct names behind the directory. -/
theorem stringSection_eq (items : List Item) :
    stringSection items =
      ((items.map Item.name).map fun name => UInt32.ofNat
          ((stringStart items).length + namePosition (items.map Item.name) name),
        stringStart items ++ stringTable (items.map Item.name)) := by
  have hempty : InternedAt (stringStart items).length [] [] (stringStart items) :=
    ⟨rfl, by simp, fun entry h => absurd h List.not_mem_nil⟩
  exact internNames_eq hempty

end Elfr.Compiler
