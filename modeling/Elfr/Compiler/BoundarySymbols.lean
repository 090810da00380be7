import Elfr.Compiler.ElfObject

/-!
# The names of the boundary symbols

`elfr.h` declares the symbols of a prefix by pasting the prefix into their
names, and the documentation of the writer promises these names. The writer
formats them into buffers of 256 bytes, so they are the declared ones as long
as they fit, and objects with different prefixes get different names.
-/
namespace Elfr.Compiler

open Library Elf64

/-- The prefix, where a missing one counts as the empty string. -/
def prefixText (symbolPrefix : Option CString) : CString := symbolPrefix.getD .empty

/-- The names `ELFR_DECLARE` declares for a prefix, the default ones for none. -/
def declaredNames (symbolPrefix : Option CString) : CString × CString :=
  let text := prefixText symbolPrefix
  if text.bytes = [] then (.literal "_elfr_resource_start", .literal "_elfr_resource_end")
  else (.literal "_elfr_" ++ text ++ .literal "_resource_start",
    .literal "_elfr_" ++ text ++ .literal "_resource_end")

/-- The names of the global symbols an object defines, as a linker reads them. -/
def emittedNames (object : Bytes) : List (Option CString) :=
  ((sectionSymbols object 2).filter fun symbol => symbol.2.bind = stbGlobal).map Prod.fst

/-- No global symbol is defined a second time. -/
def Linkable (objects : List Bytes) : Prop := (objects.flatMap emittedNames).Nodup

theorem bytes_append (s t : CString) : (s ++ t).bytes = s.bytes ++ t.bytes := rfl

theorem boundaryNames_eq (symbolPrefix : Option CString) : boundaryNames symbolPrefix =
    (boundaryName (declaredNames symbolPrefix).1.bytes,
      boundaryName (declaredNames symbolPrefix).2.bytes) := by
  cases symbolPrefix with
  | none => rfl
  | some p =>
    by_cases hempty : p.bytes = []
    · simp only [boundaryNames, declaredNames, prefixText, Option.getD_some, hempty, ne_eq,
        not_true_eq_false, decide_false, Option.filter_some, Bool.false_eq_true, if_false, if_true]
      rfl
    · simp only [boundaryNames, declaredNames, prefixText, Option.getD_some, hempty, ne_eq,
        not_false_eq_true, decide_true, Option.filter_some, if_true, if_false]
      rfl

/-- Formatting keeps a name that fits the buffer with its terminator, and no other. -/
theorem boundaryName_eq_iff (name : CString) :
    boundaryName name.bytes = name ↔ name.strlen ≤ 255 := by
  constructor
  · intro h
    rw [← h]
    exact strlen_boundaryName_le _
  · intro h
    have hall : name.bytes.take 255 = name.bytes := List.take_of_length_le h
    have hnul : ∀ b ∈ name.bytes, decide (b ≠ 0) = true := fun b hb => by
      simpa using ne_of_mem_of_not_mem hb name.noNul
    refine CString.ext ?_
    change (name.bytes.take 255).takeWhile (· ≠ 0) = name.bytes
    rw [hall]
    exact List.takeWhile_eq_self_iff.mpr hnul

theorem strlen_literals : (CString.literal "_elfr_").bytes.length = 6 ∧
    (CString.literal "_resource_start").bytes.length = 15 ∧
    (CString.literal "_resource_end").bytes.length = 13 := by
  decide

theorem strlen_declaredNames (symbolPrefix : Option CString) :
    (declaredNames symbolPrefix).1.strlen ≤ 255 ∧ (declaredNames symbolPrefix).2.strlen ≤ 255 ↔
      (prefixText symbolPrefix).strlen ≤ 234 := by
  obtain ⟨hfront, hstart, hend⟩ := strlen_literals
  unfold declaredNames
  by_cases hempty : (prefixText symbolPrefix).bytes = []
  · simp only [hempty, if_true, CString.strlen, List.length_nil, Nat.zero_le, iff_true]
    decide
  · simp only [hempty, if_false, CString.strlen, bytes_append, List.length_append, hstart, hend,
      hfront]
    omega

/-- The writer emits the declared names exactly for the prefixes that fit. -/
theorem boundaryNames_eq_declared_iff (symbolPrefix : Option CString) :
    boundaryNames symbolPrefix = declaredNames symbolPrefix ↔
      (prefixText symbolPrefix).strlen ≤ 234 := by
  rw [boundaryNames_eq, ← strlen_declaredNames, Prod.ext_iff]
  exact and_congr (boundaryName_eq_iff _) (boundaryName_eq_iff _)

theorem emittedNames_elfObject {c : Bytes} {symbolPrefix : Option CString}
    (hsize : (elfObject c symbolPrefix).length < 2 ^ 64) :
    emittedNames (elfObject c symbolPrefix) =
      [some (boundaryNames symbolPrefix).1, some (boundaryNames symbolPrefix).2] := by
  have hnull : nullSymbol.bind ≠ stbGlobal := by decide
  have hinfo : Sym.stInfoOf stbGlobal sttObject >>> 4 = stbGlobal := by decide
  have hglobal : ∀ off value, (boundarySymbol off value).bind = stbGlobal := fun _ _ => hinfo
  simp [emittedNames, symbols_elfObject hsize, hnull, hglobal]

/-- The last byte tells a start symbol from an end symbol. -/
theorem getLast?_declaredNames (symbolPrefix : Option CString) :
    (declaredNames symbolPrefix).1.bytes.getLast? = some 116 ∧
      (declaredNames symbolPrefix).2.bytes.getLast? = some 100 := by
  unfold declaredNames
  by_cases hempty : (prefixText symbolPrefix).bytes = []
  · simp only [hempty, if_true]
    decide
  · have hstart : (CString.literal "_resource_start").bytes.getLast? = some 116 := by decide
    have hend : (CString.literal "_resource_end").bytes.getLast? = some 100 := by decide
    simp [hempty, bytes_append, List.getLast?_append, hstart, hend]

theorem declaredNames_start_ne_end (P Q : Option CString) :
    (declaredNames P).1 ≠ (declaredNames Q).2 := by
  intro h
  have hlast := (getLast?_declaredNames P).1
  rw [h, (getLast?_declaredNames Q).2] at hlast
  simp at hlast

theorem default_ne_prefixed (text : CString) :
    CString.literal "_elfr_resource_start" ≠
        .literal "_elfr_" ++ text ++ .literal "_resource_start" ∧
      CString.literal "_elfr_resource_end" ≠
        .literal "_elfr_" ++ text ++ .literal "_resource_end" := by
  obtain ⟨hfront, hstart, hend⟩ := strlen_literals
  have hdefault : (CString.literal "_elfr_resource_start").bytes.length = 20 ∧
      (CString.literal "_elfr_resource_end").bytes.length = 18 := by decide
  constructor
  all_goals
    intro h
    have hlen := congrArg (fun s : CString => s.bytes.length) h
    simp only [bytes_append, List.length_append] at hlen
    omega

theorem declaredNames_inj {P Q : Option CString}
    (h : (declaredNames P).1 = (declaredNames Q).1 ∨ (declaredNames P).2 = (declaredNames Q).2) :
    prefixText P = prefixText Q := by
  unfold declaredNames at h
  by_cases hP : (prefixText P).bytes = [] <;> by_cases hQ : (prefixText Q).bytes = []
  · exact CString.ext (hP.trans hQ.symm)
  · obtain ⟨hstart, hend⟩ := default_ne_prefixed (prefixText Q)
    simp only [hP, hQ, if_true, if_false] at h
    exact absurd h (not_or.mpr ⟨hstart, hend⟩)
  · obtain ⟨hstart, hend⟩ := default_ne_prefixed (prefixText P)
    simp only [hP, hQ, if_true, if_false] at h
    exact absurd h (not_or.mpr ⟨hstart.symm, hend.symm⟩)
  · simp only [hP, hQ, if_false] at h
    rcases h with h | h
    all_goals
      have hbytes := congrArg CString.bytes h
      simp only [bytes_append, List.append_assoc, List.append_cancel_left_eq,
        List.append_cancel_right_eq] at hbytes
      exact CString.ext hbytes

theorem declaredNames_nodup {P Q : Option CString} (hne : prefixText P ≠ prefixText Q) :
    [some (declaredNames P).1, some (declaredNames P).2, some (declaredNames Q).1,
      some (declaredNames Q).2].Nodup := by
  have hstart : (declaredNames P).1 ≠ (declaredNames Q).1 := fun h =>
    hne (declaredNames_inj (Or.inl h))
  have hend : (declaredNames P).2 ≠ (declaredNames Q).2 := fun h =>
    hne (declaredNames_inj (Or.inr h))
  simp [declaredNames_start_ne_end, Ne.symm (declaredNames_start_ne_end Q P), hstart, hend]

/-- The object emits the declared names exactly if the prefix fits. -/
theorem emittedNames_eq_declared_iff {c : Bytes} {symbolPrefix : Option CString}
    (hsize : (elfObject c symbolPrefix).length < 2 ^ 64) :
    emittedNames (elfObject c symbolPrefix) =
        [some (declaredNames symbolPrefix).1, some (declaredNames symbolPrefix).2] ↔
      (prefixText symbolPrefix).strlen ≤ 234 := by
  rw [emittedNames_elfObject hsize, ← boundaryNames_eq_declared_iff, Prod.ext_iff]
  simp

/-- Two objects with different prefixes carry the declared names and can be linked
together exactly if both prefixes fit. -/
theorem boundary_symbols_iff {P Q : Option CString} (hne : prefixText P ≠ prefixText Q)
    {c d : Bytes} (hc : (elfObject c P).length < 2 ^ 64) (hd : (elfObject d Q).length < 2 ^ 64) :
    (emittedNames (elfObject c P) = [some (declaredNames P).1, some (declaredNames P).2] ∧
        emittedNames (elfObject d Q) = [some (declaredNames Q).1, some (declaredNames Q).2] ∧
        Linkable [elfObject c P, elfObject d Q]) ↔
      (prefixText P).strlen ≤ 234 ∧ (prefixText Q).strlen ≤ 234 := by
  rw [← emittedNames_eq_declared_iff hc, ← emittedNames_eq_declared_iff hd]
  constructor
  · exact fun h => ⟨h.1, h.2.1⟩
  · rintro ⟨hP, hQ⟩
    refine ⟨hP, hQ, ?_⟩
    unfold Linkable
    simpa [hP, hQ] using declaredNames_nodup hne

def lettersPrefix (n : ℕ) : Option CString :=
  some ⟨List.replicate n 97, fun h => absurd (List.eq_of_mem_replicate h) (by decide)⟩

theorem strlen_lettersPrefix (n : ℕ) : (prefixText (lettersPrefix n)).strlen = n :=
  List.length_replicate

theorem length_empty_elfObject_lt (symbolPrefix : Option CString) :
    (elfObject [] symbolPrefix).length < 2 ^ 64 := by
  have hle := length_elfObject_le [] symbolPrefix
  rw [List.length_nil] at hle
  omega

theorem boundary_symbols_iff_default :
    (emittedNames (elfObject [] none) =
          [some (declaredNames none).1, some (declaredNames none).2] ∧
        emittedNames (elfObject [] (lettersPrefix 235)) =
          [some (declaredNames (lettersPrefix 235)).1,
            some (declaredNames (lettersPrefix 235)).2] ∧
        Linkable [elfObject [] none, elfObject [] (lettersPrefix 235)]) ↔
      (prefixText none).strlen ≤ 234 ∧ (prefixText (lettersPrefix 235)).strlen ≤ 234 :=
  boundary_symbols_iff (by decide) (length_empty_elfObject_lt none)
    (length_empty_elfObject_lt (lettersPrefix 235))

/-- All that the name buffers hold of a long prefix. -/
def cutName : CString := CString.ofBytes (ascii "_elfr_" ++ List.replicate 249 97)

theorem boundaryName_letters {n : ℕ} (hn : 249 ≤ n) (suffix : Bytes) :
    boundaryName (ascii "_elfr_" ++ List.replicate n 97 ++ suffix) = cutName := by
  have hfront : (ascii "_elfr_").length = 6 := by decide
  have htake : snprintf 256 (ascii "_elfr_" ++ List.replicate n 97 ++ suffix) =
      ascii "_elfr_" ++ List.replicate 249 97 := by
    unfold snprintf
    rw [List.append_assoc, List.take_append, List.take_of_length_le (by omega), hfront,
      List.take_append_of_le_length (by rw [List.length_replicate]; omega), List.take_replicate,
      Nat.min_eq_left (by omega)]
  rw [boundaryName, htake, cutName]

theorem emittedNames_letters {n : ℕ} (hn : 249 ≤ n) :
    emittedNames (elfObject [] (lettersPrefix n)) = [some cutName, some cutName] := by
  have hne : List.replicate n (97 : UInt8) ≠ [] := by
    rw [Ne, List.replicate_eq_nil_iff]
    omega
  rw [emittedNames_elfObject (length_empty_elfObject_lt _)]
  have hstart := boundaryName_letters hn (ascii "_resource_start")
  have hend := boundaryName_letters hn (ascii "_resource_end")
  rw [List.append_assoc] at hstart hend
  simp [boundaryNames, lettersPrefix, hne, Option.filter, hstart, hend]

/-- Two different prefixes whose objects carry the same names. -/
theorem long_prefixes_collide :
    prefixText (lettersPrefix 300) ≠ prefixText (lettersPrefix 301) ∧
      emittedNames (elfObject [] (lettersPrefix 300)) =
        emittedNames (elfObject [] (lettersPrefix 301)) ∧
      ¬ Linkable [elfObject [] (lettersPrefix 300), elfObject [] (lettersPrefix 301)] ∧
      emittedNames (elfObject [] (lettersPrefix 300)) ≠
        [some (declaredNames (lettersPrefix 300)).1,
          some (declaredNames (lettersPrefix 300)).2] := by
  have hleft := emittedNames_letters (n := 300) (by decide)
  have hright := emittedNames_letters (n := 301) (by decide)
  refine ⟨?_, hleft.trans hright.symm, ?_, ?_⟩
  · intro h
    have hlen := congrArg CString.strlen h
    rw [strlen_lettersPrefix, strlen_lettersPrefix] at hlen
    omega
  · unfold Linkable
    simp [hleft, hright]
  · rw [Ne, emittedNames_eq_declared_iff (length_empty_elfObject_lt _), strlen_lettersPrefix]
    decide

end Elfr.Compiler
