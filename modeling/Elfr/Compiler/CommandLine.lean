import Elfr.Library.CommandLine
import Elfr.Compiler.ElfWriter
import Elfr.Compiler.ManifestParser

/-!
# The compiler as a program

`elfrc/main.c`: the options, the name of the output, and the way from the manifest to the
object file. What a run leaves behind is its exit status, what it printed, and the file it
opened for writing, if it came that far.
-/
namespace Elfr.Compiler

open Library OutputStream

structure Arguments where
  manifestPath : Option CString
  outputPath : Option CString
  symbolPrefix : Option CString
  deriving DecidableEq

inductive OptionKey
  | output
  | symbolPrefix
  deriving DecidableEq, Repr

/-- The exit status and the text on the error stream. -/
structure Ending where
  status : ℤ
  stderr : Bytes
  deriving DecidableEq

section Options

variable (prog : CString)

def usage : Bytes :=
  ascii "usage: " ++ prog.bytes ++
    ascii (" <manifest.elfrc> [-o output.o] [--symbol-prefix NAME]\n" ++
      "\n" ++
      "Compiles an ERF resource manifest into a relocatable ELF object\n" ++
      "containing a .resource section, per the ELFR Resource Format spec.\n")

theorem usage_ne_nil : usage prog ≠ [] := by
  have hname : ascii "usage: " ≠ [] := by decide
  unfold usage
  exact List.append_ne_nil_of_left_ne_nil (List.append_ne_nil_of_left_ne_nil hname _) _

/-- A complaint about an argument, and how to do better. -/
def rejected (complaint : String) (arg : CString) : Ending :=
  ⟨1, prog.bytes ++ ascii ": " ++ ascii complaint ++ ascii " '" ++ arg.bytes ++ ascii "'\n" ++
    usage prog⟩

def optionKey (arg : CString) : Option OptionKey :=
  if arg = .literal "-o" then some .output
  else if arg = .literal "--symbol-prefix" then some .symbolPrefix
  else none

def Arguments.set (key : OptionKey) (value : CString) (a : Arguments) : Arguments :=
  match key with
  | .output => { a with outputPath := some value }
  | .symbolPrefix => { a with symbolPrefix := some value }

def asksForHelp (arg : CString) : Bool := arg = .literal "-h" ∨ arg = .literal "--help"

/-- `arg[0] == '-'`. -/
def looksLikeOption (arg : CString) : Bool := arg.bytes.head? = some 45

/-- An argument that is not an option with its value. -/
def readArgument (arg : CString) (a : Arguments) : Except Ending Arguments :=
  if asksForHelp arg then .error ⟨0, usage prog⟩
  else if looksLikeOption arg then .error (rejected prog "unknown option" arg)
  else
    match a.manifestPath with
    | none => .ok { a with manifestPath := some arg }
    | some _ => .error (rejected prog "unexpected argument" arg)

def elfrcOptions : CommandLine CString OptionKey Arguments Ending :=
  ⟨optionKey, Arguments.set, readArgument prog⟩

def noArguments : Arguments := ⟨none, none, none⟩

def parseArguments (args : List CString) : Except Ending Arguments :=
  (elfrcOptions prog).scan args noArguments

end Options

section Grammar

/-- The options of the usage text, and arguments that do not look like one. -/
def WellFormed : Word CString → Prop
  | .option name _ => name = .literal "-o" ∨ name = .literal "--symbol-prefix"
  | .single arg => looksLikeOption arg = false

/-- The value a word gives an option. -/
def valueFor (key : OptionKey) : Word CString → Option CString
  | .option name value => if optionKey name = some key then some value else none
  | .single _ => none

def positional : Word CString → Option CString
  | .option _ _ => none
  | .single arg => some arg

def positionals (words : List (Word CString)) : List CString := words.filterMap positional

def lastValue (key : OptionKey) (words : List (Word CString)) : Option CString :=
  (words.filterMap (valueFor key)).getLast?

/-- What the words say on top of `a`. -/
def Arguments.after (a : Arguments) (words : List (Word CString)) : Arguments where
  manifestPath := a.manifestPath.or (positionals words).head?
  outputPath := (lastValue .output words).or a.outputPath
  symbolPrefix := (lastValue .symbolPrefix words).or a.symbolPrefix

theorem optionKey_ne_none_iff {arg : CString} :
    optionKey arg ≠ none ↔ arg = .literal "-o" ∨ arg = .literal "--symbol-prefix" := by
  unfold optionKey
  split_ifs <;> simp [*]

theorem looksLikeOption_of_key {arg : CString} (h : optionKey arg ≠ none) :
    looksLikeOption arg = true := by
  rcases optionKey_ne_none_iff.mp h with rfl | rfl <;> decide

theorem looksLikeOption_of_help {arg : CString} (h : asksForHelp arg = true) :
    looksLikeOption arg = true := by
  rcases of_decide_eq_true h with rfl | rfl <;> decide

theorem lastValue_cons (key : OptionKey) (w : Word CString) (words : List (Word CString)) :
    lastValue key (w :: words) = (lastValue key words).or (valueFor key w) := by
  unfold lastValue
  cases hw : valueFor key w with
  | none => simp [hw]
  | some value =>
    rw [List.filterMap_cons_some hw, List.getLast?_cons]
    cases (words.filterMap (valueFor key)).getLast? <;> rfl

theorem Arguments.after_nil (a : Arguments) : a.after [] = a := by
  obtain ⟨manifestPath, outputPath, symbolPrefix⟩ := a
  simp [after, positionals, lastValue]

theorem Arguments.after_cons (a : Arguments) (w : Word CString) (words : List (Word CString)) :
    a.after (w :: words) = (a.after [w]).after words := by
  have hpositionals : (positionals (w :: words)).head? =
      (positional w).or (positionals words).head? := by
    unfold positionals
    cases hw : positional w with
    | none => rw [List.filterMap_cons_none hw, Option.none_or]
    | some arg => rw [List.filterMap_cons_some hw, List.head?_cons, Option.some_or]
  have hpositional : (positionals [w]).head? = positional w := by
    unfold positionals
    cases hw : positional w with
    | none => rw [List.filterMap_cons_none hw]; rfl
    | some arg => rw [List.filterMap_cons_some hw]; rfl
  have hnil : ∀ key, lastValue key [] = none := fun key => rfl
  simp only [after, hpositionals, hpositional, lastValue_cons, hnil, Option.none_or,
    Option.or_assoc]

theorem Arguments.after_option {name : CString} {key : OptionKey} (h : optionKey name = some key)
    (a : Arguments) (value : CString) : a.after [.option name value] = a.set key value := by
  obtain ⟨manifestPath, outputPath, symbolPrefix⟩ := a
  cases key <;> simp [after, set, positionals, positional, lastValue, valueFor, h]

theorem Arguments.after_single {a : Arguments} (h : a.manifestPath = none) (arg : CString) :
    a.after [.single arg] = { a with manifestPath := some arg } := by
  simp [after, h, positionals, positional, lastValue, valueFor]

theorem readArgument_of_plain (prog : CString) {arg : CString} (h : looksLikeOption arg = false)
    (a : Arguments) : readArgument prog arg a =
      if a.manifestPath = none then .ok { a with manifestPath := some arg }
      else .error (rejected prog "unexpected argument" arg) := by
  have hhelp : ¬ asksForHelp arg = true := fun hhelp =>
    absurd (looksLikeOption_of_help hhelp) (by simp [h])
  unfold readArgument
  rw [if_neg hhelp, h, if_neg Bool.false_ne_true]
  cases a.manifestPath <;> rfl

theorem readArgument_of_option (prog : CString) {arg : CString} (h : looksLikeOption arg = true)
    (a : Arguments) : readArgument prog arg a =
      .error (if asksForHelp arg then ⟨0, usage prog⟩ else rejected prog "unknown option" arg) := by
  unfold readArgument
  rw [h, if_pos rfl]
  split_ifs <;> rfl

variable {prog : CString}

/-- Which complaint, if an argument ends the loop. -/
theorem readArgument_eq_error_iff {arg : CString} {a : Arguments} {ending : Ending} :
    readArgument prog arg a = .error ending ↔
      (looksLikeOption arg = true ∨ a.manifestPath ≠ none) ∧
        ending = if asksForHelp arg then ⟨0, usage prog⟩
          else if looksLikeOption arg then rejected prog "unknown option" arg
          else rejected prog "unexpected argument" arg := by
  cases hoption : looksLikeOption arg with
  | true =>
    rw [readArgument_of_option prog hoption, Except.error.injEq, if_pos rfl]
    exact ⟨fun h => ⟨.inl rfl, h.symm⟩, fun h => h.2.symm⟩
  | false =>
    have hhelp : asksForHelp arg ≠ true := fun hhelp =>
      absurd (looksLikeOption_of_help hhelp) (by simp [hoption])
    rw [readArgument_of_plain prog hoption, if_neg hhelp, if_neg Bool.false_ne_true]
    by_cases hnone : a.manifestPath = none
    · rw [if_pos hnone]
      exact iff_of_false nofun fun h => h.1.elim Bool.false_ne_true fun hsome => hsome hnone
    · rw [if_neg hnone, Except.error.injEq]
      exact ⟨fun h => ⟨.inr hnone, h.symm⟩, fun h => h.2.symm⟩

/-- One word: it is read exactly if it is well formed and no second manifest. -/
theorem read_eq_ok_iff {w : Word CString} {a a' : Arguments} :
    ((elfrcOptions prog).Proper w ∧ (elfrcOptions prog).read a w = .ok a') ↔
      WellFormed w ∧ (positional w = none ∨ a.manifestPath = none) ∧ a' = a.after [w] := by
  cases w with
  | option name value =>
    have hproper : (elfrcOptions prog).Proper (.option name value) ↔
      WellFormed (.option name value) := optionKey_ne_none_iff
    rw [hproper]
    refine and_congr_right fun hname => ?_
    obtain ⟨key, hkey⟩ := Option.ne_none_iff_exists'.mp (optionKey_ne_none_iff.mpr hname)
    have hread : (elfrcOptions prog).read a (.option name value) = .ok (a.set key value) := by
      simp only [CommandLine.read, elfrcOptions, hkey]
      rfl
    rw [hread, Arguments.after_option hkey, Except.ok.injEq]
    exact ⟨fun h => ⟨.inl rfl, h.symm⟩, fun h => h.2.symm⟩
  | single arg =>
    have hread : (elfrcOptions prog).read a (.single arg) = readArgument prog arg a := rfl
    rw [hread]
    cases hoption : looksLikeOption arg with
    | true =>
      rw [readArgument_of_option prog hoption]
      constructor
      · rintro ⟨-, hread⟩
        cases hread
      · rintro ⟨hformed, -, -⟩
        simp [WellFormed, hoption] at hformed
    | false =>
      have hproper : (elfrcOptions prog).Proper (.single arg) := by
        by_contra hkey
        exact absurd (looksLikeOption_of_key hkey) (by simp [hoption])
      rw [readArgument_of_plain prog hoption]
      split_ifs with hnone
      · rw [Arguments.after_single hnone, Except.ok.injEq]
        exact ⟨fun h => ⟨hoption, .inr hnone, h.2.symm⟩, fun h => ⟨hproper, h.2.2.symm⟩⟩
      · constructor
        · rintro ⟨-, hread⟩
          cases hread
        · rintro ⟨-, hone, -⟩
          simp [positional, hnone] at hone

theorem manifest_count (a : Arguments) (w : Word CString) (words : List (Word CString)) :
    (positional w = none ∨ a.manifestPath = none) ∧
        (a.after [w]).manifestPath.toList.length + (positionals words).length ≤ 1 ↔
      a.manifestPath.toList.length + (positionals (w :: words)).length ≤ 1 := by
  obtain ⟨manifestPath, outputPath, symbolPrefix⟩ := a
  cases w with
  | option name value =>
    have hskip : positionals (.option name value :: words) = positionals words := rfl
    rw [hskip]
    simp [positional, positionals, Arguments.after]
  | single arg =>
    cases manifestPath with
    | none => simp [positional, positionals, Arguments.after, Nat.add_comm]
    | some path => simp [positional, positionals]

/-- A line of words: it is read exactly if the words are well formed and name one manifest at
most, and says what its last values say. -/
theorem foldlM_read_iff {words : List (Word CString)} {a a' : Arguments} :
    ((∀ w ∈ words, (elfrcOptions prog).Proper w) ∧
        words.foldlM (elfrcOptions prog).read a = .ok a') ↔
      (∀ w ∈ words, WellFormed w) ∧
        a.manifestPath.toList.length + (positionals words).length ≤ 1 ∧ a' = a.after words := by
  induction words generalizing a with
  | nil =>
    have hlength : a.manifestPath.toList.length ≤ 1 := by cases a.manifestPath <;> simp
    have hpure : (pure a : Except Ending Arguments) = .ok a' ↔ a' = a :=
      Except.ok.injEq a a' ▸ eq_comm
    simpa [positionals, Arguments.after_nil, hlength] using hpure
  | cons w words ih =>
    have hfold : (w :: words).foldlM (elfrcOptions prog).read a = .ok a' ↔
        ∃ a₁, (elfrcOptions prog).read a w = .ok a₁ ∧
          words.foldlM (elfrcOptions prog).read a₁ = .ok a' := by
      rw [List.foldlM_cons]
      cases (elfrcOptions prog).read a w with
      | error e => exact iff_of_false nofun (by simp)
      | ok a₁ => simp [bind, Except.bind]
    have hafter := a.after_cons w words
    rw [List.forall_mem_cons, List.forall_mem_cons, hfold, ← manifest_count, hafter]
    constructor
    · rintro ⟨⟨hproper, hwords⟩, a₁, hread, hrest⟩
      obtain ⟨hw, hone, rfl⟩ := read_eq_ok_iff.mp ⟨hproper, hread⟩
      obtain ⟨hformed, hcount, ha'⟩ := ih.mp ⟨hwords, hrest⟩
      exact ⟨⟨hw, hformed⟩, ⟨hone, hcount⟩, ha'⟩
    · rintro ⟨⟨hw, hformed⟩, ⟨hone, hcount⟩, ha'⟩
      have hword : (elfrcOptions prog).Proper w ∧ (elfrcOptions prog).read a w =
          .ok (a.after [w]) := read_eq_ok_iff.mpr ⟨hw, hone, rfl⟩
      obtain ⟨hproper, hread⟩ := hword
      obtain ⟨hwords, hrest⟩ := ih.mpr ⟨hformed, hcount, ha'⟩
      exact ⟨⟨hproper, hwords⟩, _, hread, hrest⟩

theorem parseArguments_ending {args : List CString} {ending : Ending}
    (h : parseArguments prog args = .error ending) :
    ending = ⟨0, usage prog⟩ ∨ ending.status = 1 ∧ ending.stderr ≠ [] := by
  obtain ⟨words, arg, rest, a, -, -, -, -, harg⟩ := CommandLine.scan_eq_error_iff.mp h
  obtain ⟨-, rfl⟩ := readArgument_eq_error_iff.mp harg
  have hrejected : ∀ complaint, (rejected prog complaint arg).stderr ≠ [] := by
    intro complaint
    exact List.append_ne_nil_of_right_ne_nil _ (usage_ne_nil prog)
  split_ifs
  · exact .inl rfl
  · exact .inr ⟨rfl, hrejected _⟩
  · exact .inr ⟨rfl, hrejected _⟩

/-- **The command line.** The arguments are accepted exactly if they consist of `-o` and
`--symbol-prefix` with their values and of at most one argument that does not start with a
dash, and of an option that is repeated the last value counts. Otherwise the first argument
that does not continue such a line decides: a call for help ends the run with success,
anything else with status 1, and the usage text is printed. -/
theorem command_line_iff (prog : CString) (args : List CString) :
    (∀ a, parseArguments prog args = .ok a ↔ ∃ words : List (Word CString),
      args = words.flatMap Word.spelling ∧ (∀ w ∈ words, WellFormed w) ∧
        (positionals words).length ≤ 1 ∧
        a = ⟨(positionals words).head?, lastValue .output words, lastValue .symbolPrefix words⟩) ∧
    ∀ ending, parseArguments prog args = .error ending ↔
      ∃ (words : List (Word CString)) (arg : CString) (rest : List CString),
        args = words.flatMap Word.spelling ++ arg :: rest ∧ (∀ w ∈ words, WellFormed w) ∧
        (positionals words).length ≤ 1 ∧ (optionKey arg = none ∨ rest = []) ∧
        (looksLikeOption arg = true ∨ positionals words ≠ []) ∧
        ending = if asksForHelp arg then ⟨0, usage prog⟩
          else if looksLikeOption arg then rejected prog "unknown option" arg
          else rejected prog "unexpected argument" arg := by
  have hafter : ∀ words : List (Word CString), noArguments.after words =
      ⟨(positionals words).head?, lastValue .output words, lastValue .symbolPrefix words⟩ := by
    intro words
    simp [Arguments.after, noArguments]
  have hnamed : ∀ words : List (Word CString),
      (noArguments.after words).manifestPath ≠ none ↔ positionals words ≠ [] := by
    intro words
    rw [hafter, ne_eq, List.head?_eq_none_iff]
  have hread : ∀ (words : List (Word CString)) (a : Arguments),
      ((∀ w ∈ words, (elfrcOptions prog).Proper w) ∧
        words.foldlM (elfrcOptions prog).read noArguments = .ok a) ↔
      (∀ w ∈ words, WellFormed w) ∧ (positionals words).length ≤ 1 ∧
        a = noArguments.after words := by
    intro words a
    rw [foldlM_read_iff]
    simp [noArguments]
  constructor
  · intro a
    have hvalue : ∀ arg (a a' : Arguments), optionKey arg ≠ none →
        readArgument prog arg a ≠ .ok a' := by
      intro arg a a' hkey
      rw [readArgument_of_option prog (looksLikeOption_of_key hkey)]
      exact nofun
    rw [parseArguments, CommandLine.scan_eq_ok_iff hvalue]
    refine exists_congr fun words => and_congr_right fun _ => ?_
    rw [hread, hafter]
  · intro ending
    rw [parseArguments, CommandLine.scan_eq_error_iff]
    constructor
    · rintro ⟨words, arg, rest, a, hargs, hproper, hfold, halone, harg⟩
      obtain ⟨hformed, hcount, rfl⟩ := (hread words a).mp ⟨hproper, hfold⟩
      obtain ⟨hends, hending⟩ := readArgument_eq_error_iff.mp harg
      exact ⟨words, arg, rest, hargs, hformed, hcount, halone,
        hends.imp_right (hnamed words).mp, hending⟩
    · rintro ⟨words, arg, rest, hargs, hformed, hcount, halone, hends, rfl⟩
      obtain ⟨hproper, hfold⟩ := (hread words _).mpr ⟨hformed, hcount, rfl⟩
      exact ⟨words, arg, rest, _, hargs, hproper, hfold, halone,
        readArgument_eq_error_iff.mpr ⟨hends.imp_right (hnamed words).mpr, rfl⟩⟩

end Grammar

def slash : UInt8 := 47
def dot : UInt8 := 46

def deriveOutputName (manifestPath : CString) : CString :=
  let base : CString :=
    match strrchr manifestPath slash with
    | some tail => .ofBytes (tail.bytes.drop 1)
    | none => manifestPath
  let stemLen :=
    match strrchr base dot with
    | some tail => base.strlen - tail.strlen
    | none => base.strlen
  .ofBytes (base.bytes.take stemLen ++ ascii ".o")

/-- The files it reads, what libyaml makes of a manifest, and what can be written to. -/
structure Host where
  files : FileSystem
  yaml : CString → ManifestInput
  create : CString → Option (Device UInt8)

/-- The exit status, what was printed, and what the path opened for writing holds then. -/
structure Outcome where
  status : ℤ
  stderr : Bytes
  written : Option (CString × Bytes)
  deriving DecidableEq

/-- The line that reports success. -/
def wroteObject (outputPath : CString) (size resourceCount : ℕ) : Bytes :=
  ascii "elfrc: wrote " ++ outputPath.bytes ++ ascii " (" ++ printNumber size ++
    ascii " bytes, " ++ printNumber resourceCount ++ ascii " resource" ++
    ascii (if resourceCount = 1 then "" else "s") ++ ascii ")\n"

def newline : Bytes := ascii "\n"

/-- Write the object of a container and report. -/
def writeObject (host : Host) (container : Bytes) (symbolPrefix : Option CString)
    (outputPath : CString) (resourceCount : ℕ) : Outcome :=
  let result := elfrcWriteElfObject host.create container symbolPrefix outputPath
  let rc := result.code
  let stderr :=
    if rc ≠ 0 then result.errbuf ++ newline
    else wroteObject outputPath container.length resourceCount
  ⟨if rc = 0 then 0 else 1, stderr, result.file.map fun contents => (outputPath, contents)⟩

/-- `main`, with its arguments from the second on. -/
def elfrcMain (host : Host) (prog : CString) (args : List CString) (fuel : ℕ) : Exec Outcome :=
  match parseArguments prog args with
  | .error ending => pure ⟨ending.status, ending.stderr, none⟩
  | .ok a =>
    match a.manifestPath with
    | none => pure ⟨1, usage prog, none⟩
    | some manifestPath => do
      let parsed ← elfrcManifestParse host.files manifestPath (host.yaml manifestPath) fuel
      if parsed.code ≠ 0 then pure ⟨1, parsed.errbuf ++ newline, none⟩
      else do
        let m := parsed.manifest
        let symbolPrefix := a.symbolPrefix.or m.module
        match ← elfrcContainerBuild host.files m fuel with
        | .error errbuf => pure ⟨1, errbuf ++ newline, none⟩
        | .ok container =>
          let outputPath := a.outputPath.getD (deriveOutputName manifestPath)
          pure (writeObject host container symbolPrefix outputPath m.resources.length)

end Elfr.Compiler
