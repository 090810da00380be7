import Mathlib.Tactic

/-!
# Command lines

The loop of a tool over its arguments. An option that takes a value takes the argument
behind it, whatever that looks like; every other argument is judged alone, also an option
whose value is missing. Cutting the arguments into words turns the loop into a fold, and
tells apart the two ways it can end.
-/
namespace Elfr.Library

/-- How a tool reads its arguments: the options with a value, what they set, and what every
other argument does. -/
structure CommandLine (α κ σ ε : Type*) where
  valued : α → Option κ
  set : κ → α → σ → σ
  single : α → σ → Except ε σ

/-- A word of a command line: an option with its value, or an argument of its own. -/
inductive Word (α : Type*)
  | option (name value : α)
  | single (arg : α)

def Word.spelling : Word α → List α
  | .option name value => [name, value]
  | .single arg => [arg]

namespace CommandLine

variable (cl : CommandLine α κ σ ε)

def scan : List α → σ → Except ε σ
  | [], s => pure s
  | [arg], s => cl.single arg s
  | arg :: value :: rest, s =>
    match cl.valued arg with
    | some key => scan rest (cl.set key value s)
    | none => do
      let s ← cl.single arg s
      scan (value :: rest) s

def read (s : σ) : Word α → Except ε σ
  | .option name value =>
    match cl.valued name with
    | some key => pure (cl.set key value s)
    | none => cl.single name s
  | .single arg => cl.single arg s

/-- The cut agrees with the options that take a value. -/
def Proper : Word α → Prop
  | .option name _ => cl.valued name ≠ none
  | .single arg => cl.valued arg = none

/-- An argument that no value follows, or that takes none. -/
def Alone (arg : α) (rest : List α) : Prop := cl.valued arg = none ∨ rest = []

section Scan

variable {cl}

theorem scan_single {arg : α} {rest : List α} (h : cl.Alone arg rest) (s : σ) :
    cl.scan (arg :: rest) s = cl.single arg s >>= cl.scan rest := by
  cases rest with
  | nil =>
    unfold scan
    cases cl.single arg s <;> rfl
  | cons value rest =>
    have hnone : cl.valued arg = none := h.resolve_right (List.cons_ne_nil _ _)
    unfold scan
    rw [hnone]

theorem scan_option {name : α} {key : κ} (h : cl.valued name = some key) (value : α)
    (rest : List α) (s : σ) :
    cl.scan (name :: value :: rest) s = cl.scan rest (cl.set key value s) := by
  rw [scan, h]

theorem scan_word {w : Word α} (h : cl.Proper w) (rest : List α) (s : σ) :
    cl.scan (w.spelling ++ rest) s = cl.read s w >>= cl.scan rest := by
  cases w with
  | option name value =>
    obtain ⟨key, hkey⟩ := Option.ne_none_iff_exists'.mp h
    rw [read, hkey]
    exact scan_option hkey value rest s
  | single arg => exact scan_single (.inl h) s

theorem scan_words {words : List (Word α)} (h : ∀ w ∈ words, cl.Proper w) (rest : List α)
    (s : σ) :
    cl.scan (words.flatMap Word.spelling ++ rest) s =
      words.foldlM cl.read s >>= cl.scan rest := by
  induction words generalizing s with
  | nil => rfl
  | cons w words ih =>
    obtain ⟨hw, hwords⟩ := List.forall_mem_cons.mp h
    rw [List.flatMap_cons, List.append_assoc, scan_word hw, List.foldlM_cons, bind_assoc]
    exact bind_congr fun s => ih hwords s

/-- Any arguments are cut into proper words, but for an option at the end without its value. -/
theorem exists_words (args : List α) : ∃ words : List (Word α), (∀ w ∈ words, cl.Proper w) ∧
    (args = words.flatMap Word.spelling ∨
      ∃ arg, cl.valued arg ≠ none ∧ args = words.flatMap Word.spelling ++ [arg]) := by
  induction args using List.twoStepInduction with
  | nil => exact ⟨[], by simp, .inl rfl⟩
  | singleton arg =>
    by_cases harg : cl.valued arg = none
    · exact ⟨[.single arg], by simpa [Proper] using harg, .inl rfl⟩
    · exact ⟨[], by simp, .inr ⟨arg, harg, rfl⟩⟩
  | cons_cons arg value rest ih ih' =>
    by_cases harg : cl.valued arg = none
    · obtain ⟨words, hproper, hargs⟩ := ih' value
      refine ⟨.single arg :: words, List.forall_mem_cons.mpr ⟨harg, hproper⟩, ?_⟩
      refine hargs.imp (congrArg (arg :: ·)) ?_
      rintro ⟨last, hlast, heq⟩
      exact ⟨last, hlast, congrArg (arg :: ·) heq⟩
    · obtain ⟨words, hproper, hargs⟩ := ih
      refine ⟨.option arg value :: words, List.forall_mem_cons.mpr ⟨harg, hproper⟩, ?_⟩
      refine hargs.imp (congrArg (arg :: value :: ·)) ?_
      rintro ⟨last, hlast, heq⟩
      exact ⟨last, hlast, congrArg (arg :: value :: ·) heq⟩

theorem foldlM_read_error {words : List (Word α)} (h : ∀ w ∈ words, cl.Proper w) {s : σ} {e : ε}
    (herror : words.foldlM cl.read s = .error e) :
    ∃ before arg after s', words = before ++ .single arg :: after ∧
      before.foldlM cl.read s = .ok s' ∧ cl.single arg s' = .error e := by
  induction words generalizing s with
  | nil => cases herror
  | cons w words ih =>
    obtain ⟨hw, hwords⟩ := List.forall_mem_cons.mp h
    rw [List.foldlM_cons] at herror
    cases hread : cl.read s w with
    | ok s₁ =>
      rw [hread] at herror
      obtain ⟨before, arg, after, s', rfl, hbefore, harg⟩ := ih hwords herror
      refine ⟨w :: before, arg, after, s', rfl, ?_, harg⟩
      rw [List.foldlM_cons, hread]
      exact hbefore
    | error e' =>
      rw [hread] at herror
      obtain rfl := Except.error.inj herror
      cases w with
      | option name value =>
        obtain ⟨key, hkey⟩ := Option.ne_none_iff_exists'.mp hw
        rw [read, hkey] at hread
        cases hread
      | single arg => exact ⟨[], arg, words, s, rfl, rfl, hread⟩

/-- The loop goes through exactly on proper words that can be read one after another, if an
option without its value ends it. -/
theorem scan_eq_ok_iff (hvalue : ∀ arg s s', cl.valued arg ≠ none → cl.single arg s ≠ .ok s')
    {args : List α} {s s' : σ} :
    cl.scan args s = .ok s' ↔ ∃ words : List (Word α), args = words.flatMap Word.spelling ∧
      (∀ w ∈ words, cl.Proper w) ∧ words.foldlM cl.read s = .ok s' := by
  have hall : ∀ words : List (Word α), (∀ w ∈ words, cl.Proper w) →
      cl.scan (words.flatMap Word.spelling) s = words.foldlM cl.read s := by
    intro words hproper
    have hscan := scan_words hproper [] s
    rw [List.append_nil] at hscan
    rw [hscan]
    exact bind_pure _
  constructor
  · intro h
    obtain ⟨words, hproper, rfl | ⟨arg, harg, rfl⟩⟩ := @exists_words _ _ _ _ cl args
    · exact ⟨words, rfl, hproper, hall words hproper ▸ h⟩
    · rw [scan_words hproper] at h
      cases hfold : words.foldlM cl.read s with
      | error e =>
        rw [hfold] at h
        cases h
      | ok s₁ =>
        rw [hfold] at h
        exact absurd h (hvalue arg s₁ s' harg)
  · rintro ⟨words, rfl, hproper, hfold⟩
    rw [hall words hproper, hfold]

/-- The loop ends early exactly at the first argument of its own that ends it. -/
theorem scan_eq_error_iff {args : List α} {s : σ} {e : ε} :
    cl.scan args s = .error e ↔ ∃ (words : List (Word α)) (arg : α) (rest : List α) (s' : σ),
      args = words.flatMap Word.spelling ++ arg :: rest ∧ (∀ w ∈ words, cl.Proper w) ∧
      words.foldlM cl.read s = .ok s' ∧ cl.Alone arg rest ∧ cl.single arg s' = .error e := by
  have hfailed : ∀ (words : List (Word α)) (rest : List α), (∀ w ∈ words, cl.Proper w) →
      words.foldlM cl.read s = .error e →
      ∃ (before : List (Word α)) (arg : α) (after : List α) (s' : σ),
        words.flatMap Word.spelling ++ rest = before.flatMap Word.spelling ++ arg :: after ∧
        (∀ w ∈ before, cl.Proper w) ∧ before.foldlM cl.read s = .ok s' ∧ cl.Alone arg after ∧
        cl.single arg s' = .error e := by
    intro words rest hproper herror
    obtain ⟨before, arg, after, s', rfl, hbefore, harg⟩ := foldlM_read_error hproper herror
    rw [List.forall_mem_append, List.forall_mem_cons] at hproper
    refine ⟨before, arg, after.flatMap Word.spelling ++ rest, s', ?_, hproper.1, hbefore,
      .inl hproper.2.1, harg⟩
    simp [Word.spelling]
  constructor
  · intro h
    obtain ⟨words, hproper, hargs⟩ := @exists_words _ _ _ _ cl args
    cases hfold : words.foldlM cl.read s with
    | error e' =>
      have hcut : ∃ rest, args = words.flatMap Word.spelling ++ rest := by
        rcases hargs with rfl | ⟨arg, -, rfl⟩
        · exact ⟨[], (List.append_nil _).symm⟩
        · exact ⟨[arg], rfl⟩
      obtain ⟨rest, rfl⟩ := hcut
      rw [scan_words hproper, hfold] at h
      obtain rfl := Except.error.inj h
      exact hfailed words rest hproper hfold
    | ok s₁ =>
      obtain rfl | ⟨arg, -, rfl⟩ := hargs
      · have hscan := scan_words hproper [] s
        rw [List.append_nil, h, hfold] at hscan
        cases hscan
      · rw [scan_words hproper, hfold] at h
        exact ⟨words, arg, [], s₁, rfl, hproper, hfold, .inr rfl, h⟩
  · rintro ⟨words, arg, rest, s', rfl, hproper, hfold, halone, harg⟩
    rw [scan_words hproper, hfold]
    change cl.scan (arg :: rest) s' = .error e
    rw [scan_single halone, harg]
    rfl

end Scan

end CommandLine

end Elfr.Library
