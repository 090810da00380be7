import Elfr.Library.Execution
import Mathlib.Logic.Relation
import Mathlib.Logic.Function.Basic

/-!
# Interleavings of threads

Threads take steps one at a time, in any order, each on its own state and on one that all of
them share. What a run keeps is proved thread by thread: a step must keep it for the thread
that takes it and for every other one. Where no step changes the shared state, an
interleaving is for each thread a run of its own.
-/
namespace Elfr.Library

universe u

structure Threads (θ σ τ : Type u) where
  shared : σ
  thread : θ → τ

namespace Threads

variable {θ σ τ : Type u} [DecidableEq θ] (step : σ → τ → Exec (σ × τ))

/-- The threads take steps in the order of the schedule. -/
def run (g : Threads θ σ τ) : List θ → Exec (Threads θ σ τ)
  | [] => pure g
  | t :: schedule => do
    let (shared, own) ← step g.shared (g.thread t)
    run ⟨shared, Function.update g.thread t own⟩ schedule

variable {step} {g g' : Threads θ σ τ} {schedule : List θ}

theorem run_cons_eq_ok {t : θ} : g.run step (t :: schedule) = .ok g' ↔
    ∃ shared own, step g.shared (g.thread t) = .ok (shared, own) ∧
      run step ⟨shared, Function.update g.thread t own⟩ schedule = .ok g' := by
  rw [run, Exec.bind_eq_ok]
  exact Prod.exists

theorem run_append_eq_ok {first rest : List θ} : g.run step (first ++ rest) = .ok g' ↔
    ∃ g₁, g.run step first = .ok g₁ ∧ g₁.run step rest = .ok g' := by
  induction first generalizing g with
  | nil =>
    constructor
    · intro h
      exact ⟨g, rfl, h⟩
    · rintro ⟨g₁, hg₁, h⟩
      obtain rfl := Except.ok.inj hg₁
      exact h
  | cons t first ih =>
    rw [List.cons_append, run_cons_eq_ok]
    simp only [run_cons_eq_ok, ih]
    constructor
    · rintro ⟨shared, own, hstep, g₁, hfirst, hrest⟩
      exact ⟨g₁, ⟨shared, own, hstep, hfirst⟩, hrest⟩
    · rintro ⟨g₁, ⟨shared, own, hstep, hfirst⟩, hrest⟩
      exact ⟨shared, own, hstep, g₁, hfirst, hrest⟩

/-- A property of the shared state and a thread holds of all threads throughout a run if no
step breaks it, neither for the thread that takes it nor for another. -/
theorem run_invariant (P : σ → τ → Prop)
    (hown : ∀ s l s' l', P s l → step s l = .ok (s', l') → P s' l')
    (hother : ∀ s l s' l' m, P s l → P s m → step s l = .ok (s', l') → P s' m)
    (hg : ∀ t, P g.shared (g.thread t)) (h : g.run step schedule = .ok g') :
    ∀ t, P g'.shared (g'.thread t) := by
  induction schedule generalizing g with
  | nil =>
    obtain rfl := Except.ok.inj h
    exact hg
  | cons t schedule ih =>
    obtain ⟨shared, own, hstep, h⟩ := run_cons_eq_ok.mp h
    refine ih (fun u => ?_) h
    dsimp only
    by_cases hu : u = t
    · subst hu
      rw [Function.update_self]
      exact hown _ _ _ _ (hg u) hstep
    · rw [Function.update_of_ne hu]
      exact hother _ _ _ _ _ (hg t) (hg u) hstep

/-- Own steps of a thread that stay in `P`, in a shared state that none of them changes. -/
def OwnStep (step : σ → τ → Exec (σ × τ)) (s : σ) (P : τ → Prop) (l l' : τ) : Prop :=
  P l ∧ step s l = .ok (s, l')

/-- If threads in `P` leave the shared state alone, an interleaving runs each of them as if it
were alone. -/
theorem run_settled (P : τ → Prop) (h : g.run step schedule = .ok g')
    (hP : ∀ l s' l', P l → step g.shared l = .ok (s', l') → s' = g.shared ∧ P l')
    (hg : ∀ t, P (g.thread t)) :
    g'.shared = g.shared ∧ ∀ t, P (g'.thread t) ∧
      Relation.ReflTransGen (OwnStep step g.shared P) (g.thread t) (g'.thread t) := by
  induction schedule generalizing g with
  | nil =>
    obtain rfl := Except.ok.inj h
    exact ⟨rfl, fun t => ⟨hg t, .refl⟩⟩
  | cons t schedule ih =>
    obtain ⟨shared, own, hstep, h⟩ := run_cons_eq_ok.mp h
    obtain ⟨rfl, hown⟩ := hP _ _ _ (hg t) hstep
    have hnext : ∀ u, P (Function.update g.thread t own u) ∧ Relation.ReflTransGen
        (OwnStep step g.shared P) (g.thread u) (Function.update g.thread t own u) := by
      intro u
      by_cases hu : u = t
      · subst hu
        rw [Function.update_self]
        exact ⟨hown, .single ⟨hg u, hstep⟩⟩
      · rw [Function.update_of_ne hu]
        exact ⟨hg u, .refl⟩
    obtain ⟨hshared, hrest⟩ := ih h hP fun u => (hnext u).1
    exact ⟨hshared, fun u => ⟨(hrest u).1, (hnext u).2.trans (hrest u).2⟩⟩

end Threads

end Elfr.Library
