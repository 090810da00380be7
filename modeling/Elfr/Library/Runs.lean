import Elfr.Library.Execution

/-!
# Runs of a machine that answers calls

A machine takes calls one after another; each call returns a reply and a new
state, or stops the run. The turns of a run record every call with the state
before it and the state after it, so that a property of all turns is proved
from an invariant and a fact about a single call.
-/
namespace Elfr.Library

/-- One call of a run. -/
structure Turn (σ ι ρ : Type*) where
  before : σ
  call : ι
  reply : ρ
  after : σ

def turns (step : σ → ι → Exec (ρ × σ)) : σ → List ι → Exec (List (Turn σ ι ρ))
  | _, [] => pure []
  | s, call :: calls => do
    let (reply, s') ← step s call
    let rest ← turns step s' calls
    pure (⟨s, call, reply, s'⟩ :: rest)

section Turns

variable {step : σ → ι → Exec (ρ × σ)}

/-- An invariant of the calls holds before every turn, and every turn is a step. -/
theorem turns_invariant (P : σ → Prop)
    (hP : ∀ s call reply s', P s → step s call = .ok (reply, s') → P s') {s : σ}
    {calls : List ι} {ts : List (Turn σ ι ρ)} (hs : P s) (h : turns step s calls = .ok ts) :
    ∀ t ∈ ts, P t.before ∧ step t.before t.call = .ok (t.reply, t.after) := by
  induction calls generalizing s ts with
  | nil =>
    obtain rfl := Except.ok.inj h
    exact fun t ht => absurd ht List.not_mem_nil
  | cons call calls ih =>
    obtain ⟨⟨reply, s'⟩, hstep, h⟩ := Exec.bind_eq_ok.mp h
    obtain ⟨rest, hrest, h⟩ := Exec.bind_eq_ok.mp h
    obtain rfl := Except.ok.inj h
    refine List.forall_mem_cons.mpr ⟨⟨hs, hstep⟩, ?_⟩
    exact ih (hP s call reply s' hs hstep) hrest

/-- If each call of one machine can be answered by a call of another, in related states and
with related turns, then so can every run. -/
theorem turns_simulation {step' : τ → κ → Exec (ρ' × τ)} (Related : σ → τ → Prop)
    (Means : ι → κ → Prop) (Agrees : Turn σ ι ρ → Turn τ κ ρ' → Prop)
    (hstep : ∀ s t call call' reply' t', Related s t → Means call call' →
      step' t call' = .ok (reply', t') → ∃ reply s', step s call = .ok (reply, s') ∧
        Related s' t' ∧ Agrees ⟨s, call, reply, s'⟩ ⟨t, call', reply', t'⟩)
    {s : σ} {t : τ} {calls : List ι} {calls' : List κ} {ts' : List (Turn τ κ ρ')}
    (hst : Related s t) (hcalls : List.Forall₂ Means calls calls')
    (h : turns step' t calls' = .ok ts') :
    ∃ ts, turns step s calls = .ok ts ∧ List.Forall₂ Agrees ts ts' := by
  induction hcalls generalizing s t ts' with
  | nil =>
    obtain rfl := Except.ok.inj h
    exact ⟨[], rfl, .nil⟩
  | @cons call call' calls calls' hcall hcalls ih =>
    obtain ⟨⟨reply', t'⟩, hstep', h⟩ := Exec.bind_eq_ok.mp h
    obtain ⟨rest', hrest', h⟩ := Exec.bind_eq_ok.mp h
    obtain rfl := Except.ok.inj h
    obtain ⟨reply, s', hreply, hst', hagrees⟩ :=
      hstep s t call call' reply' t' hst hcall hstep'
    obtain ⟨rest, hrest, hall⟩ := ih hst' hrest'
    refine ⟨⟨s, call, reply, s'⟩ :: rest, ?_, .cons hagrees hall⟩
    exact Exec.bind_eq_ok.mpr ⟨_, hreply, Exec.bind_eq_ok.mpr ⟨rest, hrest, rfl⟩⟩

end Turns

end Elfr.Library
