import Mathlib.Tactic

/-!
# Executions that may stop, and loops with an explicit budget

A computation either returns a value or stops. It stops at an operation the C
language leaves undefined (a null or out-of-bounds access, a signed overflow),
at an unsigned sum that would wrap where the caller asked for a checked one, or
because the step budget of an unbounded loop is spent. Budgets are only a
device: `Returns` says that some budget suffices, and a diverging loop is one
that runs out of every budget.
-/
namespace Elfr.Library

/-- The ways an execution can end without a value. -/
inductive Stop
  | nullPointer
  | outOfBounds (offset : ℕ)
  | wrap
  | signedOverflow
  | outOfFuel
  deriving DecidableEq, Repr

abbrev Exec := Except Stop

namespace Exec

@[simp] theorem ok_bind (a : α) (f : α → Exec β) : (Except.ok a >>= f : Exec β) = f a := rfl

@[simp] theorem error_bind (s : Stop) (f : α → Exec β) :
    (Except.error s >>= f : Exec β) = Except.error s := rfl

@[simp] theorem pure_eq_ok (a : α) : (pure a : Exec α) = Except.ok a := rfl

theorem bind_eq_ok {x : Exec α} {f : α → Exec β} {b : β} :
    x >>= f = .ok b ↔ ∃ a, x = .ok a ∧ f a = .ok b := by
  cases x <;> simp

def Safe (x : Exec α) : Prop := ∃ a, x = .ok a

theorem Safe.of_bind {x : Exec α} {f : α → Exec β} (h : Safe (x >>= f)) :
    ∃ a, x = .ok a ∧ Safe (f a) := by
  obtain ⟨b, hb⟩ := h
  obtain ⟨a, ha, hf⟩ := bind_eq_ok.mp hb
  exact ⟨a, ha, b, hf⟩

theorem Safe.bind {x : Exec α} {f : α → Exec β} (hx : Safe x) (hf : ∀ a, x = .ok a → Safe (f a)) :
    Safe (x >>= f) := by
  obtain ⟨a, rfl⟩ := hx
  exact hf a rfl

theorem safe_mapM {f : α → Exec β} {xs : List α} (h : ∀ x ∈ xs, Safe (f x)) :
    Safe (xs.mapM f) := by
  induction xs with
  | nil => exact ⟨[], rfl⟩
  | cons x xs ih =>
    obtain ⟨hx, hxs⟩ := List.forall_mem_cons.mp h
    rw [List.mapM_cons]
    exact hx.bind fun _ _ => (ih hxs).bind fun _ _ => ⟨_, rfl⟩

/-- The value behind a pointer, which must not be null. -/
def deref : Option α → Exec α
  | none => .error .nullPointer
  | some a => .ok a

@[simp] theorem deref_some (a : α) : deref (some a) = .ok a := rfl

@[simp] theorem deref_none : deref (none : Option α) = .error .nullPointer := rfl

theorem safe_deref {p : Option α} (h : p ≠ none) : Safe (deref p) := by
  obtain ⟨a, rfl⟩ := Option.ne_none_iff_exists'.mp h
  exact ⟨a, rfl⟩

theorem deref_eq_ok {p : Option α} {a : α} : deref p = .ok a ↔ p = some a := by
  cases p <;> simp

/-- An execution that follows no null pointer. -/
def NoNull (x : Exec α) : Prop := x ≠ .error .nullPointer

@[simp] theorem noNull_ok (a : α) : NoNull (Except.ok a : Exec α) := nofun

theorem NoNull.bind {x : Exec α} {f : α → Exec β} (hx : NoNull x)
    (hf : ∀ a, x = .ok a → NoNull (f a)) : NoNull (x >>= f) := by
  cases x with
  | error e => exact fun h => hx (by rw [error_bind] at h; rw [Except.error.inj h])
  | ok a => exact hf a rfl

theorem noNull_deref {p : Option α} (h : p ≠ none) : NoNull (deref p) := by
  obtain ⟨a, rfl⟩ := Option.ne_none_iff_exists'.mp h
  exact noNull_ok a

theorem noNull_mapM {f : α → Exec β} {xs : List α} (h : ∀ x ∈ xs, NoNull (f x)) :
    NoNull (xs.mapM f) := by
  induction xs with
  | nil => exact noNull_ok []
  | cons x xs ih =>
    obtain ⟨hx, hxs⟩ := List.forall_mem_cons.mp h
    rw [List.mapM_cons]
    exact hx.bind fun _ _ => (ih hxs).bind fun _ _ => noNull_ok _

/-- An array access, whose index must be in range. -/
def index (xs : List α) (i : ℕ) : Exec α :=
  match xs[i]? with
  | none => .error (.outOfBounds i)
  | some a => .ok a

theorem index_eq_ok {xs : List α} {i : ℕ} {a : α} : index xs i = .ok a ↔ xs[i]? = some a := by
  unfold index
  cases xs[i]? <;> simp

theorem noNull_index (xs : List α) (i : ℕ) : NoNull (index xs i) := by
  unfold index
  split <;> nofun

theorem index_of_lt {xs : List α} {i : ℕ} (h : i < xs.length) : index xs i = .ok xs[i] :=
  index_eq_ok.mpr (List.getElem?_eq_getElem h)

/-- An unsigned 64-bit sum that must not wrap. -/
def add64 (a b : UInt64) : Exec UInt64 :=
  if a.toNat + b.toNat < 2 ^ 64 then .ok (a + b) else .error .wrap

theorem add64_eq_ok {a b c : UInt64} : add64 a b = .ok c ↔ c.toNat = a.toNat + b.toNat := by
  unfold add64
  constructor
  · intro h
    split_ifs at h with hlt
    obtain rfl := Except.ok.inj h
    rw [UInt64.toNat_add, Nat.mod_eq_of_lt hlt]
  · intro h
    have hlt : a.toNat + b.toNat < 2 ^ 64 := h ▸ c.toNat_lt
    have hc : a + b = c := by
      apply UInt64.toNat.inj
      rw [UInt64.toNat_add, Nat.mod_eq_of_lt hlt, h]
    rw [if_pos hlt, hc]

/-- The same for 32 bits. -/
def add32 (a b : UInt32) : Exec UInt32 :=
  if a.toNat + b.toNat < 2 ^ 32 then .ok (a + b) else .error .wrap

theorem add32_of_lt {a b : UInt32} (h : a.toNat + b.toNat < 2 ^ 32) :
    add32 a b = .ok (a + b) ∧ (a + b).toNat = a.toNat + b.toNat :=
  ⟨if_pos h, by rw [UInt32.toNat_add, Nat.mod_eq_of_lt h]⟩

theorem mapM_eq_ok {f : α → Exec β} : ∀ {xs : List α} {ys : List β},
    xs.mapM f = .ok ys ↔ List.Forall₂ (fun x y => f x = .ok y) xs ys
  | [], ys => by
    cases ys <;> simp
  | x :: xs, ys => by
    rw [List.mapM_cons, bind_eq_ok]
    constructor
    · rintro ⟨y, hy, h⟩
      obtain ⟨zs, hzs, h⟩ := bind_eq_ok.mp h
      obtain rfl := Except.ok.inj h
      exact .cons hy (mapM_eq_ok.mp hzs)
    · intro h
      cases h with
      | cons hy hys => exact ⟨_, hy, bind_eq_ok.mpr ⟨_, mapM_eq_ok.mpr hys, rfl⟩⟩

end Exec

namespace Exec

/-- Where `x` returns, `y` returns the same. -/
def ExtendedBy (x y : Exec α) : Prop := ∀ a, x = .ok a → y = .ok a

namespace ExtendedBy

theorem refl (x : Exec α) : ExtendedBy x x := fun _ h => h

theorem bind {x y : Exec α} {f g : α → Exec β} (h : ExtendedBy x y)
    (hf : ∀ a, ExtendedBy (f a) (g a)) : ExtendedBy (x >>= f) (y >>= g) := by
  intro b hb
  obtain ⟨a, ha, hb⟩ := bind_eq_ok.mp hb
  exact bind_eq_ok.mpr ⟨a, h a ha, hf a b hb⟩

theorem ite {p : Prop} [Decidable p] {x y x' y' : Exec α} (h : ExtendedBy x y)
    (h' : ExtendedBy x' y') : ExtendedBy (if p then x else x') (if p then y else y') := by
  split_ifs
  exacts [h, h']

end ExtendedBy

end Exec

/-- Some budget makes the computation return this value. -/
def Returns (f : ℕ → Exec α) (a : α) : Prop := ∃ fuel, f fuel = .ok a

/-- Repeat `step` until it exits on the right; `fuel` bounds the number of turns. -/
def loop (step : σ → Exec (σ ⊕ α)) : ℕ → σ → Exec α
  | 0, _ => .error .outOfFuel
  | fuel + 1, s => do
    match ← step s with
    | .inl s' => loop step fuel s'
    | .inr a => pure a

section Loop

variable {step : σ → Exec (σ ⊕ α)}

theorem loop_continue {s s' : σ} (h : step s = .ok (.inl s')) (fuel : ℕ) :
    loop step (fuel + 1) s = loop step fuel s' := by
  simp [loop, h]

theorem loop_exit {s : σ} {a : α} (h : step s = .ok (.inr a)) (fuel : ℕ) :
    loop step (fuel + 1) s = .ok a := by
  simp [loop, h]

theorem loop_stop {s : σ} {e : Stop} (h : step s = .error e) (fuel : ℕ) :
    loop step (fuel + 1) s = .error e := by
  simp [loop, h]

/-- A loop that walks the states `f 0, …, f k` and exits at the last one. -/
theorem loop_path (f : ℕ → σ) (k : ℕ) {a : α} (hexit : step (f k) = .ok (.inr a))
    (hstep : ∀ j < k, step (f j) = .ok (.inl (f (j + 1)))) {fuel : ℕ} (hfuel : k < fuel) :
    loop step fuel (f 0) = .ok a := by
  induction k generalizing f fuel with
  | zero =>
    obtain ⟨m, rfl⟩ := Nat.exists_eq_succ_of_ne_zero (Nat.ne_of_gt hfuel)
    exact loop_exit hexit m
  | succ k ih =>
    obtain ⟨m, rfl⟩ := Nat.exists_eq_succ_of_ne_zero (by omega : fuel ≠ 0)
    rw [loop_continue (hstep 0 (by omega))]
    exact ih (fun j => f (j + 1)) hexit (fun j hj => hstep (j + 1) (by omega)) (by omega)

/-- Partial correctness: an invariant holds in the state where the loop exits. -/
theorem loop_invariant (P : σ → Prop) (hP : ∀ s s', P s → step s = .ok (.inl s') → P s') :
    ∀ {fuel : ℕ} {s : σ} {a : α}, P s → loop step fuel s = .ok a →
      ∃ t, P t ∧ step t = .ok (.inr a)
  | 0, _, _, _, h => nomatch h
  | fuel + 1, s, a, hs, h => by
    cases hstep : step s with
    | error e =>
      rw [loop_stop hstep] at h
      cases h
    | ok r =>
      cases r with
      | inl s' =>
        rw [loop_continue hstep] at h
        exact loop_invariant P hP (hP s s' hs hstep) h
      | inr b =>
        rw [loop_exit hstep] at h
        obtain rfl := Except.ok.inj h
        exact ⟨s, hs, hstep⟩

/-- Total correctness: with a decreasing measure the budget is never spent. -/
theorem loop_total (P : σ → Prop) (μ : σ → ℕ) (hsafe : ∀ s, P s → (step s).Safe)
    (hP : ∀ s s', P s → step s = .ok (.inl s') → P s' ∧ μ s' < μ s) :
    ∀ {fuel : ℕ} {s : σ}, P s → μ s < fuel → (loop step fuel s).Safe
  | 0, _, _, h => absurd h (Nat.not_lt_zero _)
  | fuel + 1, s, hs, h => by
    obtain ⟨r, hstep⟩ := hsafe s hs
    cases r with
    | inl s' =>
      have hs' := hP s s' hs hstep
      rw [loop_continue hstep]
      exact loop_total P μ hsafe hP hs'.1 (by omega)
    | inr a => exact ⟨a, loop_exit hstep fuel⟩

/-- Where no turn stops, a loop spends its budget or exits in a state of the invariant. -/
theorem loop_cases (P : σ → Prop) (hsafe : ∀ s, P s → (step s).Safe)
    (hP : ∀ s s', P s → step s = .ok (.inl s') → P s') :
    ∀ (fuel : ℕ) {s : σ}, P s → loop step fuel s = .error .outOfFuel ∨
      ∃ a t, loop step fuel s = .ok a ∧ P t ∧ step t = .ok (.inr a)
  | 0, _, _ => .inl rfl
  | fuel + 1, s, hs => by
    obtain ⟨r, hstep⟩ := hsafe s hs
    cases r with
    | inl s' =>
      rw [loop_continue hstep]
      exact loop_cases P hsafe hP fuel (hP s s' hs hstep)
    | inr a => exact .inr ⟨a, s, loop_exit hstep fuel, hs, hstep⟩

/-- A loop that can always go on diverges. -/
theorem loop_diverges (P : σ → Prop) (hP : ∀ s, P s → ∃ s', step s = .ok (.inl s') ∧ P s')
    {s : σ} (hs : P s) (fuel : ℕ) : loop step fuel s = .error .outOfFuel := by
  have hnext : ∀ s s', P s → step s = .ok (.inl s') → P s' := by
    intro s s' hs hstep
    obtain ⟨s'', hstep', hs''⟩ := hP s hs
    obtain rfl := Sum.inl.inj (Except.ok.inj (hstep.symm.trans hstep'))
    exact hs''
  have hsafe : ∀ s, P s → (step s).Safe := fun s hs => (hP s hs).elim fun s' h => ⟨_, h.1⟩
  rcases loop_cases P hsafe hnext fuel hs with hspent | ⟨a, t, -, ht, hexit⟩
  · exact hspent
  · obtain ⟨s', hstep, -⟩ := hP t ht
    cases hexit.symm.trans hstep

theorem loop_noNull (h : ∀ s, (step s).NoNull) : ∀ {fuel : ℕ} {s : σ}, (loop step fuel s).NoNull
  | 0, _ => nofun
  | fuel + 1, s => by
    unfold loop
    refine (h s).bind fun r _ => ?_
    cases r with
    | inl s' => exact loop_noNull h
    | inr a => exact Exec.noNull_ok a

theorem loop_mono : ∀ {fuel fuel' : ℕ} {s : σ} {a : α}, fuel ≤ fuel' → loop step fuel s = .ok a →
    loop step fuel' s = .ok a
  | 0, _, _, _, _, h => nomatch h
  | fuel + 1, fuel', s, a, hle, h => by
    obtain ⟨m, rfl⟩ := Nat.exists_eq_add_of_le hle
    rw [Nat.add_right_comm]
    cases hstep : step s with
    | error e =>
      rw [loop_stop hstep] at h
      cases h
    | ok r =>
      cases r with
      | inl s' =>
        rw [loop_continue hstep] at h ⊢
        exact loop_mono (Nat.le_add_right fuel m) h
      | inr b =>
        rw [loop_exit hstep] at h ⊢
        exact h

/-- A loop whose turns return in more cases does so itself. -/
theorem loop_extendedBy {step' : σ → Exec (σ ⊕ α)}
    (h : ∀ s, (step s).ExtendedBy (step' s)) :
    ∀ (fuel : ℕ) (s : σ), (loop step fuel s).ExtendedBy (loop step' fuel s)
  | 0, _ => .refl _
  | fuel + 1, s => by
    unfold loop
    refine (h s).bind fun r => ?_
    cases r with
    | inl s' => exact loop_extendedBy h fuel s'
    | inr a => exact .refl _

theorem loop_unique {fuel fuel' : ℕ} {s : σ} {a a' : α} (h : loop step fuel s = .ok a)
    (h' : loop step fuel' s = .ok a') : a = a' := by
  rcases Nat.le_total fuel fuel' with hle | hle
  · exact Except.ok.inj ((loop_mono hle h).symm.trans h')
  · exact Except.ok.inj (h.symm.trans (loop_mono hle h'))

end Loop

end Elfr.Library
