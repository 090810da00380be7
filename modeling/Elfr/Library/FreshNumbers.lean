import Mathlib.Data.Nat.Nth
import Mathlib.Tactic

/-!
# Fresh numbers

A counter that hands out the positive numbers in order and skips those already
taken hands out the `k`-th fresh number next, once `k` fresh ones lie below it.
Between the counter and that number everything is taken, and taking `m` numbers
delays the `k`-th fresh one by at most `m`.
-/
namespace Elfr.Library

/-- A positive number that is not taken. -/
def Fresh (taken : List ℕ) (v : ℕ) : Prop := 0 < v ∧ v ∉ taken

instance (taken : List ℕ) : DecidablePred (Fresh taken) :=
  fun _ => inferInstanceAs (Decidable (_ ∧ _))

section Fresh

variable (taken : List ℕ)

/-- At most one number for each taken one, and zero, are missing below `v`. -/
theorem le_count_fresh (v : ℕ) : v ≤ Nat.count (Fresh taken) v + (taken.length + 1) := by
  have hmissing : (Finset.range v).filter (fun w => ¬ Fresh taken w) ⊆ insert 0 taken.toFinset := by
    intro w hw
    have hstale := (Finset.mem_filter.mp hw).2
    unfold Fresh at hstale
    rw [Finset.mem_insert, List.mem_toFinset]
    by_cases hw0 : w = 0
    · exact Or.inl hw0
    · exact Or.inr (by_contra fun hnot => hstale ⟨Nat.pos_of_ne_zero hw0, hnot⟩)
  have hcard : (insert 0 taken.toFinset).card ≤ taken.length + 1 :=
    (Finset.card_insert_le _ _).trans (Nat.succ_le_succ taken.toFinset_card_le)
  have hsplit := Finset.card_filter_add_card_filter_not (s := Finset.range v) (Fresh taken)
  rw [Finset.card_range, ← Nat.count_eq_card_filter_range] at hsplit
  have hle := Finset.card_le_card hmissing
  omega

theorem infinite_fresh : (Set.ofPred (Fresh taken)).Infinite := by
  intro hfinite
  have hbound := Nat.count_le_card hfinite (hfinite.toFinset.card + taken.length + 2)
  have hle := le_count_fresh taken (hfinite.toFinset.card + taken.length + 2)
  omega

/-- The `k`-th fresh number, counting from zero. -/
noncomputable def freshNumber (k : ℕ) : ℕ := Nat.nth (Fresh taken) k

theorem fresh_freshNumber (k : ℕ) : Fresh taken (freshNumber taken k) :=
  Nat.nth_mem_of_infinite (infinite_fresh taken) k

theorem freshNumber_injective : Function.Injective (freshNumber taken) :=
  Nat.nth_injective (infinite_fresh taken)

theorem freshNumber_le (k : ℕ) : freshNumber taken k ≤ k + taken.length + 1 := by
  have hle := le_count_fresh taken (freshNumber taken k)
  rw [freshNumber, Nat.count_nth_of_infinite (infinite_fresh taken)] at hle
  exact hle

theorem le_freshNumber {k v : ℕ} (h : Nat.count (Fresh taken) v = k) : v ≤ freshNumber taken k :=
  h ▸ Nat.le_nth_count (infinite_fresh taken) v

theorem mem_taken_of_lt_freshNumber {k v w : ℕ} (h : Nat.count (Fresh taken) v = k) (hv : 0 < v)
    (hvw : v ≤ w) (hw : w < freshNumber taken k) : w ∈ taken := by
  by_contra hnot
  have hfresh : Fresh taken w := ⟨hv.trans_le hvw, hnot⟩
  have hbelow : Nat.count (Fresh taken) (w + 1) ≤ k := Nat.le_nth_of_count_le hw
  have hsucc := Nat.count_succ_eq_succ_count hfresh
  have hmono := Nat.count_monotone (Fresh taken) hvw
  omega

theorem count_freshNumber_succ (k : ℕ) :
    Nat.count (Fresh taken) (freshNumber taken k + 1) = k + 1 :=
  Nat.count_nth_succ_of_infinite (infinite_fresh taken) k

theorem count_fresh_one : Nat.count (Fresh taken) 1 = 0 := by
  rw [Nat.count_one, if_neg fun h => Nat.lt_irrefl 0 h.1]

variable {taken}

/-- Numbers taken later do not matter to the fresh ones up to a certain one if they miss these. -/
theorem freshNumber_append {more : List ℕ} {k : ℕ} (h : ∀ j ≤ k, freshNumber taken j ∉ more) :
    freshNumber (taken ++ more) k = freshNumber taken k := by
  have hcount : Nat.count (Fresh taken) (freshNumber taken k) = k :=
    Nat.count_nth_of_infinite (infinite_fresh taken) k
  have hsame : ∀ w ≤ freshNumber taken k, (Fresh (taken ++ more) w ↔ Fresh taken w) := by
    intro w hw
    constructor
    · intro hfresh
      exact ⟨hfresh.1, fun hmem => hfresh.2 (List.mem_append_left _ hmem)⟩
    · intro hfresh
      refine ⟨hfresh.1, fun hmem => ?_⟩
      obtain hmem | hmem := List.mem_append.mp hmem
      · exact hfresh.2 hmem
      · have hle : Nat.count (Fresh taken) w ≤ k := hcount ▸ Nat.count_monotone _ hw
        have hnumber : freshNumber taken (Nat.count (Fresh taken) w) = w := Nat.nth_count hfresh
        exact h _ hle (hnumber.symm ▸ hmem)
  have hcount' : Nat.count (Fresh (taken ++ more)) (freshNumber taken k) = k := by
    rw [Nat.count_eq_card_filter_range, Finset.filter_congr fun w hw => hsame w
      (Finset.mem_range.mp hw).le, ← Nat.count_eq_card_filter_range, hcount]
  have hfresh := (hsame _ le_rfl).mpr (fresh_freshNumber taken k)
  calc freshNumber (taken ++ more) k
      = freshNumber (taken ++ more)
          (Nat.count (Fresh (taken ++ more)) (freshNumber taken k)) := by rw [hcount']
    _ = freshNumber taken k := Nat.nth_count hfresh

end Fresh

end Elfr.Library
