import Mathlib.Tactic
import Mathlib.Data.Finset.Card

/-!
# Open addressing with linear probing

A table assigns to each of `m` slots an entry or nothing. `Filled` describes
the tables that arise by inserting entries one after the other, each at the
first free slot from its home on, with wrap-around. Probing such a table for
entries that all share one home finds the first inserted of them: nothing is
removed, so no free slot ever appears in front of an entry.
-/
namespace Elfr.Library.LinearProbing

variable {α : Type*}

/-- The `k`-th slot probed from `home` in a table of `m` slots. -/
def probe (m home k : ℕ) : ℕ := (home + k) % m

theorem probe_lt {m : ℕ} (hm : 0 < m) (home k : ℕ) : probe m home k < m := Nat.mod_lt _ hm

theorem probe_succ (m home k : ℕ) : probe m home (k + 1) = (probe m home k + 1) % m := by
  unfold probe
  rw [Nat.mod_add_mod, Nat.add_assoc]

theorem exists_probe_eq {m s : ℕ} (hs : s < m) (home : ℕ) : ∃ k < m, probe m home k = s := by
  refine ⟨(s + (m - home % m)) % m, Nat.mod_lt _ (by omega), ?_⟩
  have hhome : home % m < m := Nat.mod_lt _ (by omega)
  unfold probe
  rw [Nat.add_mod_mod, ← Nat.mod_add_mod,
    show home % m + (s + (m - home % m)) = s + m by omega, Nat.add_mod_right,
    Nat.mod_eq_of_lt hs]

abbrev Table (α : Type*) := ℕ → Option α

/-- The `k`-th probe from `home` is the first to meet a free slot. -/
def FirstFree (m : ℕ) (t : Table α) (home k : ℕ) : Prop :=
  t (probe m home k) = none ∧ ∀ j < k, t (probe m home j) ≠ none

/-- The tables made by inserting the entries of a list in order. -/
inductive Filled (m : ℕ) (home : α → ℕ) : List α → Table α → Prop
  | empty : Filled m home [] fun _ => none
  | insert {xs t a k} : Filled m home xs t → k < m → FirstFree m t (home a) k →
      Filled m home (xs ++ [a]) (Function.update t (probe m (home a) k) (some a))

theorem FirstFree.lt {m : ℕ} {t : Table α} {home k : ℕ} (h : FirstFree m t home k) (hm : 0 < m) :
    k < m := by
  by_contra hge
  refine h.2 (k - m) (by omega) ?_
  have hsame : probe m home (k - m) = probe m home k := by
    unfold probe
    rw [← Nat.add_mod_right (home + (k - m)) m]
    congr 1
    omega
  rw [hsame, h.1]

section Filled

variable {m : ℕ} {home : α → ℕ} {xs : List α} {t : Table α}

theorem Filled.mem (h : Filled m home xs t) {s : ℕ} {a : α} (hs : t s = some a) : a ∈ xs := by
  induction h with
  | empty => cases hs
  | @insert xs t b k _ _ _ ih =>
    by_cases heq : s = probe m (home b) k
    · subst heq
      rw [Function.update_self] at hs
      simp [Option.some.inj hs]
    · rw [Function.update_of_ne heq] at hs
      exact List.mem_append_left _ (ih hs)

theorem Filled.existsUnique_slot (h : Filled m home xs t) (hm : 0 < m) (hnodup : xs.Nodup) {a : α}
    (ha : a ∈ xs) : ∃! s, s < m ∧ t s = some a := by
  induction h with
  | empty => simp at ha
  | @insert xs t b k hfilled _ hfree ih =>
    obtain ⟨hxs, -, hdisjoint⟩ := List.nodup_append.mp hnodup
    have hb : b ∉ xs := fun hmem => hdisjoint b hmem b (by simp) rfl
    rcases List.mem_append.mp ha with hold | hnew
    · obtain ⟨s, ⟨hs, hta⟩, hunique⟩ := ih hxs hold
      have hne : ∀ {s'}, t s' = some a → s' ≠ probe m (home b) k := by
        rintro s' hs' rfl
        rw [hfree.1] at hs'
        cases hs'
      refine ⟨s, ⟨hs, by rwa [Function.update_of_ne (hne hta)]⟩, ?_⟩
      rintro s' ⟨hs', hta'⟩
      by_cases heq : s' = probe m (home b) k
      · rw [heq, Function.update_self] at hta'
        exact absurd (Option.some.inj hta' ▸ hold) hb
      · rw [Function.update_of_ne heq] at hta'
        exact hunique s' ⟨hs', hta'⟩
    · obtain rfl := List.mem_singleton.mp hnew
      refine ⟨_, ⟨probe_lt hm (home a) k, Function.update_self ..⟩, ?_⟩
      rintro s' ⟨-, hta'⟩
      by_contra hne
      rw [Function.update_of_ne hne] at hta'
      exact hb (hfilled.mem hta')

theorem Filled.card_occupied_le (h : Filled m home xs t) :
    ((Finset.range m).filter fun s => t s ≠ none).card ≤ xs.length := by
  induction h with
  | empty => simp
  | @insert xs t b k _ _ _ ih =>
    have hsub : ((Finset.range m).filter fun s =>
        Function.update t (probe m (home b) k) (some b) s ≠ none) ⊆
        Insert.insert (probe m (home b) k) ((Finset.range m).filter fun s => t s ≠ none) := by
      intro s hs
      rw [Finset.mem_filter] at hs
      rw [Finset.mem_insert, Finset.mem_filter]
      by_cases heq : s = probe m (home b) k
      · exact .inl heq
      · rw [Function.update_of_ne heq] at hs
        exact .inr hs
    calc _ ≤ _ := Finset.card_le_card hsub
      _ ≤ _ := Finset.card_insert_le _ _
      _ ≤ (xs ++ [b]).length := by rw [List.length_append]; exact Nat.succ_le_succ ih

/-- A table with more slots than entries has room at every home. -/
theorem Filled.exists_firstFree (h : Filled m home xs t) (hlen : xs.length < m) (start : ℕ) :
    ∃ k < m, FirstFree m t start k := by
  have hfree : ∃ k, t (probe m start k) = none := by
    by_contra hfull
    push Not at hfull
    have hall : Finset.range m ⊆ (Finset.range m).filter fun s => t s ≠ none := by
      intro s hs
      obtain ⟨k, -, rfl⟩ := exists_probe_eq (Finset.mem_range.mp hs) start
      exact Finset.mem_filter.mpr ⟨hs, hfull k⟩
    have hcard := (Finset.card_le_card hall).trans h.card_occupied_le
    rw [Finset.card_range] at hcard
    omega
  classical
  have hfirst : FirstFree m t start (Nat.find hfree) :=
    ⟨Nat.find_spec hfree, fun j hj => Nat.find_min hfree hj⟩
  exact ⟨_, hfirst.lt (by omega), hfirst⟩

end Filled

/-- Probe from the `k`-th slot on, at most `left` more slots, for an entry that satisfies `p`. -/
def search (m : ℕ) (t : Table α) (p : α → Bool) (home : ℕ) : (left k : ℕ) → Option α
  | 0, _ => none
  | left + 1, k =>
    match t (probe m home k) with
    | none => none
    | some a => if p a then some a else search m t p home left (k + 1)

section Search

variable {m : ℕ} {t : Table α} {p : α → Bool} {home : ℕ}

theorem search_eq_none (h : ∀ s a, t s = some a → p a = false) (left k : ℕ) :
    search m t p home left k = none := by
  induction left generalizing k with
  | zero => rfl
  | succ left ih =>
    unfold search
    cases hk : t (probe m home k) with
    | none => rfl
    | some a => simp [h _ _ hk, ih]

theorem search_update {s : ℕ} {a b : α} (hs : t s = none) {left k : ℕ}
    (h : search m t p home left k = some a) :
    search m (Function.update t s (some b)) p home left k = some a := by
  induction left generalizing k with
  | zero => cases h
  | succ left ih =>
    unfold search at h ⊢
    cases hk : t (probe m home k) with
    | none =>
      rw [hk] at h
      cases h
    | some c =>
      have hne : probe m home k ≠ s := by
        rintro rfl
        rw [hs] at hk
        cases hk
      rw [hk] at h
      rw [Function.update_of_ne hne, hk]
      cases hpc : p c with
      | true => simpa [hpc] using h
      | false =>
        simp only [hpc, Bool.false_eq_true, ↓reduceIte] at h ⊢
        exact ih h

theorem search_eq_some {d left k : ℕ} {a : α} (hd : d < left)
    (hpath : ∀ j < d, ∃ c, t (probe m home (k + j)) = some c ∧ p c = false)
    (ha : t (probe m home (k + d)) = some a) (hpa : p a = true) :
    search m t p home left k = some a := by
  induction d generalizing left k with
  | zero =>
    obtain ⟨left, rfl⟩ := Nat.exists_eq_succ_of_ne_zero (Nat.ne_of_gt hd)
    unfold search
    rw [Nat.add_zero] at ha
    simp [ha, hpa]
  | succ d ih =>
    obtain ⟨left, rfl⟩ := Nat.exists_eq_succ_of_ne_zero (Nat.ne_of_gt (Nat.zero_lt_of_lt hd))
    obtain ⟨c, hc, hpc⟩ := hpath 0 (Nat.succ_pos d)
    unfold search
    rw [Nat.add_zero] at hc
    simp only [hc, hpc, Bool.false_eq_true, ↓reduceIte]
    refine ih (by omega) (fun j hj => ?_) ?_
    · rw [Nat.add_assoc, Nat.add_comm 1 j]
      exact hpath (j + 1) (by omega)
    · rwa [Nat.add_assoc, Nat.add_comm 1 d]

end Search

/-- **Probing finds the first inserted.** Among entries of one home, the search of one
round from there returns what a scan of the insertion order returns. -/
theorem Filled.search_eq_find? {m : ℕ} {home : α → ℕ} {xs : List α} {t : Table α}
    (h : Filled m home xs t) {p : α → Bool} {start : ℕ}
    (hp : ∀ a, p a = true → home a = start) :
    search m t p start m 0 = xs.find? p := by
  induction h with
  | empty => exact search_eq_none (fun s a hs => by cases hs) m 0
  | @insert xs t b k hfilled hk hfree ih =>
    rw [List.find?_append]
    cases hfind : xs.find? p with
    | some a => exact search_update hfree.1 (ih.trans hfind)
    | none =>
      have hxs : ∀ s a, t s = some a → p a = false := by
        intro s a hs
        simpa using List.find?_eq_none.mp hfind a (hfilled.mem hs)
      cases hpb : p b with
      | false =>
        simp only [List.find?_cons, hpb, List.find?_nil, Option.or_none]
        refine search_eq_none (fun s a hs => ?_) m 0
        by_cases heq : s = probe m (home b) k
        · rw [heq, Function.update_self] at hs
          rw [← Option.some.inj hs, hpb]
        · rw [Function.update_of_ne heq] at hs
          exact hxs s a hs
      | true =>
        simp only [List.find?_cons, hpb, Option.none_or]
        rw [hp b hpb] at hfree ⊢
        refine search_eq_some hk (fun j hj => ?_) ?_ hpb
        · obtain ⟨c, hc⟩ := Option.ne_none_iff_exists'.mp (hfree.2 j hj)
          have hne : probe m start (0 + j) ≠ probe m start k := by
            intro heq
            rw [Nat.zero_add] at heq
            rw [heq, hfree.1] at hc
            cases hc
          rw [Function.update_of_ne hne, Nat.zero_add]
          exact ⟨c, hc, hxs _ c hc⟩
        · rw [Nat.zero_add, Function.update_self]

end Elfr.Library.LinearProbing
