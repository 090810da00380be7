import Elfr.Library.Segments

/-!
# Tables that store every item once

Items arrive one after another, and an item that is not known yet is added at
the end. `added known items` are the items a table of `known` ones gains, in the
order of their first appearance. When each item is stored as a piece of bytes,
the place of its piece depends only on the items known before it, so it never
changes once the item is stored.
-/
namespace Elfr.Library.Interning

variable {α : Type*} [DecidableEq α]

/-- The items that are new to the table, each once. -/
def added : (known items : List α) → List α
  | _, [] => []
  | known, a :: items =>
    if a ∈ known then added known items else a :: added (known ++ [a]) items

def distinct (items : List α) : List α := added [] items

theorem mem_added {known items : List α} {a : α} :
    a ∈ added known items ↔ a ∈ items ∧ a ∉ known := by
  induction items generalizing known with
  | nil => simp [added]
  | cons x items ih =>
    unfold added
    by_cases hx : x ∈ known
    · rw [if_pos hx, ih, List.mem_cons, or_and_right]
      have hno : ¬ (a = x ∧ a ∉ known) := fun ⟨hax, ha⟩ => ha (hax ▸ hx)
      rw [or_iff_right hno]
    · rw [if_neg hx, List.mem_cons, ih, List.mem_cons, List.mem_append, List.mem_singleton]
      by_cases hax : a = x
      · simp [hax, hx]
      · simp [hax]

theorem mem_append_added {known items : List α} {a : α} :
    a ∈ known ++ added known items ↔ a ∈ known ∨ a ∈ items := by
  rw [List.mem_append, mem_added]
  by_cases ha : a ∈ known <;> simp [ha]

theorem mem_distinct {items : List α} {a : α} : a ∈ distinct items ↔ a ∈ items := by
  simpa [distinct] using @mem_append_added _ _ [] items a

/-- A table that lists the items in the order in which they first appear. -/
structure FirstAppearances (items table : List α) : Prop where
  mem : ∀ a, a ∈ table ↔ a ∈ items
  order : table.Pairwise fun a b => items.idxOf a < items.idxOf b

theorem added_pairwise (known items : List α) :
    (added known items).Pairwise fun a b => items.idxOf a < items.idxOf b := by
  induction items generalizing known with
  | nil => exact .nil
  | cons x items ih =>
    -- What is added behind `x` is not `x`, so its index moves by one.
    have hlater : ∀ known', x ∈ known' → (added known' items).Pairwise
        fun a b => (x :: items).idxOf a < (x :: items).idxOf b := by
      intro known' hx
      refine (ih known').imp_of_mem fun {a b} ha hb hlt => ?_
      have hax : x ≠ a := fun h => (mem_added.mp ha).2 (h ▸ hx)
      have hbx : x ≠ b := fun h => (mem_added.mp hb).2 (h ▸ hx)
      rw [List.idxOf_cons_ne _ hax, List.idxOf_cons_ne _ hbx]
      exact Nat.succ_lt_succ hlt
    unfold added
    by_cases hx : x ∈ known
    · rw [if_pos hx]
      exact hlater known hx
    · have hmem : x ∈ known ++ [x] := List.mem_append_right _ (List.mem_singleton_self x)
      rw [if_neg hx, List.pairwise_cons]
      refine ⟨fun b hb => ?_, hlater _ hmem⟩
      have hbx : x ≠ b := fun h => (mem_added.mp hb).2 (h ▸ hmem)
      rw [List.idxOf_cons_self, List.idxOf_cons_ne _ hbx]
      exact Nat.succ_pos _

theorem distinct_firstAppearances (items : List α) : FirstAppearances items (distinct items) :=
  ⟨fun _ => mem_distinct, added_pairwise [] items⟩

section Position

variable (f : α → Bytes) (table : List α)

/-- Where the piece of an item starts in the bytes of a table. -/
def position (a : α) : ℕ := ((table.takeWhile (· ≠ a)).flatMap f).length

variable {table}

/-- An item is stored where the table ended before it. -/
theorem position_append_self {a : α} (ha : a ∉ table) (later : List α) :
    position f (table ++ a :: later) a = (table.flatMap f).length := by
  have hall : ∀ x ∈ table, decide (x ≠ a) = true := fun x hx => by
    simpa using ne_of_mem_of_not_mem hx ha
  rw [position, List.takeWhile_append_of_pos hall]
  simp

/-- What is added later does not move a stored item. -/
theorem position_append_of_mem {a : α} (ha : a ∈ table) (later : List α) :
    position f (table ++ later) a = position f table a := by
  obtain ⟨before, behind, rfl, hbefore⟩ := List.eq_append_cons_of_mem ha
  rw [List.append_assoc, List.cons_append, position_append_self f hbefore,
    position_append_self f hbefore]

theorem segment_position {a : α} (ha : a ∈ table) :
    Segment (table.flatMap f) (position f table a) (f a) := by
  obtain ⟨before, behind, rfl, hbefore⟩ := List.eq_append_cons_of_mem ha
  rw [position_append_self f hbefore, List.flatMap_append, List.flatMap_cons]
  exact (segment_append_self _ _).left

end Position

end Elfr.Library.Interning
