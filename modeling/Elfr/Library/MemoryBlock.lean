import Elfr.Library.Execution

/-!
# Blocks of memory that grow

The cells of an allocated block, of which those never written are indeterminate. A block
that is filled from the front and moved to larger ones holds what was written to it and
nothing else. Its sizes are doublings of the first one.
-/
namespace Elfr.Library

/-- The cells of a block; `none` is indeterminate. -/
abbrev MemoryBlock (α : Type*) := List (Option α)

namespace MemoryBlock

/-- `realloc`, which succeeds: the cells of the old block as far as they fit, and new ones. -/
def realloc (block : MemoryBlock α) (size : ℕ) : MemoryBlock α :=
  block.take size ++ List.replicate (size - block.length) none

/-- `memcpy` and `memset` into a block, which must not leave it. -/
def store (block : MemoryBlock α) (off : ℕ) (xs : List α) : Exec (MemoryBlock α) :=
  if off + xs.length ≤ block.length then
    pure (block.take off ++ xs.map some ++ block.drop (off + xs.length))
  else .error (.outOfBounds (off + xs.length))

/-- A block of `size` cells of which the first hold `xs`, and the others nothing yet. -/
def filled (xs : List α) (size : ℕ) : MemoryBlock α :=
  xs.map some ++ List.replicate (size - xs.length) none

section Filled

variable {xs : List α} {size : ℕ}

theorem length_filled (h : xs.length ≤ size) : (filled xs size).length = size := by
  rw [filled, List.length_append, List.length_map, List.length_replicate]
  omega

theorem getElem?_filled_of_ge {i : ℕ} (hi : xs.length ≤ i) :
    (filled xs size)[i]? = if i < size then some none else none := by
  rw [filled, List.getElem?_append_right (by rwa [List.length_map]), List.length_map,
    List.getElem?_replicate]
  split_ifs <;> first | rfl | omega

theorem realloc_filled (h : xs.length ≤ size) {size' : ℕ} (hsize : size ≤ size') :
    realloc (filled xs size) size' = filled xs size' := by
  rw [realloc, length_filled h, List.take_of_length_le ((length_filled h).trans_le hsize), filled,
    filled, List.append_assoc, List.replicate_append_replicate]
  congr 2
  omega

/-- Stored behind what is there, the new elements follow it. -/
theorem store_filled {ys : List α} (h : xs.length + ys.length ≤ size) :
    store (filled xs size) xs.length ys = .ok (filled (xs ++ ys) size) := by
  have hle : xs.length ≤ size := Nat.le_of_add_right_le h
  have hfront : (filled xs size).take xs.length = xs.map some := by
    rw [filled, List.take_append_of_le_length (by rw [List.length_map]), List.take_of_length_le
      (by rw [List.length_map])]
  have hback : (filled xs size).drop (xs.length + ys.length) =
      List.replicate (size - (xs.length + ys.length)) none := by
    rw [filled, List.drop_append, List.length_map, List.drop_of_length_le
      (by rw [List.length_map]; omega), List.drop_replicate, List.nil_append]
    congr 1
    omega
  rw [store, length_filled hle, if_pos h, hfront, hback, filled, List.map_append,
    List.length_append]
  rfl

end Filled

end MemoryBlock

theorem exists_doublings {start need m : ℕ} (h : need ≤ start * 2 ^ m) :
    ∃ k ≤ m, need ≤ start * 2 ^ k ∧ ∀ j < k, start * 2 ^ j < need := by
  have hex : ∃ k, need ≤ start * 2 ^ k := ⟨m, h⟩
  exact ⟨Nat.find hex, Nat.find_min' hex h, Nat.find_spec hex,
    fun j hj => Nat.lt_of_not_le (Nat.find_min hex hj)⟩

end Elfr.Library
