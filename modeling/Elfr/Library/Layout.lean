import Elfr.Library.Segments

/-!
# Regions of a byte string

A layout is a list of regions in address order. `Tiled b regions` says that no
region overlaps the next, that all of them end within `b`, and that every byte
of `b` outside of them is zero. A buffer keeps such a layout while it grows by
data and by padding, and while what it reserved is overwritten.
-/
namespace Elfr.Library

structure Region where
  start : ℕ
  size : ℕ
  deriving DecidableEq, Repr

namespace Region

def stop (r : Region) : ℕ := r.start + r.size

def Contains (r : Region) (i : ℕ) : Prop := r.start ≤ i ∧ i < r.stop

instance (r : Region) (i : ℕ) : Decidable (r.Contains i) := inferInstanceAs (Decidable (_ ∧ _))

/-- The first region ends before the second one starts. -/
def Before (r s : Region) : Prop := r.stop ≤ s.start

/-- The regions have no byte in common. -/
def Apart (r s : Region) : Prop := ∀ i, r.Contains i → ¬ s.Contains i

theorem Before.not_contains {r s : Region} (h : r.Before s) {i : ℕ} (hi : r.Contains i) :
    ¬ s.Contains i := by
  unfold Before at h
  unfold Contains at hi ⊢
  omega

theorem Before.apart {r s : Region} (h : r.Before s) : r.Apart s := fun _ hi => h.not_contains hi

end Region

structure Tiled (b : Bytes) (regions : List Region) : Prop where
  ordered : regions.Pairwise Region.Before
  inside : ∀ r ∈ regions, r.stop ≤ b.length
  zero : ∀ i < b.length, (∀ r ∈ regions, ¬ r.Contains i) → b[i]? = some 0

namespace Tiled

variable {b : Bytes} {regions : List Region}

theorem reserve (n : ℕ) : Tiled (List.replicate n 0) [⟨0, n⟩] where
  ordered := List.pairwise_singleton _ _
  inside r hr := by
    obtain rfl := List.mem_singleton.mp hr
    simp [Region.stop]
  zero i hi _ := by
    rw [List.length_replicate] at hi
    rw [List.getElem?_replicate, if_pos hi]

theorem append (h : Tiled b regions) (xs : Bytes) :
    Tiled (b ++ xs) (regions ++ [⟨b.length, xs.length⟩]) where
  ordered := by
    refine List.pairwise_append.mpr ⟨h.ordered, List.pairwise_singleton _ _, fun r hr s hs => ?_⟩
    obtain rfl := List.mem_singleton.mp hs
    exact h.inside r hr
  inside r hr := by
    rw [List.length_append]
    rcases List.mem_append.mp hr with hold | hnew
    · exact (h.inside r hold).trans (Nat.le_add_right _ _)
    · obtain rfl := List.mem_singleton.mp hnew
      exact le_rfl
  zero i hi hout := by
    rw [List.length_append] at hi
    have hnew := hout ⟨b.length, xs.length⟩ (by simp)
    have hlt : i < b.length := by
      simp only [Region.Contains, Region.stop] at hnew
      omega
    rw [List.getElem?_append_left hlt]
    exact h.zero i hlt fun r hr => hout r (List.mem_append_left _ hr)

theorem pad (h : Tiled b regions) (n : ℕ) : Tiled (b ++ List.replicate n 0) regions where
  ordered := h.ordered
  inside r hr := by
    rw [List.length_append]
    exact (h.inside r hr).trans (Nat.le_add_right _ _)
  zero i hi hout := by
    rw [List.length_append, List.length_replicate] at hi
    rcases Nat.lt_or_ge i b.length with hlt | hge
    · rw [List.getElem?_append_left hlt]
      exact h.zero i hlt hout
    · rw [List.getElem?_append_right hge, List.getElem?_replicate, if_pos (by omega)]

theorem patch (h : Tiled b regions) {r : Region} (hr : r ∈ regions) {off : ℕ} {xs : Bytes}
    (hstart : r.start ≤ off) (hstop : off + xs.length ≤ r.stop) :
    Tiled (patch b off xs) regions := by
  have hle : off + xs.length ≤ b.length := hstop.trans (h.inside r hr)
  refine ⟨h.ordered, fun s hs => by rw [length_patch hle]; exact h.inside s hs, fun i hi hout => ?_⟩
  rw [length_patch hle] at hi
  have hri := hout r hr
  rw [getElem?_patch hle, if_neg (by unfold Region.Contains at hri; omega)]
  exact h.zero i hi hout

end Tiled

end Elfr.Library
