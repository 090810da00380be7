import Elfr.Runtime.Opening

/-!
# Containers at the start of a longer buffer

The dump tool hands `erf_open_memory` a pointer into a file and the size of a section, so
that more bytes follow than the size says. What the reader returns on the first bytes alone
it returns there too: no read is aware of the end of the buffer.
-/
namespace Elfr.Runtime

open Library Common Format Exec

section Loads

variable (b t : Bytes)

theorem load_append (off len : ℕ) : (load b off len).ExtendedBy (load (b ++ t) off len) := by
  intro xs h
  obtain ⟨hle, rfl⟩ := load_eq_ok.mp h
  refine load_eq_ok.mpr ⟨by rw [List.length_append]; omega, ?_⟩
  refine (slice_congr fun j hj => ?_).symm
  rw [List.getElem?_append_left (by omega)]

theorem index_append (xs ys : List α) (i : ℕ) :
    (index xs i).ExtendedBy (index (xs ++ ys) i) := by
  intro x h
  have hx := index_eq_ok.mp h
  have hlt := (List.getElem?_eq_some_iff.mp hx).1
  exact index_eq_ok.mpr (by rwa [List.getElem?_append_left hlt])

theorem strcmpEq_append (off : ℕ) (q : Bytes) :
    (strcmpEq b off q).ExtendedBy (strcmpEq (b ++ t) off q) := by
  induction q generalizing off with
  | nil => exact (index_append b t off).bind fun _ => .refl _
  | cons c q ih => exact (index_append b t off).bind fun _ => (ih (off + 1)).ite (.refl _)

end Loads

/-- The container with more bytes behind it. -/
def ERFContainer.followedBy (c : ERFContainer) (t : Bytes) : ERFContainer :=
  { c with base := c.base ++ t }

section Lookup

variable (c : ERFContainer) (t : Bytes) (q : CString)

theorem nameMatches_followedBy (i : ℕ) :
    (nameMatches c q i).ExtendedBy (nameMatches (c.followedBy t) q i) :=
  (ExtendedBy.refl (index c.resources i)).bind fun r => strcmpEq_append c.base t r.name q.bytes

theorem readBucket_followedBy (slot : UInt32) :
    (readBucket c slot).ExtendedBy (readBucket (c.followedBy t) slot) :=
  ((load_append c.base t _ _).bind fun _ => .refl _).ite (.refl _)

theorem bucketMatches_followedBy (h : UInt64) (bucket : ERFHashBucket) :
    (bucketMatches c q h bucket).ExtendedBy (bucketMatches (c.followedBy t) q h bucket) :=
  (nameMatches_followedBy c t q _).ite (.refl _)

theorem probeStep_followedBy (h : UInt64) (s : ProbeState) :
    (probeStep c q h s).ExtendedBy (probeStep (c.followedBy t) q h s) := by
  unfold probeStep
  refine ((readBucket_followedBy c t s.slot).bind fun bucket => ?_).ite (.refl _)
  exact (ExtendedBy.refl _).ite ((bucketMatches_followedBy c t q h bucket).bind fun _ => .refl _)

theorem scanNames_followedBy (left i : ℕ) :
    (scanNames c q left i).ExtendedBy (scanNames (c.followedBy t) q left i) := by
  induction left generalizing i with
  | zero => exact .refl _
  | succ left ih =>
    refine (nameMatches_followedBy c t q i).bind fun found => ?_
    exact (ExtendedBy.refl _).ite (ih (i + 1))

theorem findName_followedBy : (findName c q).ExtendedBy (findName (c.followedBy t) q) :=
  (loop_extendedBy (probeStep_followedBy c t q (hashOfName q)) _ _).ite
    (scanNames_followedBy c t q _ 0)

theorem erfVerifyChecksum_followedBy :
    (erfVerifyChecksum (some c)).ExtendedBy (erfVerifyChecksum (some (c.followedBy t))) :=
  (load_append c.base t 0 c.size).bind fun _ => .refl _

/-- No lookup looks at the size the container was opened with. -/
theorem findName_withSize (size : ℕ) : findName { c with size := size } q = findName c q := by
  have hscan : ∀ left i, scanNames { c with size := size } q left i = scanNames c q left i := by
    intro left
    induction left with
    | zero => exact fun i => rfl
    | succ left ih =>
      intro i
      unfold scanNames
      simp only [ih]
      rfl
  have hprobe : probeStep { c with size := size } q = probeStep c q := rfl
  unfold findName findHashed findScanning
  rw [hscan, hprobe]

end Lookup

section Opening

variable (b t : Bytes)

theorem openHashTable_append (header : ERFHeader) :
    (openHashTable b header).ExtendedBy (openHashTable (b ++ t) header) := by
  unfold openHashTable
  exact ((ExtendedBy.refl _).ite ((load_append b t _ _).bind fun _ => .refl _)).ite (.refl _)

theorem readDirectory_append (header : ERFHeader) (left i : ℕ) :
    (readDirectory b header left i).ExtendedBy (readDirectory (b ++ t) header left i) := by
  induction left generalizing i with
  | zero => exact .refl _
  | succ left ih =>
    refine ((load_append b t _ _).bind fun _ => .refl _).bind fun entry => ?_
    exact (ExtendedBy.refl _).ite ((ih (i + 1)).bind fun _ => .refl _)

/-- Opening the first `size` bytes of a longer buffer. -/
theorem erfOpenMemory_append {size : ℕ} {r : Except ERFError ERFContainer}
    (h : erfOpenMemory (some b) size = .ok r) :
    erfOpenMemory (some (b ++ t)) size = .ok (r.map (·.followedBy t)) := by
  unfold erfOpenMemory at h ⊢
  by_cases hsmall : size < headerBytes
  · simp only [hsmall, ↓reduceIte] at h ⊢
    obtain rfl := Except.ok.inj h
    rfl
  simp only [hsmall, ↓reduceIte] at h ⊢
  obtain ⟨bs, hbs, h⟩ := bind_eq_ok.mp h
  rw [load_append b t 0 headerBytes bs hbs, ok_bind]
  cases hcheck : checkHeader (ERFHeader.ofBytes bs) size with
  | some e =>
    simp only [hcheck] at h ⊢
    obtain rfl := Except.ok.inj h
    rfl
  | none =>
    simp only [hcheck] at h ⊢
    obtain ⟨table, htable, h⟩ := bind_eq_ok.mp h
    rw [openHashTable_append b t _ table htable, ok_bind]
    cases table with
    | error e =>
      obtain rfl := Except.ok.inj h
      rfl
    | ok table =>
      obtain ⟨resources, hresources, h⟩ := bind_eq_ok.mp h
      dsimp only
      rw [readDirectory_append b t _ _ _ resources hresources, ok_bind]
      obtain rfl := Except.ok.inj h
      cases resources <;> rfl

/-- A container that opens with the size of its first bytes opens with the size of all. -/
theorem erfOpenMemory_of_le {b : Bytes} {size : ℕ} {c : ERFContainer} (hle : size ≤ b.length)
    (h : erfOpenMemory (some b) size = .ok (.ok c)) :
    erfOpenMemory (some b) b.length = .ok (.ok { c with size := b.length }) := by
  unfold erfOpenMemory at h ⊢
  by_cases hsmall : size < headerBytes
  · simp only [hsmall, ↓reduceIte] at h
    cases h
  simp only [hsmall, ↓reduceIte] at h
  have hsmall' : ¬ b.length < headerBytes := by omega
  simp only [hsmall', ↓reduceIte]
  obtain ⟨bs, hbs, h⟩ := bind_eq_ok.mp h
  rw [hbs, ok_bind]
  cases hcheck : checkHeader (ERFHeader.ofBytes bs) size with
  | some e =>
    rw [hcheck] at h
    cases h
  | none =>
    have hok := checkHeader_eq_none_iff.mp hcheck
    have hcheck' : checkHeader (ERFHeader.ofBytes bs) b.length = none :=
      checkHeader_eq_none_iff.mpr { hok with total_le := hok.total_le.trans hle }
    simp only [hcheck, hcheck'] at h ⊢
    obtain ⟨table, htable, h⟩ := bind_eq_ok.mp h
    rw [htable, ok_bind]
    cases table with
    | error e => cases h
    | ok table =>
      obtain ⟨resources, hresources, h⟩ := bind_eq_ok.mp h
      dsimp only
      rw [hresources, ok_bind]
      cases resources with
      | error e => cases h
      | ok resources =>
        obtain rfl := Except.ok.inj (Except.ok.inj h)
        rfl

end Opening

end Elfr.Runtime
