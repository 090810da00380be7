import Elfr.Container.Identifiers

/-!
# Identifiers of a manifest that grows

A program may hold on to identifiers of an older manifest. Resources that are appended leave
the earlier identifiers alone as long as they do not claim, explicitly, one that an earlier
resource had got automatically. The claimed number would be skipped, and all automatic
identifiers from there on move up.
-/
namespace Elfr.Compiler

open Library Common Format Elfr.Runtime

section Assigned

variable {taken : List ℕ} {k : ℕ} {rs more out out' : List ElfrcResource}

theorem takenIds_append (rs more : List ElfrcResource) :
    takenIds (rs ++ more) = takenIds rs ++ takenIds more := by
  simp [takenIds, explicitIds]

/-- Every fresh number that was handed out is some final identifier. -/
theorem Assigned.exists_automatic (h : Assigned taken k rs out) {j : ℕ}
    (hj : j < automaticCount rs) :
    ∃ id ∈ out.map (·.finalId), id.toNat = freshNumber taken (k + j) := by
  induction h generalizing j with
  | nil => exact absurd hj (Nat.not_lt_zero j)
  | @explicit k r rs out hr _ ih =>
    have hsame : automaticCount (r :: rs) = automaticCount rs := by simp [automaticCount, hr]
    obtain ⟨id, hid, hnumber⟩ := ih (hsame ▸ hj)
    exact ⟨id, List.mem_cons_of_mem _ hid, hnumber⟩
  | @automatic k r rs out id hr hfresh _ ih =>
    have hsame : automaticCount (r :: rs) = automaticCount rs + 1 := by simp [automaticCount, hr]
    cases j with
    | zero => exact ⟨id, List.mem_cons_self, hfresh⟩
    | succ j =>
      obtain ⟨id', hid, hnumber⟩ := ih (Nat.lt_of_succ_lt_succ (hsame ▸ hj))
      exact ⟨id', List.mem_cons_of_mem _ hid, by rw [hnumber, Nat.add_right_comm, Nat.add_assoc]⟩

variable (h : Assigned (takenIds rs) 0 rs out)
  (h' : Assigned (takenIds (rs ++ more)) 0 (rs ++ more) out')
include h h'

/-- Nothing moves if no appended identifier is one that had been handed out. -/
theorem Assigned.ids_kept (hnew : ∀ r ∈ more, r.idExplicit = true → r.id ∉ out.map (·.finalId))
    {i : ℕ} {r : ElfrcResource} (hr : rs[i]? = some r) :
    out'[i]?.map (·.finalId) = out[i]?.map (·.finalId) := by
  obtain ⟨hi, -⟩ := List.getElem?_eq_some_iff.mp hr
  have hr' : (rs ++ more)[i]? = some r := by rw [List.getElem?_append_left hi, hr]
  obtain ⟨s, hs, -, hexplicit, hautomatic⟩ := h.get hr
  obtain ⟨s', hs', -, hexplicit', hautomatic'⟩ := h'.get hr'
  rw [hs, hs', Option.map_some, Option.map_some, Option.some.injEq]
  cases hid : r.idExplicit with
  | true => rw [hexplicit hid, hexplicit' hid]
  | false =>
    have htake : (rs ++ more).take i = rs.take i := List.take_append_of_le_length hi.le
    have hmissed : ∀ j ≤ automaticCount (rs.take i),
        freshNumber (takenIds rs) j ∉ takenIds more := by
      intro j hj hmem
      obtain ⟨id, hid', hnumber⟩ :=
        h.exists_automatic (hj.trans_lt (automaticCount_take_lt hr hid))
      obtain ⟨claimed, hclaimed, hsame⟩ := List.mem_map.mp hmem
      obtain ⟨r', hr', rfl⟩ := List.mem_map.mp hclaimed
      obtain ⟨hmore, hexplicit⟩ := List.mem_filter.mp hr'
      rw [Nat.zero_add, ← hsame] at hnumber
      exact hnew r' hmore hexplicit (UInt32.toNat_inj.mp hnumber ▸ hid')
    have hnumber := hautomatic hid
    have hnumber' := hautomatic' hid
    rw [Nat.zero_add] at hnumber hnumber'
    rw [htake, takenIds_append, freshNumber_append hmissed] at hnumber'
    exact UInt32.toNat_inj.mp (hnumber'.trans hnumber.symm)

omit h in
/-- Conversely, an identifier cannot be claimed and stay with the resource that had it. -/
theorem Assigned.not_claimed (hnodup : (out'.map (·.finalId)).Nodup)
    (hkept : (out'.take rs.length).map (·.finalId) = out.map (·.finalId)) :
    ∀ r ∈ more, r.idExplicit = true → r.id ∉ out.map (·.finalId) := by
  intro r hr hexplicit hmem
  obtain ⟨j, hj, rfl⟩ := List.getElem_of_mem hr
  have hget : (rs ++ more)[rs.length + j]? = some more[j] := by
    rw [List.getElem?_append_right (Nat.le_add_right _ _), Nat.add_sub_cancel_left,
      List.getElem?_eq_getElem hj]
  obtain ⟨s, hs, -, hid, -⟩ := h'.get hget
  have hlater : s ∈ out'.drop rs.length := by
    refine List.mem_of_getElem? (i := j) ?_
    rw [List.getElem?_drop, hs]
  rw [← hkept] at hmem
  rw [← List.take_append_drop rs.length out', List.map_append] at hnodup
  refine List.disjoint_of_nodup_append hnodup hmem ?_
  rw [← hid hexplicit]
  exact List.mem_map_of_mem hlater

theorem Assigned.ids_kept_iff (hnodup : (out'.map (·.finalId)).Nodup) :
    (out'.take rs.length).map (·.finalId) = out.map (·.finalId) ↔
      ∀ r ∈ more, r.idExplicit = true → r.id ∉ out.map (·.finalId) := by
  refine ⟨h'.not_claimed hnodup, fun hnew => List.ext_getElem? fun i => ?_⟩
  rw [List.getElem?_map, List.getElem?_map, List.getElem?_take]
  by_cases hi : i < rs.length
  · rw [if_pos hi]
    exact h.ids_kept h' hnew (List.getElem?_eq_getElem hi)
  · rw [if_neg hi, List.getElem?_eq_none (h.length_eq ▸ Nat.le_of_not_lt hi)]

end Assigned

/-- A pass without error has assigned identifiers that are all different. -/
theorem assigned_of_returns {ctx : ParseCtx} {m m' : ElfrcManifest}
    (hcount : m.resources.length < 2 ^ 32 - 1) (hnames : ∀ r ∈ m.resources, r.name ≠ none)
    (h : Returns (fun fuel => assignAndValidateIds fuel ctx none m) (none, m')) :
    Assigned (takenIds m.resources) 0 m.resources m'.resources ∧
      (m'.resources.map (·.finalId)).Nodup := by
  obtain ⟨fuel, hfuel⟩ := h
  have hlarge := assignAndValidateIds_mono (Nat.le_max_left fuel m.resources.length) hfuel
  obtain ⟨err, m'', heq, hchecked, hout⟩ := assignAndValidateIds_spec
    (max fuel m.resources.length) ctx none (by omega) (Nat.le_max_right _ _) hnames
  obtain ⟨rfl, rfl⟩ := Prod.mk.inj (Except.ok.inj (hlarge.symm.trans heq))
  obtain ⟨-, hexplicit, -⟩ := hchecked.none_iff.mp rfl
  obtain ⟨out, rfl, hassigned⟩ := hout hexplicit
  exact ⟨hassigned, hassigned.nodup hexplicit fun id hid => List.mem_map_of_mem hid⟩

/-- **When a manifest may grow.** Let both a manifest and the one with more resources at its
end pass. Every earlier resource keeps its identifier exactly if none of the new ones claims an
identifier that was assigned before. Then a program that knows the identifiers of the old
container finds the same resources in one built from the new manifest. -/
theorem appending_keeps_ids_iff (ctx : ParseCtx) (m m₁ m₂ : ElfrcManifest)
    (more : List ElfrcResource) (hcount : (m.resources ++ more).length < 2 ^ 32 - 1)
    (hnames : ∀ r ∈ m.resources ++ more, r.name ≠ none)
    (h₁ : Returns (fun fuel => assignAndValidateIds fuel ctx none m) (none, m₁))
    (h₂ : Returns (fun fuel => assignAndValidateIds fuel ctx none
      { m with resources := m.resources ++ more }) (none, m₂)) :
    ((m₂.resources.take m.resources.length).map (·.finalId) = m₁.resources.map (·.finalId) ↔
        ∀ r ∈ more, r.idExplicit = true → r.id ∉ m₁.resources.map (·.finalId)) ∧
      ((∀ r ∈ more, r.idExplicit = true → r.id ∉ m₁.resources.map (·.finalId)) →
        ∀ fs b, Builds fs m₂ b → b.length < 2 ^ 32 →
          ∃ c, erfOpenMemory (some b) b.length = .ok (.ok c) ∧
            ∀ (i : ℕ) r, m₁.resources[i]? = some r →
              erfFindIdIn (some c) r.finalId = .ok (some i, .ok)) := by
  have hshort : m.resources.length < 2 ^ 32 - 1 := by
    rw [List.length_append] at hcount
    omega
  obtain ⟨hassigned, -⟩ :=
    assigned_of_returns hshort (fun r hr => hnames r (List.mem_append_left _ hr)) h₁
  obtain ⟨hassigned', hnodup⟩ := assigned_of_returns hcount hnames h₂
  refine ⟨hassigned.ids_kept_iff hassigned' hnodup, fun hnew fs b hbuild hlt => ?_⟩
  obtain ⟨c, hopen, hfind, -⟩ := hbuild.findId hlt hnodup
  refine ⟨c, hopen, fun i r hr => ?_⟩
  obtain ⟨hi, -⟩ := List.getElem?_eq_some_iff.mp hr
  have hi' : i < m.resources.length := hassigned.length_eq ▸ hi
  have hsame := hassigned.ids_kept hassigned' hnew (List.getElem?_eq_getElem hi')
  rw [hr, Option.map_some, Option.map_eq_some_iff] at hsame
  obtain ⟨r', hr', hid⟩ := hsame
  rw [← hid]
  exact hfind i r' hr'

/-- The pair with the first of its resources once more, under another name. -/
def moreResources : List ElfrcResource :=
  (pairManifest.resources.take 1).map fun r => { r with name := some ⟨[0x62], by decide⟩ }

theorem appending_keeps_ids_iff_pair :
    let ctx : ParseCtx := ⟨⟨[], by simp, by simp⟩, .literal "pair.elfrc", .literal "."⟩
    ∃ m₁ m₂, Returns (fun fuel => assignAndValidateIds fuel ctx none pairManifest) (none, m₁) ∧
      Returns (fun fuel => assignAndValidateIds fuel ctx none
        { pairManifest with resources := pairManifest.resources ++ moreResources }) (none, m₂) ∧
      (m₂.resources.take 2).map (·.finalId) = m₁.resources.map (·.finalId) := by
  intro ctx
  have hpass : ∀ m : ElfrcManifest, m.resources.length + 1 < 2 ^ 32 →
      (∀ r ∈ m.resources, r.name ≠ none) → (explicitIds m.resources).Nodup →
      (m.resources.map resourceKey).Nodup →
      ∃ m', Returns (fun fuel => assignAndValidateIds fuel ctx none m) (none, m') := by
    intro m hlt hnames hexplicit hkeys
    obtain ⟨err, m', heq, hchecked, -⟩ :=
      assignAndValidateIds_spec _ ctx none hlt le_rfl hnames
    obtain rfl := hchecked.none_iff.mpr ⟨rfl, hexplicit, hkeys⟩
    exact ⟨m', _, heq⟩
  obtain ⟨m₁, h₁⟩ := hpass pairManifest (by decide) (by decide) (by decide) (by decide)
  obtain ⟨m₂, h₂⟩ :=
    hpass { pairManifest with resources := pairManifest.resources ++ moreResources }
    (by decide) (by decide) (by decide) (by decide)
  obtain ⟨hiff, -⟩ := appending_keeps_ids_iff ctx pairManifest m₁ m₂ moreResources (by decide)
    (by decide) h₁ h₂
  refine ⟨m₁, m₂, h₁, h₂, hiff.mpr fun r hr hexplicit => ?_⟩
  have hauto : ∀ r ∈ moreResources, r.idExplicit = false := by decide
  exact absurd (hexplicit.symm.trans (hauto r hr)) (by decide)

end Elfr.Compiler
