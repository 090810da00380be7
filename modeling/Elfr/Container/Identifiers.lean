import Elfr.Compiler.IdAssignment
import Elfr.Container.Acceptance

/-!
# Identifiers at runtime

The directory of a built container lists the final identifiers of the manifest,
and `erf_find_id_in` scans it. Identifiers that are pairwise distinct in the
manifest therefore name their resources at runtime.
-/
namespace Elfr.Compiler

open Library Format Elfr.Runtime

theorem scanIds_eq {c : ERFContainer} (id : UInt32) {left i : ℕ}
    (hi : i + left = c.resources.length) :
    scanIds c id left i = .ok (((c.resources.drop i).findIdx? (·.id = id)).map (· + i)) := by
  induction left generalizing i with
  | zero =>
    rw [List.drop_eq_nil_of_le (by omega)]
    rfl
  | succ left ih =>
    have hlt : i < c.resources.length := by omega
    rw [List.drop_eq_getElem_cons hlt, List.findIdx?_cons]
    unfold scanIds
    rw [Exec.index_of_lt hlt, Exec.ok_bind]
    by_cases hid : c.resources[i].id = id
    · simp [hid]
    · rw [if_neg hid, ih (by omega), if_neg (by simpa using hid), Option.map_map]
      congr 2
      funext k
      simp only [Function.comp_apply]
      omega

theorem erfFindIdIn_eq {b : Bytes} {c : ERFContainer} (h : Accepted b c) (id : UInt32) :
    erfFindIdIn (some c) id = .ok (lookupResult (c.resources.findIdx? (·.id = id))) := by
  have hall : 0 + c.resourceCount.toNat = c.resources.length := by
    rw [h.length_resources, Nat.zero_add]
  have hscan := scanIds_eq id hall
  simp [erfFindIdIn, hscan]

theorem findIdx?_id_of_nodup {rs : List ERFResource} (hnodup : (rs.map (·.id)).Nodup) {i : ℕ}
    (hi : i < rs.length) : rs.findIdx? (·.id = rs[i].id) = some i := by
  have hne := List.pairwise_iff_getElem.mp (List.pairwise_map.mp hnodup)
  rw [List.findIdx?_eq_some_iff_getElem]
  refine ⟨hi, by simp, fun j hj => ?_⟩
  simpa using hne j i (hj.trans hi) hi hj

section Ids

variable {items : List Item} {im : Image} {b : Bytes}

theorem ImageOf.map_id (h : ImageOf items im b) (t : Bytes) :
    (im.container b.length (b ++ t)).resources.map (·.id) = items.map Item.id := by
  change (im.entries.map toResource).map (·.id) = _
  rw [List.map_map]
  have hentries := h.entries
  generalize im.entries = entries at hentries
  clear h
  induction hentries with
  | nil => rfl
  | cons hp _ ih => simp [ih, toResource, hp.id]

theorem map_finalId_of_loads {fs : FileSystem} {rs : List ElfrcResource}
    (h : List.Forall₂ (Loads fs) rs items) : rs.map (·.finalId) = items.map Item.id := by
  induction h with
  | nil => rfl
  | cons hload _ ih => simp [ih, hload.id]

end Ids

theorem Builds.findId {fs : FileSystem} {m : ElfrcManifest} {b : Bytes} (hbuild : Builds fs m b)
    (hlt : b.length < 2 ^ 32) (hnodup : (m.resources.map (·.finalId)).Nodup) :
    ∃ c, erfOpenMemory (some b) b.length = .ok (.ok c) ∧
      (∀ (i : ℕ) r, m.resources[i]? = some r →
        erfFindIdIn (some c) r.finalId = .ok (some i, .ok)) ∧
      ∀ id, (∀ r ∈ m.resources, r.finalId ≠ id) →
        erfFindIdIn (some c) id = .ok (none, .notFound) := by
  obtain ⟨items, im, hloads, him⟩ := hbuild.imageOf hlt
  have haccepted := him.accepted []
  have hids := (him.map_id []).trans (map_finalId_of_loads hloads).symm
  have hopen := him.opens []
  rw [List.append_nil] at haccepted hids hopen
  refine ⟨_, hopen, fun i r hr => ?_, fun id hid => ?_⟩
  · have hentry := congrArg (fun ids : List UInt32 => ids[i]?) hids
    simp only [List.getElem?_map, hr, Option.map_some, Option.map_eq_some_iff] at hentry
    obtain ⟨entry, hentry, hid⟩ := hentry
    obtain ⟨hi, rfl⟩ := List.getElem?_eq_some_iff.mp hentry
    rw [erfFindIdIn_eq haccepted, ← hid, findIdx?_id_of_nodup (hids ▸ hnodup) hi]
    rfl
  · have hnone : (im.container b.length b).resources.findIdx? (·.id = id) = none := by
      rw [List.findIdx?_eq_none_iff]
      intro entry hentry
      have hmem : entry.id ∈ m.resources.map (·.finalId) := hids ▸ List.mem_map_of_mem hentry
      obtain ⟨r, hr, hsame⟩ := List.mem_map.mp hmem
      simpa [← hsame] using hid r hr
    rw [erfFindIdIn_eq haccepted, hnone]
    rfl

/-- **Identifiers are collision-free and minimal, and survive to the runtime.** The
pass returns on fewer than 2^32 - 1 named resources, with no overflow of its counter. It
reports an error exactly if two explicit identifiers are equal or two resources share name
and language. Otherwise explicit identifiers are kept, a resource without one gets the
fresh number of its position among these, and `erf_find_id_in` on a container built from
the manifest finds every resource by its final identifier and nothing else. -/
theorem identifiers_assigned (ctx : ParseCtx) (m : ElfrcManifest)
    (hcount : m.resources.length < 2 ^ 32 - 1) (hnames : ∀ r ∈ m.resources, r.name ≠ none) :
    ∃ err m', Returns (fun fuel => assignAndValidateIds fuel ctx none m) (err, m') ∧
      (err ≠ none ↔ ¬ (explicitIds m.resources).Nodup ∨
        ¬ (m.resources.map resourceKey).Nodup) ∧
      (err = none →
        m' = { m with resources := m'.resources } ∧
        m'.resources.length = m.resources.length ∧
        (∀ (i : ℕ) r, m.resources[i]? = some r → ∃ r', m'.resources[i]? = some r' ∧
          r' = { r with finalId := r'.finalId } ∧
          (r.idExplicit = true → r'.finalId = r.id) ∧
          (r.idExplicit = false → r'.finalId.toNat ≤ m.resources.length ∧
            r'.finalId.toNat = freshNumber ((explicitIds m.resources).map UInt32.toNat)
              ((m.resources.take i).countP fun r => !r.idExplicit))) ∧
        (m'.resources.map (·.finalId)).Nodup ∧
        ∀ fs b, Builds fs m' b → b.length < 2 ^ 32 →
          ∃ c, erfOpenMemory (some b) b.length = .ok (.ok c) ∧
            (∀ (i : ℕ) r', m'.resources[i]? = some r' →
              erfFindIdIn (some c) r'.finalId = .ok (some i, .ok)) ∧
            ∀ id, (∀ r' ∈ m'.resources, r'.finalId ≠ id) →
              erfFindIdIn (some c) id = .ok (none, .notFound)) := by
  obtain ⟨err, m', heq, hchecked, hout⟩ := assignAndValidateIds_spec
    m.resources.length ctx none (by omega) le_rfl hnames
  refine ⟨err, m', ⟨_, heq⟩, ?_, fun hnone => ?_⟩
  · rw [ne_eq, hchecked.none_iff]
    tauto
  obtain ⟨-, hexplicit, -⟩ := hchecked.none_iff.mp hnone
  obtain ⟨out, rfl, hassigned⟩ := hout hexplicit
  have hnodup := hassigned.nodup hexplicit fun id hid => List.mem_map_of_mem hid
  refine ⟨rfl, hassigned.length_eq, fun i r hr => ?_, hnodup, fun fs b hbuild hlt => ?_⟩
  · obtain ⟨r', hr', hsame, hkept, hfresh⟩ := hassigned.get hr
    refine ⟨r', hr', hsame, hkept, fun hauto => ?_⟩
    have hid := hfresh hauto
    rw [Nat.zero_add] at hid
    refine ⟨?_, hid⟩
    have hle := freshNumber_le (takenIds m.resources) (automaticCount (m.resources.take i))
    have hlength := length_takenIds_add m.resources
    have hbefore := automaticCount_take_lt hr hauto
    omega
  · exact hbuild.findId hlt hnodup

theorem identifiers_assigned_pair :
    let ctx : ParseCtx := ⟨⟨[], by simp, by simp⟩, .literal "pair.elfrc", .literal "."⟩
    ∃ m', Returns (fun fuel => assignAndValidateIds fuel ctx none pairManifest) (none, m') ∧
      (m'.resources.map (·.finalId)).Nodup ∧ m'.resources[1]?.map (·.finalId) = some 7 := by
  intro ctx
  obtain ⟨err, m', hreturns, hiff, hspec⟩ :=
    identifiers_assigned ctx pairManifest (by decide) (by decide)
  have hnone : err = none := by
    by_contra hsome
    rcases hiff.mp hsome with hdup | hdup <;> exact hdup (by decide)
  obtain ⟨-, -, hget, hnodup, -⟩ := hspec hnone
  obtain ⟨r', hr', -, hkept, -⟩ := hget 1 _ rfl
  exact ⟨m', hnone ▸ hreturns, hnodup, by rw [hr', Option.map_some, hkept rfl]⟩

end Elfr.Compiler
