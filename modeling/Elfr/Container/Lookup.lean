import Elfr.Container.Acceptance
import Elfr.Runtime.LookupSafety

/-!
# Lookup in built containers

The two lookup paths of `erf_find_in` agree on what the compiler builds. The
probe loop of the reader is the search of the open-addressing table the builder
filled in directory order, hence finds the first entry whose name matches, and
so does the scan of the directory.
-/
namespace Elfr.Compiler

open Library LinearProbing Common Format Elfr.Runtime

theorem bucketFor_hash (name : CString) (i : ℕ) : (bucketFor name i).hash = hashOfName name :=
  (hashOfName_eq name).symm

/-- The bucket belongs to the name `q`. -/
def matchesName (names : List CString) (q : CString) (bucket : ERFHashBucket) : Bool :=
  bucket.hash = hashOfName q ∧ names[bucket.directoryIndex.toNat]? = some q

theorem matchesName_bucketFor (q : CString) {names : List CString} (hn : names.length < 2 ^ 32)
    {i : ℕ} (hi : i < names.length) :
    matchesName names q (bucketFor names[i] i) = decide (names[i] = q) := by
  have hindex : (bucketFor names[i] i).directoryIndex.toNat = i := toNat_ofNat32 (by omega)
  unfold matchesName
  rw [decide_eq_decide, hindex, List.getElem?_eq_getElem hi, Option.some.injEq]
  constructor
  · exact fun h => h.2
  · rintro rfl
    exact ⟨bucketFor_hash _ i, rfl⟩

section Lookup

variable {items : List Item} {im : Image} {b : Bytes} (h : ImageOf items im b) (t : Bytes)
  (q : CString)
include h

theorem ImageOf.named_iff (i : ℕ) : Named (im.container b.length (b ++ t)) q i ↔
    (items.map Item.name)[i]? = some q := by
  constructor
  · rintro ⟨r, hr, hq⟩
    obtain ⟨hi, entry, rfl, hp⟩ := h.item_of_resource t hr
    have hname : items[i].name = q := (hp.name.append t).unique hq
    simp [hi, hname]
  · intro hq
    have hi : i < items.length := by
      have hlt := (List.getElem?_eq_some_iff.mp hq).1
      simpa using hlt
    obtain ⟨entry, hentry, hp⟩ := h.resource t hi
    have hname : items[i].name = q := by simpa [hi] using hq
    exact ⟨_, hentry, hname ▸ hp.name.append t⟩

theorem ImageOf.namesTerminated : NamesTerminated (im.container b.length (b ++ t)) := by
  intro r hr
  obtain ⟨i, hi⟩ := List.mem_iff_getElem?.mp hr
  obtain ⟨_, entry, rfl, hp⟩ := h.item_of_resource t hi
  exact exists_stringAt_iff.mp ⟨_, hp.name.append t⟩

theorem ImageOf.bucketCount_pos : 0 < im.bucketCount.toNat :=
  Nat.zero_lt_of_lt h.table.room

theorem ImageOf.readBucket_eq {slot : UInt32} (hslot : slot.toNat < im.buckets.length) :
    readBucket (im.container b.length (b ++ t)) slot = .ok im.buckets[slot.toNat] := by
  have hlt : slot < im.bucketCount := by
    rw [UInt32.lt_iff_toNat_lt, ← h.table.length]
    exact hslot
  have hbucket := (h.hashTable_at.append t).right.decode_getElem ERFHashBucket.ofBytes_toBytes
    ERFHashBucket.length_toBytes _ hslot
  rw [ERFHashTableHeader.length_toBytes] at hbucket
  rw [Elfr.Runtime.readBucket_eq (h.accepted t) hlt]
  exact congrArg Except.ok hbucket

theorem ImageOf.length_names_lt : (items.map Item.name).length < 2 ^ 32 :=
  h.table.room.trans im.bucketCount.toNat_lt

theorem ImageOf.bucketMatches_eq {bucket : ERFHashBucket}
    (hbucket : bucket ∈ bucketsFrom 0 (items.map Item.name)) :
    bucketMatches (im.container b.length (b ++ t)) q (hashOfName q) bucket =
      .ok (matchesName (items.map Item.name) q bucket) := by
  obtain ⟨i, hi, rfl⟩ := List.getElem_of_mem hbucket
  rw [length_bucketsFrom] at hi
  have hlt := h.length_names_lt
  rw [getElem_bucketsFrom 0 hi, Nat.zero_add, matchesName_bucketFor q hlt hi]
  rw [List.length_map] at hi
  have hindex : (bucketFor (items.map Item.name)[i] i).directoryIndex.toNat = i :=
    toNat_ofNat32 (by rw [List.length_map] at hlt; omega)
  have hcount : (bucketFor (items.map Item.name)[i] i).directoryIndex <
      (im.container b.length (b ++ t)).resourceCount := by
    rw [UInt32.lt_iff_toNat_lt, hindex]
    change i < (im.header b.length).resourceCount.toNat
    rw [h.resourceCount, h.length_entries]
    exact hi
  obtain ⟨entry, hentry, hp⟩ := h.resource t hi
  have hmatch := nameMatches_of_stringAt (q := q) hentry (hp.name.append t)
  unfold bucketMatches
  by_cases hhash : (bucketFor (items.map Item.name)[i] i).hash = hashOfName q
  · rw [if_pos ⟨hhash, hcount⟩, hindex, hmatch, List.getElem_map]
  · have hne : ¬ items[i].name = q := by
      rintro rfl
      exact hhash (by rw [List.getElem_map, bucketFor_hash])
    rw [if_neg fun hboth => hhash hboth.1, List.getElem_map]
    simp [hne]

/-- The reader's turn at the `k`-th slot looks at the occupant of that slot. -/
theorem ImageOf.probeStep_eq (home : ℕ) {k : ℕ} (hk : k < im.bucketCount.toNat) :
    probeStep (im.container b.length (b ++ t)) q (hashOfName q)
      ⟨slotAt im.bucketCount home k, UInt32.ofNat k⟩ =
    .ok ((occupant im.buckets (probe im.bucketCount.toNat home k)).elim (.inr none) fun bucket =>
      if matchesName (items.map Item.name) q bucket then .inr (some bucket.directoryIndex.toNat)
      else .inl ⟨slotAt im.bucketCount home (k + 1), UInt32.ofNat (k + 1)⟩) := by
  have hpos := h.bucketCount_pos
  have hcount := im.bucketCount.toNat_lt
  have hmore : UInt32.ofNat k < (im.container b.length (b ++ t)).hashBucketCount := by
    rw [UInt32.lt_iff_toNat_lt, toNat_ofNat32 (by omega)]
    exact hk
  have hslot := toNat_slotAt hpos home k
  have hin : (slotAt im.bucketCount home k).toNat < im.buckets.length := by
    rw [hslot, h.table.length]
    exact probe_lt hpos _ k
  have hread := h.readBucket_eq t hin
  have hoccupant := occupant_of_lt hin
  generalize im.buckets[(slotAt im.bucketCount home k).toNat] = bucket at hread hoccupant
  rw [hslot] at hoccupant
  unfold probeStep
  rw [if_pos hmore, hread, Exec.ok_bind, hoccupant]
  by_cases hempty : bucket.directoryIndex = erfHashEmpty
  · rw [if_pos hempty, if_pos hempty]
    rfl
  · rw [if_neg hempty] at hoccupant
    have hmatch := h.bucketMatches_eq t q (h.table.filled.mem hoccupant)
    have hnext : UInt32.ofNat (k + 1) = UInt32.ofNat k + 1 := UInt32.ofNat_add k 1
    rw [if_neg hempty, if_neg hempty, hmatch, Exec.ok_bind, Option.elim_some,
      ← slotAt_succ hpos, hnext]
    cases matchesName (items.map Item.name) q bucket <;> rfl

/-- The probe loop from its `k`-th turn on is the search of the table from the `k`-th slot on. -/
theorem ImageOf.probeLoop_eq (home left k : ℕ) (hk : k + left = im.bucketCount.toNat) :
    loop (probeStep (im.container b.length (b ++ t)) q (hashOfName q)) (left + 1)
      ⟨slotAt im.bucketCount home k, UInt32.ofNat k⟩ =
    .ok ((search im.bucketCount.toNat (occupant im.buckets)
      (matchesName (items.map Item.name) q) home left k).map fun bucket =>
        bucket.directoryIndex.toNat) := by
  induction left generalizing k with
  | zero =>
    have hcount := im.bucketCount.toNat_lt
    have hdone : ¬ UInt32.ofNat k < (im.container b.length (b ++ t)).hashBucketCount := by
      rw [UInt32.lt_iff_toNat_lt, toNat_ofNat32 (by omega)]
      change ¬ k < im.bucketCount.toNat
      omega
    exact loop_exit (by unfold probeStep; rw [if_neg hdone]; rfl) 0
  | succ left ih =>
    have hstep := h.probeStep_eq t q home (show k < im.bucketCount.toNat by omega)
    unfold search
    cases hoccupant : occupant im.buckets (probe im.bucketCount.toNat home k) with
    | none =>
      rw [hoccupant] at hstep
      exact loop_exit hstep _
    | some bucket =>
      rw [hoccupant, Option.elim_some] at hstep
      by_cases hfound : matchesName (items.map Item.name) q bucket = true
      · rw [if_pos hfound] at hstep
        simp only [hfound, ↓reduceIte]
        exact loop_exit hstep _
      · rw [if_neg hfound] at hstep
        rw [loop_continue hstep]
        simp only [hfound, Bool.false_eq_true, ↓reduceIte]
        exact ih (k + 1) (by omega)

/-- The open-addressing path finds the first resource with the queried name. -/
theorem ImageOf.findHashed_spec : ∃ found,
    findHashed (im.container b.length (b ++ t)) q = .ok found ∧
      ∀ k, found = some k ↔ (items.map Item.name)[k]? = some q ∧
        ∀ j < k, (items.map Item.name)[j]? ≠ some q := by
  have hpos := h.bucketCount_pos
  have hloop := h.probeLoop_eq t q ((hashOfName q).toNat % im.bucketCount.toNat)
    im.bucketCount.toNat 0
    (Nat.zero_add _)
  rw [h.table.filled.search_eq_find?, ← slotAt_zero hpos] at hloop
  · refine ⟨_, hloop, fun k => ?_⟩
    have hlt := h.length_names_lt
    simp only [Option.map_eq_some_iff, List.find?_eq_some_iff_getElem, length_bucketsFrom]
    constructor
    · rintro ⟨bucket, ⟨hmatch, i, hi, rfl, hbefore⟩, rfl⟩
      rw [getElem_bucketsFrom 0 hi, Nat.zero_add] at hmatch ⊢
      have hindex : (bucketFor (items.map Item.name)[i] i).directoryIndex.toNat = i :=
        toNat_ofNat32 (by omega)
      rw [matchesName_bucketFor q hlt hi, decide_eq_true_iff] at hmatch
      rw [hindex]
      refine ⟨by rw [List.getElem?_eq_getElem hi, hmatch], fun j hj hjq => ?_⟩
      have hj' := hbefore j hj
      rw [getElem_bucketsFrom 0 (hj.trans hi), Nat.zero_add,
        matchesName_bucketFor q hlt (hj.trans hi)] at hj'
      rw [List.getElem?_eq_getElem (hj.trans hi), Option.some.injEq] at hjq
      simp [hjq] at hj'
    · rintro ⟨hk, hbefore⟩
      obtain ⟨hi, hname⟩ := List.getElem?_eq_some_iff.mp hk
      refine ⟨bucketFor (items.map Item.name)[k] k, ⟨?_, k, hi, ?_, fun j hj => ?_⟩,
        toNat_ofNat32 (by omega)⟩
      · rw [matchesName_bucketFor q hlt hi, decide_eq_true_iff]
        exact hname
      · rw [getElem_bucketsFrom 0 hi, Nat.zero_add]
      · rw [getElem_bucketsFrom 0 (hj.trans hi), Nat.zero_add,
          matchesName_bucketFor q hlt (hj.trans hi)]
        have hj' := hbefore j hj
        rw [List.getElem?_eq_getElem (hj.trans hi), ne_eq, Option.some.injEq] at hj'
        rw [decide_eq_false hj']
        rfl
  · intro bucket hmatch
    unfold matchesName at hmatch
    rw [bucketHome, (of_decide_eq_true hmatch).1]

/-- Both paths of `erf_find_in` give the first resource with the queried name. -/
theorem ImageOf.find_agree : ∃ found,
    findHashed (im.container b.length (b ++ t)) q = .ok found ∧
      findScanning (im.container b.length (b ++ t)) q = .ok found ∧
      ∀ k, found = some k ↔ (items.map Item.name)[k]? = some q ∧
        ∀ j < k, (items.map Item.name)[j]? ≠ some q := by
  obtain ⟨found, hfound, hspec⟩ := h.findHashed_spec t q
  obtain ⟨found', hfound', hspec'⟩ := findScanning_spec (q := q) (h.accepted t)
    (h.namesTerminated t)
  have hsame : found' = found := Option.ext fun k => by
    rw [hspec, hspec']
    simp only [h.named_iff t q, ne_eq]
  exact ⟨found, hfound, hsame ▸ hfound', hspec⟩

end Lookup

def ElfrcManifest.Named (m : ElfrcManifest) (q : CString) (i : ℕ) : Prop :=
  ∃ r, m.resources[i]? = some r ∧ r.name = some q

theorem named_iff_of_loads {fs : FileSystem} {m : ElfrcManifest} {items : List Item}
    (hloads : List.Forall₂ (Loads fs) m.resources items) (q : CString) (i : ℕ) :
    m.Named q i ↔ (items.map Item.name)[i]? = some q := by
  have hlen := hloads.length_eq
  constructor
  · rintro ⟨r, hr, hq⟩
    obtain ⟨hi, rfl⟩ := List.getElem?_eq_some_iff.mp hr
    have hname := (hloads.get hi (hlen ▸ hi)).name.symm.trans hq
    simp only [List.get_eq_getElem, Option.some.injEq] at hname
    simp [hlen ▸ hi, hname]
  · intro hq
    have hi : i < items.length := by
      have hlt := (List.getElem?_eq_some_iff.mp hq).1
      simpa using hlt
    have hname : items[i].name = q := by simpa [hi] using hq
    have hi' : i < m.resources.length := hlen ▸ hi
    exact ⟨m.resources[i], List.getElem?_eq_getElem hi', hname ▸ (hloads.get hi' hi).name⟩

/-- **The hash table refines the directory scan.** On the container of a manifest,
below 2^32 bytes, `erf_find_in` takes the open-addressing path and returns for every
query what the scan returns there: the first resource of that name, or none with
`ERF_ERR_NOT_FOUND` exactly if no resource has it. -/
theorem hashed_lookup_eq_scan {fs : FileSystem} {m : ElfrcManifest} {b : Bytes}
    (hbuild : Builds fs m b) (hlt : b.length < 2 ^ 32) :
    ∃ c, erfOpenMemory (some b) b.length = .ok (.ok c) ∧
      c.hasHashTable = true ∧ c.hashBucketCount > 0 ∧
      ∀ q, ∃ found, findHashed c q = .ok found ∧ findScanning c q = .ok found ∧
        erfFindIn (some c) (some q) =
          .ok (found, if found.isSome then .ok else .notFound) ∧
        (∀ i, found = some i ↔ m.Named q i ∧ ∀ j < i, ¬ m.Named q j) ∧
        (found = none ↔ ∀ i, ¬ m.Named q i) := by
  obtain ⟨items, im, hloads, him⟩ := hbuild.imageOf hlt
  have hopen := him.opens []
  rw [List.append_nil] at hopen
  have hcount : im.bucketCount > 0 := UInt32.lt_iff_toNat_lt.mpr him.bucketCount_pos
  refine ⟨_, hopen, rfl, hcount, fun q => ?_⟩
  obtain ⟨found, hhashed, hscan, hspec⟩ := him.find_agree [] q
  rw [List.append_nil] at hhashed hscan
  have hspec' : ∀ i, found = some i ↔ m.Named q i ∧ ∀ j < i, ¬ m.Named q j := by
    intro i
    simp only [hspec i, named_iff_of_loads hloads, ne_eq]
  refine ⟨found, hhashed, hscan, erfFindIn_of_findName ?_, hspec', ?_⟩
  · rw [findName, if_pos ⟨rfl, hcount⟩, hhashed]
  · constructor
    · rintro rfl i
      induction i using Nat.strong_induction_on with
      | _ i ih => exact fun hi => absurd ((hspec' i).mpr ⟨hi, ih⟩) (by simp)
    · intro hnone
      cases found with
      | none => rfl
      | some i => exact absurd ((hspec' i).mp rfl).1 (hnone i)

theorem hashed_lookup_eq_scan_pair :
    ∃ b c, Builds pairFiles pairManifest b ∧ erfOpenMemory (some b) b.length = .ok (.ok c) ∧
      erfFindIn (some c) (some ⟨[0x61], by decide⟩) = .ok (some 0, .ok) := by
  obtain ⟨b, im, hbuild, hlen, -⟩ := builds_of_loads pair_loads pair_size
  obtain ⟨c, hopen, -, -, hfind⟩ := hashed_lookup_eq_scan hbuild (hlen ▸ pair_size)
  obtain ⟨found, -, -, hresult, hfirst, -⟩ := hfind ⟨[0x61], by decide⟩
  obtain rfl : found = some 0 :=
    (hfirst 0).mpr ⟨⟨_, rfl, rfl⟩, fun j hj => absurd hj (Nat.not_lt_zero j)⟩
  exact ⟨b, c, hbuild, hopen, hresult⟩

end Elfr.Compiler
