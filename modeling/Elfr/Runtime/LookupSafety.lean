import Elfr.Runtime.ReaderBounds

/-!
# Lookup over an arbitrary hash table

The bucket array of an accepted buffer is arbitrary. Still every turn of the
probe loop reads one bucket of the array, follows a bucket only to a resource
that exists, and is counted, so the loop ends after one turn for each bucket;
what it finds has the queried name because names are compared last.
-/
namespace Elfr.Runtime

open Library Common Format

/-- Every resource name ends in the buffer. -/
def NamesTerminated (c : ERFContainer) : Prop :=
  ∀ r ∈ c.resources, (0 : UInt8) ∈ c.base.drop r.name

instance : Decidable (NamesTerminated c) :=
  inferInstanceAs (Decidable (∀ r ∈ c.resources, (0 : UInt8) ∈ c.base.drop r.name))

section Lookup

variable {b : Bytes} {c : ERFContainer} {q : CString}

def Named (c : ERFContainer) (q : CString) (i : ℕ) : Prop :=
  ∃ r, c.resources[i]? = some r ∧ StringAt c.base r.name q

theorem nameMatches_of_stringAt {i : ℕ} {r : ERFResource} {s : CString}
    (hi : c.resources[i]? = some r) (hs : StringAt c.base r.name s) :
    nameMatches c q i = .ok (decide (s = q)) := by
  unfold nameMatches
  rw [Exec.index_eq_ok.mpr hi, Exec.ok_bind, strcmpEq_of_stringAt hs]

theorem exists_nameMatches (hnames : NamesTerminated c) {i : ℕ} (hi : i < c.resources.length) :
    ∃ found, nameMatches c q i = .ok found ∧ (found = true ↔ Named c q i) := by
  obtain ⟨s, hs⟩ := exists_stringAt_iff.mpr (hnames _ (List.getElem_mem hi))
  have hget := List.getElem?_eq_getElem hi
  refine ⟨_, nameMatches_of_stringAt hget hs, ?_⟩
  rw [decide_eq_true_iff]
  constructor
  · rintro rfl
    exact ⟨_, hget, hs⟩
  · rintro ⟨r, hr, hq⟩
    obtain rfl := Option.some.inj (hget.symm.trans hr)
    exact hs.unique hq

theorem exists_bucketMatches (h : Accepted b c) (hnames : NamesTerminated c) (hash : UInt64)
    (bucket : ERFHashBucket) :
    ∃ found, bucketMatches c q hash bucket = .ok found ∧
      (found = true → Named c q bucket.directoryIndex.toNat) := by
  unfold bucketMatches
  by_cases hmatch : bucket.hash = hash ∧ bucket.directoryIndex < c.resourceCount
  · have hlt : bucket.directoryIndex.toNat < c.resources.length := by
      rw [h.length_resources]
      exact hmatch.2
    obtain ⟨found, hfound, hiff⟩ := exists_nameMatches (q := q) hnames hlt
    exact ⟨found, by rw [if_pos hmatch, hfound], hiff.mp⟩
  · exact ⟨false, by rw [if_neg hmatch]; rfl, fun hf => absurd hf Bool.false_ne_true⟩

theorem readBucket_eq (h : Accepted b c) {slot : UInt32} (hslot : slot < c.hashBucketCount) :
    readBucket c slot = .ok (ERFHashBucket.ofBytes
      (slice c.base (c.hashBuckets + bucketBytes * slot.toNat) bucketBytes)) := by
  have hle := h.bucket_le (UInt32.lt_iff_toNat_lt.mp hslot)
  have htotal := h.total_le
  rw [← h.base] at htotal
  unfold readBucket
  rw [if_pos hslot, load_of_le (by omega)]
  rfl

/-- The probe loop stays inside the bucket array. -/
def ProbeState.InRange (c : ERFContainer) (s : ProbeState) : Prop :=
  s.slot < c.hashBucketCount ∧ s.probed ≤ c.hashBucketCount

def ProbeState.remaining (c : ERFContainer) (s : ProbeState) : ℕ :=
  c.hashBucketCount.toNat - s.probed.toNat

/-- What one turn of the probe loop does from a slot in range. -/
theorem probeStep_cases (h : Accepted b c) (hnames : NamesTerminated c) (q : CString)
    (hash : UInt64) {s : ProbeState} (hs : s.InRange c) :
    probeStep c q hash s = .ok (.inr none) ∨
    (∃ i, probeStep c q hash s = .ok (.inr (some i)) ∧ Named c q i) ∨
    (probeStep c q hash s = .ok (.inl ⟨(s.slot + 1) % c.hashBucketCount, s.probed + 1⟩) ∧
      s.probed < c.hashBucketCount) := by
  unfold probeStep
  by_cases hprobed : s.probed < c.hashBucketCount
  · rw [if_pos hprobed, readBucket_eq h hs.1, Exec.ok_bind]
    generalize ERFHashBucket.ofBytes _ = bucket
    by_cases hempty : bucket.directoryIndex = erfHashEmpty
    · exact .inl (by rw [if_pos hempty]; rfl)
    · obtain ⟨found, hfound, hnamed⟩ := exists_bucketMatches (q := q) h hnames hash bucket
      rw [if_neg hempty, hfound, Exec.ok_bind]
      cases found with
      | true => exact .inr (.inl ⟨_, rfl, hnamed rfl⟩)
      | false => exact .inr (.inr ⟨rfl, hprobed⟩)
  · exact .inl (by rw [if_neg hprobed]; rfl)

theorem next_inRange {s : ProbeState} (hprobed : s.probed < c.hashBucketCount) :
    (ProbeState.mk ((s.slot + 1) % c.hashBucketCount) (s.probed + 1)).InRange c ∧
      (ProbeState.mk ((s.slot + 1) % c.hashBucketCount) (s.probed + 1)).remaining c <
        s.remaining c := by
  have hlt := UInt32.lt_iff_toNat_lt.mp hprobed
  have hcount := c.hashBucketCount.toNat_lt
  have hsucc : (s.probed + 1).toNat = s.probed.toNat + 1 := by
    rw [UInt32.toNat_add]
    exact Nat.mod_eq_of_lt (by change _ + 1 < _; omega)
  refine ⟨⟨?_, ?_⟩, ?_⟩
  · rw [UInt32.lt_iff_toNat_lt, UInt32.toNat_mod]
    exact Nat.mod_lt _ (by omega)
  · rw [UInt32.le_iff_toNat_le, hsucc]
    omega
  · simp only [ProbeState.remaining, hsucc]
    omega

/-- The probe loop returns within its budget, and finds only the query. -/
theorem findHashed_spec (h : Accepted b c) (hnames : NamesTerminated c)
    (hcount : c.hashBucketCount > 0) :
    ∃ found, findHashed c q = .ok found ∧ ∀ i, found = some i → Named c q i := by
  have hpos := UInt32.lt_iff_toNat_lt.mp hcount
  have hstart :
      (ProbeState.mk (hashOfName q % c.hashBucketCount.toUInt64).toUInt32 0).InRange c := by
    refine ⟨?_, UInt32.le_iff_toNat_le.mpr (Nat.zero_le _)⟩
    have hmod : (hashOfName q % c.hashBucketCount.toUInt64).toNat < c.hashBucketCount.toNat := by
      rw [UInt64.toNat_mod, UInt32.toNat_toUInt64]
      exact Nat.mod_lt _ hpos
    rw [UInt32.lt_iff_toNat_lt, UInt64.toNat_toUInt32]
    exact Nat.lt_of_le_of_lt (Nat.mod_le _ _) hmod
  have hstep : ∀ s s' : ProbeState, s.InRange c →
      probeStep c q (hashOfName q) s = .ok (.inl s') →
      s'.InRange c ∧ s'.remaining c < s.remaining c := by
    intro s s' hs hnext
    rcases probeStep_cases h hnames q (hashOfName q) hs with
      hnone | ⟨i, hsome, -⟩ | ⟨hmore, hprobed⟩
    · simp [hnone] at hnext
    · simp [hsome] at hnext
    · obtain rfl : _ = s' := by simpa using hmore.symm.trans hnext
      exact next_inRange hprobed
  have hsafe : ∀ s : ProbeState, s.InRange c → (probeStep c q (hashOfName q) s).Safe := by
    intro s hs
    rcases probeStep_cases h hnames q (hashOfName q) hs with hnone | ⟨i, hsome, -⟩ | ⟨hmore, -⟩
    exacts [⟨_, hnone⟩, ⟨_, hsome⟩, ⟨_, hmore⟩]
  have hfuel : (ProbeState.mk (hashOfName q % c.hashBucketCount.toUInt64).toUInt32 0).remaining c <
      c.hashBucketCount.toNat + 1 := Nat.lt_succ_of_le (Nat.sub_le _ _)
  obtain ⟨found, hfound⟩ := loop_total (ProbeState.InRange c) (ProbeState.remaining c) hsafe hstep
    hstart hfuel
  refine ⟨found, hfound, fun i hi => ?_⟩
  obtain ⟨t, ht, hexit⟩ := loop_invariant (ProbeState.InRange c)
    (fun s s' hs hnext => (hstep s s' hs hnext).1) hstart hfound
  rcases probeStep_cases h hnames q (hashOfName q) ht with hnone | ⟨j, hsome, hj⟩ | ⟨hmore, -⟩
  · simp [hnone, hi] at hexit
  · obtain rfl : j = i := by simpa [hi] using hsome.symm.trans hexit
    exact hj
  · simp [hmore] at hexit

/-- The directory scan finds the first resource with the queried name. -/
theorem scanNames_spec (hnames : NamesTerminated c) : ∀ {left i : ℕ},
    i + left = c.resources.length →
    ∃ found, scanNames c q left i = .ok found ∧
      (∀ k, found = some k ↔ i ≤ k ∧ Named c q k ∧ ∀ j, i ≤ j → j < k → ¬ Named c q j)
  | 0, i, hi => by
    refine ⟨none, rfl, fun k => ⟨fun hk => absurd hk (by simp), ?_⟩⟩
    rintro ⟨hle, ⟨r, hr, -⟩, -⟩
    have hlt := (List.getElem?_eq_some_iff.mp hr).1
    omega
  | left + 1, i, hi => by
    obtain ⟨found, hfound, hiff⟩ := exists_nameMatches (q := q) hnames (i := i) (by omega)
    unfold scanNames
    rw [hfound, Exec.ok_bind]
    cases found with
    | true =>
      have hi' := hiff.mp rfl
      refine ⟨some i, rfl, fun k => ?_⟩
      constructor
      · rintro ⟨⟩
        exact ⟨le_rfl, hi', fun j hij hji => by omega⟩
      · rintro ⟨hle, -, hmin⟩
        by_contra hne
        exact hmin i le_rfl (Nat.lt_of_le_of_ne hle fun heq => hne (heq ▸ rfl)) hi'
    | false =>
      have hno : ¬ Named c q i := fun hn => Bool.false_ne_true (hiff.mpr hn)
      have hi' : i + 1 + left = c.resources.length := by omega
      obtain ⟨rest, hrest, hspec⟩ := scanNames_spec hnames hi'
      refine ⟨rest, hrest, fun k => (hspec k).trans ?_⟩
      constructor
      · rintro ⟨hle, hk, hmin⟩
        refine ⟨by omega, hk, fun j hij hjk => ?_⟩
        rcases Nat.eq_or_lt_of_le hij with rfl | hlt
        exacts [hno, hmin j hlt hjk]
      · rintro ⟨hle, hk, hmin⟩
        refine ⟨Nat.lt_of_le_of_ne hle fun heq => hno (heq ▸ hk), hk, fun j hij hjk => ?_⟩
        exact hmin j (by omega) hjk

theorem findScanning_spec (h : Accepted b c) (hnames : NamesTerminated c) :
    ∃ found, findScanning c q = .ok found ∧
      ∀ k, found = some k ↔ Named c q k ∧ ∀ j < k, ¬ Named c q j := by
  obtain ⟨found, hfound, hspec⟩ := scanNames_spec (q := q) hnames (i := 0)
    (by rw [h.length_resources, Nat.zero_add])
  exact ⟨found, hfound, fun k => by simpa using hspec k⟩

theorem not_named_of_findScanning (h : Accepted b c) (hnames : NamesTerminated c)
    (hnone : findScanning c q = .ok none) (i : ℕ) : ¬ Named c q i := by
  obtain ⟨found, hfound, hspec⟩ := findScanning_spec (q := q) h hnames
  obtain rfl : found = none := Except.ok.inj (hfound.symm.trans hnone)
  induction i using Nat.strong_induction_on with
  | _ i ih =>
    intro hi
    exact absurd ((hspec i).mpr ⟨hi, ih⟩) (by simp)

end Lookup

/-- **Lookup survives any hash table.** Over an accepted buffer whose names end in
it, `erf_find_in` returns for every query, with no access outside of the two arrays
or the buffer and at most one probe for each bucket (the budget of `findHashed`); a
result is a resource with the queried name, and there is none where the directory
scan finds none. -/
theorem erfFindIn_robust {b : Bytes} {c : ERFContainer}
    (hopen : erfOpenMemory (some b) b.length = .ok (.ok c)) (hnames : NamesTerminated c)
    (q : CString) :
    ∃ found err, erfFindIn (some c) (some q) = .ok (found, err) ∧
      (∀ i, found = some i → err = .ok ∧ ∃ r, c.resources[i]? = some r ∧ StringAt b r.name q) ∧
      (found = none → err = .notFound) ∧
      (findScanning c q = .ok none → found = none) := by
  have h := erfOpenMemory_ok_iff.mp hopen
  have hfind : ∃ found, findName c q = .ok found ∧ ∀ i, found = some i → Named c q i := by
    unfold findName
    split_ifs with hhash
    · exact findHashed_spec h hnames hhash.2
    · obtain ⟨found, hfound, hspec⟩ := findScanning_spec (q := q) h hnames
      exact ⟨found, hfound, fun i hi => ((hspec i).mp hi).1⟩
  obtain ⟨found, hfound, hnamed⟩ := hfind
  refine ⟨found, if found.isSome then .ok else .notFound, ?_, fun i hi => ?_, ?_, fun hnone => ?_⟩
  · exact erfFindIn_of_findName hfound
  · rw [← h.base]
    exact ⟨by simp [hi], hnamed i hi⟩
  · rintro rfl
    rfl
  · cases found with
    | none => rfl
    | some i => exact absurd (hnamed i rfl) (not_named_of_findScanning h hnames hnone i)

/-- A full table of one bucket, which points at a resource that does not exist. -/
def tinyWithBadBucket : Bytes := tinyContainer [⟨0, 7, 0⟩] [0x61, 0] 0

theorem erfFindIn_robust_badBucket :
    ∃ c found err, opened tinyWithBadBucket = some c ∧ c.hashBucketCount = 1 ∧
      erfFindIn (some c) (some ⟨[0x61], by decide⟩) = .ok (found, err) ∧
      (found = none → err = .notFound) := by
  have hsome : (opened tinyWithBadBucket).isSome = true := by decide +kernel
  have hfacts : ∀ c ∈ opened tinyWithBadBucket, NamesTerminated c ∧ c.hashBucketCount = 1 := by
    decide +kernel
  obtain ⟨c, hc⟩ := Option.isSome_iff_exists.mp hsome
  obtain ⟨hnames, hcount⟩ := hfacts c hc
  obtain ⟨found, err, hfind, -, herr, -⟩ :=
    erfFindIn_robust (opened_eq_some.mp hc) hnames ⟨[0x61], by decide⟩
  exact ⟨c, found, err, hc, hcount, hfind, herr⟩

end Elfr.Runtime
