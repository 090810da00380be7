import Elfr.Compiler.ContainerBuild
import Elfr.Format.HashSlots

/-!
# The hash table the builder fills

The doubling loop finds the least power of two from 16 on that is at least
twice the number of resources, as long as that many fit 32 bits. The probing
loop then always meets a free bucket, so the bucket array is the open-addressing
table of the names in directory order.
-/
namespace Elfr.Compiler

open Library LinearProbing Common Format

/-- The power of two the doubling loop stops at. -/
def pow2From16 (v : ℕ) : ℕ := 2 ^ max 4 (Nat.clog 2 v)

theorem le_pow2From16 (v : ℕ) : v ≤ pow2From16 v :=
  (Nat.le_pow_clog Nat.one_lt_two v).trans (Nat.pow_le_pow_right Nat.two_pos (le_max_right _ _))

theorem sixteen_le_pow2From16 (v : ℕ) : 16 ≤ pow2From16 v :=
  Nat.pow_le_pow_right Nat.two_pos (le_max_left 4 _)

theorem lt_pow2From16 (n : ℕ) : n < pow2From16 (n * 2) := by
  have hdouble := le_pow2From16 (n * 2)
  have hsixteen := sixteen_le_pow2From16 (n * 2)
  omega

theorem pow2From16_le {v : ℕ} (hv : v ≤ 2 ^ 31) : pow2From16 v ≤ 2 ^ 31 :=
  Nat.pow_le_pow_right Nat.two_pos (max_le (by norm_num) (Nat.clog_le_of_le_pow hv))

theorem toNat_pow2From16 {v : ℕ} (hv : v ≤ 2 ^ 31) :
    (UInt32.ofNat (pow2From16 v)).toNat = pow2From16 v := by
  have hle := pow2From16_le hv
  rw [UInt32.toNat_ofNat', Nat.mod_eq_of_lt (by omega)]

theorem nextPow2_eq {v : UInt32} (hv : v.toNat ≤ 2 ^ 31) {fuel : ℕ} (hfuel : 32 ≤ fuel) :
    nextPow2 fuel v = .ok (UInt32.ofNat (pow2From16 v.toNat)) := by
  have hclog : Nat.clog 2 v.toNat ≤ 31 := Nat.clog_le_of_le_pow hv
  have hpow : ∀ j, 4 + j ≤ 31 → (UInt32.ofNat (2 ^ (4 + j))).toNat = 2 ^ (4 + j) := by
    intro j hj
    have hle : 2 ^ (4 + j) ≤ 2 ^ 31 := Nat.pow_le_pow_right Nat.two_pos hj
    rw [UInt32.toNat_ofNat', Nat.mod_eq_of_lt (by omega)]
  have hlast : 4 + (max 4 (Nat.clog 2 v.toNat) - 4) = max 4 (Nat.clog 2 v.toNat) := by omega
  refine loop_path (fun j => UInt32.ofNat (2 ^ (4 + j))) (max 4 (Nat.clog 2 v.toNat) - 4) ?_ ?_
    (by omega)
  · have hge : ¬ UInt32.ofNat (pow2From16 v.toNat) < v := by
      rw [UInt32.lt_iff_toNat_lt, toNat_pow2From16 hv]
      exact Nat.not_lt.mpr (le_pow2From16 v.toNat)
    simp only [hlast]
    exact if_neg hge
  · intro j hj
    have hlt : 2 ^ (4 + j) < v.toNat := Nat.pow_lt_of_lt_clog (by omega)
    have hless : UInt32.ofNat (2 ^ (4 + j)) < v := by
      rw [UInt32.lt_iff_toNat_lt, hpow j (by omega)]
      exact hlt
    have hdouble : UInt32.ofNat (2 ^ (4 + j)) * 2 = UInt32.ofNat (2 ^ (4 + (j + 1))) := by
      rw [← Nat.add_assoc, Nat.pow_succ, UInt32.ofNat_mul]
      rfl
    simp only [nextPow2Step, if_pos hless, hdouble]
    rfl

def bucketFor (name : CString) (i : ℕ) : ERFHashBucket :=
  ⟨elfrFnv1a64 name.bytes, UInt32.ofNat i, 0⟩

def bucketsFrom (i : ℕ) : List CString → List ERFHashBucket
  | [] => []
  | name :: names => bucketFor name i :: bucketsFrom (i + 1) names

@[simp] theorem length_bucketsFrom (i : ℕ) (names : List CString) :
    (bucketsFrom i names).length = names.length := by
  induction names generalizing i with
  | nil => rfl
  | cons name names ih => simp [bucketsFrom, ih]

theorem getElem_bucketsFrom (i : ℕ) {names : List CString} {k : ℕ} (hk : k < names.length)
    (hk' : k < (bucketsFrom i names).length) :
    (bucketsFrom i names)[k] = bucketFor names[k] (i + k) := by
  induction names generalizing i k with
  | nil => exact absurd hk (Nat.not_lt_zero _)
  | cons name names ih =>
    cases k with
    | zero => rfl
    | succ k =>
      have h := ih (i + 1) (Nat.lt_of_succ_lt_succ hk) (Nat.lt_of_succ_lt_succ hk')
      rw [Nat.add_right_comm] at h
      exact h

theorem indices_bucketsFrom {i : ℕ} {names : List CString} (hn : i + names.length ≤ 2 ^ 32) :
    (bucketsFrom i names).map (fun bucket => bucket.directoryIndex.toNat) =
      List.range' i names.length := by
  induction names generalizing i with
  | nil => rfl
  | cons name names ih =>
    rw [List.length_cons] at hn
    have hindex : (bucketFor name i).directoryIndex.toNat = i := by
      rw [bucketFor, UInt32.toNat_ofNat', Nat.mod_eq_of_lt (by omega)]
    rw [bucketsFrom, List.map_cons, ih (by omega), hindex, List.length_cons, List.range'_succ]

theorem occupant_replicate (count : ℕ) : occupant (List.replicate count emptyBucket) =
    fun _ => none := by
  funext slot
  unfold occupant
  rw [List.getElem?_replicate]
  split_ifs <;> rfl

/-- The probing loop walks from home to the first free slot. -/
theorem slotLoop_eq {bucketCount : UInt32} {buckets : List ERFHashBucket}
    (hlen : buckets.length = bucketCount.toNat) (h : UInt64) {k : ℕ} (hk : k < bucketCount.toNat)
    (hfree : FirstFree bucketCount.toNat (occupant buckets) (h.toNat % bucketCount.toNat) k)
    {fuel : ℕ} (hfuel : k < fuel) :
    loop (slotStep bucketCount buckets) fuel (h % bucketCount.toUInt64).toUInt32 =
      .ok (slotAt bucketCount (h.toNat % bucketCount.toNat) k) := by
  have hpos : 0 < bucketCount.toNat := Nat.zero_lt_of_lt hk
  have hin : ∀ j, probe bucketCount.toNat (h.toNat % bucketCount.toNat) j < buckets.length :=
    fun j => by rw [hlen]; exact probe_lt hpos _ j
  rw [slotAt_zero hpos]
  refine loop_path (slotAt bucketCount (h.toNat % bucketCount.toNat)) k ?_ ?_ hfuel
  · have hempty := hfree.1
    rw [occupant_of_lt (hin k)] at hempty
    simp only [slotStep, toNat_slotAt hpos, Exec.index_of_lt (hin k), Exec.ok_bind, ne_eq,
      ite_not, Exec.pure_eq_ok]
    rw [if_pos (by by_contra hne; simp [hne] at hempty)]
  · intro j hj
    have hne := hfree.2 j hj
    rw [occupant_of_lt (hin j)] at hne
    simp only [slotStep, toNat_slotAt hpos, Exec.index_of_lt (hin j), Exec.ok_bind, ne_eq,
      ite_not, slotAt_succ hpos, Exec.pure_eq_ok]
    rw [if_neg (by intro hempty; simp [hempty] at hne)]

/-- With fewer names than buckets the filling loop returns, the same for every
sufficient budget, a table filled in directory order. -/
theorem fillBuckets_spec {bucketCount : UInt32} {names : List CString} {i : ℕ}
    {buckets : List ERFHashBucket} {entered : List ERFHashBucket}
    (hlen : buckets.length = bucketCount.toNat) (hi : entered.length = i)
    (hroom : i + names.length < bucketCount.toNat)
    (hfilled : Filled bucketCount.toNat (bucketHome bucketCount) entered (occupant buckets))
    (hreserved : ∀ bucket ∈ buckets, bucket.reserved0 = 0) :
    ∃ buckets', buckets'.length = bucketCount.toNat ∧
      (∀ bucket ∈ buckets', bucket.reserved0 = 0) ∧
      Filled bucketCount.toNat (bucketHome bucketCount) (entered ++ bucketsFrom i names)
        (occupant buckets') ∧
      (∀ fuel, bucketCount.toNat ≤ fuel →
        fillBuckets fuel bucketCount names i buckets = .ok buckets') ∧
      ∀ fuel bs, fillBuckets fuel bucketCount names i buckets = .ok bs → bs = buckets' := by
  induction names generalizing i buckets entered with
  | nil =>
    refine ⟨buckets, hlen, hreserved, by rwa [bucketsFrom, List.append_nil], fun fuel _ => rfl, ?_⟩
    intro fuel bs h
    exact (Except.ok.inj h).symm
  | cons name names ih =>
    have hlt := bucketCount.toNat_lt
    rw [List.length_cons] at hroom
    obtain ⟨k, hk, hfree⟩ := hfilled.exists_firstFree (by omega)
      (bucketHome bucketCount (bucketFor name i))
    have hpos : 0 < bucketCount.toNat := Nat.zero_lt_of_lt hk
    have hprobe := probe_lt hpos (bucketHome bucketCount (bucketFor name i)) k
    have hslot := toNat_slotAt hpos (bucketHome bucketCount (bucketFor name i)) k
    have hloop := @slotLoop_eq _ _ hlen (elfrFnv1a64 name.bytes) k hk hfree
    have hnonempty : (bucketFor name i).directoryIndex ≠ erfHashEmpty := by
      have hempty : erfHashEmpty.toNat = 2 ^ 32 - 1 := rfl
      rw [ne_eq, ← UInt32.toNat_inj, hempty, bucketFor, UInt32.toNat_ofNat',
        Nat.mod_eq_of_lt (by omega)]
      omega
    have hfilled' := hfilled.insert hk hfree
    rw [← occupant_set (by rwa [hlen]) hnonempty, ← hslot] at hfilled'
    have hreserved' : ∀ bucket ∈ buckets.set
        (slotAt bucketCount (bucketHome bucketCount (bucketFor name i)) k).toNat
        (bucketFor name i), bucket.reserved0 = 0 := by
      intro bucket hbucket
      rcases List.mem_or_eq_of_mem_set hbucket with hold | rfl
      · exact hreserved bucket hold
      · rfl
    obtain ⟨buckets', hlen', hzero, hfinal, htotal, hunique⟩ := ih
      (i := i + 1) (by rw [List.length_set, hlen]) (by simp [hi]) (by omega) hfilled' hreserved'
    refine ⟨buckets', hlen', hzero, by rwa [bucketsFrom, List.append_cons], fun fuel hfuel => ?_,
      fun fuel bs h => ?_⟩
    · unfold fillBuckets
      simp only [hloop (Nat.lt_of_lt_of_le hk hfuel), Exec.ok_bind]
      exact htotal fuel hfuel
    · unfold fillBuckets at h
      obtain ⟨slot, hfound, h⟩ := Exec.bind_eq_ok.mp h
      obtain rfl := loop_unique hfound (hloop (Nat.lt_succ_self k))
      exact hunique fuel bs h

/-- The hash table of these names: twice as many buckets as names, a power of two,
filled in directory order. -/
structure BucketTable (names : List CString) (bucketCount : UInt32)
    (buckets : List ERFHashBucket) : Prop where
  count : bucketCount.toNat = pow2From16 (names.length * 2)
  length : buckets.length = bucketCount.toNat
  filled : Filled bucketCount.toNat (bucketHome bucketCount) (bucketsFrom 0 names)
    (occupant buckets)

theorem BucketTable.room {names : List CString} {bucketCount : UInt32}
    {buckets : List ERFHashBucket} (h : BucketTable names bucketCount buckets) :
    names.length < bucketCount.toNat := by
  rw [h.count]
  exact lt_pow2From16 _

def RefersTo (buckets : List ERFHashBucket) (slot i : ℕ) : Prop :=
  ∃ bucket, buckets[slot]? = some bucket ∧ bucket.directoryIndex.toNat = i

theorem BucketTable.existsUnique_slot {names : List CString} {bucketCount : UInt32}
    {buckets : List ERFHashBucket} (h : BucketTable names bucketCount buckets) {i : ℕ}
    (hi : i < names.length) :
    ∃ slot, buckets[slot]? = some (bucketFor names[i] i) ∧
      ∀ slot', RefersTo buckets slot' i → slot' = slot := by
  have hroom := h.room
  have hcount := bucketCount.toNat_lt
  have hempty : erfHashEmpty.toNat = 2 ^ 32 - 1 := rfl
  have hfit : 0 + names.length ≤ 2 ^ 32 := by omega
  have hindices := indices_bucketsFrom hfit
  have hmap : ((bucketsFrom 0 names).map fun bucket => bucket.directoryIndex.toNat).Nodup := by
    rw [hindices]
    exact List.nodup_range'
  have hi' : i < (bucketsFrom 0 names).length := by rwa [length_bucketsFrom]
  have hget : (bucketsFrom 0 names)[i] = bucketFor names[i] i := by
    rw [getElem_bucketsFrom 0 hi, Nat.zero_add]
  have hmem : bucketFor names[i] i ∈ bucketsFrom 0 names := hget ▸ List.getElem_mem hi'
  have hindex : (bucketFor names[i] i).directoryIndex.toNat = i := by
    rw [bucketFor, UInt32.toNat_ofNat', Nat.mod_eq_of_lt (by omega)]
  obtain ⟨slot, ⟨hslot, hat⟩, hunique⟩ :=
    h.filled.existsUnique_slot (Nat.zero_lt_of_lt hroom) hmap.of_map hmem
  rw [← h.length] at hslot
  refine ⟨slot, ?_, ?_⟩
  · rw [occupant_of_lt hslot] at hat
    split_ifs at hat with hnone
    rw [List.getElem?_eq_getElem hslot, hat]
  · rintro slot' ⟨bucket, hbucket, hrefers⟩
    obtain ⟨hslot', hbucket'⟩ := List.getElem?_eq_some_iff.mp hbucket
    have hoccupied : occupant buckets slot' = some bucket := by
      rw [occupant_of_lt hslot', hbucket', if_neg]
      rw [← UInt32.toNat_inj, hrefers, hempty]
      omega
    have hsame : bucket = bucketFor names[i] i :=
      List.inj_on_of_nodup_map hmap (h.filled.mem hoccupied) hmem (hrefers.trans hindex.symm)
    exact hunique slot' ⟨by rw [← h.length]; exact hslot', by rw [hoccupied, hsame]⟩

/-- Up to 2^30 names the hash table stage returns, whatever the budget the same table. -/
theorem buildHashTable_spec {names : List CString} (hn : names.length * 2 ≤ 2 ^ 31) :
    ∃ bucketCount buckets, (BucketTable names bucketCount buckets ∧
        ∀ bucket ∈ buckets, bucket.reserved0 = 0) ∧
      (∀ fuel, 2 ^ 32 ≤ fuel →
        buildHashTable fuel names = .ok (hashTableBytes bucketCount buckets)) ∧
      ∀ fuel hashTable, buildHashTable fuel names = .ok hashTable →
        hashTable = hashTableBytes bucketCount buckets := by
  have hv : (UInt32.ofNat (names.length * 2)).toNat = names.length * 2 := by
    rw [UInt32.toNat_ofNat', Nat.mod_eq_of_lt (by omega)]
  have hpow : ∀ fuel, 32 ≤ fuel → nextPow2 fuel (UInt32.ofNat (names.length * 2)) =
      .ok (UInt32.ofNat (pow2From16 (names.length * 2))) := by
    intro fuel hfuel
    rw [nextPow2_eq (by rw [hv]; exact hn) hfuel, hv]
  have hcount : (if names.length = 0 then 16 else UInt32.ofNat (pow2From16 (names.length * 2))) =
      UInt32.ofNat (pow2From16 (names.length * 2)) := by
    split_ifs with hnone
    · rw [hnone]
      rfl
    · rfl
  have hcount' := toNat_pow2From16 hn
  generalize UInt32.ofNat (pow2From16 (names.length * 2)) = bucketCount at hpow hcount hcount'
  have hroom : 0 + names.length < bucketCount.toNat := by
    rw [Nat.zero_add, hcount']
    exact lt_pow2From16 _
  have hempty : Filled bucketCount.toNat (bucketHome bucketCount) []
      (occupant (List.replicate bucketCount.toNat emptyBucket)) := by
    rw [occupant_replicate]
    exact .empty
  have hzero : ∀ bucket ∈ List.replicate bucketCount.toNat emptyBucket, bucket.reserved0 = 0 :=
    fun bucket hbucket => by rw [List.eq_of_mem_replicate hbucket]; rfl
  obtain ⟨buckets, hlen, hreserved, hfilled, htotal, hunique⟩ :=
    fillBuckets_spec List.length_replicate List.length_nil hroom hempty hzero
  refine ⟨bucketCount, buckets, ⟨⟨hcount', hlen, hfilled⟩, hreserved⟩, fun fuel hfuel => ?_,
    fun fuel hashTable h => ?_⟩
  · have hlt := bucketCount.toNat_lt
    unfold buildHashTable
    simp only [hpow fuel (by omega), hcount, Exec.ok_bind, htotal fuel (by omega), Exec.pure_eq_ok]
  · unfold buildHashTable at h
    obtain ⟨p, hp, h⟩ := Exec.bind_eq_ok.mp h
    obtain rfl := loop_unique hp (hpow 32 le_rfl)
    simp only [hcount] at h
    obtain ⟨bs, hbs, h⟩ := Exec.bind_eq_ok.mp h
    obtain rfl := hunique fuel bs hbs
    exact (Except.ok.inj h).symm

/-- Past 2^31 the doubling loop wraps to zero, and stays there. -/
theorem nextPow2_diverges {v : UInt32} (hv : 2 ^ 31 < v.toNat) (fuel : ℕ) :
    nextPow2 fuel v = .error .outOfFuel := by
  refine loop_diverges (fun p => p.toNat = 0 ∨ ∃ k ≤ 31, p.toNat = 2 ^ k) (fun p hp => ?_)
    (.inr ⟨4, by omega, rfl⟩) fuel
  have hle : p.toNat ≤ 2 ^ 31 := by
    rcases hp with hzero | ⟨k, hk, hpow⟩
    · omega
    · rw [hpow]
      exact Nat.pow_le_pow_right Nat.two_pos hk
  have hless : p < v := UInt32.lt_iff_toNat_lt.mpr (by omega)
  refine ⟨p * 2, by rw [nextPow2Step, if_pos hless]; rfl, ?_⟩
  have hdouble : (p * 2).toNat = p.toNat * 2 % 2 ^ 32 := UInt32.toNat_mul p 2
  rw [hdouble]
  rcases hp with hzero | ⟨k, hk, hpow⟩
  · exact .inl (by rw [hzero]; rfl)
  · rw [hpow, ← Nat.pow_succ]
    rcases Nat.lt_or_ge k 31 with hlt | hge
    · refine .inr ⟨k + 1, by omega, Nat.mod_eq_of_lt ?_⟩
      exact Nat.pow_lt_pow_right Nat.one_lt_two (by omega)
    · obtain rfl : k = 31 := by omega
      exact .inl rfl

theorem nextPow2_cases (fuel : ℕ) (v : UInt32) :
    nextPow2 fuel v = .error .outOfFuel ∨ ∃ p, nextPow2 fuel v = .ok p := by
  have hsafe : ∀ p : UInt32, (nextPow2Step v p).Safe := by
    intro p
    unfold nextPow2Step
    split_ifs
    exacts [⟨_, rfl⟩, ⟨_, rfl⟩]
  rcases loop_cases (fun _ => True) (fun p _ => hsafe p) (fun _ _ _ _ => trivial) fuel trivial with
    hspent | ⟨p, -, hloop, -, -⟩
  · exact .inl hspent
  · exact .inr ⟨p, hloop⟩

def isFree (bucket : ERFHashBucket) : Bool := bucket.directoryIndex = erfHashEmpty

theorem countP_set_of_free {buckets : List ERFHashBucket} {slot : ℕ} (hslot : slot < buckets.length)
    (hfree : isFree buckets[slot] = true) {bucket : ERFHashBucket} (hused : isFree bucket = false) :
    (buckets.set slot bucket).countP isFree + 1 = buckets.countP isFree := by
  have hpos : 0 < buckets.countP isFree :=
    List.countP_pos_iff.mpr ⟨_, List.getElem_mem hslot, hfree⟩
  rw [List.countP_set hslot, hfree, hused]
  simp only [↓reduceIte, Bool.false_eq_true]
  omega

/-- The probing loop, if it ends, ends at a free bucket. -/
theorem slotLoop_cases {bucketCount : UInt32} {buckets : List ERFHashBucket}
    (hlen : buckets.length = bucketCount.toNat) {slot : UInt32} (hslot : slot < bucketCount)
    (fuel : ℕ) : loop (slotStep bucketCount buckets) fuel slot = .error .outOfFuel ∨
      ∃ t : UInt32, loop (slotStep bucketCount buckets) fuel slot = .ok t ∧
        ∃ ht : t.toNat < buckets.length, isFree buckets[t.toNat] = true := by
  have hstep : ∀ t : UInt32, t < bucketCount → ∃ ht : t.toNat < buckets.length,
      slotStep bucketCount buckets t = if isFree buckets[t.toNat] = true then .ok (.inr t)
        else .ok (.inl ((t + 1) % bucketCount)) := by
    intro t ht
    have hin : t.toNat < buckets.length := hlen ▸ UInt32.lt_iff_toNat_lt.mp ht
    refine ⟨hin, ?_⟩
    simp only [slotStep, Exec.index_of_lt hin, Exec.ok_bind, Exec.pure_eq_ok, ne_eq, ite_not,
      isFree, decide_eq_true_eq]
  have hnext : ∀ t t' : UInt32, t < bucketCount →
      slotStep bucketCount buckets t = .ok (.inl t') → t' < bucketCount := by
    intro t t' ht h
    rw [(hstep t ht).2] at h
    split_ifs at h with hempty
    · cases h
    · obtain rfl := Sum.inl.inj (Except.ok.inj h)
      rw [UInt32.lt_iff_toNat_lt, UInt32.toNat_mod]
      exact Nat.mod_lt _ (Nat.zero_lt_of_lt (UInt32.lt_iff_toNat_lt.mp ht))
  have hsafe : ∀ t : UInt32, t < bucketCount → (slotStep bucketCount buckets t).Safe := by
    intro t ht
    rw [(hstep t ht).2]
    split_ifs
    exacts [⟨_, rfl⟩, ⟨_, rfl⟩]
  rcases loop_cases (· < bucketCount) hsafe hnext fuel hslot with
    hspent | ⟨a, t, hloop, ht, hexit⟩
  · exact .inl hspent
  · obtain ⟨hin, heq⟩ := hstep t ht
    rw [heq] at hexit
    split_ifs at hexit with hempty
    · obtain rfl := Sum.inr.inj (Except.ok.inj hexit)
      exact .inr ⟨t, hloop, hin, hempty⟩
    · cases hexit

/-- With more names than buckets the filling loop never ends. -/
theorem fillBuckets_diverges {bucketCount : UInt32} {names : List CString} {i : ℕ}
    {buckets : List ERFHashBucket} (hlen : buckets.length = bucketCount.toNat)
    (hfree : i + buckets.countP isFree = bucketCount.toNat) (hpos : 0 < bucketCount.toNat)
    (hmany : bucketCount.toNat < i + names.length) (fuel : ℕ) :
    fillBuckets fuel bucketCount names i buckets = .error .outOfFuel := by
  induction names generalizing i buckets with
  | nil =>
    rw [List.length_nil] at hmany
    omega
  | cons name names ih =>
    rw [List.length_cons] at hmany
    have hhome := slotAt_zero hpos (elfrFnv1a64 name.bytes)
    have hslot : (elfrFnv1a64 name.bytes % bucketCount.toUInt64).toUInt32 < bucketCount := by
      rw [hhome, UInt32.lt_iff_toNat_lt, toNat_slotAt hpos]
      exact probe_lt hpos _ _
    unfold fillBuckets
    rcases slotLoop_cases hlen hslot fuel with hspent | ⟨t, hloop, ht, htfree⟩
    · simp only [hspent, Exec.error_bind]
    · have hroom : 0 < buckets.countP isFree :=
        List.countP_pos_iff.mpr ⟨_, List.getElem_mem ht, htfree⟩
      have hlt := bucketCount.toNat_lt
      have hused : isFree ⟨elfrFnv1a64 name.bytes, UInt32.ofNat i, 0⟩ = false := by
        have hempty : erfHashEmpty.toNat = 2 ^ 32 - 1 := rfl
        refine decide_eq_false fun hsame => ?_
        rw [← UInt32.toNat_inj, hempty, UInt32.toNat_ofNat', Nat.mod_eq_of_lt (by omega)] at hsame
        omega
      have hcount := countP_set_of_free ht htfree hused
      simp only [hloop, Exec.ok_bind]
      exact ih (by rw [List.length_set, hlen]) (by omega) (by omega)

/-- From 2^30 + 1 names on the hash table stage diverges. -/
theorem buildHashTable_diverges {names : List CString} (hn : 2 ^ 31 < names.length * 2)
    (fuel : ℕ) : buildHashTable fuel names = .error .outOfFuel := by
  unfold buildHashTable
  have hv : (UInt32.ofNat (names.length * 2)).toNat = names.length * 2 % 2 ^ 32 :=
    UInt32.toNat_ofNat'
  rcases Nat.lt_or_ge (2 ^ 31) (UInt32.ofNat (names.length * 2)).toNat with hlarge | hsmall
  · simp only [nextPow2_diverges hlarge, Exec.error_bind]
  · rcases nextPow2_cases fuel (UInt32.ofNat (names.length * 2)) with hspent | ⟨p, hloop⟩
    · simp only [hspent, Exec.error_bind]
    have hp : p = UInt32.ofNat (pow2From16 (UInt32.ofNat (names.length * 2)).toNat) :=
      loop_unique hloop (nextPow2_eq hsmall le_rfl)
    have hcount : p.toNat = pow2From16 (UInt32.ofNat (names.length * 2)).toNat := by
      rw [hp, toNat_pow2From16 hsmall]
    have hne : names.length ≠ 0 := by omega
    have hpos := sixteen_le_pow2From16 (UInt32.ofNat (names.length * 2)).toNat
    have hle := pow2From16_le hsmall
    have hmany : p.toNat < names.length := by
      rw [hcount]
      rcases Nat.lt_or_ge (2 ^ 31) names.length with hlarge | hequal
      · omega
      · have hzero : (UInt32.ofNat (names.length * 2)).toNat = 0 := by omega
        rw [hzero]
        have hsixteen : pow2From16 0 = 16 := by decide
        omega
    simp only [hloop, Exec.ok_bind, if_neg hne]
    rw [fillBuckets_diverges List.length_replicate ?_ (by omega) (by omega)]
    · rfl
    · rw [Nat.zero_add, List.countP_replicate]
      rfl

end Elfr.Compiler
