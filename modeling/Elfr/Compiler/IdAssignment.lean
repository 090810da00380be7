import Elfr.Compiler.ParseContext
import Elfr.Library.FreshNumbers

/-!
# Identifier assignment

`assign_and_validate_ids`. The explicit identifiers are sorted, a repeated one is
an error, and a counter hands the numbers between them to the other resources.
The invariant of the loop is a count: as many fresh numbers lie below the counter
as resources without an identifier lie behind.
-/
namespace Elfr.Compiler

open Library

def explicitIds (resources : List ElfrcResource) : List UInt32 :=
  (resources.filter (·.idExplicit)).map (·.id)

/-- `explicit_ids` after `qsort`. -/
def sortedExplicitIds (resources : List ElfrcResource) : List UInt32 :=
  (explicitIds resources).mergeSort fun x y => decide (x ≤ y)

/-- The loop over neighbours of the sorted array; it yields an identifier that is equal
to the one before. -/
def repeatedId : List UInt32 → Option UInt32
  | x :: y :: ids => if y = x then some y else repeatedId (y :: ids)
  | _ => none

/-- `bsearch` in a sorted array finds what is there. -/
def bsearch (key : UInt32) (ids : List UInt32) : Bool := ids.contains key

/-- One turn of the loop that skips explicit identifiers. The increments of the counter
are checked: where the code's would wrap, the model stops. -/
def nextStep (ids : List UInt32) (next : UInt32) : Exec (UInt32 ⊕ UInt32) :=
  if bsearch next ids then do
    let next ← Exec.add32 next 1
    pure (.inl next)
  else pure (.inr next)

/-- The loop that gives every resource its final identifier. -/
def assignIds (fuel : ℕ) (ids : List UInt32) :
    List ElfrcResource → (next : UInt32) → Exec (List ElfrcResource)
  | [], _ => pure []
  | r :: rs, next =>
    if r.idExplicit then do
      let rest ← assignIds fuel ids rs next
      pure ({ r with finalId := r.id } :: rest)
    else do
      let free ← loop (nextStep ids) fuel next
      let next ← Exec.add32 free 1
      let rest ← assignIds fuel ids rs next
      pure ({ r with finalId := free } :: rest)

/-- The inner loop of the search for duplicates: one like `r` among later resources. -/
def duplicateOf (r : ElfrcResource) : List ElfrcResource → Exec (Option ElfrcResource)
  | [] => pure none
  | s :: rest => do
    let name ← Exec.deref r.name
    let name' ← Exec.deref s.name
    if name = name' ∧ r.language = s.language then pure (some s) else duplicateOf r rest

/-- The outer loop, with the two resources it reports. -/
def findDuplicate : List ElfrcResource → Exec (Option (ElfrcResource × ElfrcResource))
  | [] => pure none
  | r :: rest => do
    match ← duplicateOf r rest with
    | some s => pure (some (r, s))
    | none => findDuplicate rest

def duplicateId (id : UInt32) : Bytes :=
  ascii "duplicate explicit resource id " ++ printNumber id.toNat

def duplicateResource (first second : ElfrcResource) : Bytes :=
  ascii "duplicate resource: name '" ++ printString second.name ++ ascii "' language " ++
    printNumber second.language.toNat ++ ascii " already defined at line " ++
    printNumber first.line

def assignAndValidateIds (fuel : ℕ) (ctx : ParseCtx) (err : ErrorState) (m : ElfrcManifest) :
    Exec (ErrorState × ElfrcManifest) :=
  if m.resources = [] then pure (err, m)
  else
    let ids := sortedExplicitIds m.resources
    match repeatedId ids with
    | some id => pure (setError ctx err 0 (duplicateId id), m)
    | none => do
      let resources ← assignIds fuel ids m.resources 1
      let m := { m with resources := resources }
      match ← findDuplicate resources with
      | some (first, second) =>
        pure (setError ctx err second.line (duplicateResource first second), m)
      | none => pure (err, m)

theorem sortedExplicitIds_perm (rs : List ElfrcResource) :
    (sortedExplicitIds rs).Perm (explicitIds rs) :=
  List.mergeSort_perm _ _

/-- What `bsearch` asks of its array. -/
theorem sortedExplicitIds_pairwise (rs : List ElfrcResource) :
    (sortedExplicitIds rs).Pairwise (· ≤ ·) := by
  have hsorted : (sortedExplicitIds rs).Pairwise fun x y => decide (x ≤ y) = true :=
    List.pairwise_mergeSort
      (fun x y z hxy hyz => by
        simpa using UInt32.le_trans (by simpa using hxy) (by simpa using hyz))
      (fun x y => by simpa using UInt32.le_total x y) (explicitIds rs)
  exact hsorted.imp fun h => by simpa using h

theorem repeatedId_eq_none_iff {ids : List UInt32} (hsorted : ids.Pairwise (· ≤ ·)) :
    repeatedId ids = none ↔ ids.Nodup := by
  induction ids with
  | nil => simp [repeatedId]
  | cons x ids ih =>
    cases ids with
    | nil => simp [repeatedId]
    | cons y ids =>
      obtain ⟨hx, htail⟩ := List.pairwise_cons.mp hsorted
      have hy := (List.pairwise_cons.mp htail).1
      unfold repeatedId
      split_ifs with hyx
      · simp [hyx]
      · rw [ih htail, List.nodup_cons (a := x)]
        refine ⟨fun hnodup => ⟨fun hmem => ?_, hnodup⟩, fun h => h.2⟩
        have hxy := hx y (List.mem_cons_self ..)
        rcases List.mem_cons.mp hmem with rfl | hmem
        · exact hyx rfl
        · exact hyx (UInt32.le_antisymm (hy x hmem) hxy)

def takenIds (rs : List ElfrcResource) : List ℕ := (explicitIds rs).map UInt32.toNat

/-- Number of resources without an explicit identifier. -/
def automaticCount (rs : List ElfrcResource) : ℕ := rs.countP fun r => !r.idExplicit

theorem mem_sortedExplicitIds_iff (rs : List ElfrcResource) {id : UInt32} :
    id ∈ sortedExplicitIds rs ↔ id.toNat ∈ takenIds rs := by
  rw [(sortedExplicitIds_perm rs).mem_iff, takenIds, List.mem_map]
  constructor
  · exact fun h => ⟨id, h, rfl⟩
  · rintro ⟨id', h, heq⟩
    exact UInt32.toNat_inj.mp heq ▸ h

theorem length_takenIds_add (rs : List ElfrcResource) :
    (takenIds rs).length + automaticCount rs = rs.length := by
  rw [takenIds, explicitIds, List.length_map, List.length_map, ← List.countP_eq_length_filter,
    automaticCount, List.length_eq_countP_add_countP (fun r : ElfrcResource => r.idExplicit)]
  congr 2
  funext r
  simp

/-- A resource without an identifier is one more than those before it. -/
theorem automaticCount_take_lt {rs : List ElfrcResource} {i : ℕ} {r : ElfrcResource}
    (hr : rs[i]? = some r) (hauto : r.idExplicit = false) :
    automaticCount (rs.take i) < automaticCount rs := by
  obtain ⟨hi, rfl⟩ := List.getElem?_eq_some_iff.mp hr
  have hsplit : automaticCount rs = automaticCount (rs.take i) + automaticCount (rs.drop i) := by
    unfold automaticCount
    rw [← List.countP_append, List.take_append_drop]
  rw [hsplit, List.drop_eq_getElem_cons hi]
  have hself : automaticCount (rs[i] :: rs.drop (i + 1)) = automaticCount (rs.drop (i + 1)) + 1 :=
    List.countP_cons_of_pos (by simp [hauto])
  omega

theorem nextStep_of_mem {ids : List UInt32} {next : UInt32} (h : next ∈ ids)
    (hlt : next.toNat + 1 < 2 ^ 32) : nextStep ids next = .ok (.inl (next + 1)) := by
  simp [nextStep, bsearch, h, (Exec.add32_of_lt (a := next) (b := 1) hlt).1]

theorem nextStep_of_notMem {ids : List UInt32} {next : UInt32} (h : next ∉ ids) :
    nextStep ids next = .ok (.inr next) := by
  simp [nextStep, bsearch, h]

section Counter

variable {ids : List UInt32} {taken : List ℕ} (hids : ∀ id, id ∈ ids ↔ id.toNat ∈ taken)
include hids

/-- The counter runs over taken numbers to the next fresh one. -/
theorem nextLoop_eq (fuel : ℕ) {next : UInt32} {k : ℕ} (hpos : 0 < next.toNat)
    (hcount : Nat.count (Fresh taken) next.toNat = k) (hlt : freshNumber taken k + 1 < 2 ^ 32)
    (hfuel : freshNumber taken k ≤ fuel) :
    loop (nextStep ids) fuel next = .ok (UInt32.ofNat (freshNumber taken k)) := by
  have hle := le_freshNumber taken hcount
  obtain ⟨steps, hsteps⟩ := Nat.exists_eq_add_of_le hle
  have hvalue : ∀ j ≤ steps, (UInt32.ofNat (next.toNat + j)).toNat = next.toNat + j :=
    fun j hj => UInt32.toNat_ofNat_of_lt' (by simp only [UInt32.size]; omega)
  have hstart : next = UInt32.ofNat (next.toNat + 0) := by simp
  rw [hstart, hsteps]
  refine loop_path (fun j => UInt32.ofNat (next.toNat + j)) steps ?_ ?_ (by omega)
  · refine nextStep_of_notMem fun hmem => (fresh_freshNumber taken k).2 ?_
    rw [hids, hvalue steps le_rfl, ← hsteps] at hmem
    exact hmem
  · intro j hj
    have hmem : UInt32.ofNat (next.toNat + j) ∈ ids := by
      rw [hids, hvalue j (by omega)]
      exact mem_taken_of_lt_freshNumber taken hcount hpos (by omega) (by omega)
    rw [nextStep_of_mem hmem (by rw [hvalue j (by omega)]; omega), ← Nat.add_assoc,
      UInt32.ofNat_add (next.toNat + j)]
    rfl

end Counter

/-- What the loop makes of a list of resources when `k` numbers have been handed out. -/
inductive Assigned (taken : List ℕ) : ℕ → List ElfrcResource → List ElfrcResource → Prop
  | nil {k : ℕ} : Assigned taken k [] []
  | explicit {k : ℕ} {r : ElfrcResource} {rs out : List ElfrcResource} :
      r.idExplicit = true → Assigned taken k rs out →
      Assigned taken k (r :: rs) ({ r with finalId := r.id } :: out)
  | automatic {k : ℕ} {r : ElfrcResource} {rs out : List ElfrcResource} {id : UInt32} :
      r.idExplicit = false → id.toNat = freshNumber taken k → Assigned taken (k + 1) rs out →
      Assigned taken k (r :: rs) ({ r with finalId := id } :: out)

theorem assignIds_spec {ids : List UInt32} {taken : List ℕ}
    (hids : ∀ id, id ∈ ids ↔ id.toNat ∈ taken) (fuel : ℕ) (rs : List ElfrcResource)
    {next : UInt32} {k : ℕ} (hpos : 0 < next.toNat)
    (hcount : Nat.count (Fresh taken) next.toNat = k)
    (hlt : k + automaticCount rs + taken.length + 1 < 2 ^ 32)
    (hfuel : k + automaticCount rs + taken.length ≤ fuel) :
    ∃ out, assignIds fuel ids rs next = .ok out ∧ Assigned taken k rs out := by
  induction rs generalizing next k with
  | nil => exact ⟨[], rfl, .nil⟩
  | cons r rs ih =>
    unfold assignIds
    cases hexplicit : r.idExplicit with
    | true =>
      have hautomatic : automaticCount (r :: rs) = automaticCount rs := by
        simp [automaticCount, hexplicit]
      rw [hautomatic] at hlt hfuel
      obtain ⟨out, hout, hassigned⟩ := ih hpos hcount hlt hfuel
      exact ⟨_, by simp [hexplicit, hout], .explicit hexplicit hassigned⟩
    | false =>
      have hautomatic : automaticCount (r :: rs) = automaticCount rs + 1 := by
        simp [automaticCount, hexplicit]
      rw [hautomatic] at hlt hfuel
      have hle := freshNumber_le taken k
      have hvalue : (UInt32.ofNat (freshNumber taken k)).toNat = freshNumber taken k :=
        UInt32.toNat_ofNat_of_lt' (by simp only [UInt32.size]; omega)
      have hloop := nextLoop_eq hids fuel hpos hcount (by omega) (by omega)
      obtain ⟨hadd, hnext⟩ := Exec.add32_of_lt (a := UInt32.ofNat (freshNumber taken k)) (b := 1)
        (by rw [hvalue]; change freshNumber taken k + 1 < _; omega)
      rw [hvalue] at hnext
      obtain ⟨out, hout, hassigned⟩ := ih (hnext.symm ▸ Nat.succ_pos _)
        (hnext.symm ▸ count_freshNumber_succ taken k) (by omega) (by omega)
      exact ⟨_, by simp [hexplicit, hloop, hadd, hout], .automatic hexplicit hvalue hassigned⟩

section Assigned

variable {taken : List ℕ} {k : ℕ} {rs out : List ElfrcResource}

def resourceKey (r : ElfrcResource) : Option CString × UInt32 := (r.name, r.language)

theorem Assigned.map_resourceKey (h : Assigned taken k rs out) :
    out.map resourceKey = rs.map resourceKey := by
  induction h with
  | nil => rfl
  | explicit _ _ ih => simp [ih, resourceKey]
  | automatic _ _ _ ih => simp [ih, resourceKey]

theorem Assigned.length_eq (h : Assigned taken k rs out) : out.length = rs.length := by
  simpa using congrArg List.length h.map_resourceKey

theorem Assigned.get (h : Assigned taken k rs out) {i : ℕ} {r : ElfrcResource}
    (hr : rs[i]? = some r) : ∃ r', out[i]? = some r' ∧ r' = { r with finalId := r'.finalId } ∧
      (r.idExplicit = true → r'.finalId = r.id) ∧
      (r.idExplicit = false →
        r'.finalId.toNat = freshNumber taken (k + automaticCount (rs.take i))) := by
  induction h generalizing i with
  | nil => simp at hr
  | @explicit k s rs out hs _ ih =>
    cases i with
    | zero =>
      obtain rfl : s = r := by simpa using hr
      exact ⟨_, rfl, rfl, fun _ => rfl, fun hs' => absurd (hs.symm.trans hs') (by simp)⟩
    | succ i =>
      obtain ⟨r', hr', heq, hexplicit, hautomatic⟩ := ih hr
      refine ⟨r', hr', heq, hexplicit, fun h => ?_⟩
      rw [hautomatic h]
      simp [automaticCount, hs]
  | @automatic k s rs out id hs hid _ ih =>
    cases i with
    | zero =>
      obtain rfl : s = r := by simpa using hr
      exact ⟨_, rfl, rfl, fun hs' => absurd (hs.symm.trans hs') (by simp), fun _ => hid⟩
    | succ i =>
      obtain ⟨r', hr', heq, hexplicit, hautomatic⟩ := ih hr
      refine ⟨r', hr', heq, hexplicit, fun h => ?_⟩
      rw [hautomatic h]
      simp only [automaticCount, List.take_succ_cons, List.countP_cons, hs, Bool.not_false,
        ↓reduceIte]
      congr 1
      omega

theorem Assigned.exists_mem (h : Assigned taken k rs out) {r' : ElfrcResource} (hr' : r' ∈ out) :
    ∃ r ∈ rs, r' = { r with finalId := r'.finalId } := by
  obtain ⟨i, hi, rfl⟩ := List.getElem_of_mem hr'
  have hi' : i < rs.length := h.length_eq ▸ hi
  obtain ⟨r', hr', heq, -⟩ := h.get (List.getElem?_eq_getElem hi')
  obtain rfl : out[i] = r' := Option.some.inj ((List.getElem?_eq_getElem hi).symm.trans hr')
  exact ⟨rs[i], List.getElem_mem hi', heq⟩

theorem Assigned.name_ne_none (h : Assigned taken k rs out) (hnames : ∀ r ∈ rs, r.name ≠ none) :
    ∀ r ∈ out, r.name ≠ none := by
  intro r' hr'
  obtain ⟨r, hr, heq⟩ := h.exists_mem hr'
  rw [heq]
  exact hnames r hr

/-- A final identifier is an explicit one or a fresh number not handed out before. -/
theorem Assigned.mem_finalId (h : Assigned taken k rs out) {id : UInt32}
    (hid : id ∈ out.map (·.finalId)) :
    id ∈ explicitIds rs ∨ ∃ j, k ≤ j ∧ id.toNat = freshNumber taken j := by
  induction h with
  | nil => simp at hid
  | explicit hr _ ih =>
    rcases List.mem_cons.mp hid with rfl | hid
    · exact Or.inl (by simp [explicitIds, hr])
    · refine (ih hid).imp_left fun hmem => ?_
      simp only [explicitIds, List.filter_cons, hr, ↓reduceIte, List.map_cons]
      exact List.mem_cons_of_mem _ hmem
  | automatic hr hfresh _ ih =>
    rcases List.mem_cons.mp hid with rfl | hid
    · exact Or.inr ⟨_, le_rfl, hfresh⟩
    · refine (ih hid).imp (fun hmem => ?_) fun ⟨j, hj, hid⟩ => ⟨j, Nat.le_of_succ_le hj, hid⟩
      simpa [explicitIds, hr] using hmem

theorem Assigned.nodup (h : Assigned taken k rs out) (hexplicit : (explicitIds rs).Nodup)
    (htaken : ∀ id ∈ explicitIds rs, id.toNat ∈ taken) : (out.map (·.finalId)).Nodup := by
  induction h with
  | nil => exact List.nodup_nil
  | @explicit k r rs out hr hrest ih =>
    have hsplit : explicitIds (r :: rs) = r.id :: explicitIds rs := by simp [explicitIds, hr]
    rw [hsplit] at hexplicit htaken
    obtain ⟨hnot, hexplicit⟩ := List.nodup_cons.mp hexplicit
    refine List.nodup_cons.mpr
      ⟨fun hmem => ?_, ih hexplicit fun id hid => htaken id (List.mem_cons_of_mem _ hid)⟩
    rcases hrest.mem_finalId hmem with hid | ⟨j, -, hid⟩
    · exact hnot hid
    · exact (fresh_freshNumber taken j).2 (hid ▸ htaken r.id (List.mem_cons_self ..))
  | @automatic k r rs out id hr hfresh hrest ih =>
    have hsame : explicitIds (r :: rs) = explicitIds rs := by simp [explicitIds, hr]
    rw [hsame] at hexplicit htaken
    refine List.nodup_cons.mpr ⟨fun hmem => ?_, ih hexplicit htaken⟩
    rcases hrest.mem_finalId hmem with hid | ⟨j, hj, hid⟩
    · exact (fresh_freshNumber taken k).2 (hfresh ▸ htaken id hid)
    · have hjk := freshNumber_injective taken (hid.symm.trans hfresh)
      omega

end Assigned

theorem duplicateOf_spec {r : ElfrcResource} (hr : r.name ≠ none) {rest : List ElfrcResource}
    (hrest : ∀ s ∈ rest, s.name ≠ none) :
    ∃ found, duplicateOf r rest = .ok found ∧
      (found = none ↔ resourceKey r ∉ rest.map resourceKey) := by
  induction rest with
  | nil => exact ⟨none, rfl, by simp⟩
  | cons s rest ih =>
    obtain ⟨name, hname⟩ := Option.ne_none_iff_exists'.mp hr
    obtain ⟨name', hname'⟩ := Option.ne_none_iff_exists'.mp (hrest s (List.mem_cons_self ..))
    have hsame : resourceKey r = resourceKey s ↔ name = name' ∧ r.language = s.language := by
      simp [resourceKey, hname, hname']
    simp only [duplicateOf, hname, hname', Exec.deref_some, Exec.ok_bind, List.map_cons,
      List.mem_cons, not_or, hsame]
    split_ifs with hdup
    · exact ⟨some s, rfl, by simp [hdup]⟩
    · obtain ⟨found, hfound, hiff⟩ := ih fun t ht => hrest t (List.mem_cons_of_mem _ ht)
      exact ⟨found, hfound, by rw [hiff]; simp [hdup]⟩

theorem findDuplicate_spec {rs : List ElfrcResource} (hnames : ∀ r ∈ rs, r.name ≠ none) :
    ∃ found, findDuplicate rs = .ok found ∧ (found = none ↔ (rs.map resourceKey).Nodup) := by
  induction rs with
  | nil => exact ⟨none, rfl, by simp⟩
  | cons r rs ih =>
    have hrs : ∀ s ∈ rs, s.name ≠ none := fun s hs => hnames s (List.mem_cons_of_mem _ hs)
    obtain ⟨found, hfound, hiff⟩ := duplicateOf_spec (hnames r (List.mem_cons_self ..)) hrs
    obtain ⟨rest, hrest, hnodup⟩ := ih hrs
    rw [List.map_cons, List.nodup_cons, ← hiff, ← hnodup]
    cases found with
    | some s => exact ⟨some (r, s), by simp [findDuplicate, hfound], by simp⟩
    | none => exact ⟨rest, by simp [findDuplicate, hfound, hrest], by simp⟩

/-- Both resources have names, and not the same name in the same language. -/
def KeysDiffer (key key' : Option CString × UInt32) : Prop :=
  key.1 ≠ none ∧ key'.1 ≠ none ∧ key ≠ key'

theorem duplicateOf_eq_none_iff {r : ElfrcResource} {rest : List ElfrcResource} :
    duplicateOf r rest = .ok none ↔ ∀ s ∈ rest, KeysDiffer (resourceKey r) (resourceKey s) := by
  induction rest with
  | nil => simp [duplicateOf]
  | cons s rest ih =>
    rw [List.forall_mem_cons, ← ih]
    cases hr : r.name with
    | none => simp [duplicateOf, KeysDiffer, resourceKey, hr]
    | some name =>
      cases hs : s.name with
      | none => simp [duplicateOf, KeysDiffer, resourceKey, hr, hs]
      | some name' =>
        have hsame : KeysDiffer (resourceKey r) (resourceKey s) ↔
            ¬ (name = name' ∧ r.language = s.language) := by
          simp [KeysDiffer, resourceKey, hr, hs]
        simp only [duplicateOf, hr, hs, Exec.deref_some, Exec.ok_bind]
        split_ifs with hdup
        · simp [hsame, hdup]
        · simp [hsame, hdup]

theorem findDuplicate_eq_none_iff {rs : List ElfrcResource} :
    findDuplicate rs = .ok none ↔ (rs.map resourceKey).Pairwise KeysDiffer := by
  induction rs with
  | nil => simp [findDuplicate]
  | cons r rs ih =>
    rw [List.map_cons, List.pairwise_cons, List.forall_mem_map, ← duplicateOf_eq_none_iff, ← ih,
      findDuplicate, Exec.bind_eq_ok]
    constructor
    · rintro ⟨found, hfound, h⟩
      cases found with
      | none => exact ⟨hfound, h⟩
      | some s => cases h
    · rintro ⟨hnone, hrest⟩
      exact ⟨none, hnone, hrest⟩

theorem duplicateOf_eq_some {r s : ElfrcResource} {rest : List ElfrcResource}
    (h : duplicateOf r rest = .ok (some s)) :
    ∃ k : ℕ, rest[k]? = some s ∧ resourceKey r = resourceKey s ∧ r.name ≠ none := by
  induction rest with
  | nil => cases h
  | cons t rest ih =>
    obtain ⟨name, hname, h⟩ := Exec.bind_eq_ok.mp h
    obtain ⟨name', hname', h⟩ := Exec.bind_eq_ok.mp h
    split_ifs at h with hdup
    · obtain rfl : t = s := Option.some.inj (Except.ok.inj h)
      rw [Exec.deref_eq_ok] at hname hname'
      refine ⟨0, rfl, Prod.ext ?_ hdup.2, by simp [hname]⟩
      rw [resourceKey, resourceKey, hname, hname', hdup.1]
    · obtain ⟨k, hk, hkey⟩ := ih h
      exact ⟨k + 1, hk, hkey⟩

theorem findDuplicate_eq_some {rs : List ElfrcResource} {first second : ElfrcResource}
    (h : findDuplicate rs = .ok (some (first, second))) :
    ∃ i j : ℕ, i < j ∧ rs[i]? = some first ∧ rs[j]? = some second ∧
      resourceKey first = resourceKey second ∧ first.name ≠ none := by
  induction rs with
  | nil => cases h
  | cons r rs ih =>
    obtain ⟨found, hfound, h⟩ := Exec.bind_eq_ok.mp h
    cases found with
    | some s =>
      obtain ⟨rfl, rfl⟩ := Prod.mk.inj (Option.some.inj (Except.ok.inj h))
      obtain ⟨k, hk, hkey⟩ := duplicateOf_eq_some hfound
      exact ⟨0, k + 1, Nat.succ_pos k, rfl, hk, hkey⟩
    | none =>
      obtain ⟨i, j, hlt, hi, hj, hkey⟩ := ih h
      exact ⟨i + 1, j + 1, Nat.succ_lt_succ hlt, hi, hj, hkey⟩

/-- A repeated explicit identifier is all the pass looks at. -/
theorem assignAndValidateIds_of_repeated (fuel : ℕ) (ctx : ParseCtx) (err : ErrorState)
    {m : ElfrcManifest} (h : ¬ (explicitIds m.resources).Nodup) :
    ∃ err', assignAndValidateIds fuel ctx err m = .ok (err', m) ∧ Checked err err' False := by
  have hne : m.resources ≠ [] := by
    intro hnil
    exact h (by simp [hnil, explicitIds])
  rw [← (sortedExplicitIds_perm _).nodup_iff,
    ← repeatedId_eq_none_iff (sortedExplicitIds_pairwise _)] at h
  obtain ⟨id, hid⟩ := Option.ne_none_iff_exists'.mp h
  refine ⟨_, by simp only [assignAndValidateIds, hne, ↓reduceIte, hid]; rfl, ?_⟩
  exact Checked.report ctx 0 _ not_false

/-- Otherwise the identifiers are assigned, and the duplicate scan has the last word. -/
theorem assignAndValidateIds_of_nodup (fuel : ℕ) (ctx : ParseCtx) (err : ErrorState)
    {m : ElfrcManifest} (h : (explicitIds m.resources).Nodup)
    (hlt : m.resources.length + 1 < 2 ^ 32) (hfuel : m.resources.length ≤ fuel) :
    ∃ out, Assigned (takenIds m.resources) 0 m.resources out ∧
      assignAndValidateIds fuel ctx err m = (do
        match ← findDuplicate out with
        | some (first, second) =>
          pure (setError ctx err second.line (duplicateResource first second),
            { m with resources := out })
        | none => pure (err, { m with resources := out })) := by
  by_cases hnil : m.resources = []
  · obtain ⟨version, module, resources⟩ := m
    obtain rfl : resources = [] := hnil
    exact ⟨[], .nil, rfl⟩
  · have hids : repeatedId (sortedExplicitIds m.resources) = none := by
      rw [repeatedId_eq_none_iff (sortedExplicitIds_pairwise _),
        (sortedExplicitIds_perm _).nodup_iff]
      exact h
    have hlength := length_takenIds_add m.resources
    have hpos : 0 < (1 : UInt32).toNat := Nat.one_pos
    have hcount : Nat.count (Fresh (takenIds m.resources)) (1 : UInt32).toNat = 0 :=
      count_fresh_one _
    obtain ⟨out, hout, hassigned⟩ := assignIds_spec
      (fun _ => mem_sortedExplicitIds_iff m.resources) fuel m.resources hpos hcount (by omega)
      (by omega)
    refine ⟨out, hassigned, ?_⟩
    simp only [assignAndValidateIds, hnil, ↓reduceIte, hids, hout, Exec.ok_bind]

theorem assignIds_mono {ids : List UInt32} {fuel fuel' : ℕ} (hle : fuel ≤ fuel')
    {rs out : List ElfrcResource} {next : UInt32} (h : assignIds fuel ids rs next = .ok out) :
    assignIds fuel' ids rs next = .ok out := by
  induction rs generalizing next out with
  | nil => exact h
  | cons r rs ih =>
    unfold assignIds at h ⊢
    split_ifs at h ⊢ with hexplicit
    · obtain ⟨rest, hrest, h⟩ := Exec.bind_eq_ok.mp h
      rw [ih hrest, Exec.ok_bind]
      exact h
    · obtain ⟨free, hfree, h⟩ := Exec.bind_eq_ok.mp h
      obtain ⟨next', hnext, h⟩ := Exec.bind_eq_ok.mp h
      obtain ⟨rest, hrest, h⟩ := Exec.bind_eq_ok.mp h
      rw [loop_mono hle hfree, Exec.ok_bind, hnext, Exec.ok_bind, ih hrest, Exec.ok_bind]
      exact h

/-- A larger budget changes nothing about a pass that returned. -/
theorem assignAndValidateIds_mono {ctx : ParseCtx} {err : ErrorState} {m : ElfrcManifest}
    {fuel fuel' : ℕ} (hle : fuel ≤ fuel') {result : ErrorState × ElfrcManifest}
    (h : assignAndValidateIds fuel ctx err m = .ok result) :
    assignAndValidateIds fuel' ctx err m = .ok result := by
  unfold assignAndValidateIds at h ⊢
  split_ifs at h ⊢ with hnil
  · exact h
  · dsimp only at h ⊢
    cases hrepeated : repeatedId (sortedExplicitIds m.resources) with
    | some id => simpa only [hrepeated] using h
    | none =>
      simp only [hrepeated] at h ⊢
      obtain ⟨out, hout, h⟩ := Exec.bind_eq_ok.mp h
      rw [assignIds_mono hle hout, Exec.ok_bind]
      exact h

theorem assignAndValidateIds_spec (fuel : ℕ) (ctx : ParseCtx) (err : ErrorState)
    {m : ElfrcManifest} (hlt : m.resources.length + 1 < 2 ^ 32)
    (hfuel : m.resources.length ≤ fuel) (hnames : ∀ r ∈ m.resources, r.name ≠ none) :
    ∃ err' m', assignAndValidateIds fuel ctx err m = .ok (err', m') ∧
      Checked err err' ((explicitIds m.resources).Nodup ∧ (m.resources.map resourceKey).Nodup) ∧
      ((explicitIds m.resources).Nodup → ∃ out, m' = { m with resources := out } ∧
        Assigned (takenIds m.resources) 0 m.resources out) := by
  by_cases hexplicit : (explicitIds m.resources).Nodup
  · obtain ⟨out, hassigned, heq⟩ :=
      assignAndValidateIds_of_nodup fuel ctx err hexplicit hlt hfuel
    obtain ⟨found, hfound, hiff⟩ := findDuplicate_spec (hassigned.name_ne_none hnames)
    rw [hassigned.map_resourceKey] at hiff
    rw [heq, hfound, Exec.ok_bind]
    cases found with
    | none =>
      exact ⟨_, _, rfl, Checked.skip ⟨hexplicit, hiff.mp rfl⟩, fun _ => ⟨out, rfl, hassigned⟩⟩
    | some pair =>
      refine ⟨_, _, rfl, Checked.report ctx _ _ fun h => ?_, fun _ => ⟨out, rfl, hassigned⟩⟩
      exact absurd (hiff.mpr h.2) (by simp)
  · obtain ⟨err', heq, hchecked⟩ :=
      assignAndValidateIds_of_repeated fuel ctx err hexplicit
    exact ⟨err', m, heq, hchecked.congr (by simp [hexplicit]), fun h => absurd h hexplicit⟩

end Elfr.Compiler
