import Elfr.Container.Checksum
import Elfr.Container.ResourceStore
import Elfr.Library.Linking
import Elfr.Tools.ObjectRoundTrip

/-!
# Containers in a linked program

`ELFR_START` and `ELFR_SIZE` of a prefix are resolved by the linker alone. Objects of the
compiler with different prefixes can be linked together, and in a program that is linked from
them, with whatever other files, each pair of symbols encloses the container of its object.
-/
namespace Elfr.System

open Library Elf64 Format Elfr.Runtime Compiler Tools

def sectionTypes : Vector UInt32 5 := #v[0, shtProgbits, shtSymtab, shtStrtab, shtStrtab]

theorem sectionTypes_spec : ∀ (k : ℕ) (hk : k < 5), (sectionTypes[k] = 1 → k = 1) ∧
    (sectionTypes[k] = 2 → k = 2) ∧ ¬ (sectionTypes[k] = 4 ∨ sectionTypes[k] = 9) := by
  decide

section Object

variable {c : Bytes} {symbolPrefix : Option CString}

theorem eShnum_elfObject (c : Bytes) (symbolPrefix : Option CString) :
    (fileHeader (elfObject c symbolPrefix)).eShnum.toNat = 5 := by
  rw [fileHeader_elfObject]
  rfl

variable (hsize : (elfObject c symbolPrefix).length < 2 ^ 64)
include hsize

theorem shType_elfObject {k : ℕ} (hk : k < 5) :
    (sectionHeader (elfObject c symbolPrefix) k).shType = sectionTypes[k] := by
  rw [sectionHeader_elfObject hsize (k := k) hk]
  match k, hk with
  | 0, _ => rfl
  | 1, _ => rfl
  | 2, _ => rfl
  | 3, _ => rfl
  | 4, _ => rfl

/-- Of an object of the compiler the linker copies the container. -/
theorem copied_elfObject_iff {k : ℕ} : Copied (elfObject c symbolPrefix) k ↔ k = 1 := by
  have hshnum := eShnum_elfObject c symbolPrefix
  constructor
  · rintro ⟨hk, ⟨htype, -⟩, -⟩
    rw [hshnum] at hk
    rw [shType_elfObject hsize hk] at htype
    exact (sectionTypes_spec k hk).1 htype
  · rintro rfl
    refine ⟨by omega, ⟨shType_elfObject hsize (by decide), ?_⟩, fun j hj => ?_⟩
    · rw [sectionHeader_elfObject hsize (k := 1) (by simp [objectSections])]
      rfl
    · rw [hshnum] at hj
      rintro ⟨htype, -⟩
      rw [shType_elfObject hsize hj] at htype
      exact (sectionTypes_spec j hj).2.2 htype

theorem defines_elfObject_iff {name : CString} {k off : ℕ} :
    Defines (elfObject c symbolPrefix) name k off ↔ k = 1 ∧
      (name = (boundaryNames symbolPrefix).1 ∧ off = 0 ∨
        name = (boundaryNames symbolPrefix).2 ∧ off = c.length) := by
  have hshnum := eShnum_elfObject c symbolPrefix
  obtain ⟨first, last, hsymbols, hfirst, hlast, hshndx, hshndx', hvalue, hvalue', -⟩ :=
    boundarySymbols_elfObject hsize
  have hnull : nullSymbol.bind ≠ stbGlobal := by decide
  constructor
  · rintro ⟨t, ht, htype, sym, hmem, hbind, rfl, rfl⟩
    rw [hshnum] at ht
    have ht' : t = 2 := by
      unfold Shdr.HoldsSymbols at htype
      rw [shType_elfObject hsize ht] at htype
      exact (sectionTypes_spec t ht).2.1 htype
    rw [ht', hsymbols] at hmem
    simp only [List.mem_cons, Prod.mk.injEq, Option.some.injEq, List.not_mem_nil, or_false] at hmem
    obtain ⟨-, rfl⟩ | ⟨rfl, rfl⟩ | ⟨rfl, rfl⟩ := hmem
    · exact absurd hbind hnull
    · exact ⟨hshndx, .inl ⟨rfl, by rw [hvalue]; rfl⟩⟩
    · exact ⟨hshndx', .inr ⟨rfl, hvalue'⟩⟩
  · have htable : (sectionHeader (elfObject c symbolPrefix) 2).HoldsSymbols :=
      shType_elfObject hsize (by decide)
    rintro ⟨rfl, ⟨rfl, rfl⟩ | ⟨rfl, rfl⟩⟩
    · exact ⟨2, by omega, htable, first, by simp [hsymbols], hfirst, hshndx, by rw [hvalue]; rfl⟩
    · exact ⟨2, by omega, htable, last, by simp [hsymbols], hlast, hshndx', hvalue'⟩

end Object

/-- The symbols of a prefix enclose the container in the memory of the program. -/
structure Encloses (p : Program) (symbolPrefix : Option CString) (c : Bytes) (start stop : ℕ) :
    Prop where
  startSymbol : p.address (declaredNames symbolPrefix).1 = some start
  endSymbol : p.address (declaredNames symbolPrefix).2 = some stop
  size : stop = start + c.length
  contents : Segment p.memory start c
  aligned : 16 ∣ start

theorem encloses_of_links {objects : List Bytes} {p : Program} (h : Links objects p) {i : ℕ}
    {c : Bytes} {symbolPrefix : Option CString} (hi : objects[i]? = some (elfObject c symbolPrefix))
    (hsize : (elfObject c symbolPrefix).length < 2 ^ 64)
    (hshort : (prefixText symbolPrefix).strlen ≤ 234) :
    Encloses p symbolPrefix c (p.place i 1) (p.place i 1 + c.length) := by
  have hcopied := (copied_elfObject_iff hsize).mpr rfl
  have hnames := (boundaryNames_eq_declared_iff symbolPrefix).mpr hshort
  have hcontents := h.contents i _ 1 hi hcopied
  rw [(resource_elfObject hsize).2.2] at hcontents
  refine ⟨?_, ?_, rfl, hcontents, ?_⟩
  · rw [← hnames]
    exact h.symbols i _ _ 1 0 hi ((defines_elfObject_iff hsize).mpr ⟨rfl, .inl ⟨rfl, rfl⟩⟩) hcopied
  · rw [← hnames]
    exact h.symbols i _ _ 1 _ hi ((defines_elfObject_iff hsize).mpr ⟨rfl, .inr ⟨rfl, rfl⟩⟩) hcopied
  · have haligned := h.aligned i _ 1 hi hcopied
    rw [sectionHeader_elfObject hsize (k := 1) (by simp [objectSections])] at haligned
    exact haligned

/-- A container and the prefix its object is written with. -/
structure Part where
  container : Bytes
  symbolPrefix : Option CString

def Part.object (part : Part) : Bytes := elfObject part.container part.symbolPrefix

def placeOf (parts : List Part) (i : ℕ) : ℕ :=
  ((parts.take i).flatMap fun part => bufAlign part.container 16).length

/-- One after the other, padded to the alignment of their sections. -/
def linkedProgram (parts : List Part) : Program where
  memory := parts.flatMap fun part => bufAlign part.container 16
  place i _ := placeOf parts i
  address name := (List.range parts.length).findSome? fun i => do
    let part ← parts[i]?
    if name = (boundaryNames part.symbolPrefix).1 then some (placeOf parts i)
    else if name = (boundaryNames part.symbolPrefix).2 then
      some (placeOf parts i + part.container.length)
    else none

theorem findSome?_eq_of_unique {l : List α} {f : α → Option β} {a : α} {b : β} (ha : a ∈ l)
    (hf : f a = some b) (hunique : ∀ x ∈ l, ∀ y, f x = some y → y = b) :
    l.findSome? f = some b := by
  cases hfind : l.findSome? f with
  | none => exact absurd (hf.symm.trans (List.findSome?_eq_none_iff.mp hfind a ha)) (by simp)
  | some y =>
    obtain ⟨x, hx, hxy⟩ := List.exists_of_findSome?_eq_some hfind
    rw [hunique x hx y hxy]

section Placing

variable {parts : List Part} {i : ℕ} {part : Part} (hi : parts[i]? = some part)
include hi

theorem placeOf_succ : placeOf parts (i + 1) = placeOf parts i +
    (bufAlign part.container 16).length := by
  unfold placeOf
  rw [List.take_add_one, hi]
  simp

theorem placeOf_add_le {j : ℕ} (hij : i < j) :
    placeOf parts i + part.container.length ≤ placeOf parts j := by
  have hsucc := placeOf_succ hi
  have hpadded := (bufAlign_isPrefix part.container 16).length_le
  have hmono : placeOf parts (i + 1) ≤ placeOf parts j := by
    unfold placeOf
    have htake := List.take_append_drop (i + 1) (parts.take j)
    rw [List.take_take, Nat.min_eq_left hij] at htake
    rw [← htake, List.flatMap_append, List.length_append]
    exact Nat.le_add_right _ _
  omega

end Placing

theorem placeOf_aligned (parts : List Part) (i : ℕ) : 16 ∣ placeOf parts i := by
  unfold placeOf
  induction parts.take i with
  | nil => exact Nat.dvd_zero 16
  | cons part rest ih =>
    rw [List.flatMap_cons, List.length_append]
    refine Nat.dvd_add ?_ ih
    rw [length_bufAlign]
    exact (alignUp_spec _ (by decide)).2.2

section Distinct

variable {parts : List Part} (hsize : ∀ part ∈ parts, part.object.length < 2 ^ 64)
  (hshort : ∀ part ∈ parts, (prefixText part.symbolPrefix).strlen ≤ 234)
  (hdistinct : (parts.map fun part => prefixText part.symbolPrefix).Nodup)
include hsize hshort hdistinct

omit hsize in
theorem address_linkedProgram {i : ℕ} {part : Part} (hi : parts[i]? = some part) {name : CString}
    {off : ℕ} (hname : name = (boundaryNames part.symbolPrefix).1 ∧ off = 0 ∨
      name = (boundaryNames part.symbolPrefix).2 ∧ off = part.container.length) :
    (linkedProgram parts).address name = some (placeOf parts i + off) := by
  obtain ⟨hlt, hget⟩ := List.getElem?_eq_some_iff.mp hi
  have hdeclared : ∀ part ∈ parts,
      boundaryNames part.symbolPrefix = declaredNames part.symbolPrefix :=
    fun part hpart => (boundaryNames_eq_declared_iff _).mpr (hshort part hpart)
  have hmem := List.mem_of_getElem? hi
  have hne : ∀ P Q, (declaredNames P).2 ≠ (declaredNames Q).1 :=
    fun P Q => (declaredNames_start_ne_end Q P).symm
  rw [hdeclared part hmem] at hname
  refine findSome?_eq_of_unique (List.mem_range.mpr hlt) ?_ fun j hj y hy => ?_
  · simp only [hi, Option.bind_eq_bind, Option.bind_some, hdeclared part hmem]
    obtain ⟨rfl, rfl⟩ | ⟨rfl, rfl⟩ := hname
    · rw [if_pos rfl, Nat.add_zero]
    · rw [if_neg (hne _ _), if_pos rfl]
  · rw [List.mem_range] at hj
    have hj' := List.getElem?_eq_getElem hj
    have hmem' := List.getElem_mem hj
    simp only [hj', Option.bind_eq_bind, Option.bind_some, hdeclared _ hmem'] at hy
    have hsame : (declaredNames part.symbolPrefix).1 = (declaredNames parts[j].symbolPrefix).1 ∨
        (declaredNames part.symbolPrefix).2 = (declaredNames parts[j].symbolPrefix).2 →
        i = j ∧ part = parts[j] := by
      intro hor
      have hpart : part = parts[j] :=
        List.inj_on_of_nodup_map hdistinct hmem hmem' (declaredNames_inj hor)
      refine ⟨?_, hpart⟩
      rw [← hget] at hpart
      exact hdistinct.of_map.getElem_inj_iff.mp hpart
    obtain ⟨rfl, rfl⟩ | ⟨rfl, rfl⟩ := hname
    · split_ifs at hy with hstart hend
      · obtain ⟨rfl, -⟩ := hsame (.inl hstart)
        exact (Option.some.inj hy).symm
      · exact absurd hend.symm (hne _ _)
    · split_ifs at hy with hstart hend
      · exact absurd hstart (hne _ _)
      · obtain ⟨rfl, rfl⟩ := hsame (.inr hend)
        exact (Option.some.inj hy).symm

/-- Objects with different prefixes that fit can be linked. -/
theorem links_linkedProgram : Links (parts.map Part.object) (linkedProgram parts) := by
  have hobject : ∀ (i : ℕ) object, (parts.map Part.object)[i]? = some object →
      ∃ part : Part, parts[i]? = some part ∧ object = elfObject part.container part.symbolPrefix ∧
        (elfObject part.container part.symbolPrefix).length < 2 ^ 64 := by
    intro i object hi
    rw [List.getElem?_map, Option.map_eq_some_iff] at hi
    obtain ⟨part, hpart, rfl⟩ := hi
    exact ⟨part, hpart, rfl, hsize part (List.mem_of_getElem? hpart)⟩
  constructor
  · intro i object k hi hcopied
    obtain ⟨part, hpart, rfl, hlt⟩ := hobject i object hi
    obtain rfl := (copied_elfObject_iff hlt).mp hcopied
    obtain ⟨hlt', hget⟩ := List.getElem?_eq_some_iff.mp hpart
    rw [(resource_elfObject hlt).2.2]
    have hseg := segment_flatMap_take (fun part : Part => bufAlign part.container 16) parts i hlt'
    obtain ⟨t, ht⟩ := bufAlign_isPrefix part.container 16
    rw [hget, ← ht] at hseg
    exact hseg.left
  · intro i object k hi hcopied
    obtain ⟨part, hpart, rfl, hlt⟩ := hobject i object hi
    obtain rfl := (copied_elfObject_iff hlt).mp hcopied
    rw [sectionHeader_elfObject hlt (k := 1) (by simp [objectSections])]
    exact placeOf_aligned parts i
  · intro i object k i' object' k' hi hi' hcopied hcopied' hne
    obtain ⟨part, hpart, rfl, hlt⟩ := hobject i object hi
    obtain ⟨part', hpart', rfl, hlt'⟩ := hobject i' object' hi'
    obtain rfl := (copied_elfObject_iff hlt).mp hcopied
    obtain rfl := (copied_elfObject_iff hlt').mp hcopied'
    unfold Program.region
    rw [(resource_elfObject hlt).2.2, (resource_elfObject hlt').2.2]
    obtain hlow | rfl | hhigh := Nat.lt_trichotomy i i'
    · exact Region.Before.apart (placeOf_add_le hpart hlow)
    · exact absurd rfl hne
    · have hbefore : Region.Before ⟨placeOf parts i', part'.container.length⟩
          ⟨placeOf parts i, part.container.length⟩ := placeOf_add_le hpart' hhigh
      exact fun j hj hj' => hbefore.not_contains hj' hj
  · intro i object name k off hi hdefines hcopied
    obtain ⟨part, hpart, rfl, hlt⟩ := hobject i object hi
    obtain ⟨rfl, hname⟩ := (defines_elfObject_iff hlt).mp hdefines
    exact address_linkedProgram hshort hdistinct hpart hname

end Distinct

theorem opens_in_memory {items : List Item} {im : Image} {b : Bytes} (him : ImageOf items im b)
    (t : Bytes) : ∃ c, erfOpenMemory (some (b ++ t)) b.length = .ok (.ok c) ∧ Shows c items ∧
      erfVerifyChecksum (some c) = .ok true := by
  have hshows := him.shows []
  rw [List.append_nil] at hshows
  exact ⟨_, erfOpenMemory_append _ t him.opens_alone, hshows.followedBy t,
    erfVerifyChecksum_followedBy _ t _ him.verifies⟩

/-- **Containers in a linked program.** Objects whose prefixes have at most 234 characters and
are pairwise different can be linked, and whatever they are linked with: in the memory of the
program each container lies, aligned, between the symbols that `elfr.h` declares for its
prefix. If it was built from a manifest, then opening it from the one symbol with the
difference of the two as its size gives a container that verifies and shows the items. -/
theorem linked_containers (parts : List Part)
    (hsize : ∀ part ∈ parts, part.object.length < 2 ^ 64)
    (hshort : ∀ part ∈ parts, (prefixText part.symbolPrefix).strlen ≤ 234)
    (hdistinct : (parts.map fun part => prefixText part.symbolPrefix).Nodup) :
    (∃ p, Links (parts.map Part.object) p) ∧
      ∀ others p, Links (parts.map Part.object ++ others) p → ∀ part ∈ parts, ∃ start stop,
        Encloses p part.symbolPrefix part.container start stop ∧
        ∀ fs m items, Builds fs m part.container → part.container.length < 2 ^ 32 →
          List.Forall₂ (Loads fs) m.resources items →
          ∃ c, erfOpenMemory (some (p.memory.drop start)) (stop - start) = .ok (.ok c) ∧
            Shows c items ∧ erfVerifyChecksum (some c) = .ok true := by
  refine ⟨⟨_, links_linkedProgram hsize hshort hdistinct⟩, fun others p hlinks part hpart => ?_⟩
  obtain ⟨i, hi, rfl⟩ := List.getElem_of_mem hpart
  have hobject : (parts.map Part.object ++ others)[i]? =
      some (elfObject parts[i].container parts[i].symbolPrefix) := by
    rw [List.getElem?_append_left (by rwa [List.length_map]), List.getElem?_map,
      List.getElem?_eq_getElem hi]
    rfl
  have hencloses := encloses_of_links hlinks hobject (hsize _ hpart) (hshort _ hpart)
  refine ⟨_, _, hencloses, fun fs m items hbuild hlt hloads => ?_⟩
  obtain ⟨items', im, hloads', him⟩ := hbuild.imageOf hlt
  obtain rfl := List.right_unique_forall₂' (Loads.rightUnique fs) hloads hloads'
  obtain ⟨t, ht⟩ := hencloses.contents.drop_eq
  rw [ht, Nat.add_sub_cancel_left]
  exact opens_in_memory him t

/-- The container of the pair, once with the default names and once with a prefix. -/
theorem linked_containers_pair : ∃ b p,
    Links ([⟨b, none⟩, ⟨b, some (.literal "x")⟩].map Part.object) p ∧
      ∃ start stop, Encloses p (some (.literal "x")) b start stop := by
  obtain ⟨b, -, -, hlen, -⟩ := builds_of_loads pair_loads pair_size
  let parts : List Part := [⟨b, none⟩, ⟨b, some (.literal "x")⟩]
  have hsize : ∀ part ∈ parts, part.object.length < 2 ^ 64 := by
    intro part hpart
    have hcontainer : part.container = b := by
      have hall : ∀ part ∈ parts, part.container = b := by simp [parts]
      exact hall part hpart
    have hle := length_elfObject_le part.container part.symbolPrefix
    have hpair := pair_size
    unfold Part.object
    rw [hcontainer, hlen] at hle
    rw [hcontainer]
    omega
  have hshort : ∀ part ∈ parts, (prefixText part.symbolPrefix).strlen ≤ 234 := by
    simp only [parts, List.forall_mem_cons]
    exact ⟨by decide, by decide, nofun⟩
  obtain ⟨⟨p, hp⟩, hall⟩ := linked_containers parts hsize hshort
    (by simp only [parts, List.map_cons, List.map_nil]; decide)
  obtain ⟨start, stop, hencloses, -⟩ := hall [] p ((List.append_nil _).symm ▸ hp)
    ⟨b, some (.literal "x")⟩ (by simp [parts])
  exact ⟨b, p, hp, start, stop, hencloses⟩

end Elfr.System
