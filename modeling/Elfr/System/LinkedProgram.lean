import Elfr.System.CompilerRun
import Elfr.System.LinkedContainers
import Elfr.System.StoreRefinement

/-!
# From manifests to the running program

Manifests are compiled, their objects are linked into a program, and the program calls the
library: on containers that it opens between the symbols of a prefix, and on the default
container, which the library finds through two weak symbols. All it gets to see is the store
of the items in the manifests.
-/
namespace Elfr.System

open Library Elf64 Format Elfr.Runtime Compiler Tools

/-- What the library declares weak. -/
def weakNames : List CString :=
  [.literal "_elfr_resource_start", .literal "_elfr_resource_end"]

/-- What the weak symbols of the library enclose, unless one of them is null. -/
def linkedDefault (p : Program) : Option Bytes :=
  let start := p.weakReference (.literal "_elfr_resource_start")
  let stop := p.weakReference (.literal "_elfr_resource_end")
  if start = 0 ∨ stop = 0 then none else some (slice p.memory start (stop - start))

/-- Some run of the compiler gets this together, out of resources that load as these items. -/
def Compiled (run : Run) (items : List Item) : Prop :=
  ∃ host prog args, Compiles host prog args run ∧ run.container.length < 2 ^ 32 ∧
    List.Forall₂ (Loads host.files) run.manifest.resources items

structure Run.Fits (run : Run) : Prop where
  size : run.object.length < 2 ^ 64
  short : (prefixText run.symbolPrefix).strlen ≤ 234

/-- The items that a program has by default: those of an object without a prefix, or none if
nothing defines the start symbol. -/
def HasDefault (runs : List Run) (others : List Bytes) : Option (List Item) → Prop
  | some items => ∃ run ∈ runs, prefixText run.symbolPrefix = .empty ∧ Compiled run items
  | none => (∀ run ∈ runs, prefixText run.symbolPrefix ≠ .empty) ∧
      ∀ object ∈ others, ¬ HasEntry object (.literal "_elfr_resource_start")

/-- What a call in the program asks of the store. -/
inductive Asks (runs : List Run) (p : Program) : Call → StoreCall → Prop
  | openLinked : run ∈ runs → Compiled run items →
      p.address (declaredNames run.symbolPrefix).1 = some start →
      p.address (declaredNames run.symbolPrefix).2 = some stop →
      Asks runs p (.openMemory (some (p.memory.drop start)) (stop - start)) (.open items)
  | call : Means call call' → Asks runs p call call'

theorem Compiled.holds {run : Run} {items : List Item} (h : Compiled run items) :
    Holds run.container items := by
  obtain ⟨host, prog, args, hrun, hlt, hloads⟩ := h
  exact ⟨host.files, run.manifest, run.container, [], hrun.container, hlt, hloads,
    (List.append_nil _).symm⟩

theorem Compiled.image {run : Run} {items : List Item} (h : Compiled run items) :
    ∃ im, ImageOf items im run.container := by
  obtain ⟨host, prog, args, hrun, hlt, hloads⟩ := h
  obtain ⟨items', im, hloads', him⟩ := hrun.container.imageOf hlt
  obtain rfl := List.right_unique_forall₂' (Loads.rightUnique host.files) hloads hloads'
  exact ⟨im, him⟩

theorem hasEntry_elfObject_iff {c : Bytes} {symbolPrefix : Option CString} {name : CString}
    (hsize : (elfObject c symbolPrefix).length < 2 ^ 64) :
    HasEntry (elfObject c symbolPrefix) name ↔
      name = (boundaryNames symbolPrefix).1 ∨ name = (boundaryNames symbolPrefix).2 := by
  have hshnum := eShnum_elfObject c symbolPrefix
  obtain ⟨first, last, hsymbols, -, -, hshndx, hshndx', -⟩ := boundarySymbols_elfObject hsize
  have hdefined : ∀ sym : Sym, sym.stShndx.toNat = 1 → sym.stShndx ≠ 0 := by
    intro sym hone hzero
    rw [hzero] at hone
    cases hone
  constructor
  · rintro ⟨t, ht, htype, sym, hmem, hne⟩
    rw [hshnum] at ht
    unfold Shdr.HoldsSymbols at htype
    rw [shType_elfObject hsize ht] at htype
    obtain rfl := (sectionTypes_spec t ht).2.1 htype
    rw [hsymbols] at hmem
    simp only [List.mem_cons, Prod.mk.injEq, Option.some.injEq, List.not_mem_nil, or_false] at hmem
    obtain ⟨-, rfl⟩ | ⟨rfl, -⟩ | ⟨rfl, -⟩ := hmem
    · exact absurd rfl hne
    · exact .inl rfl
    · exact .inr rfl
  · have htable : (sectionHeader (elfObject c symbolPrefix) 2).HoldsSymbols :=
      shType_elfObject hsize (by decide)
    rintro (rfl | rfl)
    · exact ⟨2, by omega, htable, first, by simp [hsymbols], hdefined first hshndx⟩
    · exact ⟨2, by omega, htable, last, by simp [hsymbols], hdefined last hshndx'⟩

theorem declaredNames_default {symbolPrefix : Option CString}
    (h : prefixText symbolPrefix = .empty) : declaredNames symbolPrefix =
      (.literal "_elfr_resource_start", .literal "_elfr_resource_end") := by
  unfold declaredNames
  rw [h]
  exact if_pos rfl

theorem linkedDefault_of_encloses {p : Program} {symbolPrefix : Option CString} {c : Bytes}
    {start stop : ℕ} (h : Encloses p symbolPrefix c start stop)
    (hdefault : prefixText symbolPrefix = .empty) (hpos : 0 < start) :
    linkedDefault p = some c := by
  have hstart := h.startSymbol
  have hstop := h.endSymbol
  have hsize := h.size
  rw [declaredNames_default hdefault] at hstart hstop
  unfold linkedDefault Program.weakReference
  simp only [hstart, hstop, Option.getD_some]
  rw [if_neg (by omega), hsize, Nat.add_sub_cancel_left]
  exact congrArg some h.contents.2

theorem linkedDefault_of_undefined {p : Program}
    (h : p.address (.literal "_elfr_resource_start") = none) : linkedDefault p = none := by
  unfold linkedDefault Program.weakReference
  rw [h]
  exact if_pos (.inl rfl)

/-- Objects with different prefixes can be linked so that nothing of them is at address 0. -/
theorem exists_linksWeakly {parts : List Part}
    (hsize : ∀ part ∈ parts, part.object.length < 2 ^ 64)
    (hshort : ∀ part ∈ parts, (prefixText part.symbolPrefix).strlen ≤ 234)
    (hdistinct : (parts.map fun part => prefixText part.symbolPrefix).Nodup) :
    ∃ p, LinksWeakly weakNames (parts.map Part.object) p := by
  refine ⟨_, (links_linkedProgram hsize hshort hdistinct).shift_weakly (n := 16) (by decide) ?_ ?_⟩
  · intro object hobject k hcopied
    obtain ⟨part, hpart, rfl⟩ := List.mem_map.mp hobject
    obtain rfl := (copied_elfObject_iff (hsize part hpart)).mp hcopied
    unfold Part.object
    rw [sectionHeader_elfObject (hsize part hpart) (k := 1) (by simp [objectSections])]
    exact dvd_refl 16
  · intro name _ hname
    refine List.findSome?_eq_none_iff.mpr fun i hi => ?_
    rw [List.mem_range] at hi
    have hmem := List.getElem_mem hi
    have hentry := hname _ (List.mem_map_of_mem hmem)
    unfold Part.object at hentry
    rw [hasEntry_elfObject_iff (hsize _ hmem), not_or] at hentry
    simp [List.getElem?_eq_getElem hi, hentry.1, hentry.2]

section Linked

variable {runs : List Run} {others : List Bytes} {p : Program}
  (hlinks : LinksWeakly weakNames (runs.map Run.object ++ others) p)
  (hfits : ∀ run ∈ runs, run.Fits)
include hlinks hfits

theorem exists_encloses {run : Run} (hmem : run ∈ runs) : ∃ start stop, 0 < start ∧
    Encloses p run.symbolPrefix run.container start stop := by
  obtain ⟨i, hi, rfl⟩ := List.getElem_of_mem hmem
  have hobject : (runs.map Run.object ++ others)[i]? =
      some (elfObject runs[i].container runs[i].symbolPrefix) := by
    rw [List.getElem?_append_left (by rwa [List.length_map]), List.getElem?_map,
      List.getElem?_eq_getElem hi]
    rfl
  have hfits := hfits _ hmem
  exact ⟨_, _, hlinks.loaded i _ 1 hobject ((copied_elfObject_iff hfits.size).mpr rfl),
    encloses_of_links hlinks.toLinks hobject hfits.size hfits.short⟩

/-- The library finds the default container exactly where there is one. -/
theorem holds_linkedDefault {linked : Option (List Item)} (h : HasDefault runs others linked) :
    Option.Rel Holds (linkedDefault p) linked := by
  cases linked with
  | some items =>
    obtain ⟨run, hmem, hdefault, hcompiled⟩ := h
    obtain ⟨start, stop, hpos, hencloses⟩ := exists_encloses hlinks hfits hmem
    rw [linkedDefault_of_encloses hencloses hdefault hpos]
    exact .some hcompiled.holds
  | none =>
    obtain ⟨hruns, hothers⟩ := h
    have hundefined : p.address (.literal "_elfr_resource_start") = none := by
      refine hlinks.undefined _ List.mem_cons_self fun object hobject => ?_
      rcases List.mem_append.mp hobject with hobject | hobject
      · obtain ⟨run, hmem, rfl⟩ := List.mem_map.mp hobject
        have hfits := hfits run hmem
        have hdeclared : (declaredNames none).1 = .literal "_elfr_resource_start" := by
          rw [declaredNames_default rfl]
        unfold Run.object
        rw [hasEntry_elfObject_iff hfits.size, (boundaryNames_eq_declared_iff _).mpr hfits.short,
          ← hdeclared]
        rintro (hstart | hend)
        · exact hruns run hmem (declaredNames_inj (.inl hstart)).symm
        · exact declaredNames_start_ne_end _ _ hend
      · exact hothers object hobject
    rw [linkedDefault_of_undefined hundefined]
    exact .none

/-- Opening a container between its symbols is opening the store of its items. -/
theorem Simulates.openLinked {start : Option Bytes} {linked : Option (List Item)}
    {s : LibraryState} {a : StoreState} (h : Simulates linked s a) {run : Run}
    {items : List Item} (hmem : run ∈ runs) (hcompiled : Compiled run items) {first last : ℕ}
    (hfirst : p.address (declaredNames run.symbolPrefix).1 = some first)
    (hlast : p.address (declaredNames run.symbolPrefix).2 = some last) :
    Answered start linked s a (.openMemory (some (p.memory.drop first)) (last - first))
      (.open items) := by
  obtain ⟨first', last', -, hencloses⟩ := exists_encloses hlinks hfits hmem
  obtain rfl := Option.some.inj (hfirst.symm.trans hencloses.startSymbol)
  obtain rfl := Option.some.inj (hlast.symm.trans hencloses.endSymbol)
  obtain ⟨im, him⟩ := hcompiled.image
  obtain ⟨t, ht⟩ := hencloses.contents.drop_eq
  obtain ⟨c, hopen, hshows, -⟩ := opens_in_memory him t
  rw [hencloses.size, Nat.add_sub_cancel_left, ht]
  exact h.openShown hopen hshows

end Linked

/-- **From manifests to the running program.** In a program linked from objects of the
compiler and whatever other files, each run of the store of the manifests' items is a run of
the library, call for call with the same results: for containers opened between the symbols
of their prefix as well as for the one that the library finds by itself. -/
theorem manifests_at_run_time (runs : List Run) (others : List Bytes) (p : Program)
    (hlinks : LinksWeakly weakNames (runs.map Run.object ++ others) p)
    (hfits : ∀ run ∈ runs, run.Fits)
    (linked : Option (List Item)) (hdefault : HasDefault runs others linked) (calls : List Call)
    (calls' : List StoreCall) (hcalls : List.Forall₂ (Asks runs p) calls calls')
    (ts' : List (Turn StoreState StoreCall StoreReply))
    (hrun : turns (storeStep linked) .initial calls' = .ok ts') :
    ∃ ts, turns (callStep (linkedDefault p)) .initial calls = .ok ts ∧
      List.Forall₂ Agrees ts ts' := by
  have hlinked := holds_linkedDefault hlinks hfits hdefault
  refine turns_simulation (Simulates linked) (Asks runs p) Agrees ?_ (simulates_initial linked)
    hcalls hrun
  intro s a call call' reply' a' h hasks hstep
  cases hasks with
  | openLinked hmem hcompiled hfirst hlast =>
    exact h.openLinked hlinks hfits hmem hcompiled hfirst hlast reply' a' hstep
  | call hmeans => exact h.answered hlinked hmeans reply' a' hstep

/-- The sample, linked with nothing else; it is opened once more next to the default. -/
theorem manifests_at_run_time_sample : ∃ b p, LinksWeakly weakNames [elfObject b none] p ∧
    ∃ start stop ts, turns (callStep (linkedDefault p)) .initial
      [.openMemory (some (p.memory.drop start)) (stop - start),
        .findIn (some 0) (some (.literal "a")), .resourceData (some (.literal "a")) (some 0)] =
          .ok ts ∧ ts.length = 3 := by
  obtain ⟨b, im, hlt, -, hrun⟩ := exists_sampleRun
  have hsize := length_sampleRun hlt
  have hfits : ∀ run ∈ [sampleRun b], run.Fits := by
    intro run hmem
    obtain rfl := List.mem_singleton.mp hmem
    exact ⟨by omega, Nat.zero_le 234⟩
  have hcompiled : Compiled (sampleRun b) sampleItems :=
    ⟨_, _, _, hrun, hlt.trans (by decide), sample_loads⟩
  have hpart : ∀ part ∈ [(⟨b, none⟩ : Part)], part.object.length < 2 ^ 64 ∧
      (prefixText part.symbolPrefix).strlen ≤ 234 := by
    intro part hmem
    obtain rfl := List.mem_singleton.mp hmem
    exact ⟨(hfits _ (List.mem_singleton_self _)).size, Nat.zero_le 234⟩
  obtain ⟨p, hp⟩ := exists_linksWeakly (fun part hmem => (hpart part hmem).1)
    (fun part hmem => (hpart part hmem).2) (List.nodup_singleton _)
  have hlinks : LinksWeakly weakNames ([sampleRun b].map Run.object ++ []) p := hp
  obtain ⟨start, stop, -, hencloses⟩ := exists_encloses hlinks hfits (List.mem_singleton_self _)
  obtain ⟨ts, hts, hall⟩ := manifests_at_run_time _ [] p hlinks hfits (some sampleItems)
    ⟨_, List.mem_singleton_self _, rfl, hcompiled⟩ _
    [.open sampleItems, .findIn (some 0) (some (.literal "a")),
      .resourceData (some (.literal "a")) (some 0)]
    (.cons (.openLinked (List.mem_singleton_self _) hcompiled hencloses.startSymbol
      hencloses.endSymbol) (.cons (.call .findIn) (.cons (.call .resourceData) .nil))) _ rfl
  exact ⟨b, p, hp, start, stop, ts, hts, hall.length_eq⟩

end Elfr.System
