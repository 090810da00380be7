import Elfr.Container.BuildOutcome
import Elfr.Container.RoundTrip

/-!
# Equal bytes, equal items

What the library shows of a buffer decides the items, so that two builds give the same bytes
exactly if they started from the same items: nothing else of manifest, file system or run is
in a container, and nothing of the items is lost. In particular no container is the beginning
of another.
-/
namespace Elfr.Compiler

open Library Common Format Elfr.Runtime

section Unique

variable {c : ERFContainer} {r : ERFResource}

theorem RecoversMetadata.unique {metadata metadata' : List (CString × CString)}
    (h : RecoversMetadata c r metadata) (h' : RecoversMetadata c r metadata') :
    metadata = metadata' := by
  have hlen : metadata.length = metadata'.length := by
    have hcount := Except.ok.inj (h.count.symm.trans h'.count)
    exact_mod_cast hcount
  refine List.ext_getElem hlen fun j hj hj' => ?_
  let out : OutVars := ⟨some 0, some 0⟩
  obtain ⟨k, v, hget, hkey, hvalue⟩ := h.get j hj out
  obtain ⟨k', v', hget', hkey', hvalue'⟩ := h'.get j hj' out
  have hsame : out.store k v = out.store k' v' :=
    (Prod.mk.inj (Except.ok.inj (hget.symm.trans hget'))).2
  have hk : k = k' := Option.some.inj (congrArg OutVars.key hsame)
  have hv : v = v' := Option.some.inj (congrArg OutVars.value hsame)
  subst hk hv
  exact Prod.ext (hkey.unique hkey') (hvalue.unique hvalue')

theorem RecoversItem.unique {it it' : Item} (h : RecoversItem c r it)
    (h' : RecoversItem c r it') : it = it' := by
  have hname := h.name.unique h'.name
  have hmetadata := h.metadata.unique h'.metadata
  have hcontents := h.data.eq_of_length h'.data (h.size.symm.trans h'.size)
  have hid := h.id.symm.trans h'.id
  have htype := h.type.symm.trans h'.type
  have hlanguage := h.language.symm.trans h'.language
  have hflags := h.flags.symm.trans h'.flags
  cases it
  cases it'
  simp_all

end Unique

theorem Recovers.unique {buf : Bytes} {items items' : List Item} (h : Recovers buf items)
    (h' : Recovers buf items') : items = items' := by
  obtain ⟨c, hopen, hcount, hitems⟩ := h
  obtain ⟨c', hopen', hcount', hitems'⟩ := h'
  obtain rfl := Except.ok.inj (Except.ok.inj (hopen.symm.trans hopen'))
  refine List.ext_getElem (hcount.symm.trans hcount') fun i hi hi' => ?_
  obtain ⟨r, hr, -, hit⟩ := hitems i hi
  obtain ⟨r', hr', -, hit'⟩ := hitems' i hi'
  obtain rfl := Option.some.inj (hr.symm.trans hr')
  exact hit.unique hit'

theorem Builds.eq_of_items {fs fs' : FileSystem} {m m' : ElfrcManifest} {items : List Item}
    {b b' : Bytes} (hbuild : Builds fs m b) (hbuild' : Builds fs' m' b')
    (hloads : List.Forall₂ (Loads fs) m.resources items)
    (hloads' : List.Forall₂ (Loads fs') m'.resources items) : b = b' := by
  obtain ⟨fuel, hfuel⟩ := hbuild
  obtain ⟨fuel', hfuel'⟩ := hbuild'
  obtain ⟨items₁, hloads₁, hashTable, hhash, rfl⟩ := elfrcContainerBuild_eq_ok.mp hfuel
  obtain ⟨items₂, hloads₂, hashTable', hhash', rfl⟩ := elfrcContainerBuild_eq_ok.mp hfuel'
  obtain rfl := List.right_unique_forall₂' (Loads.rightUnique fs) hloads hloads₁
  obtain rfl := List.right_unique_forall₂' (Loads.rightUnique fs') hloads' hloads₂
  have hsame : hashTable = hashTable' := by
    have hmono := buildHashTable_mono (Nat.le_max_left fuel fuel') hhash
    have hmono' := buildHashTable_mono (Nat.le_max_right fuel fuel') hhash'
    exact Except.ok.inj (hmono.symm.trans hmono')
  rw [hsame]

/-- **Builds are reproducible and lose nothing.** Take two builds, of whatever manifests in
whatever file systems, each below 2^32 bytes and with metadata strings that fit their length
fields. They give the same bytes exactly if their resources load as the same items, and
neither is a proper beginning of the other. -/
theorem same_container_iff_same_items {fs fs' : FileSystem} {m m' : ElfrcManifest}
    {items items' : List Item} {b b' : Bytes} (hbuild : Builds fs m b)
    (hbuild' : Builds fs' m' b') (hlt : b.length < 2 ^ 32) (hlt' : b'.length < 2 ^ 32)
    (hloads : List.Forall₂ (Loads fs) m.resources items)
    (hloads' : List.Forall₂ (Loads fs') m'.resources items')
    (hfits : ∀ it ∈ items, ∀ kv ∈ it.metadata, FitsPrefix kv.1 ∧ FitsPrefix kv.2)
    (hfits' : ∀ it ∈ items', ∀ kv ∈ it.metadata, FitsPrefix kv.1 ∧ FitsPrefix kv.2) :
    (b = b' ↔ items = items') ∧ (b <+: b' → b = b') := by
  have hbeginning : b <+: b' → items = items' := by
    rintro ⟨t, rfl⟩
    obtain ⟨items₁, im, hloads₁, him⟩ := hbuild.imageOf hlt
    obtain ⟨items₂, im', hloads₂, him'⟩ := hbuild'.imageOf hlt'
    obtain rfl := List.right_unique_forall₂' (Loads.rightUnique fs) hloads hloads₁
    obtain rfl := List.right_unique_forall₂' (Loads.rightUnique fs') hloads' hloads₂
    have hbuf : (b ++ t ++ []).length < 2 ^ 64 := by
      rw [List.append_nil]
      omega
    have hrecovers := him'.recovers hbuf hfits'
    rw [List.append_nil] at hbuf hrecovers
    exact (him.recovers hbuf hfits).unique hrecovers
  have hsame : items = items' → b = b' := by
    rintro rfl
    exact hbuild.eq_of_items hbuild' hloads hloads'
  exact ⟨⟨fun h => hbeginning (h ▸ List.prefix_refl b), hsame⟩, fun h => hsame (hbeginning h)⟩

/-- The pair of resources, and the second of them only. -/
theorem same_container_iff_same_items_pair : ∃ b b', Builds pairFiles pairManifest b ∧
    Builds pairFiles { pairManifest with resources := pairManifest.resources.tail } b' ∧
      ¬ b <+: b' := by
  obtain ⟨b, -, hbuild, hlen, -⟩ := builds_of_loads pair_loads pair_size
  have hloads : List.Forall₂ (Loads pairFiles) pairManifest.resources.tail pairItems.tail := by
    cases pair_loads with
    | cons _ htail => exact htail
  have hsize : containerSize pairItems.tail < 2 ^ 32 := by decide +kernel
  let m' : ElfrcManifest := { pairManifest with resources := pairManifest.resources.tail }
  obtain ⟨b', -, hbuild', hlen', -⟩ := builds_of_loads (m := m') hloads hsize
  have hfits : ∀ it ∈ pairItems, ∀ kv ∈ it.metadata, FitsPrefix kv.1 ∧ FitsPrefix kv.2 := by
    unfold FitsPrefix
    decide
  obtain ⟨hiff, hbeginning⟩ := same_container_iff_same_items hbuild hbuild' (hlen ▸ pair_size)
    (hlen' ▸ hsize) pair_loads hloads hfits fun it hit => hfits it (List.mem_of_mem_tail hit)
  refine ⟨b, b', hbuild, hbuild', fun h => ?_⟩
  exact absurd (congrArg List.length (hiff.mp (hbeginning h))) (by decide)

end Elfr.Compiler
