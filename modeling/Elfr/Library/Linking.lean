import Elfr.Library.Elf64

/-!
# Linked programs

What a program gets of the object files it is linked from, as far as constant data and the
global symbols in it are concerned: the linker copies such a section to an aligned place of
its own, and a symbol stands for the place of its section plus its value. Sections that
relocations change, and all other sections, may end up in any way.
-/
namespace Elfr.Library.Elf64

/-- The loaded bytes, where section `k` of the `i`-th file went, and the addresses of symbols. -/
structure Program where
  memory : Bytes
  place : ℕ → ℕ → ℕ
  address : CString → Option ℕ

/-- `SHT_PROGBITS` with no flag but `SHF_ALLOC`: loaded, and never written to. -/
def Shdr.Constant (h : Shdr) : Prop := h.shType = 1 ∧ h.shFlags = 2

def Shdr.HoldsSymbols (h : Shdr) : Prop := h.shType = 2

/-- `SHT_RELA` or `SHT_REL`, for section `k`. -/
def Shdr.Relocates (h : Shdr) (k : ℕ) : Prop := (h.shType = 4 ∨ h.shType = 9) ∧ h.shInfo.toNat = k

/-- The linker copies section `k` of the object as it is. -/
structure Copied (object : Bytes) (k : ℕ) : Prop where
  inTable : k < (fileHeader object).eShnum.toNat
  constant : (sectionHeader object k).Constant
  fixed : ∀ j < (fileHeader object).eShnum.toNat, ¬ (sectionHeader object j).Relocates k

/-- The object defines a global symbol at an offset of section `k`. -/
def Defines (object : Bytes) (name : CString) (k off : ℕ) : Prop :=
  ∃ t < (fileHeader object).eShnum.toNat, (sectionHeader object t).HoldsSymbols ∧
    ∃ sym, (some name, sym) ∈ sectionSymbols object t ∧ sym.bind = stbGlobal ∧
      sym.stShndx.toNat = k ∧ sym.stValue.toNat = off

namespace Program

def region (p : Program) (i : ℕ) (object : Bytes) (k : ℕ) : Region :=
  ⟨p.place i k, (sectionBytes object k).length⟩

/-- The value of a weak reference, which may stay without a definition. -/
def weakReference (p : Program) (name : CString) : ℕ := (p.address name).getD 0

/-- The same program, loaded behind `n` other bytes. -/
def shift (p : Program) (n : ℕ) : Program where
  memory := List.replicate n 0 ++ p.memory
  place i k := n + p.place i k
  address name := (p.address name).map (n + ·)

end Program

/-- The program is linked from these object files. -/
structure Links (objects : List Bytes) (p : Program) : Prop where
  contents : ∀ i object k, objects[i]? = some object → Copied object k →
    Segment p.memory (p.place i k) (sectionBytes object k)
  aligned : ∀ i object k, objects[i]? = some object → Copied object k →
    (sectionHeader object k).shAddralign.toNat ∣ p.place i k
  apart : ∀ i object k i' object' k', objects[i]? = some object → objects[i']? = some object' →
    Copied object k → Copied object' k' → (i, k) ≠ (i', k') →
      (p.region i object k).Apart (p.region i' object' k')
  symbols : ∀ i object name k off, objects[i]? = some object → Defines object name k off →
    Copied object k → p.address name = some (p.place i k + off)

/-- The object has an entry for the name that is more than a reference (`SHN_UNDEF`). -/
def HasEntry (object : Bytes) (name : CString) : Prop :=
  ∃ t < (fileHeader object).eShnum.toNat, (sectionHeader object t).HoldsSymbols ∧
    ∃ sym, (some name, sym) ∈ sectionSymbols object t ∧ sym.stShndx ≠ 0

/-- Weak references to these names can be told from defined symbols: nothing is loaded at
address 0, and where no file defines such a name, neither does the linker. -/
structure LinksWeakly (names : List CString) (objects : List Bytes) (p : Program) : Prop
    extends Links objects p where
  loaded : ∀ i object k, objects[i]? = some object → Copied object k → 0 < p.place i k
  undefined : ∀ name ∈ names, (∀ object ∈ objects, ¬ HasEntry object name) → p.address name = none

section Shift

variable {names : List CString} {objects : List Bytes} {p : Program} {n : ℕ}

theorem contains_unshift {start size j : ℕ} (h : Region.Contains ⟨n + start, size⟩ j) :
    Region.Contains ⟨start, size⟩ (j - n) := by
  unfold Region.Contains Region.stop at h ⊢
  dsimp only at h ⊢
  omega

theorem Links.shift (h : Links objects p) (hn : ∀ object ∈ objects, ∀ k, Copied object k →
    (sectionHeader object k).shAddralign.toNat ∣ n) : Links objects (p.shift n) where
  contents i object k hi hcopied := by
    have hseg := (segment_append_self (List.replicate n 0) p.memory).trans
      (h.contents i object k hi hcopied)
    rwa [List.length_replicate] at hseg
  aligned i object k hi hcopied :=
    Nat.dvd_add (hn object (List.mem_of_getElem? hi) k hcopied) (h.aligned i object k hi hcopied)
  apart i object k i' object' k' hi hi' hcopied hcopied' hne := by
    intro j hj hj'
    have hbase := h.apart i object k i' object' k' hi hi' hcopied hcopied' hne
    exact hbase (j - n) (contains_unshift hj) (contains_unshift hj')
  symbols i object name k off hi hdefines hcopied := by
    change (p.address name).map (n + ·) = _
    rw [h.symbols i object name k off hi hdefines hcopied]
    exact congrArg some (Nat.add_assoc _ _ _).symm

theorem Links.shift_weakly (h : Links objects p) (hpos : 0 < n)
    (hn : ∀ object ∈ objects, ∀ k, Copied object k →
      (sectionHeader object k).shAddralign.toNat ∣ n)
    (hundefined : ∀ name ∈ names, (∀ object ∈ objects, ¬ HasEntry object name) →
      p.address name = none) :
    LinksWeakly names objects (p.shift n) where
  toLinks := h.shift hn
  loaded _ _ _ _ _ := Nat.add_pos_left hpos _
  undefined name hmem hname := congrArg (Option.map (n + ·)) (hundefined name hmem hname)

end Shift

end Elfr.Library.Elf64
