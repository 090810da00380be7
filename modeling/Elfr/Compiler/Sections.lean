import Elfr.Compiler.ContainerBuild
import Elfr.Library.Layout

/-!
# What the loops of the builder leave in the buffer

Every loop only appends, so a segment once written stays, and each offset a
loop records is the place of a segment in every later buffer. Offsets are exact
as long as the buffer stays below the width they are stored in.
-/
namespace Elfr.Compiler

open Library Common Format

/-- The least multiple of `alignment` from `k` on. -/
def alignUp (k alignment : ℕ) : ℕ :=
  if k % alignment ≠ 0 then k + (alignment - k % alignment) else k

theorem alignUp_spec (k : ℕ) {a : ℕ} (ha : 0 < a) :
    k ≤ alignUp k a ∧ alignUp k a < k + a ∧ a ∣ alignUp k a := by
  have hlt := Nat.mod_lt k ha
  have hdiv := Nat.div_add_mod k a
  unfold alignUp
  split_ifs with h
  · refine ⟨by omega, by omega, ⟨k / a + 1, ?_⟩⟩
    rw [Nat.mul_add, Nat.mul_one]
    omega
  · exact ⟨le_rfl, by omega, Nat.dvd_of_mod_eq_zero (by omega)⟩

theorem bufAlign_isPrefix (buf : Bytes) (alignment : ℕ) : buf <+: bufAlign buf alignment := by
  unfold bufAlign
  split_ifs
  · exact List.prefix_append _ _
  · exact List.prefix_rfl

theorem length_bufAlign (buf : Bytes) (alignment : ℕ) :
    (bufAlign buf alignment).length = alignUp buf.length alignment := by
  unfold bufAlign alignUp
  split_ifs <;> simp

theorem bufAlign_of_dvd {buf : Bytes} {alignment : ℕ} (h : alignment ∣ buf.length) :
    bufAlign buf alignment = buf := by
  rw [bufAlign, if_neg (not_not.mpr (Nat.mod_eq_zero_of_dvd h))]

theorem tiled_bufAlign {b : Bytes} {regions : List Region} (h : Tiled b regions) (a : ℕ) :
    Tiled (bufAlign b a) regions := by
  unfold bufAlign
  split_ifs
  · exact h.pad _
  · exact h

theorem toNat_ofNat64 {k : ℕ} (h : k < 2 ^ 64) : (UInt64.ofNat k).toNat = k := by
  rw [UInt64.toNat_ofNat', Nat.mod_eq_of_lt h]

/-- Where a piece lies in a buffer that ends below `2 ^ 64`, and how long it is, are stored
exactly. -/
theorem toNat_lengths_of_isPrefix {buf piece out : Bytes} (hgrow : buf ++ piece <+: out)
    (hlt : out.length < 2 ^ 64) : (UInt64.ofNat buf.length).toNat = buf.length ∧
      (UInt64.ofNat piece.length).toNat = piece.length := by
  have hle := hgrow.length_le
  rw [List.length_append] at hle
  exact ⟨toNat_ofNat64 (by omega), toNat_ofNat64 (by omega)⟩

theorem toNat_ofNat32 {k : ℕ} (h : k < 2 ^ 32) : (UInt32.ofNat k).toNat = k := by
  rw [UInt32.toNat_ofNat', Nat.mod_eq_of_lt h]

/-- The entries of the string table stand in the buffer, from `start` on. -/
def Interned (start : ℕ) (st : List StringEntry) (buf : Bytes) : Prop :=
  ∀ entry ∈ st, start ≤ entry.offset.toNat ∧ StringAt buf entry.offset.toNat entry.name

theorem internOffset_eq (buf : Bytes) (tableBase : UInt32) :
    (tableBase.toUInt64 + (UInt64.ofNat buf.length - tableBase.toUInt64)).toUInt32 =
      UInt32.ofNat buf.length := by
  have hcancel : tableBase.toUInt64 + (UInt64.ofNat buf.length - tableBase.toUInt64) =
      UInt64.ofNat buf.length := by
    rw [UInt64.add_comm, UInt64.sub_add_cancel]
  rw [hcancel, ← UInt32.toNat_inj, UInt64.toNat_toUInt32, UInt64.toNat_ofNat',
    UInt32.toNat_ofNat', Nat.mod_mod_of_dvd _ (by norm_num)]

theorem stringTableIntern_isPrefix (st : List StringEntry) (buf : Bytes) (tableBase : UInt32)
    (name : CString) : buf <+: (stringTableIntern st buf tableBase name).2.2 := by
  unfold stringTableIntern
  split
  · exact List.prefix_rfl
  · exact List.prefix_append _ _

/-- Interning keeps the table and finds the name at the offset it returns. -/
theorem stringTableIntern_spec {start : ℕ} {st : List StringEntry} {buf : Bytes}
    {tableBase : UInt32} {name : CString} (hst : Interned start st buf)
    (hstart : start ≤ buf.length)
    (hlt : (stringTableIntern st buf tableBase name).2.2.length < 2 ^ 32) :
    let r := stringTableIntern st buf tableBase name
    Interned start r.2.1 r.2.2 ∧ start ≤ r.1.toNat ∧ StringAt r.2.2 r.1.toNat name := by
  intro r
  unfold r
  unfold stringTableIntern at hlt ⊢
  cases hfind : st.find? fun entry => entry.name = name with
  | some entry =>
    have hname : entry.name = name := by simpa using List.find?_some hfind
    have hentry := hst entry (List.mem_of_find?_eq_some hfind)
    exact ⟨hst, hentry.1, hname ▸ hentry.2⟩
  | none =>
    simp only [hfind] at hlt
    have hoffset : (UInt32.ofNat buf.length).toNat = buf.length := by
      refine toNat_ofNat32 ?_
      rw [List.length_append] at hlt
      omega
    have hnew : StringAt (buf ++ name.terminated) buf.length name := segment_append_self _ _
    simp only [internOffset_eq, hoffset]
    refine ⟨fun entry hentry => ?_, hstart, hnew⟩
    rcases List.mem_append.mp hentry with hold | hlast
    · exact ⟨(hst entry hold).1, (hst entry hold).2.append _⟩
    · obtain rfl := List.mem_singleton.mp hlast
      simp only [hoffset]
      exact ⟨hstart, hnew⟩

theorem internNames_isPrefix (tableBase : UInt32) (names : List CString)
    (st : List StringEntry) (buf : Bytes) : buf <+: (internNames tableBase names st buf).2 := by
  induction names generalizing st buf with
  | nil => exact List.prefix_rfl
  | cons name names ih =>
    exact (stringTableIntern_isPrefix st buf tableBase name).trans (ih _ _)

/-- Every name stands at its offset in the buffer the loop leaves. -/
theorem internNames_spec {start : ℕ} {tableBase : UInt32} {names : List CString}
    {st : List StringEntry} {buf : Bytes} (hst : Interned start st buf)
    (hstart : start ≤ buf.length) (hlt : (internNames tableBase names st buf).2.length < 2 ^ 32) :
    List.Forall₂ (fun name offset => start ≤ offset.toNat ∧
        StringAt (internNames tableBase names st buf).2 offset.toNat name)
      names (internNames tableBase names st buf).1 := by
  induction names generalizing st buf with
  | nil => exact .nil
  | cons name names ih =>
    have hgrow := stringTableIntern_isPrefix st buf tableBase name
    have hrest := internNames_isPrefix tableBase names
      (stringTableIntern st buf tableBase name).2.1 (stringTableIntern st buf tableBase name).2.2
    have hlt' : (stringTableIntern st buf tableBase name).2.2.length < 2 ^ 32 :=
      Nat.lt_of_le_of_lt hrest.length_le hlt
    obtain ⟨hst', hle, hat⟩ := stringTableIntern_spec hst hstart hlt'
    exact .cons ⟨hle, hat.of_isPrefix hrest⟩ (ih hst' (hstart.trans hgrow.length_le) hlt)

/-- Where a directory entry finds the metadata of its resource. -/
def MetadataAt (start : ℕ) (b : Bytes) (metadata : List (CString × CString))
    (offset : UInt64) : Prop :=
  if metadata = [] then offset = 0
  else start ≤ offset.toNat ∧ Segment b offset.toNat (metadataBlock metadata)

theorem MetadataAt.of_isPrefix {start : ℕ} {b b' : Bytes} {metadata : List (CString × CString)}
    {offset : UInt64} (h : MetadataAt start b metadata offset) (hb : b <+: b') :
    MetadataAt start b' metadata offset := by
  unfold MetadataAt at h ⊢
  split_ifs at h ⊢
  · exact h
  · exact ⟨h.1, h.2.of_isPrefix hb⟩

theorem appendMetadata_isPrefix (metadata : List (List (CString × CString))) (buf : Bytes) :
    buf <+: (appendMetadata metadata buf).2 := by
  induction metadata generalizing buf with
  | nil => exact List.prefix_rfl
  | cons block rest ih =>
    unfold appendMetadata
    split_ifs
    · exact ih buf
    · exact ((bufAlign_isPrefix buf 8).trans (List.prefix_append _ _)).trans (ih _)

theorem length_appendMetadata (metadata : List (List (CString × CString))) (buf : Bytes) :
    (appendMetadata metadata buf).2.length = metadata.foldl (fun size block =>
      if block = [] then size else alignUp size 8 + (metadataBlock block).length) buf.length := by
  induction metadata generalizing buf with
  | nil => rfl
  | cons block rest ih =>
    unfold appendMetadata
    by_cases hnone : block = []
    · simp only [hnone, ↓reduceIte, ih, List.foldl_cons]
    · simp only [hnone, ↓reduceIte, ih, List.foldl_cons, List.length_append, length_bufAlign]

theorem appendMetadata_spec {start : ℕ} {metadata : List (List (CString × CString))} {buf : Bytes}
    (hstart : start ≤ buf.length) (hlt : (appendMetadata metadata buf).2.length < 2 ^ 64) :
    List.Forall₂ (MetadataAt start (appendMetadata metadata buf).2) metadata
      (appendMetadata metadata buf).1 := by
  induction metadata generalizing buf with
  | nil => exact .nil
  | cons block rest ih =>
    unfold appendMetadata at hlt ⊢
    by_cases hnone : block = []
    · simp only [hnone, ↓reduceIte] at hlt ⊢
      exact .cons (by simp [MetadataAt]) (ih hstart hlt)
    · simp only [hnone, ↓reduceIte] at hlt ⊢
      have hrest := appendMetadata_isPrefix rest (bufAlign buf 8 ++ metadataBlock block)
      have hle := (bufAlign_isPrefix buf 8).length_le
      have hoffset := (toNat_lengths_of_isPrefix hrest hlt).1
      refine .cons ?_ (ih (by rw [List.length_append]; omega) hlt)
      rw [MetadataAt, if_neg hnone, hoffset]
      exact ⟨hstart.trans hle, (segment_append_self _ _).of_isPrefix hrest⟩

/-- What the data loop does with the contents of the files. -/
def placeContents : List Bytes → Bytes → List DataRange × Bytes
  | [], buf => ([], buf)
  | filedata :: rest, buf =>
    let buf := bufAlign buf 16
    let range := ⟨UInt64.ofNat buf.length, UInt64.ofNat filedata.length, elfrCrc64 filedata⟩
    let (ranges, buf) := placeContents rest (buf ++ filedata)
    (range :: ranges, buf)

/-- The file of a resource can be read in full, and holds these bytes. -/
def ReadsFile (fs : FileSystem) (r : ElfrcResource) (contents : Bytes) : Prop :=
  ∃ file f, r.file = some file ∧ fs.fopen file = some f ∧ readFile f = some contents

/-- The data loop succeeds exactly if every resource is named and its file readable in full. -/
theorem appendData_eq_ok {fs : FileSystem} {rs : List ElfrcResource} {buf : Bytes}
    {res : List DataRange × Bytes} :
    appendData fs rs buf = .ok (.ok res) ↔
      ∃ contents, List.Forall₂ (fun r c => (∃ name, r.name = some name) ∧ ReadsFile fs r c)
        rs contents ∧ res = placeContents contents buf := by
  induction rs generalizing buf res with
  | nil =>
    constructor
    · intro h
      exact ⟨[], .nil, (Except.ok.inj (Except.ok.inj h)).symm⟩
    · rintro ⟨contents, hreads, rfl⟩
      cases hreads
      rfl
  | cons r rs ih =>
    constructor
    · intro h
      unfold appendData at h
      obtain ⟨name, hname, h⟩ := Exec.bind_eq_ok.mp h
      obtain ⟨file, hfile, h⟩ := Exec.bind_eq_ok.mp h
      have hname' := Exec.deref_eq_ok.mp hname
      have hfile' := Exec.deref_eq_ok.mp hfile
      cases hopen : fs.fopen file with
      | none => simp [hopen] at h
      | some f =>
        cases hread : readFile f with
        | none => simp [hopen, hread] at h
        | some filedata =>
          simp only [hopen, hread] at h
          obtain ⟨rest, hrest, h⟩ := Exec.bind_eq_ok.mp h
          cases rest with
          | error e => simp [Except.map] at h
          | ok rest =>
            obtain ⟨contents, hreads, rfl⟩ := ih.mp hrest
            refine ⟨filedata :: contents,
              .cons ⟨⟨name, hname'⟩, file, f, hfile', hopen, hread⟩ hreads, ?_⟩
            exact (Except.ok.inj (Except.ok.inj h)).symm
    · rintro ⟨contents, hreads, rfl⟩
      cases hreads with
      | @cons _ filedata _ contents hr hrs =>
        obtain ⟨⟨name, hname⟩, file, f, hfile, hopen, hread⟩ := hr
        have hrest := (@ih (bufAlign buf 16 ++ filedata) _).mpr ⟨contents, hrs, rfl⟩
        unfold appendData
        simp only [hname, hfile, Exec.deref_some, Exec.ok_bind, hopen, hread, hrest]
        rfl

theorem length_placeContents (contents : List Bytes) (buf : Bytes) :
    (placeContents contents buf).2.length =
      contents.foldl (fun size filedata => alignUp size 16 + filedata.length) buf.length := by
  induction contents generalizing buf with
  | nil => rfl
  | cons filedata rest ih =>
    unfold placeContents
    simp only [ih, List.foldl_cons, List.length_append, length_bufAlign]

theorem placeContents_isPrefix (contents : List Bytes) (buf : Bytes) :
    buf <+: (placeContents contents buf).2 := by
  induction contents generalizing buf with
  | nil => exact List.prefix_rfl
  | cons filedata rest ih =>
    exact ((bufAlign_isPrefix buf 16).trans (List.prefix_append _ _)).trans (ih _)

/-- A range of the directory holds these bytes. -/
structure DataAt (start : ℕ) (b : Bytes) (contents : Bytes) (range : DataRange) : Prop where
  start_le : start ≤ range.offset.toNat
  segment : Segment b range.offset.toNat contents
  size : range.size.toNat = contents.length
  checksum : range.checksum = elfrCrc64 contents

theorem placeContents_spec {start : ℕ} {contents : List Bytes} {buf : Bytes}
    (hstart : start ≤ buf.length) (hlt : (placeContents contents buf).2.length < 2 ^ 64) :
    List.Forall₂ (DataAt start (placeContents contents buf).2) contents
      (placeContents contents buf).1 := by
  induction contents generalizing buf with
  | nil => exact .nil
  | cons filedata rest ih =>
    unfold placeContents at hlt ⊢
    have hrest := placeContents_isPrefix rest (bufAlign buf 16 ++ filedata)
    have hle := (bufAlign_isPrefix buf 16).length_le
    obtain ⟨hoffset, hlength⟩ := toNat_lengths_of_isPrefix hrest hlt
    refine .cons ⟨?_, ?_, hlength, rfl⟩
      (ih (by rw [List.length_append]; omega) hlt)
    · simp only [hoffset]
      exact hstart.trans hle
    · simp only [hoffset]
      exact (segment_append_self _ _).of_isPrefix hrest

end Elfr.Compiler
