import Elfr.Common.ByteBuf
import Elfr.Compiler.ElfObject
import Elfr.Compiler.StringTable

/-!
# The calls on the buffers

The container builder and the ELF writer are modelled on lists of bytes. These are the
calls with which they fill their buffers. The lists are the contents after the calls, so up
to 2^63 bytes the buffers hold them, before directory and headers are written into the
zeros in front.
-/
namespace Elfr.Compiler

open Library Interning Common Format Elf64 ByteBuf

theorem extend_align (buf : Bytes) (alignment : UInt64) (positive : 0 < alignment) :
    extend buf (.align alignment positive) = bufAlign buf alignment.toNat := by
  have hpos : 0 < alignment.toNat := UInt64.lt_iff_toNat_lt.mp positive
  change buf ++ List.replicate (padding alignment.toNat buf.length) 0 = _
  unfold bufAlign padding
  split_ifs with hmod
  · rw [Nat.mod_eq_of_lt (Nat.sub_lt hpos (Nat.pos_of_ne_zero hmod))]
  · rw [not_not.mp hmod, Nat.sub_zero, Nat.mod_self, List.replicate_zero, List.append_nil]

theorem extend_appendZeros (buf : Bytes) {n : ℕ} (hn : n < 2 ^ 64) :
    extend buf (.appendZeros (UInt64.ofNat n)) = buf ++ List.replicate n 0 := by
  change buf ++ List.replicate (UInt64.ofNat n).toNat 0 = _
  rw [UInt64.toNat_ofNat', Nat.mod_eq_of_lt hn]

theorem extend_append (buf data : Bytes) : extend buf (.append data) = buf ++ data := rfl

theorem foldl_extend_appends (pieces : List Bytes) (buf : Bytes) :
    (pieces.map Call.append).foldl extend buf = buf ++ pieces.flatten := by
  induction pieces generalizing buf with
  | nil => simp
  | cons piece pieces ih =>
    rw [List.map_cons, List.foldl_cons, ih, extend_append, List.flatten_cons, List.append_assoc]

/-- A length and as many bytes and one more. -/
def stringPieces (s : CString) : List Bytes :=
  [bytes32 (UInt32.ofNat s.strlen), s.terminated.take (UInt32.ofNat s.strlen + 1).toNat]

def blockPieces (metadata : List (CString × CString)) : List Bytes :=
  bytes32 (UInt32.ofNat metadata.length) ::
    metadata.flatMap fun kv => stringPieces kv.1 ++ stringPieces kv.2

def metadataCalls (metadata : List (List (CString × CString))) : List Call :=
  metadata.flatMap fun block =>
    if block = [] then [] else .align 8 (by decide) :: (blockPieces block).map .append

def dataCalls (contents : List Bytes) : List Call :=
  contents.flatMap fun filedata => [.align 16 (by decide), .append filedata]

def nameCalls (names : List CString) : List Call :=
  ((distinct names).map CString.terminated).map Call.append

def hashTableCalls (bucketCount : UInt32) (buckets : List ERFHashBucket) : List Call :=
  [.append (ERFHashTableHeader.mk bucketCount 0).toBytes,
    .append (buckets.flatMap ERFHashBucket.toBytes)]

def containerCalls (items : List Item) (bucketCount : UInt32) (buckets : List ERFHashBucket) :
    List Call :=
  Call.appendZeros (UInt64.ofNat headerBytes) ::
    Call.appendZeros (UInt64.ofNat (items.length * entryBytes)) ::
    Call.align 8 (by decide) :: (nameCalls (items.map Item.name) ++
    Call.align 8 (by decide) :: (metadataCalls (items.map Item.metadata) ++
    Call.align 8 (by decide) :: (hashTableCalls bucketCount buckets ++
    Call.align 16 (by decide) :: dataCalls (items.map Item.contents))))

theorem flatten_stringPieces (s : CString) : (stringPieces s).flatten = prefixedString s := by
  simp [stringPieces, prefixedString]

theorem flatten_blockPieces (metadata : List (CString × CString)) :
    (blockPieces metadata).flatten = metadataBlock metadata := by
  have hpieces : ∀ kvs : List (CString × CString),
      (kvs.flatMap fun kv => stringPieces kv.1 ++ stringPieces kv.2).flatten =
        kvs.flatMap fun kv => prefixedString kv.1 ++ prefixedString kv.2 := by
    intro kvs
    induction kvs with
    | nil => rfl
    | cons kv kvs ih =>
      rw [List.flatMap_cons, List.flatten_append, ih, List.flatten_append, flatten_stringPieces,
        flatten_stringPieces, List.flatMap_cons]
  rw [blockPieces, List.flatten_cons, hpieces, metadataBlock]

theorem foldl_metadataCalls (metadata : List (List (CString × CString))) (buf : Bytes) :
    (metadataCalls metadata).foldl extend buf = (appendMetadata metadata buf).2 := by
  induction metadata generalizing buf with
  | nil => rfl
  | cons block rest ih =>
    unfold appendMetadata
    rw [metadataCalls, List.flatMap_cons, List.foldl_append, ← metadataCalls]
    by_cases hblock : block = []
    · rw [if_pos hblock, if_pos hblock]
      exact ih buf
    · rw [if_neg hblock, if_neg hblock, List.foldl_cons, foldl_extend_appends,
        flatten_blockPieces, extend_align]
      exact ih _

theorem foldl_dataCalls (contents : List Bytes) (buf : Bytes) :
    (dataCalls contents).foldl extend buf = (placeContents contents buf).2 := by
  induction contents generalizing buf with
  | nil => rfl
  | cons filedata rest ih =>
    unfold placeContents
    rw [dataCalls, List.flatMap_cons, List.foldl_append, ← dataCalls, ih, List.foldl_cons,
      extend_align]
    rfl

theorem contents_containerCalls {items : List Item} {bucketCount : UInt32}
    {buckets : List ERFHashBucket} (hlt : items.length * entryBytes < 2 ^ 64) :
    contents (containerCalls items bucketCount buckets) =
      (dataSection items (hashTableBytes bucketCount buckets)).2 := by
  have hheader : headerBytes < 2 ^ 64 := by decide
  simp only [contents, containerCalls, nameCalls, hashTableCalls, List.foldl_append,
    List.foldl_cons, List.foldl_nil, foldl_extend_appends, foldl_metadataCalls, foldl_dataCalls,
    extend_append, extend_align, UInt64.reduceToNat, extend_appendZeros _ hheader,
    extend_appendZeros _ hlt, List.nil_append]
  rw [dataSection, dataStart, hashTableStart, metadataSection, metadataStart, stringSection_eq,
    stringTable, stringStart, hashTableBytes]
  simp only [List.flatMap_def, List.append_assoc]

/-- The builder's buffer, up to the directory and the header. -/
theorem container_buffered {items : List Item} {bucketCount : UInt32}
    {buckets : List ERFHashBucket}
    (hle : (assemble items (hashTableBytes bucketCount buckets)).length ≤ 2 ^ 63) :
    ∃ b, run 52 empty (containerCalls items bucketCount buckets) = .ok b ∧
      Holds b (dataSection items (hashTableBytes bucketCount buckets)).2 := by
  have hreserved := reserved_le_assemble items (hashTableBytes bucketCount buckets)
  have hcontents : contents (containerCalls items bucketCount buckets) =
      (dataSection items (hashTableBytes bucketCount buckets)).2 :=
    contents_containerCalls (by omega)
  rw [length_assemble, ← hcontents] at hle
  rw [← hcontents]
  exact holds_empty.run le_rfl hle

section Object

variable (container : Bytes) (symbolPrefix : Option CString)

def objectCalls : List Call :=
  [.appendZeros (UInt64.ofNat ehdrBytes), .align 16 (by decide), .append container,
    .align 8 (by decide), .append (objectSyms container symbolPrefix), .align 1 (by decide),
    .append (objectStrtab symbolPrefix).data, .append shstrtab.data, .align 8 (by decide),
    .append ((objectSections container symbolPrefix).flatMap Shdr.toBytes)]

/-- The file, up to its header. -/
theorem object_buffered (hle : (elfObject container symbolPrefix).length ≤ 2 ^ 63) :
    ∃ b xs, run 52 empty (objectCalls container symbolPrefix) = .ok b ∧ Holds b xs ∧
      elfObject container symbolPrefix =
        patch xs 0 (objectHeader (objectParts container symbolPrefix).file.length).toBytes := by
  have hheader : ehdrBytes < 2 ^ 64 := by decide
  have hcontents : contents (objectCalls container symbolPrefix) =
      (objectParts container symbolPrefix).file ++
        (objectSections container symbolPrefix).flatMap Shdr.toBytes := by
    simp only [contents, objectCalls, List.foldl_cons, List.foldl_nil, extend_append, extend_align,
      UInt64.reduceToNat, extend_appendZeros _ hheader, List.nil_append, objectParts, layOutParts,
      byteBufAppend]
  have hobject : elfObject container symbolPrefix =
      patch (contents (objectCalls container symbolPrefix)) 0
        (objectHeader (objectParts container symbolPrefix).file.length).toBytes := by
    rw [hcontents, elfObject]
  have hroom := ehdrBytes_le_file container symbolPrefix
  have hlength : (elfObject container symbolPrefix).length =
      (contents (objectCalls container symbolPrefix)).length := by
    rw [hobject, length_patch]
    rw [hcontents, List.length_append, Ehdr.length_toBytes]
    omega
  obtain ⟨b, hrun, hholds⟩ := holds_empty.run le_rfl (hlength ▸ hle)
  exact ⟨b, _, hrun, hholds, hobject⟩

end Object

end Elfr.Compiler
