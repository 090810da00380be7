import Elfr.Compiler.ManifestMeaning
import Mathlib.Data.List.Perm.Basic

/-!
# What a document says

Two documents say the same if their nodes can be related so that related scalars are equal,
related sequences have related items, and related mappings relate the same keys to related
values, in whatever order. Where a node lies in the document does not matter, so an alias says
the same as a copy. The fields of related nodes are related, and so is all that the parser
makes of them.
-/
namespace Elfr.Compiler

open Library

def scalarValue (doc : YamlDocument) (id : ℕ) : Option Bytes :=
  match doc.getNode id with
  | some ⟨_, .scalar value⟩ => some value
  | _ => none

def keyValue (doc : YamlDocument) (pair : ℕ × ℕ) : Option Bytes := scalarValue doc pair.1

/-- No scalar is the key of two pairs. -/
def KeysDistinct (doc : YamlDocument) (pairs : List (ℕ × ℕ)) : Prop :=
  (pairs.filterMap (keyValue doc)).Nodup

/-- Nodes that say the same, as far as the nodes they refer to do. -/
inductive SameData (doc : YamlDocument) (child : ℕ → ℕ → Prop) :
    YamlNodeData → YamlNodeData → Prop
  | scalar {value : Bytes} : SameData doc child (.scalar value) (.scalar value)
  | sequence {items items' : List ℕ} : List.Forall₂ child items items' →
      SameData doc child (.sequence items) (.sequence items')
  | mapping {pairs ordered pairs' : List (ℕ × ℕ)} : KeysDistinct doc pairs →
      List.Forall₂ (fun p q => child p.1 q.1 ∧ child p.2 q.2) pairs ordered →
      ordered.Perm pairs' → SameData doc child (.mapping pairs) (.mapping pairs')

def Child (doc doc' : YamlDocument) (R : YamlNode → YamlNode → Prop) (id id' : ℕ) : Prop :=
  ∃ n n', doc.getNode id = some n ∧ doc'.getNode id' = some n' ∧ R n n'

structure Alike (doc doc' : YamlDocument) (R : YamlNode → YamlNode → Prop) : Prop where
  root : Option.Rel R doc.getRootNode doc'.getRootNode
  data : ∀ n n', R n n' → SameData doc (Child doc doc' R) n.data n'.data

/-- The documents say the same. -/
def SameContents (doc doc' : YamlDocument) : Prop := ∃ R, Alike doc doc' R

theorem nodeAt_eq_getNode (ctx : ParseCtx) (id : ℕ) : nodeAt ctx id = ctx.doc.getNode id := by
  unfold nodeAt YamlDocument.getNode
  split_ifs <;> rfl

theorem findKey_cons (ctx : ParseCtx) (key : CString) (pair : ℕ × ℕ) (pairs : List (ℕ × ℕ)) :
    findKey ctx key (pair :: pairs) =
      if keyValue ctx.doc pair = some key.bytes then nodeAt ctx pair.2
      else findKey ctx key pairs := by
  obtain ⟨k, v⟩ := pair
  rw [findKey]
  simp only [keyValue, scalarValue, ← nodeAt_eq_getNode]
  cases nodeAt ctx k with
  | none => simp
  | some n =>
    obtain ⟨line, data⟩ := n
    cases data with
    | scalar value => simp only [keyMatches_iff, Option.some.injEq]
    | sequence items => simp
    | mapping pairs => simp

theorem findKey_eq_some_iff {ctx : ParseCtx} {key : CString} {pairs : List (ℕ × ℕ)}
    {n : YamlNode} (h : KeysDistinct ctx.doc pairs) :
    findKey ctx key pairs = some n ↔
      ∃ pair ∈ pairs, keyValue ctx.doc pair = some key.bytes ∧ nodeAt ctx pair.2 = some n := by
  unfold KeysDistinct at h
  induction pairs with
  | nil => simp [findKey]
  | cons pair pairs ih =>
    rw [findKey_cons]
    simp only [List.mem_cons, exists_eq_or_imp]
    split_ifs with hkey
    · rw [List.filterMap_cons_some hkey, List.nodup_cons] at h
      refine ⟨fun hv => .inl ⟨hkey, hv⟩, ?_⟩
      rintro (⟨-, hv⟩ | ⟨pair', hpair', hkey', -⟩)
      · exact hv
      · exact absurd (List.mem_filterMap.mpr ⟨pair', hpair', hkey'⟩) h.1
    · have hrest : (pairs.filterMap (keyValue ctx.doc)).Nodup :=
        h.sublist ((List.sublist_cons_self pair pairs).filterMap _)
      rw [ih hrest, or_iff_right fun hself => hkey hself.1]

section Alike

variable {doc doc' : YamlDocument} {R : YamlNode → YamlNode → Prop} (h : Alike doc doc' R)
include h

theorem Alike.scalarValue_eq {id id' : ℕ} (hid : Child doc doc' R id id') :
    scalarValue doc id = scalarValue doc' id' := by
  obtain ⟨⟨line, data⟩, ⟨line', data'⟩, hn, hn', hR⟩ := hid
  unfold scalarValue
  rw [hn, hn']
  cases h.data _ _ hR with
  | scalar => rfl
  | sequence => rfl
  | mapping => rfl

theorem Alike.keys_eq {pairs ordered : List (ℕ × ℕ)}
    (hpairs : List.Forall₂ (fun p q => Child doc doc' R p.1 q.1 ∧ Child doc doc' R p.2 q.2) pairs
      ordered) :
    pairs.filterMap (keyValue doc) = ordered.filterMap (keyValue doc') := by
  induction hpairs with
  | nil => rfl
  | cons hpair _ ih =>
    have hkey : keyValue doc _ = keyValue doc' _ := h.scalarValue_eq hpair.1
    rw [List.filterMap_cons, List.filterMap_cons, hkey, ih]

theorem Alike.symm : Alike doc' doc fun n' n => R n n' where
  root := by
    have hroot := h.root
    generalize doc.getRootNode = root at hroot ⊢
    generalize doc'.getRootNode = root' at hroot ⊢
    cases hroot with
    | some hR => exact .some hR
    | none => exact .none
  data := by
    rintro ⟨line', data'⟩ ⟨line, data⟩ hR
    have hchild : ∀ {id id'}, Child doc doc' R id id' →
        Child doc' doc (fun n' n => R n n') id' id := by
      rintro id id' ⟨n, n', hn, hn', hR⟩
      exact ⟨n', n, hn', hn, hR⟩
    cases h.data _ _ hR with
    | scalar => exact .scalar
    | sequence hitems => exact .sequence (hitems.flip.imp fun _ _ => hchild)
    | mapping hdistinct hpairs hperm =>
      unfold KeysDistinct at hdistinct
      rw [h.keys_eq hpairs, (hperm.filterMap _).nodup_iff] at hdistinct
      obtain ⟨ordered', hpairs', hperm'⟩ := List.perm_comp_forall₂ hperm.symm
        (hpairs.flip.imp fun q p hpq => And.intro (hchild hpq.1) (hchild hpq.2))
      exact .mapping hdistinct hpairs' hperm'

end Alike

theorem SameData.of_eq {doc : YamlDocument} {child : ℕ → ℕ → Prop} {d d' : YamlNodeData}
    (h : SameData doc (· = ·) d d') (hchild : ∀ id ∈ d.children, child id id) :
    SameData doc child d d' := by
  cases h with
  | scalar => exact .scalar
  | sequence hitems =>
    obtain rfl := List.forall₂_eq_eq_eq ▸ hitems
    exact .sequence (List.forall₂_same.mpr hchild)
  | @mapping pairs ordered pairs' hdistinct hpairs hperm =>
    have hsame : List.Forall₂ Eq pairs ordered := hpairs.imp fun _ _ hpq => Prod.ext hpq.1 hpq.2
    obtain rfl := List.forall₂_eq_eq_eq ▸ hsame
    refine .mapping hdistinct (List.forall₂_same.mpr fun pair hpair => ?_) hperm
    have hmem : ∀ id ∈ [pair.1, pair.2], id ∈ (YamlNodeData.mapping pairs).children :=
      fun id hid => List.mem_flatMap.mpr ⟨pair, hpair, hid⟩
    exact ⟨hchild _ (hmem _ (by simp)), hchild _ (hmem _ (by simp))⟩

/-- The order of the keys in its mappings changes nothing about what a document says. -/
theorem sameContents_of_reordered {doc doc' : YamlDocument} (h : List.Forall₂
    (fun n n' => SameData doc (· = ·) n.data n'.data) doc.nodes doc'.nodes) :
    SameContents doc doc' := by
  refine ⟨fun n n' => ∃ k : ℕ, doc.nodes[k]? = some n ∧ doc'.nodes[k]? = some n', ?_, ?_⟩
  · have hlength := h.length_eq
    unfold YamlDocument.getRootNode
    rw [List.head?_eq_getElem?, List.head?_eq_getElem?]
    by_cases hpos : 0 < doc.nodes.length
    · have hpos' : 0 < doc'.nodes.length := hlength ▸ hpos
      rw [List.getElem?_eq_getElem hpos, List.getElem?_eq_getElem hpos']
      exact .some ⟨0, List.getElem?_eq_getElem hpos, List.getElem?_eq_getElem hpos'⟩
    · rw [List.getElem?_eq_none (by omega), List.getElem?_eq_none (by omega)]
      exact .none
  · rintro n n' ⟨k, hn, hn'⟩
    obtain ⟨hk, rfl⟩ := List.getElem?_eq_some_iff.mp hn
    obtain ⟨hk', rfl⟩ := List.getElem?_eq_some_iff.mp hn'
    refine (h.get hk hk').of_eq fun id hid => ?_
    obtain ⟨hpos, hle⟩ := doc.linked _ (List.getElem_mem hk) id hid
    have hlt : id - 1 < doc.nodes.length := by omega
    have hlt' : id - 1 < doc'.nodes.length := h.length_eq ▸ hlt
    have hget : doc.getNode id = some doc.nodes[id - 1] := by
      simp [YamlDocument.getNode, Nat.ne_of_gt hpos, hlt]
    have hget' : doc'.getNode id = some doc'.nodes[id - 1] := by
      simp [YamlDocument.getNode, Nat.ne_of_gt hpos, hlt']
    exact ⟨_, _, hget, hget', id - 1, List.getElem?_eq_getElem hlt, List.getElem?_eq_getElem hlt'⟩

/-- The two strings of a pair, as the parser copies them. -/
def pairStrings (ctx : ParseCtx) (pair : ℕ × ℕ) : Option CString × Option CString :=
  (scalarDup (nodeAt ctx pair.1), scalarDup (nodeAt ctx pair.2))

section Fields

variable {ctx ctx' : ParseCtx} {R : YamlNode → YamlNode → Prop} (h : Alike ctx.doc ctx'.doc R)
  {n n' : YamlNode}
include h

theorem Alike.scalarDup_eq (hR : R n n') : scalarDup (some n) = scalarDup (some n') := by
  obtain ⟨line, data⟩ := n
  obtain ⟨line', data'⟩ := n'
  cases h.data _ _ hR with
  | scalar => rfl
  | sequence => rfl
  | mapping => rfl

theorem Alike.scalarDup_child {id id' : ℕ} (hid : Child ctx.doc ctx'.doc R id id') :
    scalarDup (nodeAt ctx id) = scalarDup (nodeAt ctx' id') := by
  obtain ⟨m, m', hm, hm', hR⟩ := hid
  rw [nodeAt_eq_getNode, nodeAt_eq_getNode, hm, hm']
  exact h.scalarDup_eq hR

theorem Alike.sequence (hR : R n n') {items : List ℕ} (hdata : n.data = .sequence items) :
    ∃ items', n'.data = .sequence items' ∧
      List.Forall₂ (Child ctx.doc ctx'.doc R) items items' := by
  obtain ⟨line, data⟩ := n
  obtain ⟨line', data'⟩ := n'
  obtain rfl : data = .sequence items := hdata
  cases h.data _ _ hR with
  | sequence hitems => exact ⟨_, rfl, hitems⟩

theorem Alike.mapping (hR : R n n') {pairs : List (ℕ × ℕ)} (hdata : n.data = .mapping pairs) :
    ∃ pairs', n'.data = .mapping pairs' ∧
      (pairs.map (pairStrings ctx)).Perm (pairs'.map (pairStrings ctx')) := by
  obtain ⟨line, data⟩ := n
  obtain ⟨line', data'⟩ := n'
  obtain rfl : data = .mapping pairs := hdata
  cases h.data _ _ hR with
  | @mapping _ ordered pairs' _ hpairs hperm =>
    have hsame : pairs.map (pairStrings ctx) = ordered.map (pairStrings ctx') := by
      rw [← List.forall₂_eq_eq_eq, List.forall₂_map_left_iff, List.forall₂_map_right_iff]
      exact hpairs.imp fun p q hpq =>
        Prod.ext (h.scalarDup_child hpq.1) (h.scalarDup_child hpq.2)
    exact ⟨pairs', rfl, hsame ▸ hperm.map _⟩

theorem Alike.field_some (hR : R n n') {key : String} {m : YamlNode}
    (hm : field ctx n key = some m) : ∃ m', field ctx' n' key = some m' ∧ R m m' := by
  obtain ⟨line, data⟩ := n
  obtain ⟨line', data'⟩ := n'
  cases h.symm.data _ _ hR with
  | scalar => cases hm
  | sequence => cases hm
  | mapping hdistinct' =>
    cases h.data _ _ hR with
    | mapping hdistinct hpairs hperm =>
      obtain ⟨pair, hpair, hkey, hvalue⟩ := (findKey_eq_some_iff hdistinct).mp hm
      obtain ⟨i, hi, rfl⟩ := List.getElem_of_mem hpair
      have hi' := hpairs.length_eq ▸ hi
      obtain ⟨hchild, m₁, m', hm₁, hm', hRm⟩ := hpairs.get hi hi'
      rw [nodeAt_eq_getNode] at hvalue
      obtain rfl := Option.some.inj (hm₁.symm.trans hvalue)
      refine ⟨m', (findKey_eq_some_iff hdistinct').mpr ⟨_, hperm.subset (List.getElem_mem hi'),
        ?_, ?_⟩, hRm⟩
      · exact (h.scalarValue_eq hchild).symm.trans hkey
      · rw [nodeAt_eq_getNode]
        exact hm'

theorem Alike.field_cases (hR : R n n') (key : String) :
    field ctx n key = none ∧ field ctx' n' key = none ∨
      ∃ m m', field ctx n key = some m ∧ field ctx' n' key = some m' ∧ R m m' := by
  cases hm : field ctx n key with
  | some m =>
    obtain ⟨m', hm', hRm⟩ := h.field_some hR hm
    exact .inr ⟨m, m', rfl, hm', hRm⟩
  | none =>
    refine .inl ⟨rfl, Option.eq_none_iff_forall_ne_some.mpr fun m' hm' => ?_⟩
    obtain ⟨m, hm'', -⟩ := h.symm.field_some hR hm'
    cases hm.symm.trans hm''

theorem Alike.scalarDup_field (hR : R n n') (key : String) :
    scalarDup (field ctx n key) = scalarDup (field ctx' n' key) := by
  rcases h.field_cases hR key with ⟨hm, hm'⟩ | ⟨m, m', hm, hm', hRm⟩
  · rw [hm, hm']
  · rw [hm, hm']
    exact h.scalarDup_eq hRm

theorem Alike.isSome_field (hR : R n n') (key : String) :
    (field ctx n key).isSome = (field ctx' n' key).isSome := by
  rcases h.field_cases hR key with ⟨hm, hm'⟩ | ⟨m, m', hm, hm', -⟩
  · rw [hm, hm']
  · rw [hm, hm']
    rfl

theorem Alike.effective_eq (hR : R n n') (key : String) (default : Option CString) :
    effective ctx n key default = effective ctx' n' key default := by
  unfold effective
  rcases h.field_cases hR key with ⟨hm, hm'⟩ | ⟨m, m', hm, hm', hRm⟩
  · rw [hm, hm']
  · rw [hm, hm']
    exact h.scalarDup_eq hRm

theorem Alike.inherited_eq (hR : R n n') (key builtin : String) :
    inherited ctx n key builtin = inherited ctx' n' key builtin := by
  unfold inherited
  rcases h.field_cases hR "defaults" with ⟨hm, hm'⟩ | ⟨m, m', hm, hm', hRm⟩
  · rw [hm, hm']
    rfl
  · rw [hm, hm', Option.bind_some, Option.bind_some]
    rcases h.field_cases hRm key with ⟨hv, hv'⟩ | ⟨v, v', hv, hv', hRv⟩
    · rw [hv, hv']
    · rw [hv, hv']
      exact h.scalarDup_eq hRv

theorem Alike.declaredDefaults_eq (hR : R n n') :
    declaredDefaults ctx n = declaredDefaults ctx' n' := by
  unfold declaredDefaults
  simp only [h.inherited_eq hR]

theorem Alike.flagBits_eq {ids ids' : List ℕ}
    (hids : List.Forall₂ (Child ctx.doc ctx'.doc R) ids ids') (flags : UInt32) :
    flagBits ctx ids flags = flagBits ctx' ids' flags := by
  unfold flagBits
  induction hids generalizing flags with
  | nil => rfl
  | cons hid _ ih => rw [List.foldl_cons, List.foldl_cons, h.scalarDup_child hid, ih]

end Fields

section Items

variable {ctx ctx' : ParseCtx} {R : YamlNode → YamlNode → Prop} (h : Alike ctx.doc ctx'.doc R)
  {fs : FileSystem} {defs : Defaults} {n n' : YamlNode} (hR : R n n')
include h hR

theorem Alike.typeValid (hv : TypeValid ctx n) : TypeValid ctx' n' := by
  intro m' hm'
  obtain ⟨m, hm, hRm⟩ := h.symm.field_some hR hm'
  rw [← h.scalarDup_eq hRm]
  exact hv m hm

theorem Alike.idValid (hv : IdValid ctx n) : IdValid ctx' n' := by
  intro m' hm'
  obtain ⟨m, hm, hRm⟩ := h.symm.field_some hR hm'
  rw [← h.scalarDup_eq hRm]
  exact hv m hm

theorem Alike.metadataValid (hv : MetadataValid ctx n) : MetadataValid ctx' n' := by
  intro m' hm'
  obtain ⟨m, hm, hRm⟩ := h.symm.field_some hR hm'
  obtain ⟨pairs, hdata, hscalars, hnodup⟩ := hv m hm
  obtain ⟨pairs', hdata', hperm⟩ := h.mapping hRm hdata
  refine ⟨pairs', hdata', fun pair' hpair' => ?_, ?_⟩
  · have hmem := hperm.symm.subset (List.mem_map_of_mem hpair')
    obtain ⟨pair, hpair, heq⟩ := List.mem_map.mp hmem
    obtain ⟨hkey, hvalue⟩ := Prod.mk.inj heq
    rw [← hkey, ← hvalue]
    exact hscalars pair hpair
  · have hkeys := hperm.map Prod.fst
    rw [List.map_map, List.map_map] at hkeys
    exact hkeys.nodup_iff.mp hnodup

theorem Alike.flagsValid (hv : FlagsValid ctx n) : FlagsValid ctx' n' := by
  intro m' hm'
  obtain ⟨m, hm, hRm⟩ := h.symm.field_some hR hm'
  rcases hv m hm with huint | ⟨ids, hdata, hnames⟩
  · rw [h.scalarDup_eq hRm] at huint
    exact .inl huint
  · obtain ⟨ids', hdata', hids⟩ := h.sequence hRm hdata
    refine .inr ⟨ids', hdata', fun id' hid' => ?_⟩
    obtain ⟨i, hi, rfl⟩ := List.getElem_of_mem hid'
    have hi' := hids.length_eq.symm ▸ hi
    have hchild := hids.get hi' hi
    simp only [List.get_eq_getElem] at hchild
    rw [← h.scalarDup_child hchild]
    exact hnames _ (List.getElem_mem hi')

theorem Alike.typeMeaning_eq (path : CString) :
    typeMeaning ctx n path = typeMeaning ctx' n' path := by
  unfold typeMeaning
  rcases h.field_cases hR "type" with ⟨hm, hm'⟩ | ⟨m, m', hm, hm', hRm⟩
  · rw [hm, hm']
  · rw [hm, hm']
    simp only [h.scalarDup_eq hRm]

theorem Alike.metadataMeaning_perm : (metadataMeaning ctx n).Perm (metadataMeaning ctx' n') := by
  unfold metadataMeaning
  rcases h.field_cases hR "metadata" with ⟨hm, hm'⟩ | ⟨⟨line, data⟩, ⟨line', data'⟩, hm, hm', hRm⟩
  · rw [hm, hm']
  · rw [hm, hm']
    cases data with
    | mapping pairs =>
      obtain ⟨pairs', rfl, hperm⟩ := h.mapping hRm rfl
      have hmap := hperm.map fun strings => ElfrcMetadataKv.mk strings.1 strings.2
      rwa [List.map_map, List.map_map] at hmap
    | scalar value =>
      cases h.data _ _ hRm
      exact .nil
    | sequence items =>
      cases h.data _ _ hRm
      exact .nil

theorem Alike.flagsMeaning_eq : flagsMeaning ctx n = flagsMeaning ctx' n' := by
  unfold flagsMeaning
  rcases h.field_cases hR "flags" with ⟨hm, hm'⟩ | ⟨⟨line, data⟩, ⟨line', data'⟩, hm, hm', hRm⟩
  · rw [hm, hm']
  · rw [hm, hm']
    cases data with
    | sequence ids =>
      obtain ⟨ids', rfl, hids⟩ := h.sequence hRm rfl
      exact h.flagBits_eq hids 0
    | scalar value =>
      cases h.data _ _ hRm
      rfl
    | mapping pairs =>
      cases h.data _ _ hRm
      rfl

theorem Alike.fieldsSafe (hs : FieldsSafe ctx defs n) : FieldsSafe ctx' defs n' := by
  obtain ⟨htype, hlanguage, hcompression, hencryption⟩ := hs
  rw [h.effective_eq hR] at hcompression hencryption
  refine ⟨fun m' hm' => ?_, fun hnone => hlanguage ?_, hcompression, hencryption⟩
  · obtain ⟨m, hm, hRm⟩ := h.symm.field_some hR hm'
    rw [← h.scalarDup_eq hRm]
    exact htype m hm
  · have hsome := h.isSome_field hR "language"
    rw [hnone] at hsome
    simpa using hsome

variable (hdir : ctx.manifestDir = ctx'.manifestDir)
include hdir

theorem Alike.filePath_eq : filePath ctx n = filePath ctx' n' := by
  rw [filePath, filePath, h.scalarDup_field hR, hdir]

theorem Alike.itemValid (hv : ItemValid ctx fs defs n) : ItemValid ctx' fs defs n' where
  mapping := by
    obtain ⟨pairs, hdata⟩ := hv.mapping
    obtain ⟨pairs', hdata', -⟩ := h.mapping hR hdata
    exact ⟨pairs', hdata'⟩
  name := by
    obtain ⟨m, hm⟩ := Option.ne_none_iff_exists'.mp hv.name
    obtain ⟨m', hm', -⟩ := h.field_some hR hm
    exact Option.ne_none_iff_exists'.mpr ⟨m', hm'⟩
  file := by
    rw [← h.filePath_eq hR hdir]
    exact hv.file
  type := h.typeValid hR hv.type
  id := h.idValid hR hv.id
  compression := by
    have hcompression := hv.compression
    unfold CompressionValid at hcompression ⊢
    rwa [← h.effective_eq hR]
  encryption := by
    have hencryption := hv.encryption
    unfold EncryptionValid at hencryption ⊢
    rwa [← h.effective_eq hR]
  metadata := h.metadataValid hR hv.metadata
  flags := h.flagsValid hR hv.flags

theorem Alike.itemSafe (hs : ItemSafe ctx fs defs n) : ItemSafe ctx' fs defs n' := by
  intro pairs' nameN' fileN' hdata' hname' hfile'
  obtain ⟨pairs, hdata, -⟩ := h.symm.mapping hR hdata'
  obtain ⟨nameN, hname, -⟩ := h.symm.field_some hR hname'
  obtain ⟨fileN, hfile, -⟩ := h.symm.field_some hR hfile'
  obtain ⟨path, hpath, hsafe⟩ := hs pairs nameN fileN hdata hname hfile
  exact ⟨path, (h.filePath_eq hR hdir).symm.trans hpath,
    fun hregular => h.fieldsSafe hR (hsafe hregular)⟩

end Items

end Elfr.Compiler
