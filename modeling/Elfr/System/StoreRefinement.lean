import Elfr.Container.ResourceStore

/-!
# The library behaves like the store

A program that only opens what the compiler built, or what does not open at all, cannot tell
the library from the store: every run of the store is one of the library, turn by turn with
the same results and the same last error. The step lemmas follow the calls one by one.
-/
namespace Elfr.System

open Library Common Format Elfr.Runtime Elfr.Compiler

/-- A buffer that starts with a container the compiler builds from these items. -/
def Holds (buf : Bytes) (items : List Item) : Prop :=
  ∃ fs m b t, Builds fs m b ∧ b.length < 2 ^ 32 ∧ List.Forall₂ (Loads fs) m.resources items ∧
    buf = b ++ t

theorem Holds.image {buf : Bytes} {items : List Item} (h : Holds buf items) :
    ∃ im b t, ImageOf items im b ∧ buf = b ++ t := by
  obtain ⟨fs, m, b, t, hbuild, hlt, hloads, rfl⟩ := h
  obtain ⟨items', im, hloads', him⟩ := Builds.imageOf hbuild hlt
  obtain rfl := List.right_unique_forall₂' (Loads.rightUnique fs) hloads hloads'
  exact ⟨im, b, t, him, rfl⟩

/-- What a call of the library asks of the store. -/
inductive Means : Call → StoreCall → Prop
  | open : Holds buf items → Means (.openMemory (some buf) buf.length) (.open items)
  | openInvalid : erfOpenMemory base size = .ok (.error e) →
      Means (.openMemory base size) (.openInvalid e)
  | close : Means (.close handle) (.close handle)
  | findIn : Means (.findIn handle name) (.findIn handle name)
  | findIdIn {id : UInt32} : Means (.findIdIn handle id) (.findIdIn handle id)
  | resourceAt : Means (.resourceAt handle index) (.resourceAt handle index)
  | resourceDataIn : Means (.resourceDataIn handle name size) (.resourceDataIn handle name size)
  | find : Means (.find name) (.find name)
  | findId {id : UInt32} : Means (.findId id) (.findId id)
  | resourceData : Means (.resourceData name size) (.resourceData name size)

structure Simulates (linked : Option (List Item)) (s : LibraryState) (a : StoreState) : Prop where
  lastError : s.lastError = a.lastError
  attempted : s.attempted = a.attempted
  first : s.attempted = false → s.defaultContainer = none
  later : s.attempted = true → Option.Rel Shows s.defaultContainer linked
  stores : List.Forall₂ (Option.Rel Shows) s.containers a.stores

/-- The container into which a call returns a data pointer. -/
def pointedInto (t : Turn LibraryState Call Reply) : Option ERFContainer :=
  match t.call with
  | .resourceDataIn (some handle) _ _ => (t.before.containers[handle]?).join
  | .resourceData _ _ => t.after.defaultContainer
  | _ => none

/-- The same handle or index, or a pointer to the contents. -/
inductive PointsTo (c : Option ERFContainer) : Pointer → StorePointer → Prop
  | container : PointsTo c (.container handle) (.container handle)
  | resource : PointsTo c (.resource index) (.resource index)
  | data : c = some c' → Segment c'.base off contents → PointsTo c (.data off) (.data contents)

/-- A turn of the library gives what the turn of the store gives. -/
structure Agrees (t : Turn LibraryState Call Reply)
    (t' : Turn StoreState StoreCall StoreReply) : Prop where
  pointer : Option.Rel (PointsTo (pointedInto t)) t.reply.pointer t'.reply.pointer
  size : t.reply.size = t'.reply.size
  lastError : t.after.lastError = t'.after.lastError

theorem lookupItem_lt {store : Option (List Item)} {valid : Bool} {p : Item → Bool} {i : ℕ}
    (h : (lookupItem store valid p).1 = some i) :
    ∃ items, store = some items ∧ i < items.length := by
  cases store with
  | none => cases h
  | some items =>
    unfold lookupItem at h
    cases valid with
    | false => cases h
    | true =>
      obtain ⟨hi, -⟩ := List.findIdx?_eq_some_iff_getElem.mp h
      exact ⟨items, rfl, hi⟩

section Lookups

variable {c : Option ERFContainer} {store : Option (List Item)} (h : Option.Rel Shows c store)
include h

theorem findIn_agrees (name : Option CString) :
    erfFindIn c name = .ok (lookupItem store name.isSome (named name)) := by
  cases h with
  | none => rfl
  | @some c items h =>
    cases name with
    | none => rfl
    | some q =>
      have hnamed : named (some q) = fun it => decide (it.name = q) := by
        funext it
        simp [named]
      rw [erfFindIn_of_findName (h.find q), hnamed]
      rfl

theorem findIdIn_agrees (id : UInt32) :
    erfFindIdIn c id = .ok (lookupItem store true (·.id = id)) := by
  cases h with
  | none => rfl
  | some h => exact h.findId id

theorem resourceAt_agrees (index : UInt32) (last : ERFError) :
    erfResourceAt c index last = itemAt store index last := by
  cases h with
  | none => rfl
  | @some c items h =>
    unfold erfResourceAt itemAt
    simp only [ge_iff_le, UInt32.le_iff_toNat_le, h.count]
    split_ifs <;> first | rfl | omega

theorem resourceDataIn_agrees (name : Option CString) (size : Option UInt64) :
    ∃ data, erfResourceDataIn c name size = .ok ((data, (dataReply store
        (lookupItem store name.isSome (named name)).1 size).size),
        (lookupItem store name.isSome (named name)).2) ∧
      Option.Rel (PointsTo c) (data.map .data) (dataReply store
        (lookupItem store name.isSome (named name)).1 size).pointer := by
  have hfind := findIn_agrees h name
  unfold erfResourceDataIn
  rw [hfind, Exec.ok_bind]
  obtain ⟨found, e, hlookup⟩ : ∃ found e, lookupItem store name.isSome (named name) = (found, e) :=
    ⟨_, _, rfl⟩
  rw [hlookup]
  cases found with
  | none => exact ⟨none, rfl, .none⟩
  | some i =>
    obtain ⟨items, rfl, hi⟩ := lookupItem_lt (congrArg Prod.fst hlookup)
    cases h with
    | @some c _ h =>
      obtain ⟨entry, hentry, hp⟩ := h.resource i hi
      have hreply : dataReply (some items) (some i) size =
          ⟨some (.data items[i].contents),
            storeSize size (UInt64.ofNat items[i].contents.length)⟩ := by
        simp [dataReply, hi]
      have hsize : entry.dataSize = UInt64.ofNat items[i].contents.length := by
        rw [← hp.dataSize, UInt64.ofNat_toNat]
      refine ⟨some (toResource entry).data, ?_, ?_⟩
      · dsimp only
        rw [Exec.deref_some, Exec.ok_bind, Exec.index_eq_ok.mpr hentry, Exec.ok_bind, hreply,
          ← hsize]
        rfl
      · rw [hreply]
        exact .some (.data rfl hp.data)

end Lookups

section Step

variable {start : Option Bytes} {linked : Option (List Item)} {s : LibraryState} {a : StoreState}

theorem simulates_initial (linked : Option (List Item)) : Simulates linked .initial .initial where
  lastError := rfl
  attempted := rfl
  first _ := rfl
  later h := absurd h Bool.false_ne_true
  stores := .nil

theorem Simulates.setLastError (h : Simulates linked s a) (e : ERFError) :
    Simulates linked (s.setLastError e) (a.setLastError e) :=
  { h with lastError := rfl }

/-- A handle of an open store is one of a container that shows it. -/
theorem Simulates.theContainer (h : Simulates linked s a) {handle : Option ℕ}
    {store : Option (List Item)} (hstore : a.theStore handle = .ok store) :
    ∃ c, s.theContainer handle = .ok c ∧ Option.Rel Shows c store ∧
      ∀ i, handle = some i → (s.containers[i]?).join = c := by
  cases handle with
  | none =>
    obtain rfl := Except.ok.inj hstore
    exact ⟨none, rfl, .none, nofun⟩
  | some i =>
    obtain ⟨opened, hopened, hstore⟩ := Exec.bind_eq_ok.mp hstore
    obtain ⟨items, hitems, hstore⟩ := Exec.bind_eq_ok.mp hstore
    obtain rfl := Except.ok.inj hstore
    obtain rfl := Exec.deref_eq_ok.mp hitems
    obtain ⟨hi, hopened⟩ := List.getElem?_eq_some_iff.mp (Exec.index_eq_ok.mp hopened)
    have hi' : i < s.containers.length := h.stores.length_eq ▸ hi
    have hrel := h.stores.get hi' hi
    simp only [List.get_eq_getElem, hopened] at hrel
    have hget := List.getElem?_eq_getElem hi'
    cases hrel' : s.containers[i] with
    | none =>
      rw [hrel'] at hrel
      cases hrel
    | some c =>
      rw [hrel'] at hrel hget
      refine ⟨some c, ?_, hrel, ?_⟩
      · unfold LibraryState.theContainer
        simp [Exec.index_eq_ok.mpr hget]
      · rintro j ⟨⟩
        rw [hget]
        rfl

/-- The first use of the default container opens what the store says is linked. -/
theorem Simulates.getDefaultContainer (h : Simulates linked s a)
    (hlinked : Option.Rel Holds start linked) :
    ∃ c s', getDefaultContainer start s = .ok (c, s') ∧ Option.Rel Shows c linked ∧
      Simulates linked s' (a.useDefault linked) ∧ s'.defaultContainer = c := by
  unfold Elfr.Runtime.getDefaultContainer StoreState.useDefault
  cases hattempted : s.attempted with
  | true =>
    rw [← h.attempted, hattempted]
    exact ⟨s.defaultContainer, s, rfl, h.later hattempted, h, rfl⟩
  | false =>
    rw [← h.attempted, hattempted]
    cases hlinked with
    | none =>
      refine ⟨none, _, rfl, .none, ⟨rfl, rfl, fun hfalse => ?_, fun _ => ?_, h.stores⟩, ?_⟩
      · cases hfalse
      · exact (h.first hattempted) ▸ .none
      · exact h.first hattempted
    | @some buf items hbuf =>
      obtain ⟨im, b, t, him, rfl⟩ := hbuf.image
      have hshows : Option.Rel Shows (some (im.container b.length (b ++ t))) (some items) :=
        .some (him.shows t)
      refine ⟨_, { ({ s with attempted := true }).setLastError .ok with
        defaultContainer := some (im.container b.length (b ++ t)) }, ?_, hshows,
        ⟨rfl, rfl, fun hfalse => ?_, fun _ => hshows, h.stores⟩, rfl⟩
      · simp only [Bool.false_eq_true, ↓reduceIte]
        rw [him.opens t]
        rfl
      · cases hfalse

theorem forall₂_set {R : α → β → Prop} {xs : List α} {ys : List β} {x : α} {y : β}
    (h : List.Forall₂ R xs ys) (hxy : R x y) (i : ℕ) :
    List.Forall₂ R (xs.set i x) (ys.set i y) := by
  induction h generalizing i with
  | nil => exact .nil
  | cons hx h ih =>
    cases i with
    | zero => exact .cons hxy h
    | succ i => exact .cons hx (ih i)

/-- Where the store answers a call, the library gives an answer that agrees with it. -/
def Answered (start : Option Bytes) (linked : Option (List Item)) (s : LibraryState)
    (a : StoreState) (call : Call) (call' : StoreCall) : Prop :=
  ∀ reply' a', storeStep linked a call' = .ok (reply', a') → ∃ reply s',
    callStep start s call = .ok (reply, s') ∧ Simulates linked s' a' ∧
      Agrees ⟨s, call, reply, s'⟩ ⟨a, call', reply', a'⟩

theorem rel_itemReply (c : Option ERFContainer) (found : Option ℕ) :
    Option.Rel (PointsTo c) (found.map .resource) (itemReply found).pointer := by
  cases found with
  | none => exact .none
  | some i => exact .some .resource

theorem Simulates.openShown (h : Simulates linked s a) {base : Option Bytes} {size : ℕ}
    {c : ERFContainer} {items : List Item} (hopen : erfOpenMemory base size = .ok (.ok c))
    (hshows : Shows c items) : Answered start linked s a (.openMemory base size) (.open items) := by
  rintro reply' a' hstep
  obtain ⟨rfl, rfl⟩ := Prod.mk.inj (Except.ok.inj hstep)
  have hlength := h.stores.length_eq
  refine ⟨⟨some (.container s.containers.length), none⟩, { s.setLastError .ok with
    containers := s.containers ++ [some c] }, ?_, ?_, ?_⟩
  · simp only [callStep]
    rw [hopen, Exec.ok_bind]
    rfl
  · exact { h with
      lastError := rfl
      stores := List.rel_append h.stores (.cons (.some hshows) .nil) }
  · refine ⟨?_, rfl, rfl⟩
    rw [hlength]
    exact .some .container

theorem Simulates.open (h : Simulates linked s a) {buf : Bytes} {items : List Item}
    (hbuf : Holds buf items) :
    Answered start linked s a (.openMemory (some buf) buf.length) (.open items) := by
  obtain ⟨im, b, t, him, rfl⟩ := hbuf.image
  exact h.openShown (him.opens t) (him.shows t)

theorem Simulates.openInvalid (h : Simulates linked s a) {base : Option Bytes} {size : ℕ}
    {e : ERFError} (hopen : erfOpenMemory base size = .ok (.error e)) :
    Answered start linked s a (.openMemory base size) (.openInvalid e) := by
  rintro reply' a' hstep
  obtain ⟨rfl, rfl⟩ := Prod.mk.inj (Except.ok.inj hstep)
  refine ⟨⟨none, none⟩, s.setLastError e, ?_, h.setLastError e, ⟨.none, rfl, rfl⟩⟩
  simp only [callStep]
  rw [hopen, Exec.ok_bind]
  rfl

theorem Simulates.close (h : Simulates linked s a) (handle : Option ℕ) :
    Answered start linked s a (.close handle) (.close handle) := by
  rintro reply' a' hstep
  cases handle with
  | none =>
    obtain ⟨rfl, rfl⟩ := Prod.mk.inj (Except.ok.inj hstep)
    exact ⟨⟨none, none⟩, s, rfl, h, ⟨.none, rfl, h.lastError⟩⟩
  | some handle =>
    obtain ⟨store, hstore, hstep⟩ := Exec.bind_eq_ok.mp hstep
    obtain ⟨rfl, rfl⟩ := Prod.mk.inj (Except.ok.inj hstep)
    obtain ⟨c, hc, -, -⟩ := h.theContainer hstore
    refine ⟨⟨none, none⟩, { s with containers := s.containers.set handle none }, ?_, ?_,
      ⟨.none, rfl, h.lastError⟩⟩
    · unfold callStep
      simp only
      rw [hc, Exec.ok_bind]
      rfl
    · exact { h with stores := forall₂_set h.stores .none handle }

theorem Simulates.findIn (h : Simulates linked s a) (handle : Option ℕ) (name : Option CString) :
    Answered start linked s a (.findIn handle name) (.findIn handle name) := by
  rintro reply' a' hstep
  obtain ⟨store, hstore, hstep⟩ := Exec.bind_eq_ok.mp hstep
  obtain ⟨rfl, rfl⟩ := Prod.mk.inj (Except.ok.inj hstep)
  obtain ⟨c, hc, hrel, -⟩ := h.theContainer hstore
  refine ⟨⟨(lookupItem store name.isSome (named name)).1.map .resource, none⟩, _, ?_,
    h.setLastError _, ⟨rel_itemReply _ _, rfl, rfl⟩⟩
  simp only [callStep]
  rw [hc, Exec.ok_bind, findIn_agrees hrel, Exec.ok_bind]
  rfl

theorem Simulates.findIdIn (h : Simulates linked s a) (handle : Option ℕ) (id : UInt32) :
    Answered start linked s a (.findIdIn handle id) (.findIdIn handle id) := by
  rintro reply' a' hstep
  obtain ⟨store, hstore, hstep⟩ := Exec.bind_eq_ok.mp hstep
  obtain ⟨rfl, rfl⟩ := Prod.mk.inj (Except.ok.inj hstep)
  obtain ⟨c, hc, hrel, -⟩ := h.theContainer hstore
  refine ⟨⟨(lookupItem store true (·.id = id)).1.map .resource, none⟩, _, ?_,
    h.setLastError _, ⟨rel_itemReply _ _, rfl, rfl⟩⟩
  simp only [callStep]
  rw [hc, Exec.ok_bind, findIdIn_agrees hrel, Exec.ok_bind]
  rfl

theorem Simulates.resourceAt (h : Simulates linked s a) (handle : Option ℕ) (index : UInt32) :
    Answered start linked s a (.resourceAt handle index) (.resourceAt handle index) := by
  rintro reply' a' hstep
  obtain ⟨store, hstore, hstep⟩ := Exec.bind_eq_ok.mp hstep
  obtain ⟨rfl, rfl⟩ := Prod.mk.inj (Except.ok.inj hstep)
  obtain ⟨c, hc, hrel, -⟩ := h.theContainer hstore
  refine ⟨⟨(itemAt store index a.lastError).1.map .resource, none⟩, _, ?_,
    h.setLastError _, ⟨rel_itemReply _ _, rfl, rfl⟩⟩
  simp only [callStep]
  rw [hc, Exec.ok_bind, resourceAt_agrees hrel, h.lastError]
  rfl

theorem Simulates.resourceDataIn (h : Simulates linked s a) (handle : Option ℕ)
    (name : Option CString) (size : Option UInt64) :
    Answered start linked s a (.resourceDataIn handle name size)
      (.resourceDataIn handle name size) := by
  rintro reply' a' hstep
  obtain ⟨store, hstore, hstep⟩ := Exec.bind_eq_ok.mp hstep
  obtain ⟨rfl, rfl⟩ := Prod.mk.inj (Except.ok.inj hstep)
  obtain ⟨c, hc, hrel, hjoin⟩ := h.theContainer hstore
  obtain ⟨data, hdata, hpoints⟩ := resourceDataIn_agrees hrel name size
  have hcall : callStep start s (.resourceDataIn handle name size) = .ok (⟨data.map .data,
      (dataReply store (lookupItem store name.isSome (named name)).1 size).size⟩,
      s.setLastError (lookupItem store name.isSome (named name)).2) := by
    simp only [callStep]
    rw [hc, Exec.ok_bind, hdata, Exec.ok_bind]
    rfl
  refine ⟨_, _, hcall, h.setLastError _, ⟨?_, rfl, rfl⟩⟩
  cases handle with
  | none =>
    obtain rfl := Except.ok.inj hc
    exact hpoints
  | some i =>
    have hinto : (s.containers[i]?).join = c := hjoin i rfl
    simp only [pointedInto]
    rw [hinto]
    exact hpoints

/-- What the calls on the default container have in common. -/
theorem Simulates.onDefault (h : Simulates linked s a) (hlinked : Option.Rel Holds start linked)
    (absent : α) (lookup : ERFContainer → Exec (α × ERFError)) {e : ERFError}
    (good : Option ERFContainer → α → Prop) (hnone : linked = none → good none absent)
    (hsome : ∀ c, Option.Rel Shows (some c) linked → ∃ r, lookup c = .ok (r, e) ∧
      good (some c) r) :
    ∃ r s', onDefault start s absent lookup = .ok (r, s') ∧ good s'.defaultContainer r ∧
      Simulates linked s' (if linked.isSome then (a.useDefault linked).setLastError e
        else a.useDefault linked) := by
  obtain ⟨c, s', hget, hrel, hs', hdefault⟩ := h.getDefaultContainer hlinked
  unfold Elfr.Runtime.onDefault
  rw [hget, Exec.ok_bind]
  cases c with
  | none =>
    obtain rfl : linked = none := by
      cases hrel
      rfl
    exact ⟨absent, s', rfl, hdefault ▸ hnone rfl, hs'⟩
  | some c =>
    obtain ⟨r, hlookup, hgood⟩ := hsome c hrel
    obtain ⟨items, rfl⟩ : ∃ items, linked = some items := by
      cases hrel
      exact ⟨_, rfl⟩
    refine ⟨r, s'.setLastError e, ?_, hdefault.symm ▸ hgood, hs'.setLastError e⟩
    simp only
    rw [hlookup, Exec.ok_bind]
    rfl

theorem Simulates.find (h : Simulates linked s a) (hlinked : Option.Rel Holds start linked)
    (name : Option CString) : Answered start linked s a (.find name) (.find name) := by
  rintro reply' a' hstep
  obtain ⟨rfl, rfl⟩ := Prod.mk.inj (Except.ok.inj hstep)
  obtain ⟨found, s', hfind, rfl, hs'⟩ := h.onDefault hlinked none
    (fun c => erfFindIn (some c) name)
    (fun _ found => found = (lookupItem linked name.isSome (named name)).1)
    (by rintro rfl; rfl) (fun c hc => ⟨_, findIn_agrees hc name, rfl⟩)
  refine ⟨⟨(lookupItem linked name.isSome (named name)).1.map .resource, none⟩, s', ?_, hs',
    ⟨rel_itemReply _ _, rfl, hs'.lastError⟩⟩
  simp only [callStep, erfFind]
  rw [hfind, Exec.ok_bind]
  rfl

theorem Simulates.findId (h : Simulates linked s a) (hlinked : Option.Rel Holds start linked)
    (id : UInt32) : Answered start linked s a (.findId id) (.findId id) := by
  rintro reply' a' hstep
  obtain ⟨rfl, rfl⟩ := Prod.mk.inj (Except.ok.inj hstep)
  obtain ⟨found, s', hfind, rfl, hs'⟩ := h.onDefault hlinked none
    (fun c => erfFindIdIn (some c) id)
    (fun _ found => found = (lookupItem linked true (·.id = id)).1)
    (by rintro rfl; rfl) (fun c hc => ⟨_, findIdIn_agrees hc id, rfl⟩)
  refine ⟨⟨(lookupItem linked true (·.id = id)).1.map .resource, none⟩, s', ?_, hs',
    ⟨rel_itemReply _ _, rfl, hs'.lastError⟩⟩
  simp only [callStep, erfFindId]
  rw [hfind, Exec.ok_bind]
  rfl

theorem Simulates.resourceData (h : Simulates linked s a)
    (hlinked : Option.Rel Holds start linked) (name : Option CString) (size : Option UInt64) :
    Answered start linked s a (.resourceData name size) (.resourceData name size) := by
  rintro reply' a' hstep
  obtain ⟨rfl, rfl⟩ := Prod.mk.inj (Except.ok.inj hstep)
  obtain ⟨⟨data, left⟩, s', hdata, ⟨hsize, hpoints⟩, hs'⟩ :=
    h.onDefault hlinked (none, storeSize size 0)
    (fun c => erfResourceDataIn (some c) name size)
    (fun c r => r.2 = (dataReply linked (lookupItem linked name.isSome (named name)).1 size).size ∧
      Option.Rel (PointsTo c) (r.1.map .data) (dataReply linked
        (lookupItem linked name.isSome (named name)).1 size).pointer)
    (by rintro rfl; exact ⟨rfl, .none⟩)
    (fun c hc => by
      obtain ⟨data, hdata, hpoints⟩ := resourceDataIn_agrees hc name size
      exact ⟨_, hdata, rfl, hpoints⟩)
  refine ⟨⟨data.map .data, left⟩, s', ?_, hs', ⟨hpoints, hsize, hs'.lastError⟩⟩
  simp only [callStep, erfResourceData]
  rw [hdata, Exec.ok_bind]
  rfl

theorem Simulates.answered (h : Simulates linked s a) (hlinked : Option.Rel Holds start linked)
    {call : Call} {call' : StoreCall} (hmeans : Means call call') :
    Answered start linked s a call call' := by
  cases hmeans with
  | «open» hbuf => exact h.open hbuf
  | openInvalid hopen => exact h.openInvalid hopen
  | close => exact h.close _
  | findIn => exact h.findIn _ _
  | findIdIn => exact h.findIdIn _ _
  | resourceAt => exact h.resourceAt _ _
  | resourceDataIn => exact h.resourceDataIn _ _ _
  | find => exact h.find hlinked _
  | findId => exact h.findId hlinked _
  | resourceData => exact h.resourceData hlinked _ _

end Step

/-- However a program uses the library on containers that were built: what the store does for
the same calls the library does too, and without leaving any buffer. -/
theorem library_refines_store (start : Option Bytes) (linked : Option (List Item))
    (hlinked : Option.Rel Holds start linked) (calls : List Call) (calls' : List StoreCall)
    (hcalls : List.Forall₂ Means calls calls') (ts' : List (Turn StoreState StoreCall StoreReply))
    (hrun : turns (storeStep linked) .initial calls' = .ok ts') :
    ∃ ts, turns (callStep start) .initial calls = .ok ts ∧ List.Forall₂ Agrees ts ts' := by
  refine turns_simulation (Simulates linked) Means Agrees ?_ (simulates_initial linked) hcalls hrun
  intro s a call call' reply' a' h hmeans hstep
  exact h.answered hlinked hmeans reply' a' hstep

/-- The calls of a program with two resources linked in, which also opens a copy of them. -/
theorem library_refines_store_pair : ∃ b ts, turns (callStep (some b)) .initial
      [.openMemory (some b) b.length, .findIn (some 0) (some ⟨[0x61], by decide⟩),
        .resourceData none (some 7), .close (some 0), .findId 0] = .ok ts ∧
    ts.length = 5 := by
  obtain ⟨b, -, hbuild, hlen, -⟩ := builds_of_loads pair_loads pair_size
  have hbuf : Holds b pairItems :=
    ⟨pairFiles, pairManifest, b, [], hbuild, hlen ▸ pair_size, pair_loads,
      (List.append_nil b).symm⟩
  have hmeans := library_refines_store (some b) (some pairItems) (.some hbuf) _
    [.open pairItems, .findIn (some 0) (some ⟨[0x61], by decide⟩), .resourceData none (some 7),
      .close (some 0), .findId 0]
    (.cons (.open hbuf) (.cons .findIn (.cons .resourceData (.cons .close (.cons .findId .nil)))))
    _ rfl
  obtain ⟨ts, hts, hall⟩ := hmeans
  exact ⟨b, ts, hts, hall.length_eq⟩

end Elfr.System
