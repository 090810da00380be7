import Elfr.Container.Identifiers
import Elfr.Container.Lookup
import Elfr.Runtime.DefaultContainer
import Elfr.Runtime.LongerBuffer

/-!
# Built containers as a store of items

What the library is for, without buffers and offsets: a store is a list of items, and a
lookup yields the first item with a name or an identifier. A container that was built, also
one followed by other bytes, shows the items it was built from in this sense.
-/
namespace Elfr.Compiler

open Library Common Format Elfr.Runtime

/-- An open container shows these items: in order, and to every lookup. -/
structure Shows (c : ERFContainer) (items : List Item) : Prop where
  count : c.resourceCount.toNat = items.length
  length : c.resources.length = items.length
  resource : ∀ (i : ℕ) (hi : i < items.length), ∃ entry,
    c.resources[i]? = some (toResource entry) ∧ Presents c.base items[i] entry
  find : ∀ q, findName c q = .ok (items.findIdx? (·.name = q))

theorem findIdx?_name_iff {items : List Item} {q : CString} {k : ℕ} :
    items.findIdx? (·.name = q) = some k ↔ (items.map Item.name)[k]? = some q ∧
      ∀ j < k, (items.map Item.name)[j]? ≠ some q := by
  have hname : ∀ {j : ℕ} (hj : j < items.length),
      (items.map Item.name)[j]? = some q ↔ items[j].name = q := by
    intro j hj
    simp [hj]
  rw [List.findIdx?_eq_some_iff_getElem]
  constructor
  · rintro ⟨hk, hq, hbefore⟩
    refine ⟨(hname hk).mpr (of_decide_eq_true hq), fun j hj hjq => hbefore j hj ?_⟩
    exact decide_eq_true ((hname (hj.trans hk)).mp hjq)
  · rintro ⟨hq, hbefore⟩
    have hk : k < items.length := by simpa using (List.getElem?_eq_some_iff.mp hq).1
    refine ⟨hk, decide_eq_true ((hname hk).mp hq), fun j hj hjq => hbefore j hj ?_⟩
    exact (hname (hj.trans hk)).mpr (of_decide_eq_true hjq)

theorem ImageOf.shows {items : List Item} {im : Image} {b : Bytes} (h : ImageOf items im b)
    (t : Bytes) : Shows (im.container b.length (b ++ t)) items where
  count := h.resourceCount.trans h.length_entries
  length := by
    change (im.entries.map toResource).length = _
    rw [List.length_map, h.length_entries]
  resource i hi := by
    obtain ⟨entry, hentry, hp⟩ := h.resource t hi
    exact ⟨entry, hentry, hp.append t⟩
  find q := by
    obtain ⟨found, hhashed, -, hspec⟩ := h.find_agree t q
    have hfound : found = items.findIdx? (·.name = q) := Option.ext fun k => by
      rw [hspec, findIdx?_name_iff]
    rw [findName, if_pos ⟨rfl, UInt32.lt_iff_toNat_lt.mpr h.bucketCount_pos⟩, hhashed, hfound]

section Shows

variable {c : ERFContainer} {items : List Item} (h : Shows c items)
include h

theorem Shows.followedBy (t : Bytes) : Shows (c.followedBy t) items where
  count := h.count
  length := h.length
  resource i hi := by
    obtain ⟨entry, hentry, hp⟩ := h.resource i hi
    exact ⟨entry, hentry, hp.append t⟩
  find q := findName_followedBy c t q _ (h.find q)

theorem Shows.resourceAt {i : ℕ} (hi : i < items.length) (last : ERFError) :
    erfResourceAt (some c) (UInt32.ofNat i) last = (some i, last) := by
  have hcount := h.count
  have hlt := c.resourceCount.toNat_lt
  have hindex : (UInt32.ofNat i).toNat = i := toNat_ofNat32 (by omega)
  unfold erfResourceAt
  simp only [ge_iff_le, UInt32.le_iff_toNat_le, hindex]
  rw [if_neg (by omega)]

theorem Shows.findId (id : UInt32) :
    erfFindIdIn (some c) id = .ok (lookupResult (items.findIdx? (·.id = id))) := by
  have hall : 0 + c.resourceCount.toNat = c.resources.length := by
    rw [h.count, h.length, Nat.zero_add]
  have hids : c.resources.map (·.id) = items.map Item.id := by
    refine List.ext_getElem (by simp [h.length]) fun i hi hi' => ?_
    rw [List.length_map] at hi'
    obtain ⟨entry, hentry, hp⟩ := h.resource i hi'
    obtain ⟨hi'', hentry⟩ := List.getElem?_eq_some_iff.mp hentry
    simp [hentry, toResource, hp.id]
  have hfind : c.resources.findIdx? (·.id = id) = items.findIdx? (·.id = id) := by
    have hmap := congrArg (List.findIdx? fun x => decide (x = id)) hids
    rwa [List.findIdx?_map, List.findIdx?_map] at hmap
  have hscan := scanIds_eq id hall
  simp [erfFindIdIn, hscan, hfind]

end Shows

structure StoreState where
  lastError : ERFError
  attempted : Bool
  stores : List (Option (List Item))

namespace StoreState

def initial : StoreState := ⟨.ok, false, []⟩

def setLastError (a : StoreState) (e : ERFError) : StoreState := { a with lastError := e }

/-- The store a handle stands for; a closed one must not be used. -/
def theStore (a : StoreState) : Option ℕ → Exec (Option (List Item))
  | none => pure none
  | some handle => do
    let opened ← Exec.index a.stores handle
    let items ← Exec.deref opened
    pure (some items)

/-- The first use of the default store says whether there is one. -/
def useDefault (linked : Option (List Item)) (a : StoreState) : StoreState :=
  if a.attempted then a
  else
    { a with
      attempted := true
      lastError := if linked.isSome then .ok else .noDefaultContainer }

end StoreState

inductive StoreCall
  | open (items : List Item)
  | openInvalid (e : ERFError)
  | close (store : Option ℕ)
  | findIn (store : Option ℕ) (name : Option CString)
  | findIdIn (store : Option ℕ) (id : UInt32)
  | resourceAt (store : Option ℕ) (index : UInt32)
  | resourceDataIn (store : Option ℕ) (name : Option CString) (size : Option UInt64)
  | find (name : Option CString)
  | findId (id : UInt32)
  | resourceData (name : Option CString) (size : Option UInt64)

/-- A handle, the index of an item, or the contents of one. -/
inductive StorePointer
  | container (handle : ℕ)
  | resource (index : ℕ)
  | data (contents : Bytes)

structure StoreReply where
  pointer : Option StorePointer
  size : Option UInt64

/-- Look something up, given a store and valid arguments. -/
def lookupItem (store : Option (List Item)) (valid : Bool) (p : Item → Bool) :
    Option ℕ × ERFError :=
  match store with
  | some items => if valid then lookupResult (items.findIdx? p) else (none, .invalidArgument)
  | none => (none, .invalidArgument)

def named (name : Option CString) (it : Item) : Bool := some it.name = name

/-- The reply of a lookup that yields an item. -/
def itemReply (found : Option ℕ) : StoreReply := ⟨found.map .resource, none⟩

/-- The reply of a lookup that yields contents, and their length in `*size`. -/
def dataReply (store : Option (List Item)) (found : Option ℕ) (size : Option UInt64) : StoreReply :=
  match (do let i ← found; let items ← store; items[i]?) with
  | none => ⟨none, storeSize size 0⟩
  | some it => ⟨some (.data it.contents), storeSize size (UInt64.ofNat it.contents.length)⟩

def itemAt (store : Option (List Item)) (index : UInt32) (last : ERFError) : Option ℕ × ERFError :=
  match store with
  | none => (none, .invalidArgument)
  | some items => if index.toNat < items.length then (some index.toNat, last)
    else (none, .invalidArgument)

def storeStep (linked : Option (List Item)) (a : StoreState) :
    StoreCall → Exec (StoreReply × StoreState)
  | .open items => pure (⟨some (.container a.stores.length), none⟩,
      { a.setLastError .ok with stores := a.stores ++ [some items] })
  | .openInvalid e => pure (⟨none, none⟩, a.setLastError e)
  | .close none => pure (⟨none, none⟩, a)
  | .close (some handle) => do
    let _ ← a.theStore (some handle)
    pure (⟨none, none⟩, { a with stores := a.stores.set handle none })
  | .findIn store name => do
    let store ← a.theStore store
    let (found, e) := lookupItem store name.isSome (named name)
    pure (itemReply found, a.setLastError e)
  | .findIdIn store id => do
    let store ← a.theStore store
    let (found, e) := lookupItem store true (·.id = id)
    pure (itemReply found, a.setLastError e)
  | .resourceAt store index => do
    let store ← a.theStore store
    let (found, e) := itemAt store index a.lastError
    pure (itemReply found, a.setLastError e)
  | .resourceDataIn store name size => do
    let store ← a.theStore store
    let (found, e) := lookupItem store name.isSome (named name)
    pure (dataReply store found size, a.setLastError e)
  | .find name =>
    let a := a.useDefault linked
    let (found, e) := lookupItem linked name.isSome (named name)
    pure (itemReply found, if linked.isSome then a.setLastError e else a)
  | .findId id =>
    let a := a.useDefault linked
    let (found, e) := lookupItem linked true (·.id = id)
    pure (itemReply found, if linked.isSome then a.setLastError e else a)
  | .resourceData name size =>
    let a := a.useDefault linked
    let (found, e) := lookupItem linked name.isSome (named name)
    pure (dataReply linked found size, if linked.isSome then a.setLastError e else a)

end Elfr.Compiler
