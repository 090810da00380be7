import Elfr.Runtime.DefaultContainer
import Elfr.Runtime.OpenFailure
import Elfr.Runtime.ReaderBounds

/-!
# The last error after a failing call

Every call that fails has one cause, read off its arguments and the linked
object alone: what is wrong with the bytes to open, a null argument, or that
nothing was found. A failing call leaves its cause behind, except where the
latch of the default container skips the attempt: then the last error stays
whatever the calls since the failed attempt made it.
-/
namespace Elfr.Runtime

open Library Common Format

/-- Why there is no default container, if there is none. -/
def defaultFailure (linked : Option Bytes) : Option ERFError :=
  match linked with
  | none => some .noDefaultContainer
  | some start => openFailure (some start) start.length

/-- Why a lookup fails: a null argument, or nothing was found. -/
def lookupFailure (valid : Bool) : ERFError := if valid then .notFound else .invalidArgument

/-- The reason for which the call fails if it fails. -/
def Call.cause (linked : Option Bytes) : Call → Option ERFError
  | .openMemory base size => openFailure base size
  | .close _ => none
  | .findIn container name => some (lookupFailure (container.isSome && name.isSome))
  | .findIdIn container _ => some (lookupFailure container.isSome)
  | .resourceAt _ _ => some .invalidArgument
  | .resourceDataIn container name _ => some (lookupFailure (container.isSome && name.isSome))
  | .find name => some ((defaultFailure linked).getD (lookupFailure name.isSome))
  | .findId _ => some ((defaultFailure linked).getD .notFound)
  | .resourceData name _ => some ((defaultFailure linked).getD (lookupFailure name.isSome))

theorem defaultFailure_ne_ok {linked : Option Bytes} : defaultFailure linked ≠ some .ok := by
  cases linked with
  | none => simp [defaultFailure]
  | some start =>
    unfold defaultFailure
    exact openFailure_ne_ok

theorem lookupFailure_ne_ok (valid : Bool) : lookupFailure valid ≠ .ok := by
  cases valid <;> decide

theorem erfFindIn_null {container : Option ERFContainer} {name : Option CString} {e : ERFError}
    (h : erfFindIn container name = .ok (none, e)) :
    e = lookupFailure (container.isSome && name.isSome) := by
  cases container with
  | none => exact (congrArg Prod.snd (Except.ok.inj h)).symm
  | some c =>
    cases name with
    | none => exact (congrArg Prod.snd (Except.ok.inj h)).symm
    | some q =>
      obtain ⟨found, -, h⟩ := Exec.bind_eq_ok.mp h
      obtain ⟨rfl, rfl⟩ := Prod.mk.inj (Except.ok.inj h)
      rfl

theorem erfFindIdIn_null {container : Option ERFContainer} {id : UInt32} {e : ERFError}
    (h : erfFindIdIn container id = .ok (none, e)) : e = lookupFailure container.isSome := by
  cases container with
  | none => exact (congrArg Prod.snd (Except.ok.inj h)).symm
  | some c =>
    obtain ⟨found, -, h⟩ := Exec.bind_eq_ok.mp h
    obtain ⟨rfl, rfl⟩ := Prod.mk.inj (Except.ok.inj h)
    rfl

theorem erfResourceDataIn_null {container : Option ERFContainer} {name : Option CString}
    {size size' : Option UInt64} {e : ERFError}
    (h : erfResourceDataIn container name size = .ok ((none, size'), e)) :
    e = lookupFailure (container.isSome && name.isSome) := by
  obtain ⟨⟨found, e'⟩, hfind, h⟩ := Exec.bind_eq_ok.mp h
  cases found with
  | none =>
    obtain ⟨-, rfl⟩ := Prod.mk.inj (Except.ok.inj h)
    exact erfFindIn_null hfind
  | some i =>
    obtain ⟨c, -, h⟩ := Exec.bind_eq_ok.mp h
    obtain ⟨r, -, h⟩ := Exec.bind_eq_ok.mp h
    exact absurd (congrArg (fun p => p.1.1) (Except.ok.inj h)) (by simp)

theorem erfResourceAt_null {container : Option ERFContainer} {index : UInt32} {last e : ERFError}
    (h : erfResourceAt container index last = (none, e)) : e = .invalidArgument := by
  cases container with
  | none => exact (congrArg Prod.snd h).symm
  | some c =>
    unfold erfResourceAt at h
    by_cases hindex : index ≥ c.resourceCount
    · simp only [hindex, ↓reduceIte] at h
      exact (congrArg Prod.snd h).symm
    · simp [hindex] at h

theorem theContainer_isSome {s : LibraryState} {container : Option ℕ} {c : Option ERFContainer}
    (h : s.theContainer container = .ok c) : c.isSome = container.isSome := by
  cases container with
  | none =>
    obtain rfl := Except.ok.inj h
    rfl
  | some handle =>
    obtain ⟨opened, -, h⟩ := Exec.bind_eq_ok.mp h
    obtain ⟨c', -, h⟩ := Exec.bind_eq_ok.mp h
    obtain rfl := Except.ok.inj h
    rfl

theorem Call.cause_ne_ok {linked : Option Bytes} {call : Call} : call.cause linked ≠ some .ok := by
  have hdefault : ∀ e : ERFError, e ≠ .ok → some ((defaultFailure linked).getD e) ≠ some .ok := by
    intro e he
    cases hd : defaultFailure linked with
    | none => simpa using he
    | some e' => exact fun h => defaultFailure_ne_ok (hd.trans h)
  cases call with
  | openMemory base size =>
    unfold Call.cause
    exact openFailure_ne_ok
  | close container => exact fun h => by cases h
  | findIn container name => exact fun h => lookupFailure_ne_ok _ (Option.some.inj h)
  | findIdIn container id => exact fun h => lookupFailure_ne_ok _ (Option.some.inj h)
  | resourceAt container index => exact fun h => by cases h
  | resourceDataIn container name size => exact fun h => lookupFailure_ne_ok _ (Option.some.inj h)
  | find name => exact hdefault _ (lookupFailure_ne_ok _)
  | findId id => exact hdefault _ (by decide)
  | resourceData name size => exact hdefault _ (lookupFailure_ne_ok _)

/-- After the first attempt there is a default container exactly if one can be opened. -/
structure Consistent (linked : Option Bytes) (s : LibraryState) : Prop where
  first : s.attempted = false → s.defaultContainer = none
  later : s.attempted = true → s.defaultContainer.isNone = (defaultFailure linked).isSome

theorem consistent_initial (linked : Option Bytes) : Consistent linked .initial where
  first _ := rfl
  later h := absurd h (by decide)

theorem Consistent.of_latch {linked : Option Bytes} {s s' : LibraryState}
    (h : Consistent linked s) (hattempted : s'.attempted = s.attempted)
    (hdefault : s'.defaultContainer = s.defaultContainer) : Consistent linked s' where
  first hfirst := hdefault.trans (h.first (hattempted.symm.trans hfirst))
  later hlater := by
    rw [hdefault]
    exact h.later (hattempted.symm.trans hlater)

/-- The first attempt failed, and the last error is no longer the one it left. -/
def LatchDisturbed (linked : Option Bytes) (s : LibraryState) : Prop :=
  s.attempted = true ∧ s.defaultContainer = none ∧ defaultFailure linked ≠ some s.lastError

section Latch

variable {linked : Option Bytes} {s s' : LibraryState} {container : Option ERFContainer}

theorem getDefaultContainer_later (hlater : s.attempted = true) :
    getDefaultContainer linked s = .ok (s.defaultContainer, s) := by
  rw [getDefaultContainer, if_pos hlater]
  rfl

/-- The first attempt sets the latch and, if it fails, leaves its reason. -/
theorem getDefaultContainer_first (hfirst : s.attempted = false) (hnone : s.defaultContainer = none)
    (h : getDefaultContainer linked s = .ok (container, s')) :
    s'.attempted = true ∧ s'.defaultContainer = container ∧
      container.isNone = (defaultFailure linked).isSome ∧
      (container = none → defaultFailure linked = some s'.lastError) := by
  rw [getDefaultContainer, if_neg (by simp [hfirst])] at h
  cases linked with
  | none =>
    obtain ⟨rfl, rfl⟩ := Prod.mk.inj (Except.ok.inj h)
    exact ⟨rfl, hnone, rfl, fun _ => rfl⟩
  | some start =>
    obtain ⟨r, hopen, h⟩ := Exec.bind_eq_ok.mp h
    rcases erfOpenMemory_failure hopen with ⟨e, rfl, hfailure⟩ | ⟨⟨c, rfl⟩, hfailure⟩
    · obtain ⟨rfl, rfl⟩ := Prod.mk.inj (Except.ok.inj h)
      exact ⟨rfl, rfl, by simp [defaultFailure, hfailure], fun _ => hfailure⟩
    · obtain ⟨rfl, rfl⟩ := Prod.mk.inj (Except.ok.inj h)
      exact ⟨rfl, rfl, by simp [defaultFailure, hfailure], fun hc => by cases hc⟩

theorem getDefaultContainer_spec (hs : Consistent linked s)
    (h : getDefaultContainer linked s = .ok (container, s')) :
    Consistent linked s' ∧ container.isNone = (defaultFailure linked).isSome ∧
      (container = none → (defaultFailure linked = some s'.lastError ↔
        ¬ LatchDisturbed linked s)) := by
  cases hattempted : s.attempted with
  | false =>
    obtain ⟨hlatch, hdefault, hfailure, hreason⟩ :=
      getDefaultContainer_first hattempted (hs.first hattempted) h
    refine ⟨⟨fun hfirst => absurd hfirst (by simp [hlatch]), fun _ => by rw [hdefault, hfailure]⟩,
      hfailure, fun hnone => iff_of_true (hreason hnone) ?_⟩
    exact fun hdisturbed => absurd hdisturbed.1 (by simp [hattempted])
  | true =>
    rw [getDefaultContainer_later hattempted] at h
    obtain ⟨rfl, rfl⟩ := Prod.mk.inj (Except.ok.inj h)
    refine ⟨hs, hs.later hattempted, fun hnone => ?_⟩
    simp [LatchDisturbed, hattempted, hnone]

end Latch

/-- A null pointer comes with its cause, and without a linked object every default-container
call fails for that reason. -/
structure LeavesCause (linked : Option Bytes) (t : Turn LibraryState Call Reply) : Prop where
  failure : t.call.returnsPointer = true → t.reply.pointer = none →
    t.after.lastError ≠ .ok ∧ t.call.cause linked = some t.after.lastError
  unlinked : linked = none → t.call.usesDefault = true →
    t.reply.pointer = none ∧ t.after.lastError = .noDefaultContainer

section Call

variable {linked : Option Bytes} {s s' : LibraryState} {call : Call} {reply : Reply}

theorem onContainer_spec {α : Type} {container : Option ℕ}
    (lookup : Option ERFContainer → Exec (α × ERFError)) (view : α → Reply)
    (h : (s.theContainer container >>= fun c => lookup c >>= fun found =>
      pure (view found.1, s.setLastError found.2)) = .ok (reply, s')) :
    (s'.attempted = s.attempted ∧ s'.defaultContainer = s.defaultContainer) ∧
      ∃ c found, c.isSome = container.isSome ∧ lookup c = .ok (found, s'.lastError) ∧
        view found = reply := by
  obtain ⟨c, hc, h⟩ := Exec.bind_eq_ok.mp h
  obtain ⟨found, hfind, h⟩ := Exec.bind_eq_ok.mp h
  obtain ⟨rfl, rfl⟩ := Prod.mk.inj (Except.ok.inj h)
  exact ⟨⟨rfl, rfl⟩, c, found.1, theContainer_isSome hc, hfind, rfl⟩

theorem explicit_step (hexplicit : call.usesDefault = false)
    (h : callStep linked s call = .ok (reply, s')) :
    (s'.attempted = s.attempted ∧ s'.defaultContainer = s.defaultContainer) ∧
      (call.returnsPointer = true → reply.pointer = none →
        call.cause linked = some s'.lastError) := by
  cases call with
  | openMemory base size =>
    obtain ⟨r, hopen, h⟩ := Exec.bind_eq_ok.mp h
    rcases erfOpenMemory_failure hopen with ⟨e, rfl, hfailure⟩ | ⟨⟨c, rfl⟩, -⟩
    · obtain ⟨rfl, rfl⟩ := Prod.mk.inj (Except.ok.inj h)
      exact ⟨⟨rfl, rfl⟩, fun _ _ => hfailure⟩
    · obtain ⟨rfl, rfl⟩ := Prod.mk.inj (Except.ok.inj h)
      exact ⟨⟨rfl, rfl⟩, fun _ hnull => by cases hnull⟩
  | close container =>
    cases container with
    | none =>
      obtain ⟨-, rfl⟩ := Prod.mk.inj (Except.ok.inj h)
      exact ⟨⟨rfl, rfl⟩, fun hpointer => by cases hpointer⟩
    | some handle =>
      obtain ⟨c, -, h⟩ := Exec.bind_eq_ok.mp h
      obtain ⟨-, rfl⟩ := Prod.mk.inj (Except.ok.inj h)
      exact ⟨⟨rfl, rfl⟩, fun hpointer => by cases hpointer⟩
  | findIn container name =>
    obtain ⟨hlatch, c, found, hc, hfind, rfl⟩ :=
      onContainer_spec (erfFindIn · name) (fun found => ⟨found.map .resource, none⟩) h
    refine ⟨hlatch, fun _ hnull => ?_⟩
    obtain rfl := Option.map_eq_none_iff.mp hnull
    rw [Call.cause, ← hc, ← erfFindIn_null hfind]
  | findIdIn container id =>
    obtain ⟨hlatch, c, found, hc, hfind, rfl⟩ :=
      onContainer_spec (erfFindIdIn · id) (fun found => ⟨found.map .resource, none⟩) h
    refine ⟨hlatch, fun _ hnull => ?_⟩
    obtain rfl := Option.map_eq_none_iff.mp hnull
    rw [Call.cause, ← hc, ← erfFindIdIn_null hfind]
  | resourceAt container index =>
    obtain ⟨c, hc, h⟩ := Exec.bind_eq_ok.mp h
    cases hat : erfResourceAt c index s.lastError with
    | mk found e =>
      rw [hat] at h
      obtain ⟨rfl, rfl⟩ := Prod.mk.inj (Except.ok.inj h)
      refine ⟨⟨rfl, rfl⟩, fun _ hnull => ?_⟩
      obtain rfl := Option.map_eq_none_iff.mp hnull
      rw [erfResourceAt_null hat]
      rfl
  | resourceDataIn container name size =>
    obtain ⟨hlatch, c, ⟨data, size'⟩, hc, hdata, rfl⟩ :=
      onContainer_spec (erfResourceDataIn · name size)
        (fun found => ⟨found.1.map .data, found.2⟩) h
    refine ⟨hlatch, fun _ hnull => ?_⟩
    obtain rfl := Option.map_eq_none_iff.mp hnull
    rw [Call.cause, ← hc, ← erfResourceDataIn_null hdata]
  | find name => cases hexplicit
  | findId id => cases hexplicit
  | resourceData name size => cases hexplicit

/-- A call on the default container fetches it; without one it returns what it gives then. -/
theorem onDefault_spec {α : Type} {absent r : α} {lookup : ERFContainer → Exec (α × ERFError)}
    (h : onDefault linked s absent lookup = .ok (r, s')) :
    ∃ container s'', getDefaultContainer linked s = .ok (container, s'') ∧
      (s'.attempted = s''.attempted ∧ s'.defaultContainer = s''.defaultContainer) ∧
      (container = none → r = absent ∧ s' = s'') ∧
      ∀ c, container = some c → lookup c = .ok (r, s'.lastError) := by
  obtain ⟨⟨container, s''⟩, hget, h⟩ := Exec.bind_eq_ok.mp h
  refine ⟨container, s'', hget, ?_⟩
  cases container with
  | none =>
    obtain ⟨rfl, rfl⟩ := Prod.mk.inj (Except.ok.inj h)
    exact ⟨⟨rfl, rfl⟩, fun _ => ⟨rfl, rfl⟩, fun c hc => by cases hc⟩
  | some c =>
    obtain ⟨⟨result, e⟩, hlookup, h⟩ := Exec.bind_eq_ok.mp h
    obtain ⟨rfl, rfl⟩ := Prod.mk.inj (Except.ok.inj h)
    refine ⟨⟨rfl, rfl⟩, fun hc => absurd hc (Option.some_ne_none c), fun c' hc' => ?_⟩
    obtain rfl := Option.some.inj hc'
    exact hlookup

theorem onDefault_pointer {α β : Type} {absent r : α} {lookup : ERFContainer → Exec (α × ERFError)}
    (pointer : α → Option β) (cause : ERFError) (habsent : pointer absent = none)
    (hcause : ∀ c e, pointer r = none → lookup c = .ok (r, e) → e = cause)
    (h : onDefault linked s absent lookup = .ok (r, s')) :
    ∃ container s'', getDefaultContainer linked s = .ok (container, s'') ∧
      (s'.attempted = s''.attempted ∧ s'.defaultContainer = s''.defaultContainer) ∧
      (container = none → pointer r = none ∧ s' = s'') ∧
      (container ≠ none → pointer r = none →
        some ((defaultFailure linked).getD cause) =
          some ((defaultFailure linked).getD s'.lastError)) := by
  obtain ⟨container, s'', hget, hlatch, hnone, hsome⟩ := onDefault_spec h
  refine ⟨container, s'', hget, hlatch, fun hc => ?_, fun hc hnull => ?_⟩
  · obtain ⟨rfl, hstate⟩ := hnone hc
    exact ⟨habsent, hstate⟩
  · obtain ⟨c, rfl⟩ := Option.ne_none_iff_exists'.mp hc
    rw [hcause c _ hnull (hsome c rfl)]

/-- A default-container call returns null without a default container, and with one it fails
for the reason the lookup in it does. -/
theorem default_step (hdefault : call.usesDefault = true)
    (h : callStep linked s call = .ok (reply, s')) :
    ∃ container s'', getDefaultContainer linked s = .ok (container, s'') ∧
      (s'.attempted = s''.attempted ∧ s'.defaultContainer = s''.defaultContainer) ∧
      (container = none → reply.pointer = none ∧ s' = s'') ∧
      (container ≠ none → reply.pointer = none →
        call.cause linked = some ((defaultFailure linked).getD s'.lastError)) := by
  cases call with
  | find name =>
    obtain ⟨⟨found, s₁⟩, hfind, h⟩ := Exec.bind_eq_ok.mp h
    obtain ⟨rfl, rfl⟩ := Prod.mk.inj (Except.ok.inj h)
    refine onDefault_pointer (Option.map Pointer.resource) _ rfl (fun c e hnull hlookup => ?_) hfind
    obtain rfl := Option.map_eq_none_iff.mp hnull
    exact erfFindIn_null hlookup
  | findId id =>
    obtain ⟨⟨found, s₁⟩, hfind, h⟩ := Exec.bind_eq_ok.mp h
    obtain ⟨rfl, rfl⟩ := Prod.mk.inj (Except.ok.inj h)
    refine onDefault_pointer (Option.map Pointer.resource) _ rfl (fun c e hnull hlookup => ?_) hfind
    obtain rfl := Option.map_eq_none_iff.mp hnull
    exact erfFindIdIn_null hlookup
  | resourceData name size =>
    obtain ⟨⟨⟨data, size'⟩, s₁⟩, hdata, h⟩ := Exec.bind_eq_ok.mp h
    obtain ⟨rfl, rfl⟩ := Prod.mk.inj (Except.ok.inj h)
    refine onDefault_pointer (fun found => found.1.map Pointer.data) _ rfl
      (fun c e hnull hlookup => ?_) hdata
    obtain rfl := Option.map_eq_none_iff.mp hnull
    exact erfResourceDataIn_null hlookup
  | openMemory base size => cases hdefault
  | close container => cases hdefault
  | findIn container name => cases hdefault
  | findIdIn container id => cases hdefault
  | resourceAt container index => cases hdefault
  | resourceDataIn container name size => cases hdefault

theorem consistent_step (hs : Consistent linked s) (h : callStep linked s call = .ok (reply, s')) :
    Consistent linked s' := by
  cases hdefault : call.usesDefault with
  | false =>
    obtain ⟨⟨hattempted, hcontainer⟩, -⟩ := explicit_step hdefault h
    exact hs.of_latch hattempted hcontainer
  | true =>
    obtain ⟨container, s'', hget, ⟨hattempted, hcontainer⟩, -⟩ := default_step hdefault h
    exact (getDefaultContainer_spec hs hget).1.of_latch hattempted hcontainer

theorem Call.cause_of_defaultFailure {e : ERFError} (hdefault : call.usesDefault = true)
    (h : defaultFailure linked = some e) : call.cause linked = some e := by
  cases call <;> first | cases hdefault; done | (unfold Call.cause; rw [h]; rfl)

/-- A call leaves its cause exactly if it is not a default-container call on a disturbed latch. -/
theorem leavesCause_iff (hs : Consistent linked s) (h : callStep linked s call = .ok (reply, s')) :
    LeavesCause linked ⟨s, call, reply, s'⟩ ↔
      ¬ (call.usesDefault = true ∧ LatchDisturbed linked s) := by
  have hcause : call.cause linked = some s'.lastError →
      s'.lastError ≠ .ok ∧ call.cause linked = some s'.lastError :=
    fun hcause => ⟨fun hok => Call.cause_ne_ok (hok ▸ hcause), hcause⟩
  cases hdefault : call.usesDefault with
  | false =>
    have hexplicit := (explicit_step hdefault h).2
    refine iff_of_true ⟨fun hpointer hnull => hcause (hexplicit hpointer hnull), ?_⟩ (by simp)
    exact fun _ h => absurd h (by simp [hdefault])
  | true =>
    have hpointer : call.returnsPointer = true := by
      cases call <;> first | rfl | cases hdefault
    obtain ⟨container, s'', hget, -, hnone, hsome⟩ := default_step hdefault h
    obtain ⟨-, hfailure, hleft⟩ := getDefaultContainer_spec hs hget
    cases container with
    | some c =>
      have hworks : defaultFailure linked = none := by simpa using hfailure.symm
      refine iff_of_true ⟨fun _ hnull => hcause ?_, fun hunlinked => ?_⟩ ?_
      · rw [hsome (by simp) hnull, hworks, Option.getD_none]
      · rw [hunlinked] at hworks
        cases hworks
      · rintro ⟨-, hlatch⟩
        have hsame : getDefaultContainer linked s = _ := getDefaultContainer_later hlatch.1
        rw [hget, hlatch.2.1] at hsame
        cases hsame
    | none =>
      obtain ⟨hnull, rfl⟩ := hnone rfl
      obtain ⟨e, he⟩ := Option.isSome_iff_exists.mp hfailure.symm
      have he' := Call.cause_of_defaultFailure hdefault he
      constructor
      · rintro hleaves ⟨-, hdisturbed⟩
        have hlast := he'.symm.trans (hleaves.failure hpointer hnull).2
        exact (hleft rfl).mp (he.trans hlast) hdisturbed
      · intro hundisturbed
        have hlast := (hleft rfl).mpr fun hdisturbed => hundisturbed ⟨rfl, hdisturbed⟩
        refine ⟨fun _ _ => hcause (Call.cause_of_defaultFailure hdefault hlast),
          fun hunlinked _ => ⟨hnull, ?_⟩⟩
        rw [hunlinked] at hlast
        exact (Option.some.inj hlast).symm

end Call

/-- **A failing call leaves its own reason** in every turn of a run, exactly if no
default-container call of the run comes after a failed first attempt whose error another
call has overwritten since. -/
theorem failing_calls_leave_cause_iff {linked : Option Bytes} {calls : List Call}
    {ts : List (Turn LibraryState Call Reply)}
    (h : turns (callStep linked) .initial calls = .ok ts) :
    (∀ t ∈ ts, LeavesCause linked t) ↔
      ∀ t ∈ ts, ¬ (t.call.usesDefault = true ∧ LatchDisturbed linked t.before) := by
  have hturns := turns_invariant (Consistent linked) (fun _ _ _ _ => consistent_step)
    (consistent_initial linked) h
  exact forall₂_congr fun t ht => leavesCause_iff (hturns t ht).1 (hturns t ht).2

/-- Nothing to open, three bytes, and two calls that miss the default container. -/
def failingCalls : List Call :=
  [.openMemory none 8, .openMemory (some [69, 82, 70]) 3, .find none, .findId 7]

theorem failing_calls_leave_cause_unlinked :
    ∃ ts, turns (callStep none) .initial failingCalls = .ok ts ∧
      ts.map (·.after.lastError) =
        [.invalidArgument, .truncated, .noDefaultContainer, .noDefaultContainer] ∧
      ∀ t ∈ ts, LeavesCause none t := by
  have hrun : turns (callStep none) .initial failingCalls = .ok _ := rfl
  refine ⟨_, hrun, rfl, (failing_calls_leave_cause_iff hrun).mpr fun t ht => ?_⟩
  rintro ⟨hdefault, hattempted, -, hlast⟩
  rcases List.mem_cons.mp ht with rfl | ht
  · cases hdefault
  rcases List.mem_cons.mp ht with rfl | ht
  · cases hdefault
  rcases List.mem_cons.mp ht with rfl | ht
  · cases hattempted
  rcases List.mem_cons.mp ht with rfl | ht
  · exact hlast rfl
  · exact absurd ht List.not_mem_nil

/-- Without a linked object the first default-container call fails with its reason; after a
container was opened the next one returns null with the code of success. -/
def openBetween : List Call :=
  [.find (some (.literal "a")), .openMemory (some tinyWithMetadata) tinyWithMetadata.length,
    .find (some (.literal "a"))]

theorem stale_error_after_open : ∃ ts, turns (callStep none) .initial openBetween = .ok ts ∧
    ∃ t ∈ ts, t.call.returnsPointer = true ∧ t.reply.pointer = none ∧ t.after.lastError = .ok := by
  have hlast : ((turns (callStep none) .initial openBetween).toOption.bind List.getLast?).map
      (fun t => (t.call.returnsPointer, t.reply.pointer, t.after.lastError)) =
        some (true, none, .ok) := by
    decide +kernel
  obtain ⟨t, ht, hshown⟩ := Option.map_eq_some_iff.mp hlast
  obtain ⟨ts, hts, hmem⟩ := Option.bind_eq_some_iff.mp ht
  simp only [Prod.mk.injEq] at hshown
  refine ⟨ts, ?_, t, List.mem_of_getLast? hmem, hshown⟩
  cases hrun : turns (callStep none) .initial openBetween with
  | error e =>
    rw [hrun] at hts
    cases hts
  | ok ts' =>
    rw [hrun] at hts
    rw [Option.some.inj hts]

end Elfr.Runtime
