import Elfr.Library.Threads
import Elfr.Runtime.LastError

/-!
# Threads on the default container

`g_default_container` and its latch are one for all threads, the last error is one for each.
A call on the default container is cut at its accesses to the two shared variables, each of
them one step, and the steps of the threads interleave. Everything between two accesses is
the thread's own. Containers that a thread opened itself are its own, too.
-/
namespace Elfr.Runtime

open Library Common Format

structure Shared where
  attempted : Bool
  defaultContainer : Option ERFContainer

/-- Where a thread stands in `get_default_container`, and for the sake of which call. -/
inductive Point
  | outside
  /-- It found the latch unset. -/
  | latching (call : Call)
  /-- It has set the latch. -/
  | opening (call : Call)
  /-- It is about to return `g_default_container`. -/
  | reading (call : Call)

structure Answer where
  call : Call
  reply : Reply
  lastError : ERFError

structure Thread where
  lastError : ERFError
  containers : List (Option ERFContainer)
  point : Point
  calls : List Call
  answers : List Answer

namespace Thread

def start (calls : List Call) : Thread := ⟨.ok, [], .outside, calls, []⟩

/-- The library as the thread sees it from there on where it got hold of a container. -/
def seeing (l : Thread) (container : Option ERFContainer) : LibraryState :=
  ⟨l.lastError, true, container, l.containers⟩

def pending (l : Thread) : List Call :=
  match l.point with
  | .outside => l.calls
  | .latching call | .opening call | .reading call => call :: l.calls

end Thread

/-- The rest of a call, after `get_default_container` returned, if it went there at all. -/
def finishCall (linked : Option Bytes) (l : Thread) (container : Option ERFContainer)
    (call : Call) : Exec Thread := do
  let (reply, s) ← callStep linked (l.seeing container) call
  pure ⟨s.lastError, s.containers, .outside, l.calls, l.answers ++ [⟨call, reply, s.lastError⟩]⟩

def threadStep (linked : Option Bytes) (shared : Shared) (l : Thread) : Exec (Shared × Thread) :=
  match l.point with
  | .outside =>
    match l.calls with
    | [] => pure (shared, l)
    | call :: calls =>
      if call.usesDefault then
        let point := if shared.attempted then .reading call else .latching call
        pure (shared, { l with point := point, calls := calls })
      else do
        let l ← finishCall linked { l with calls := calls } shared.defaultContainer call
        pure (shared, l)
  | .latching call => pure ({ shared with attempted := true }, { l with point := .opening call })
  | .opening call =>
    match linked with
    | none => do
      let l ← finishCall linked { l with lastError := .noDefaultContainer } none call
      pure (shared, l)
    | some start => do
      match ← erfOpenMemory (some start) start.length with
      | .error e =>
        pure ({ shared with defaultContainer := none },
          { l with lastError := e, point := .reading call })
      | .ok c =>
        pure ({ shared with defaultContainer := some c },
          { l with lastError := .ok, point := .reading call })
  | .reading call => do
    let l ← finishCall linked l shared.defaultContainer call
    pure (shared, l)

def startThreads {θ : Type} (calls : θ → List Call) : Threads θ Shared Thread :=
  ⟨⟨false, none⟩, fun t => .start (calls t)⟩

/-- What `erf_open_memory` makes of the linked object. -/
def openedDefault (linked : Option Bytes) : Option ERFContainer :=
  match linked with
  | none => none
  | some start =>
    match erfOpenMemory (some start) start.length with
    | .ok (.ok c) => some c
    | _ => none

theorem openedDefault_eq {start : Bytes} {r : Except ERFError ERFContainer}
    (h : erfOpenMemory (some start) start.length = .ok r) :
    openedDefault (some start) = r.toOption := by
  unfold openedDefault
  simp only [h]
  cases r <;> rfl

theorem erfOpenMemory_of_openedDefault {start : Bytes} {c : ERFContainer}
    (h : openedDefault (some start) = some c) :
    erfOpenMemory (some start) start.length = .ok (.ok c) := by
  unfold openedDefault at h
  dsimp only at h
  split at h
  next hopen =>
    obtain rfl := Option.some.inj h
    exact hopen
  · cases h

def Thread.Settled (l : Thread) : Prop :=
  match l.point with
  | .outside | .reading _ => True
  | .latching _ | .opening _ => False

def answerOf (t : Turn LibraryState Call Reply) : Answer := ⟨t.call, t.reply, t.after.lastError⟩

section Step

variable {linked : Option Bytes} {s s' : LibraryState} {shared shared' : Shared} {l l' : Thread}
  {container : Option ERFContainer} {call : Call} {reply : Reply}

/-- Once the latch is set, calls leave it and the default container alone. -/
theorem callStep_latched (hlatch : s.attempted = true)
    (h : callStep linked s call = .ok (reply, s')) :
    s'.attempted = true ∧ s'.defaultContainer = s.defaultContainer := by
  cases hdefault : call.usesDefault with
  | false =>
    obtain ⟨⟨hattempted, hcontainer⟩, -⟩ := explicit_step hdefault h
    exact ⟨hattempted.trans hlatch, hcontainer⟩
  | true =>
    obtain ⟨container, s'', hget, ⟨hattempted, hcontainer⟩, -⟩ := default_step hdefault h
    rw [getDefaultContainer_later hlatch] at hget
    obtain ⟨rfl, rfl⟩ := Prod.mk.inj (Except.ok.inj hget)
    exact ⟨hattempted.trans hlatch, hcontainer⟩

theorem finishCall_spec (h : finishCall linked l container call = .ok l') :
    ∃ reply, callStep linked (l.seeing container) call = .ok (reply, l'.seeing container) ∧
      l'.point = .outside ∧ l'.calls = l.calls ∧
      l'.answers = l.answers ++ [⟨call, reply, l'.lastError⟩] := by
  obtain ⟨⟨reply, s⟩, hcall, h⟩ := Exec.bind_eq_ok.mp h
  obtain rfl := Except.ok.inj h
  obtain ⟨hattempted, hcontainer⟩ := callStep_latched rfl hcall
  have hs : s = ⟨s.lastError, true, container, s.containers⟩ := by
    rw [← hattempted, ← show s.defaultContainer = container from hcontainer]
  refine ⟨reply, hcall.trans ?_, rfl, rfl, rfl⟩
  rw [hs]
  rfl

/-- What a step does to a thread that is past the first use: it goes on in its call, or the
call is answered as the library answers it. -/
structure Answers (linked : Option Bytes) (container : Option ERFContainer) (l l' : Thread)
    (call : Call) (reply : Reply) : Prop where
  pending : l.pending = call :: l'.pending
  step : callStep linked (l.seeing container) call = .ok (reply, l'.seeing container)
  answers : l'.answers = l.answers ++ [⟨call, reply, l'.lastError⟩]

structure GoesOn (l l' : Thread) : Prop where
  pending : l'.pending = l.pending
  seeing : ∀ container, l'.seeing container = l.seeing container
  answers : l'.answers = l.answers

theorem finishCall_answers (l₀ : Thread) (h : finishCall linked l container call = .ok l')
    (hpending : l₀.pending = call :: l.calls) (hseeing : l₀.seeing container = l.seeing container)
    (hanswers : l₀.answers = l.answers) :
    l'.Settled ∧ ∃ reply, Answers linked container l₀ l' call reply := by
  obtain ⟨reply, hcall, hpoint, hcalls, hlast⟩ := finishCall_spec h
  have hrest : l'.pending = l.calls := by
    rw [Thread.pending, hpoint]
    exact hcalls
  refine ⟨by rw [Thread.Settled, hpoint]; trivial, reply, ?_, hseeing ▸ hcall, hanswers ▸ hlast⟩
  rw [hpending, hrest]

/-- After the first use no step writes to what the threads share. -/
theorem settled_step (hlatch : shared.attempted = true) (hl : l.Settled)
    (h : threadStep linked shared l = .ok (shared', l')) :
    shared' = shared ∧ l'.Settled ∧ (GoesOn l l' ∨
      ∃ call reply, Answers linked shared.defaultContainer l l' call reply) := by
  obtain ⟨lastError, containers, point, calls, answers⟩ := l
  unfold threadStep at h
  cases point with
  | outside =>
    cases calls with
    | nil =>
      obtain ⟨rfl, rfl⟩ := Prod.mk.inj (Except.ok.inj h)
      exact ⟨rfl, hl, .inl ⟨rfl, fun _ => rfl, rfl⟩⟩
    | cons call calls =>
      simp only [hlatch] at h
      split_ifs at h with hdefault
      · obtain ⟨rfl, rfl⟩ := Prod.mk.inj (Except.ok.inj h)
        exact ⟨rfl, trivial, .inl ⟨rfl, fun _ => rfl, rfl⟩⟩
      · obtain ⟨own, hown, h⟩ := Exec.bind_eq_ok.mp h
        obtain ⟨rfl, rfl⟩ := Prod.mk.inj (Except.ok.inj h)
        obtain ⟨hsettled, hanswered⟩ := finishCall_answers
          ⟨lastError, containers, .outside, call :: calls, answers⟩ hown rfl rfl rfl
        exact ⟨rfl, hsettled, .inr ⟨call, hanswered⟩⟩
  | latching call => exact hl.elim
  | opening call => exact hl.elim
  | reading call =>
    obtain ⟨own, hown, h⟩ := Exec.bind_eq_ok.mp h
    obtain ⟨rfl, rfl⟩ := Prod.mk.inj (Except.ok.inj h)
    obtain ⟨hsettled, hanswered⟩ := finishCall_answers
      ⟨lastError, containers, .reading call, calls, answers⟩ hown rfl rfl rfl
    exact ⟨rfl, hsettled, .inr ⟨call, hanswered⟩⟩

/-- The thread has got from `l` to `l'` by calls, which the library answers from `s` on. -/
def AnsweredFrom (linked : Option Bytes) (s : LibraryState) (l l' : Thread) : Prop :=
  ∃ made ts, l.pending = made ++ l'.pending ∧ turns (callStep linked) s made = .ok ts ∧
    l'.answers = l.answers ++ ts.map answerOf

theorem answeredFrom_refl (linked : Option Bytes) (s : LibraryState) (l : Thread) :
    AnsweredFrom linked s l l :=
  ⟨[], [], rfl, rfl, (List.append_nil _).symm⟩

theorem Answers.answeredFrom {l₁ : Thread} (h : Answers linked container l l₁ call reply)
    (hrest : AnsweredFrom linked (l₁.seeing container) l₁ l') :
    AnsweredFrom linked (l.seeing container) l l' := by
  obtain ⟨made, ts, hpending, hturns, hanswers⟩ := hrest
  refine ⟨call :: made, ⟨l.seeing container, call, reply, l₁.seeing container⟩ :: ts, ?_, ?_, ?_⟩
  · rw [h.pending, hpending, List.cons_append]
  · exact Exec.bind_eq_ok.mpr ⟨_, h.step, Exec.bind_eq_ok.mpr ⟨ts, hturns, rfl⟩⟩
  · rw [hanswers, h.answers, List.append_assoc]
    rfl

theorem GoesOn.answeredFrom {l₁ : Thread} (h : GoesOn l l₁)
    (hrest : AnsweredFrom linked (l₁.seeing container) l₁ l') :
    AnsweredFrom linked (l.seeing container) l l' := by
  obtain ⟨made, ts, hpending, hturns, hanswers⟩ := hrest
  exact ⟨made, ts, h.pending ▸ hpending, h.seeing container ▸ hturns, h.answers ▸ hanswers⟩

/-- Own steps after the first use answer the calls of the thread in order, as the library does
where no other thread is around. -/
theorem settled_steps (hlatch : shared.attempted = true)
    (h : Relation.ReflTransGen (Threads.OwnStep (threadStep linked) shared Thread.Settled) l l') :
    AnsweredFrom linked (l.seeing shared.defaultContainer) l l' := by
  induction h using Relation.ReflTransGen.head_induction_on with
  | refl => exact answeredFrom_refl _ _ _
  | head hstep _ ih =>
    obtain ⟨hsettled, hstep⟩ := hstep
    obtain ⟨-, -, hgoes | ⟨call, reply, hanswers⟩⟩ := settled_step hlatch hsettled hstep
    · exact hgoes.answeredFrom ih
    · exact hanswers.answeredFrom ih

/-- A call on the default container goes on from there where that was fetched. -/
theorem callStep_of_fetched {s₁ : LibraryState} (hdefault : call.usesDefault = true)
    (hget : getDefaultContainer linked s = .ok (s₁.defaultContainer, s₁))
    (hlatch : s₁.attempted = true) : callStep linked s call = callStep linked s₁ call := by
  have hagain : getDefaultContainer linked s₁ = .ok (s₁.defaultContainer, s₁) :=
    getDefaultContainer_later hlatch
  cases call with
  | find name => simp only [callStep, erfFind, onDefault, hget, hagain]
  | findId id => simp only [callStep, erfFindId, onDefault, hget, hagain]
  | resourceData name size => simp only [callStep, erfResourceData, onDefault, hget, hagain]
  | openMemory base size => cases hdefault
  | close container => cases hdefault
  | findIn container name => cases hdefault
  | findIdIn container id => cases hdefault
  | resourceAt container index => cases hdefault
  | resourceDataIn container name size => cases hdefault

theorem AnsweredFrom.of_first {s₁ : LibraryState} {rest : List Call}
    (hfirst : callStep linked s call = callStep linked s₁ call)
    (hpending : l.pending = call :: rest)
    (h : AnsweredFrom linked s₁ l l') : AnsweredFrom linked s l l' := by
  obtain ⟨made, ts, hmade, hturns, hanswers⟩ := h
  cases made with
  | nil =>
    obtain rfl := Except.ok.inj hturns
    exact ⟨[], [], hmade, rfl, hanswers⟩
  | cons call' made =>
    obtain ⟨rfl, -⟩ := List.cons.inj (hpending.symm.trans hmade)
    obtain ⟨⟨reply, s'⟩, hstep, hturns⟩ := Exec.bind_eq_ok.mp hturns
    obtain ⟨ts', hrest, hturns⟩ := Exec.bind_eq_ok.mp hturns
    obtain rfl := Except.ok.inj hturns
    refine ⟨call :: made, ⟨s, call, reply, s'⟩ :: ts', hmade, ?_, hanswers⟩
    exact Exec.bind_eq_ok.mpr ⟨_, hfirst.trans hstep, Exec.bind_eq_ok.mpr ⟨ts', hrest, rfl⟩⟩

end Step

/-- The state before the first use, as far as this thread has got. -/
def LibraryState.unlatch (s : LibraryState) : LibraryState :=
  { s with attempted := false, defaultContainer := none }

section Unlatch

variable {linked : Option Bytes} {s s' : LibraryState} {call : Call} {reply : Reply}

theorem onContainer_unlatch {α : Type} {container : Option ℕ}
    (lookup : Option ERFContainer → Exec (α × ERFError)) (view : α → Reply)
    (h : (s.theContainer container >>= fun c => lookup c >>= fun found =>
      pure (view found.1, s.setLastError found.2)) = .ok (reply, s')) :
    (s.unlatch.theContainer container >>= fun c => lookup c >>= fun found =>
      pure (view found.1, s.unlatch.setLastError found.2)) = .ok (reply, s'.unlatch) := by
  obtain ⟨c, hc, h⟩ := Exec.bind_eq_ok.mp h
  obtain ⟨found, hfind, h⟩ := Exec.bind_eq_ok.mp h
  obtain ⟨rfl, rfl⟩ := Prod.mk.inj (Except.ok.inj h)
  exact Exec.bind_eq_ok.mpr ⟨c, hc, Exec.bind_eq_ok.mpr ⟨found, hfind, rfl⟩⟩

theorem callStep_unlatch (hexplicit : call.usesDefault = false)
    (h : callStep linked s call = .ok (reply, s')) :
    callStep linked s.unlatch call = .ok (reply, s'.unlatch) := by
  cases call with
  | openMemory base size =>
    obtain ⟨r, hopen, h⟩ := Exec.bind_eq_ok.mp h
    refine Exec.bind_eq_ok.mpr ⟨r, hopen, ?_⟩
    cases r with
    | error e =>
      obtain ⟨rfl, rfl⟩ := Prod.mk.inj (Except.ok.inj h)
      rfl
    | ok c =>
      obtain ⟨rfl, rfl⟩ := Prod.mk.inj (Except.ok.inj h)
      rfl
  | close container =>
    cases container with
    | none =>
      obtain ⟨rfl, rfl⟩ := Prod.mk.inj (Except.ok.inj h)
      rfl
    | some handle =>
      obtain ⟨c, hc, h⟩ := Exec.bind_eq_ok.mp h
      obtain ⟨rfl, rfl⟩ := Prod.mk.inj (Except.ok.inj h)
      exact Exec.bind_eq_ok.mpr ⟨c, hc, rfl⟩
  | findIn container name =>
    exact onContainer_unlatch (erfFindIn · name) (fun found => ⟨found.map .resource, none⟩) h
  | findIdIn container id =>
    exact onContainer_unlatch (erfFindIdIn · id) (fun found => ⟨found.map .resource, none⟩) h
  | resourceAt container index =>
    obtain ⟨c, hc, h⟩ := Exec.bind_eq_ok.mp h
    obtain ⟨rfl, rfl⟩ := Prod.mk.inj (Except.ok.inj h)
    exact Exec.bind_eq_ok.mpr ⟨c, hc, rfl⟩
  | resourceDataIn container name size =>
    exact onContainer_unlatch (erfResourceDataIn · name size)
      (fun found => ⟨found.1.map .data, found.2⟩) h
  | find name => cases hexplicit
  | findId id => cases hexplicit
  | resourceData name size => cases hexplicit

variable {c : ERFContainer}

/-- An object that opens makes the first use invisible but for the last error, which the
lookup sets next. -/
theorem onDefault_unlatch {α : Type} (hopens : openedDefault linked = some c)
    (hlatch : s.attempted = true) (hsome : s.defaultContainer = some c) (absent : α)
    (lookup : ERFContainer → Exec (α × ERFError)) :
    onDefault linked s.unlatch absent lookup = onDefault linked s absent lookup := by
  have hlater : getDefaultContainer linked s = .ok (some c, s) := by
    rw [getDefaultContainer_later hlatch, hsome]
  have hfirst : getDefaultContainer linked s.unlatch = .ok (some c, s.setLastError .ok) := by
    obtain ⟨lastError, attempted, defaultContainer, containers⟩ := s
    obtain rfl : attempted = true := hlatch
    obtain rfl : defaultContainer = some c := hsome
    cases linked with
    | none => cases hopens
    | some start =>
      simp only [getDefaultContainer, LibraryState.unlatch, Bool.false_eq_true, ↓reduceIte,
        erfOpenMemory_of_openedDefault hopens]
      rfl
  rw [onDefault, hfirst, onDefault, hlater]
  rfl

theorem callStep_unlatch_default (hopens : openedDefault linked = some c)
    (hlatch : s.attempted = true) (hsome : s.defaultContainer = some c)
    (hdefault : call.usesDefault = true) :
    callStep linked s.unlatch call = callStep linked s call := by
  cases call with
  | find name => simp only [callStep, erfFind, onDefault_unlatch hopens hlatch hsome]
  | findId id => simp only [callStep, erfFindId, onDefault_unlatch hopens hlatch hsome]
  | resourceData name size =>
    simp only [callStep, erfResourceData, onDefault_unlatch hopens hlatch hsome]
  | openMemory base size => cases hdefault
  | close container => cases hdefault
  | findIn container name => cases hdefault
  | findIdIn container id => cases hdefault
  | resourceAt container index => cases hdefault
  | resourceDataIn container name size => cases hdefault

/-- Whether the first use was another thread's or is its own, a thread gets the same answers. -/
theorem turns_unlatch (hopens : openedDefault linked = some c) {made : List Call}
    {ts : List (Turn LibraryState Call Reply)} (hlatch : s.attempted = true)
    (hsome : s.defaultContainer = some c) (h : turns (callStep linked) s made = .ok ts) :
    ∃ ts', turns (callStep linked) s.unlatch made = .ok ts' ∧
      ts'.map answerOf = ts.map answerOf := by
  induction made generalizing s ts with
  | nil =>
    obtain rfl := Except.ok.inj h
    exact ⟨[], rfl, rfl⟩
  | cons call made ih =>
    obtain ⟨⟨reply, s'⟩, hstep, h⟩ := Exec.bind_eq_ok.mp h
    obtain ⟨rest, hrest, h⟩ := Exec.bind_eq_ok.mp h
    obtain rfl := Except.ok.inj h
    cases hdefault : call.usesDefault with
    | false =>
      obtain ⟨hlatch', hsome'⟩ := callStep_latched hlatch hstep
      obtain ⟨rest', hrest', hsame⟩ := ih hlatch' (hsome'.trans hsome) hrest
      refine ⟨⟨s.unlatch, call, reply, s'.unlatch⟩ :: rest', ?_, ?_⟩
      · exact Exec.bind_eq_ok.mpr ⟨_, callStep_unlatch hdefault hstep,
          Exec.bind_eq_ok.mpr ⟨rest', hrest', rfl⟩⟩
      · rw [List.map_cons, List.map_cons, hsame]
        rfl
    | true =>
      have hstep' := (callStep_unlatch_default hopens hlatch hsome hdefault).trans hstep
      exact ⟨⟨s.unlatch, call, reply, s'⟩ :: rest,
        Exec.bind_eq_ok.mpr ⟨_, hstep', Exec.bind_eq_ok.mpr ⟨rest, hrest, rfl⟩⟩, rfl⟩

end Unlatch

section Interleavings

variable {θ : Type} [DecidableEq θ] {linked : Option Bytes} {g g' : Threads θ Shared Thread}
  {schedule : List θ}

/-- From there on where the latch is set and no thread is at a first use, the shared state stays
as it is and every thread gets the answers it would get alone. -/
theorem run_after_first_use (hlatch : g.shared.attempted = true)
    (hsettled : ∀ t, (g.thread t).Settled) (h : g.run (threadStep linked) schedule = .ok g') :
    g'.shared = g.shared ∧ ∀ t, AnsweredFrom linked
      ((g.thread t).seeing g.shared.defaultContainer) (g.thread t) (g'.thread t) := by
  obtain ⟨hshared, hthreads⟩ := Threads.run_settled Thread.Settled h (fun l s' l' hl hstep => by
    obtain ⟨hs', hl', -⟩ := settled_step hlatch hl hstep
    exact ⟨hs', hl'⟩) hsettled
  exact ⟨hshared, fun t => settled_steps hlatch (hthreads t).2⟩

variable {calls : θ → List Call} {first : θ} {call : Call} {rest : List Call}

/-- The thread is about to open the linked object. -/
def Thread.opening (call : Call) (rest : List Call) : Thread :=
  { Thread.start rest with point := .opening call }

theorem run_latching (linked : Option Bytes) (hcalls : calls first = call :: rest)
    (hdefault : call.usesDefault = true) :
    (startThreads calls).run (threadStep linked) [first, first] = .ok ⟨⟨true, none⟩,
      Function.update (startThreads calls).thread first (.opening call rest)⟩ := by
  refine Threads.run_cons_eq_ok.mpr ⟨⟨false, none⟩,
    { Thread.start rest with point := .latching call }, ?_, ?_⟩
  · simp [threadStep, startThreads, Thread.start, hcalls, hdefault]
  · refine Threads.run_cons_eq_ok.mpr ⟨⟨true, none⟩, .opening call rest, ?_, ?_⟩
    · simp [threadStep, Thread.opening]
    · rw [Function.update_idem]
      rfl

/-- The step in which the linked object is opened ends the first use. Unless there is nothing to
open, the thread goes on from there to read the pointer. -/
theorem opening_step {shared : Shared} {l : Thread}
    (h : threadStep linked ⟨true, none⟩ (.opening call rest) = .ok (shared, l)) :
    shared = ⟨true, openedDefault linked⟩ ∧ l.Settled ∧
      ∃ l₀ : Thread, l₀.pending = call :: rest ∧ l₀.answers = [] ∧
        getDefaultContainer linked .initial =
          .ok (openedDefault linked, l₀.seeing (openedDefault linked)) ∧
        ∀ l', AnsweredFrom linked (l.seeing (openedDefault linked)) l l' →
          AnsweredFrom linked (l₀.seeing (openedDefault linked)) l₀ l' := by
  unfold threadStep at h
  cases linked with
  | none =>
    obtain ⟨own, hown, h⟩ := Exec.bind_eq_ok.mp h
    obtain ⟨rfl, rfl⟩ := Prod.mk.inj (Except.ok.inj h)
    let l₀ : Thread := { Thread.opening call rest with lastError := .noDefaultContainer }
    obtain ⟨hsettled, reply, hanswers⟩ := finishCall_answers l₀ hown rfl rfl rfl
    exact ⟨rfl, hsettled, l₀, rfl, rfl, rfl, fun l' => hanswers.answeredFrom⟩
  | some start =>
    obtain ⟨r, hopen, h⟩ := Exec.bind_eq_ok.mp h
    have hopened := openedDefault_eq hopen
    cases r with
    | error e =>
      obtain ⟨rfl, rfl⟩ := Prod.mk.inj (Except.ok.inj h)
      refine ⟨by rw [hopened]; rfl, trivial, _, rfl, rfl, ?_, fun l' hrest => hrest⟩
      simp only [hopened, getDefaultContainer, LibraryState.initial, Bool.false_eq_true, ↓reduceIte,
        hopen]
      rfl
    | ok c =>
      obtain ⟨rfl, rfl⟩ := Prod.mk.inj (Except.ok.inj h)
      refine ⟨by rw [hopened]; rfl, trivial, _, rfl, rfl, ?_, fun l' hrest => hrest⟩
      simp only [hopened, getDefaultContainer, LibraryState.initial, Bool.false_eq_true, ↓reduceIte,
        hopen]
      rfl

/-- **The first use by itself is enough**, where an object is linked that opens. Let one thread
get through the steps of the first use before any other thread does anything. Then, however
the threads go on, the default container stays as it is, and each of them gets for its calls
what the library gives in a program without other threads. -/
theorem threads_after_first_use (linked : Option Bytes) (hopens : openedDefault linked ≠ none)
    (calls : θ → List Call) (first : θ) (call : Call) (rest : List Call)
    (hcalls : calls first = call :: rest) (hdefault : call.usesDefault = true)
    (schedule : List θ) (g : Threads θ Shared Thread)
    (h : (startThreads calls).run (threadStep linked)
      ([first, first, first] ++ schedule) = .ok g) :
    g.shared = ⟨true, openedDefault linked⟩ ∧ ∀ t, ∃ made ts,
      calls t = made ++ (g.thread t).pending ∧
      turns (callStep linked) .initial made = .ok ts ∧
      (g.thread t).answers = ts.map answerOf := by
  obtain ⟨g₁, hfirst, h⟩ := Threads.run_append_eq_ok.mp h
  change Threads.run _ _ ([first, first] ++ [first]) = _ at hfirst
  obtain ⟨g₂, hlatching, hopening⟩ := Threads.run_append_eq_ok.mp hfirst
  obtain rfl := Except.ok.inj ((run_latching linked hcalls hdefault).symm.trans hlatching)
  obtain ⟨shared, own, hstep, hopening⟩ := Threads.run_cons_eq_ok.mp hopening
  obtain rfl := Except.ok.inj hopening
  simp only [Function.update_self] at hstep
  obtain ⟨rfl, hsettled, l₀, hpending, hnone, hget, hfrom⟩ := opening_step hstep
  rw [Function.update_idem] at h
  have hself := Function.update_self first own (startThreads calls).thread
  have hother : ∀ t, t ≠ first → Function.update (startThreads calls).thread first own t =
      .start (calls t) := fun t ht => Function.update_of_ne ht _ _
  have hall : ∀ t, (Function.update (startThreads calls).thread first own t).Settled := by
    intro t
    by_cases ht : t = first
    · rw [ht, hself]
      exact hsettled
    · rw [hother t ht]
      trivial
  obtain ⟨hshared, hanswers⟩ := run_after_first_use rfl hall h
  refine ⟨hshared, fun t => ?_⟩
  have ht := hanswers t
  dsimp only at ht
  by_cases hfirst : t = first
  · rw [hfirst, hself] at ht
    have hinitial : callStep linked .initial call =
        callStep linked (l₀.seeing (openedDefault linked)) call :=
      callStep_of_fetched hdefault hget rfl
    obtain ⟨made, ts, hmade, hturns, hlast⟩ := (hfrom _ ht).of_first hinitial hpending
    rw [hfirst]
    exact ⟨made, ts, hcalls.trans (hpending.symm.trans hmade), hturns, by rw [hlast, hnone]; rfl⟩
  · rw [hother t hfirst] at ht
    obtain ⟨made, ts, hmade, hturns, hlast⟩ := ht
    obtain ⟨c, hc⟩ := Option.ne_none_iff_exists'.mp hopens
    obtain ⟨ts', hturns', hsame⟩ := turns_unlatch hc rfl hc hturns
    exact ⟨made, ts', hmade, hturns', hlast.trans hsame.symm⟩

/-- Two threads, of which one looks for a name twice and the other for an identifier. -/
def twoThreads : Bool → List Call
  | true => [.find (some (.literal "a")), .find none]
  | false => [.findId 7]

theorem threads_after_first_use_two : ∃ g made ts,
    (startThreads twoThreads).run (threadStep (some tinyWithMetadata))
      ([true, true, true] ++ [false, true, false, true]) = .ok g ∧
    g.shared = ⟨true, openedDefault (some tinyWithMetadata)⟩ ∧
    twoThreads false = made ++ (g.thread false).pending ∧
    turns (callStep (some tinyWithMetadata)) .initial made = .ok ts ∧
    (g.thread false).answers = ts.map answerOf := by
  have hrun : ((startThreads twoThreads).run (threadStep (some tinyWithMetadata))
      ([true, true, true] ++ [false, true, false, true])).toOption.isSome = true := by
    decide +kernel
  have hopens : openedDefault (some tinyWithMetadata) ≠ none := by decide +kernel
  cases hg : (startThreads twoThreads).run (threadStep (some tinyWithMetadata))
      ([true, true, true] ++ [false, true, false, true]) with
  | error e =>
    rw [hg] at hrun
    cases hrun
  | ok g =>
    obtain ⟨hshared, hanswers⟩ :=
      threads_after_first_use _ hopens twoThreads true _ _ rfl rfl _ g hg
    obtain ⟨made, ts, hmade, hturns, hlast⟩ := hanswers false
    exact ⟨g, made, ts, rfl, hshared, hmade, hturns, hlast⟩

/-- What a call on the default container gives in some state with the latch set. -/
def GivenFor (linked : Option Bytes) (container : Option ERFContainer) (a : Answer) : Prop :=
  ∃ s s', s.attempted = true ∧ s.defaultContainer = container ∧
    callStep linked s a.call = .ok (a.reply, s') ∧ s'.lastError = a.lastError

/-- Every answer on the default container is one for the container opened, or for none. -/
def SoundAnswers (linked : Option Bytes) (answers : List Answer) : Prop :=
  ∀ a ∈ answers, a.call.usesDefault = true →
    GivenFor linked none a ∨ GivenFor linked (openedDefault linked) a

/-- The invariant of all interleavings: the shared pointer, too, is right or null. -/
structure Sound (linked : Option Bytes) (shared : Shared) (l : Thread) : Prop where
  container : shared.defaultContainer = none ∨ shared.defaultContainer = openedDefault linked
  answers : SoundAnswers linked l.answers

theorem finishCall_sound {l l' : Thread} {container : Option ERFContainer}
    (h : finishCall linked l container call = .ok l')
    (hcontainer : container = none ∨ container = openedDefault linked)
    (hl : SoundAnswers linked l.answers) :
    SoundAnswers linked l'.answers := by
  obtain ⟨reply, hcall, -, -, hanswers⟩ := finishCall_spec h
  intro a ha hdefault
  rw [hanswers, List.mem_append, List.mem_singleton] at ha
  obtain ha | rfl := ha
  · exact hl a ha hdefault
  · have hgiven : GivenFor linked container ⟨call, reply, l'.lastError⟩ :=
      ⟨l.seeing container, l'.seeing container, rfl, rfl, hcall, rfl⟩
    obtain rfl | rfl := hcontainer
    · exact .inl hgiven
    · exact .inr hgiven

theorem sound_step {shared shared' : Shared} {l l' : Thread} (h : Sound linked shared l)
    (hstep : threadStep linked shared l = .ok (shared', l')) : Sound linked shared' l' := by
  obtain ⟨hcontainer, hl⟩ := h
  obtain ⟨lastError, containers, point, calls, answers⟩ := l
  unfold threadStep at hstep
  cases point with
  | outside =>
    cases calls with
    | nil =>
      obtain ⟨rfl, rfl⟩ := Prod.mk.inj (Except.ok.inj hstep)
      exact ⟨hcontainer, hl⟩
    | cons call calls =>
      simp only at hstep
      split_ifs at hstep
      · obtain ⟨rfl, rfl⟩ := Prod.mk.inj (Except.ok.inj hstep)
        exact ⟨hcontainer, hl⟩
      · obtain ⟨rfl, rfl⟩ := Prod.mk.inj (Except.ok.inj hstep)
        exact ⟨hcontainer, hl⟩
      · obtain ⟨own, hown, hstep⟩ := Exec.bind_eq_ok.mp hstep
        obtain ⟨rfl, rfl⟩ := Prod.mk.inj (Except.ok.inj hstep)
        exact ⟨hcontainer, finishCall_sound hown hcontainer hl⟩
  | latching call =>
    obtain ⟨rfl, rfl⟩ := Prod.mk.inj (Except.ok.inj hstep)
    exact ⟨hcontainer, hl⟩
  | opening call =>
    cases linked with
    | none =>
      obtain ⟨own, hown, hstep⟩ := Exec.bind_eq_ok.mp hstep
      obtain ⟨rfl, rfl⟩ := Prod.mk.inj (Except.ok.inj hstep)
      exact ⟨hcontainer, finishCall_sound hown (.inl rfl) hl⟩
    | some start =>
      obtain ⟨r, hopen, hstep⟩ := Exec.bind_eq_ok.mp hstep
      cases r with
      | error e =>
        obtain ⟨rfl, rfl⟩ := Prod.mk.inj (Except.ok.inj hstep)
        exact ⟨.inl rfl, hl⟩
      | ok c =>
        obtain ⟨rfl, rfl⟩ := Prod.mk.inj (Except.ok.inj hstep)
        exact ⟨.inr (openedDefault_eq hopen).symm, hl⟩
  | reading call =>
    obtain ⟨own, hown, hstep⟩ := Exec.bind_eq_ok.mp hstep
    obtain ⟨rfl, rfl⟩ := Prod.mk.inj (Except.ok.inj hstep)
    exact ⟨hcontainer, finishCall_sound hown hcontainer hl⟩

theorem finishCall_null (linked : Option Bytes) (l : Thread) (hdefault : call.usesDefault = true) :
    ∃ reply, reply.pointer = none ∧ finishCall linked l none call = .ok ⟨l.lastError,
      l.containers, .outside, l.calls, l.answers ++ [⟨call, reply, l.lastError⟩]⟩ := by
  have hget : getDefaultContainer linked (l.seeing none) = .ok (none, l.seeing none) := rfl
  cases call with
  | find name =>
    refine ⟨⟨none, none⟩, rfl, ?_⟩
    simp only [finishCall, callStep, erfFind, onDefault, hget, Exec.ok_bind]
    rfl
  | findId id =>
    refine ⟨⟨none, none⟩, rfl, ?_⟩
    simp only [finishCall, callStep, erfFindId, onDefault, hget, Exec.ok_bind]
    rfl
  | resourceData name size =>
    refine ⟨⟨none, storeSize size 0⟩, rfl, ?_⟩
    simp only [finishCall, callStep, erfResourceData, onDefault, hget, Exec.ok_bind]
    rfl
  | openMemory base size => cases hdefault
  | close container => cases hdefault
  | findIn container name => cases hdefault
  | findIdIn container id => cases hdefault
  | resourceAt container index => cases hdefault
  | resourceDataIn container name size => cases hdefault

/-- **A race for the first use only ever loses an answer.** In no interleaving does a call on
the default container give anything but what it gives for the linked container, or null. But
any two threads can be scheduled such that the second, arriving between latch and pointer,
gets null with the code of success, whatever is linked. -/
theorem racing_first_use (linked : Option Bytes) (calls : θ → List Call) :
    (∀ schedule g, (startThreads calls).run (threadStep linked) schedule = .ok g →
      ∀ t, SoundAnswers linked (g.thread t).answers) ∧
    ∀ first second call rest call' rest', first ≠ second → calls first = call :: rest →
      calls second = call' :: rest' → call.usesDefault = true → call'.usesDefault = true →
      ∃ g reply, (startThreads calls).run (threadStep linked) [first, first, second, second] =
          .ok g ∧
        (g.thread second).answers = [⟨call', reply, .ok⟩] ∧ reply.pointer = none := by
  constructor
  · intro schedule g h t
    refine (Threads.run_invariant (Sound linked) ?_ ?_ ?_ h t).answers
    · intro s l s' l' hl hstep
      exact sound_step hl hstep
    · intro s l s' l' m hl hm hstep
      exact ⟨(sound_step hl hstep).container, hm.answers⟩
    · intro t
      exact ⟨.inl rfl, fun a ha => absurd ha List.not_mem_nil⟩
  · intro first second call rest call' rest' hne hcalls hcalls' hdefault hdefault'
    have hlatching := run_latching linked hcalls hdefault
    have hwaiting : Function.update (startThreads calls).thread first (.opening call rest) second =
        .start (call' :: rest') := by
      rw [Function.update_of_ne hne.symm, ← hcalls']
      rfl
    obtain ⟨reply, hnull, hfinish⟩ := finishCall_null linked
      { Thread.start rest' with point := .reading call' } hdefault'
    let reading := Function.update (Function.update (startThreads calls).thread first
      (.opening call rest)) second { Thread.start rest' with point := .reading call' }
    let answered : Thread := { Thread.start rest' with answers := [⟨call', reply, .ok⟩] }
    refine ⟨⟨⟨true, none⟩, Function.update reading second answered⟩, reply, ?_, ?_, hnull⟩
    · change Threads.run _ _ ([first, first] ++ [second, second]) = _
      refine Threads.run_append_eq_ok.mpr ⟨_, hlatching, Threads.run_cons_eq_ok.mpr
        ⟨⟨true, none⟩, { Thread.start rest' with point := .reading call' }, ?_, ?_⟩⟩
      · simp only [hwaiting, threadStep, Thread.start, hdefault', ↓reduceIte]
        rfl
      · refine Threads.run_cons_eq_ok.mpr ⟨⟨true, none⟩, answered, ?_, rfl⟩
        simp only [Function.update_self, threadStep, hfinish, Exec.ok_bind]
        rfl
    · simp only [Function.update_self, answered]

end Interleavings

end Elfr.Runtime
