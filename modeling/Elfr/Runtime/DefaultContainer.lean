import Elfr.Runtime.Opening
import Elfr.Library.Runs

/-!
# The library as a state machine

`erf_lookup.c` and the state it shares with `erf_reader.c`: the last error of
the thread, the latch of the default container, and the containers opened so
far. A container is named by its number among those opened; using one after it
was closed stops the run.
-/
namespace Elfr.Runtime

open Library Common Format

structure LibraryState where
  lastError : ERFError
  attempted : Bool
  defaultContainer : Option ERFContainer
  containers : List (Option ERFContainer)

namespace LibraryState

def initial : LibraryState := ⟨.ok, false, none, []⟩

def setLastError (s : LibraryState) (e : ERFError) : LibraryState := { s with lastError := e }

@[simp] theorem setLastError_lastError (s : LibraryState) (e : ERFError) :
    (s.setLastError e).lastError = e := rfl

@[simp] theorem setLastError_attempted (s : LibraryState) (e : ERFError) :
    (s.setLastError e).attempted = s.attempted := rfl

@[simp] theorem setLastError_defaultContainer (s : LibraryState) (e : ERFError) :
    (s.setLastError e).defaultContainer = s.defaultContainer := rfl

/-- What a pointer to a container points to; null stays null. -/
def theContainer (s : LibraryState) : Option ℕ → Exec (Option ERFContainer)
  | none => pure none
  | some handle => do
    let opened ← Exec.index s.containers handle
    let c ← Exec.deref opened
    pure (some c)

end LibraryState

def storeSize (size : Option UInt64) (v : UInt64) : Option UInt64 := size.map fun _ => v

/-- The data pointer, what is left in `*size`, and the error code set. -/
def erfResourceDataIn (container : Option ERFContainer) (name : Option CString)
    (size : Option UInt64) : Exec ((Option ℕ × Option UInt64) × ERFError) := do
  let (found, e) ← erfFindIn container name
  match found with
  | none => pure ((none, storeSize size 0), e)
  | some i => do
    let c ← Exec.deref container
    let r ← Exec.index c.resources i
    pure ((some r.data, storeSize size r.size), e)

/-- `linked` is the resource object with the default symbol names, if one is linked into the
program. -/
def getDefaultContainer (linked : Option Bytes) (s : LibraryState) :
    Exec (Option ERFContainer × LibraryState) :=
  if s.attempted then pure (s.defaultContainer, s)
  else
    let s := { s with attempted := true }
    match linked with
    | none => pure (none, s.setLastError .noDefaultContainer)
    | some start => do
      match ← erfOpenMemory (some start) start.length with
      | .error e => pure (none, { s.setLastError e with defaultContainer := none })
      | .ok c => pure (some c, { s.setLastError .ok with defaultContainer := some c })

/-- The three calls on the default container: what they give without one, and how they look
something up in it. -/
def onDefault (linked : Option Bytes) (s : LibraryState) (absent : α)
    (lookup : ERFContainer → Exec (α × ERFError)) : Exec (α × LibraryState) := do
  let (container, s) ← getDefaultContainer linked s
  match container with
  | none => pure (absent, s)
  | some c => do
    let (result, e) ← lookup c
    pure (result, s.setLastError e)

def erfFind (linked : Option Bytes) (s : LibraryState) (name : Option CString) :
    Exec (Option ℕ × LibraryState) :=
  onDefault linked s none fun c => erfFindIn (some c) name

def erfFindId (linked : Option Bytes) (s : LibraryState) (id : UInt32) :
    Exec (Option ℕ × LibraryState) :=
  onDefault linked s none fun c => erfFindIdIn (some c) id

def erfResourceData (linked : Option Bytes) (s : LibraryState) (name : Option CString)
    (size : Option UInt64) : Exec ((Option ℕ × Option UInt64) × LibraryState) :=
  onDefault linked s (none, storeSize size 0) fun c => erfResourceDataIn (some c) name size

inductive Call
  | openMemory (base : Option Bytes) (size : ℕ)
  | close (container : Option ℕ)
  | findIn (container : Option ℕ) (name : Option CString)
  | findIdIn (container : Option ℕ) (id : UInt32)
  | resourceAt (container : Option ℕ) (index : UInt32)
  | resourceDataIn (container : Option ℕ) (name : Option CString) (size : Option UInt64)
  | find (name : Option CString)
  | findId (id : UInt32)
  | resourceData (name : Option CString) (size : Option UInt64)

inductive Pointer
  | container (handle : ℕ)
  | resource (index : ℕ)
  | data (offset : ℕ)
  deriving DecidableEq, Repr

/-- The pointer a call returns, null for `erf_close`, and what is left in `*size`. -/
structure Reply where
  pointer : Option Pointer
  size : Option UInt64
  deriving DecidableEq, Repr

def callStep (linked : Option Bytes) (s : LibraryState) : Call → Exec (Reply × LibraryState)
  | .openMemory base size => do
    match ← erfOpenMemory base size with
    | .error e => pure (⟨none, none⟩, s.setLastError e)
    | .ok c => pure (⟨some (.container s.containers.length), none⟩,
        { s.setLastError .ok with containers := s.containers ++ [some c] })
  | .close container =>
    match container with
    | none => pure (⟨none, none⟩, s)
    | some handle => do
      let _ ← s.theContainer (some handle)
      pure (⟨none, none⟩, { s with containers := s.containers.set handle none })
  | .findIn container name => do
    let c ← s.theContainer container
    let (found, e) ← erfFindIn c name
    pure (⟨found.map .resource, none⟩, s.setLastError e)
  | .findIdIn container id => do
    let c ← s.theContainer container
    let (found, e) ← erfFindIdIn c id
    pure (⟨found.map .resource, none⟩, s.setLastError e)
  | .resourceAt container index => do
    let c ← s.theContainer container
    let (found, e) := erfResourceAt c index s.lastError
    pure (⟨found.map .resource, none⟩, s.setLastError e)
  | .resourceDataIn container name size => do
    let c ← s.theContainer container
    let ((data, size), e) ← erfResourceDataIn c name size
    pure (⟨data.map .data, size⟩, s.setLastError e)
  | .find name => do
    let (found, s) ← erfFind linked s name
    pure (⟨found.map .resource, none⟩, s)
  | .findId id => do
    let (found, s) ← erfFindId linked s id
    pure (⟨found.map .resource, none⟩, s)
  | .resourceData name size => do
    let ((data, size), s) ← erfResourceData linked s name size
    pure (⟨data.map .data, size⟩, s)

def Call.usesDefault : Call → Bool
  | .find _ | .findId _ | .resourceData _ _ => true
  | _ => false

def Call.returnsPointer : Call → Bool
  | .close _ => false
  | _ => true

end Elfr.Runtime
