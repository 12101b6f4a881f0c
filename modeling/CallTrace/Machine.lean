import CallTrace.Arithmetic
import CallTrace.Config
import CallTrace.Instrumented
import CallTrace.Recorder
import CallTrace.Scope

/-! # The state of a run

* `Machine`: the heap, the variables, the recording, the current line, and whether the entry function
  has been called.
* `Exec`: a computation that changes the state and may stop. A computation that stops keeps the state
  that it had reached, so that what was recorded is not lost.
* `Flow`: how a statement ended.
-/

namespace CallTrace
set_option autoImplicit false

/-- What a run executes, and with which settings. -/
structure Env where
  program : Instrumented.Program
  config : Config

structure Machine where
  heap : Heap
  stack : CallStack
  recorder : Recorder
  line : Nat
  entered : Bool
  deriving Inhabited

def Machine.initial : Machine := ⟨.empty, .empty, .empty, 1, false⟩

/-- Why a computation stops. Running out of fuel says nothing about the program. -/
inductive Halt where
  | failed (e : RunError)
  | outOfFuel
  deriving DecidableEq, Repr

abbrev Exec := EStateM Halt Machine

inductive Flow where
  | normal
  | breakLoop
  | continueLoop
  | ret (value : Value)

namespace Exec

/-- Stops for want of fuel. -/
def outOfFuel {α : Type} : Exec α := throw .outOfFuel

def fail {α : Type} (cause : Cause) : Exec α := fun m => .error (.failed ⟨cause, m.line⟩) m

def ofExcept {α : Type} : Except Cause α → Exec α
  | .ok a => pure a
  | .error cause => fail cause

def setLine (line : Nat) : Exec Unit := modify fun m => { m with line }

def modifyStack (f : CallStack → CallStack) : Exec Unit :=
  modify fun m => { m with stack := f m.stack }

def modifyHeap (f : Heap → Heap) : Exec Unit := modify fun m => { m with heap := f m.heap }

def record (f : Recorder → Recorder) : Exec Unit :=
  modify fun m => { m with recorder := f m.recorder }

def checkEvents (env : Env) : Exec Unit := fun m =>
  if env.config.maxEvents < m.recorder.events.size then
    .error (.failed ⟨.eventLimit env.config.maxEvents, m.line⟩) m
  else .ok () m

def onHeap {α : Type} (f : StateM Heap α) : Exec α := fun m =>
  let (a, h) := f m.heap
  .ok a { m with heap := h }

def copy (v : Value) : Exec Value := onHeap (Heap.copy v)

def newList (items : Array Value) : Exec Value := onHeap (modifyGet fun h => h.alloc items)

def lookup (name : String) : Exec Value := do
  match (← get).stack.lookup name with
  | some v => return v
  | none => fail (.undefinedVariable name)

/-- Records the value of a variable of the innermost call. Variables at top level are not recorded. -/
def recordSet (name : String) : Exec Unit := modify fun m =>
  if m.stack.isLocal name then
    match m.stack.lookup name with
    | some v => { m with recorder := m.recorder.set name (m.heap.snapshot v) (some m.line) }
    | none => m
  else m

def recordLog (text : String) : Exec Unit :=
  modify fun m => { m with recorder := m.recorder.log text (some m.line) }

/-- Records the value of the variable that a written place belongs to, if it belongs to one. -/
def recordRoot (root : Option String) : Exec Unit :=
  match root with
  | some name => recordSet name
  | none => pure ()

end Exec

end CallTrace
