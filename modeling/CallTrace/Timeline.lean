import CallTrace.Snapshot

/-! # Timelines

A timeline is the sequence of events that one run recorded. The position of an event is its identity.

* `Activation`: one call of a function, from its call to its return.
* `Event`: what happened, a message, the source line, and the activation it belongs to.
* `Timeline.rootResult`, `Timeline.output`, `Timeline.count`: what a viewer reads off first.
-/

namespace CallTrace
set_option autoImplicit false

/-- The number of an activation: activations are numbered from zero in the order of their calls. -/
abbrev FrameId := Nat

/-- One call of a function. `depth` is the number of calls that were active when it was made, `parent`
the latest of them. -/
structure Activation where
  id : FrameId
  name : String
  args : Bindings
  parent : Option FrameId
  depth : Nat
  locals : Bindings
  returned : Option Snapshot
  deriving Repr, Inhabited

namespace Activation

def isActive (a : Activation) : Bool := a.returned.isNone

def signature (a : Activation) : String :=
  a.name ++ "(" ++ ", ".intercalate (a.args.values.map Snapshot.text) ++ ")"

end Activation

/-- What happened. The stack depth is the number of active calls afterwards. -/
inductive Payload where
  | call (frame : Activation) (stackDepth : Nat)
  | ret (frame : Activation) (value : Snapshot) (stackDepth : Nat)
  | line
  | set (name : String) (value : Snapshot) (locals : Bindings)
  | log (text : String)
  deriving Repr, Inhabited

inductive EventKind where
  | call
  | ret
  | line
  | set
  | log
  deriving DecidableEq, Repr

def Payload.kind : Payload → EventKind
  | .call .. => .call
  | .ret .. => .ret
  | .line => .line
  | .set .. => .set
  | .log .. => .log

def EventKind.label : EventKind → String
  | .call => "CALL"
  | .ret => "RETURN"
  | .line => "LINE"
  | .set => "VAR"
  | .log => "LOG"

structure Event where
  payload : Payload
  message : String
  line : Option Nat
  frameId : Option FrameId
  deriving Repr, Inhabited

def padRight (width : Nat) (s : String) : String :=
  s ++ String.ofList (List.replicate (width - s.length) ' ')

namespace Event

def kind (e : Event) : EventKind := e.payload.kind

def frame? (e : Event) : Option Activation :=
  match e.payload with
  | .call frame _ => some frame
  | .ret frame _ _ => some frame
  | _ => none

def returned? (e : Event) : Option Snapshot :=
  match e.payload with
  | .ret _ value _ => some value
  | _ => none

def logged? (e : Event) : Option String :=
  match e.payload with
  | .log text => some text
  | _ => none

/-- Whether a call without active callers has returned. -/
def isRootReturn (e : Event) : Bool :=
  match e.payload with
  | .ret frame _ _ => frame.depth == 0
  | _ => false

def text (e : Event) : String :=
  let place := match e.line with
    | some line => "L" ++ padRight 4 (toString line)
    | none => padRight 5 ""
  padRight 6 e.kind.label ++ " " ++ place ++ " " ++ e.message

end Event

abbrev Timeline := Array Event

namespace Timeline

def count (t : Timeline) (kind : EventKind) : Nat := t.countP fun e => e.kind == kind

/-- The value of the last return of a call without active callers. -/
def rootResult (t : Timeline) : Option Snapshot :=
  (t.toList.reverse.find? Event.isRootReturn).bind Event.returned?

def output (t : Timeline) : List String := t.toList.filterMap Event.logged?

end Timeline

end CallTrace
