import CallTrace.Timeline

/-! # Replay

The state of a run at a position of its timeline is always computed from the events up to that
position.

* `FrameView`: an activation as it is at the position. It is `returning` when the event at the position
  is its return, and `returned` when its return comes before.
* `ReplayState`: everything that a viewer draws.
* `ReplayState.after`: the state after one more event.
* `reconstruct`: the state at a position. A position past the end means the last event.
-/

namespace CallTrace
set_option autoImplicit false

inductive FrameStatus where
  | active
  | returning
  | returned
  deriving DecidableEq, Repr

/-- An activation at a position. -/
structure FrameView where
  id : FrameId
  name : String
  args : Bindings
  parent : Option FrameId
  depth : Nat
  status : FrameStatus
  locals : Bindings
  returned : Option Snapshot
  deriving Repr

def FrameView.ofCall (a : Activation) : FrameView :=
  { id := a.id
    name := a.name
    args := a.args
    parent := a.parent
    depth := a.depth
    status := .active
    locals := .empty
    returned := none }

/-- The state at a position. `frames` holds the calls so far in order, `active` the numbers of those
on the stack with the latest first; a call that is just returning is still on it. -/
structure ReplayState where
  index : Nat
  event : Option Event
  frames : Array FrameView
  active : List FrameId
  output : Array String
  currentLine : Option Nat

namespace ReplayState

def empty : ReplayState := ⟨0, none, #[], [], #[], none⟩

def updateFrame (s : ReplayState) (id : FrameId) (f : FrameView → FrameView) : ReplayState :=
  { s with frames := s.frames.map fun v => if v.id = id then f v else v }

def knows (s : ReplayState) (id : FrameId) : Bool := s.frames.any fun v => v.id == id

def afterReturn (s : ReplayState) (last : Bool) (id : FrameId) (value : Snapshot) : ReplayState :=
  if s.knows id then
    if last then s.updateFrame id fun v => { v with returned := some value, status := .returning }
    else
      { s.updateFrame id fun v => { v with returned := some value, status := .returned } with
        active := s.active.erase id }
  else s

/-- The state after what happened in one more event; `last` says that it is the event at the
position. -/
def afterPayload (s : ReplayState) (last : Bool) (frameId : Option FrameId) :
    Payload → ReplayState
  | .call frame _ =>
    { s with frames := s.frames.push (.ofCall frame), active := frame.id :: s.active }
  | .ret frame value _ => s.afterReturn last frame.id value
  | .set _ _ locals =>
    match frameId with
    | some id => s.updateFrame id fun v => { v with locals }
    | none => s
  | .log text => { s with output := s.output.push text }
  | .line => s

def after (last : Bool) (s : ReplayState) (e : Event) : ReplayState :=
  { s with currentLine := e.line.or s.currentLine }.afterPayload last e.frameId e.payload

def frame? (s : ReplayState) (id : FrameId) : Option FrameView :=
  s.frames.find? fun v => v.id == id

def activeStack (s : ReplayState) : List FrameId := s.active.reverse

def stack (s : ReplayState) : List FrameView := s.activeStack.filterMap s.frame?

def activeDepth (s : ReplayState) : Nat := s.stack.countP fun v => v.status == .active

def returnedValues (s : ReplayState) : List (FrameId × Snapshot) :=
  s.frames.toList.filterMap fun v => v.returned.map fun value => (v.id, value)

def isEmpty (s : ReplayState) : Bool := s.event.isNone

end ReplayState

def reconstruct (t : Timeline) (index : Nat) : ReplayState :=
  let i := min index (t.size - 1)
  match t[i]? with
  | none => .empty
  | some e =>
    let before := (t.toList.take i).foldl (ReplayState.after false) .empty
    { before.after true e with index := i, event := some e }

end CallTrace
