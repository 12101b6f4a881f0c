import CallTrace.Timeline

/-! # Recording

A recorder turns what a run reports into a timeline. Nothing here can fail: what needs an active call
is ignored when there is none.

* `Recorder`: the events so far, the active calls, and every activation by its number.
* `call`, `ret`, `set`, `log`, `step`: what a run reports. Each adds at most one event.
* `reset`: forgets everything before a new run.
-/

namespace CallTrace
set_option autoImplicit false

/-- A recording. `active` holds the numbers of the calls that have not returned, the latest first, and
`depth` says how many there are; `frames` holds every activation at the position that is its number. -/
structure Recorder where
  events : Timeline
  active : List FrameId
  frames : Array Activation
  depth : Nat
  depth_eq : depth = active.length

namespace Recorder

def empty : Recorder := ⟨#[], [], #[], 0, List.length_nil.symm⟩

instance : Inhabited Recorder := ⟨empty⟩

def activeStack (r : Recorder) : List FrameId := r.active.reverse

def frame? (r : Recorder) (id : FrameId) : Option Activation := r.frames[id]?

def push (r : Recorder) (payload : Payload) (message : String) (line : Option Nat)
    (frameId : Option FrameId) : Recorder :=
  { r with events := r.events.push ⟨payload, message, line, frameId⟩ }

@[simp] theorem active_push (r : Recorder) (payload : Payload) (message : String)
    (line : Option Nat) (frameId : Option FrameId) :
    (r.push payload message line frameId).active = r.active := rfl

@[simp] theorem frames_push (r : Recorder) (payload : Payload) (message : String)
    (line : Option Nat) (frameId : Option FrameId) :
    (r.push payload message line frameId).frames = r.frames := rfl

def newFrame (r : Recorder) (name : String) (args : List (String × Snapshot)) : Activation :=
  { id := r.frames.size
    name
    args := .ofList args
    parent := r.active.head?
    depth := r.depth
    locals := .empty
    returned := none }

def pushFrame (frame : Activation) : Recorder → Recorder
  | ⟨events, active, frames, n, h⟩ =>
    ⟨events, frame.id :: active, frames.push frame, n + 1, congrArg (· + 1) h⟩

def popFrame : Recorder → Recorder
  | ⟨events, _ :: rest, frames, n, h⟩ => ⟨events, rest, frames, n - 1, congrArg (· - 1) h⟩
  | ⟨events, [], frames, n, h⟩ => ⟨events, [], frames, n, h⟩

def setFrame (r : Recorder) (id : FrameId) (frame : Activation) : Recorder :=
  { r with frames := r.frames.setIfInBounds id frame }

def call (r : Recorder) (name : String) (args : List (String × Snapshot)) (line : Option Nat) :
    Recorder :=
  let frame := r.newFrame name args
  (r.pushFrame frame).push (.call frame (frame.depth + 1)) ("Called function " ++ name) line
    (some frame.id)

def ret (r : Recorder) (value : Snapshot) (line : Option Nat) : Recorder :=
  match r.active with
  | [] => r
  | id :: _ =>
    match r.frames[id]? with
    | none => r.popFrame
    | some frame =>
      let frame := { frame with returned := some value }
      let depth := r.depth - 1
      (r.popFrame.setFrame id frame).push (.ret frame value depth) ("Returning from " ++ frame.name)
        line (some id)

/-- Records that a variable of the latest active call has a new value. -/
def set (r : Recorder) (name : String) (value : Snapshot) (line : Option Nat) : Recorder :=
  match r.active with
  | [] => r
  | id :: _ =>
    match r.frames[id]? with
    | none => r
    | some frame =>
      let frame := { frame with locals := frame.locals.insert name value }
      (r.setFrame id frame).push (.set name value frame.locals) ("Updated " ++ name) line (some id)

def log (r : Recorder) (text : String) (line : Option Nat) : Recorder :=
  r.push (.log text) ("Console: " ++ text) line r.active.head?

/-- Records that a statement of the latest active call is about to run. -/
def step (r : Recorder) (message : String) (line : Option Nat) : Recorder :=
  match r.active with
  | [] => r
  | id :: _ => r.push .line message line (some id)

def reset (_ : Recorder) : Recorder := .empty

/-- A call makes its activation the latest active one. -/
theorem active_call (r : Recorder) (name : String) (args : List (String × Snapshot))
    (line : Option Nat) : (r.call name args line).active = r.frames.size :: r.active := rfl

theorem ret_of_active_nil {r : Recorder} (h : r.active = []) (value : Snapshot)
    (line : Option Nat) : r.ret value line = r := by
  unfold ret
  split
  · rfl
  · next he => exact absurd (he.symm.trans h) (List.cons_ne_nil _ _)

end Recorder

end CallTrace
