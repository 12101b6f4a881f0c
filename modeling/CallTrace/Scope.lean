import CallTrace.Assoc
import CallTrace.Value

/-! # Variables

* `Frame`: the variables of one call in the order in which they became visible. Entering a block opens a
  scope; leaving it takes back what was declared in it. A scope notes which names are new in it and
  which values it hides.
* `CallStack`: the variables at top level and the frames of the active calls. A name is looked up in the
  innermost frame, then at top level, and never in the frame of a caller.
-/

namespace CallTrace
set_option autoImplicit false

/-- What has to be taken back when a block ends: the names that it added, and the values that it hid,
the earliest first. -/
structure Scope where
  declared : List String
  shadowed : Assoc Value
  deriving Inhabited

/-- The variables of one call, with its open scopes, the innermost first. -/
structure Frame where
  name : String
  vars : Assoc Value
  scopes : List Scope
  deriving Inhabited

namespace Frame

def new (name : String) : Frame := ⟨name, [], []⟩

def lookup (f : Frame) (name : String) : Option Value := f.vars.lookup name

def pushScope (f : Frame) : Frame := { f with scopes := ⟨[], []⟩ :: f.scopes }

def popScope (f : Frame) : Frame :=
  match f.scopes with
  | [] => f
  | s :: rest =>
    let kept := s.declared.foldl (fun vars name => vars.remove name) f.vars
    { f with
      vars := s.shadowed.foldl (fun vars (name, value) => vars.put name value) kept
      scopes := rest }

/-- Declares a variable in the innermost scope. A name that is new there is added; one that is visible
is overwritten, and its value comes back when the scope ends unless the scope itself added the name. -/
def declare (f : Frame) (name : String) (value : Value) : Frame :=
  let scopes := match f.scopes with
    | [] => []
    | s :: rest =>
      match f.lookup name with
      | none => { s with declared := s.declared ++ [name] } :: rest
      | some old =>
        if name ∈ s.declared then s :: rest
        else { s with shadowed := s.shadowed ++ [(name, old)] } :: rest
  { f with vars := f.vars.put name value, scopes }

def assign (f : Frame) (name : String) (value : Value) : Frame :=
  { f with vars := f.vars.put name value }

end Frame

/-- The variables at top level and those of the active calls, the innermost first; `depth` is the number
of active calls. -/
structure CallStack where
  globals : Frame
  frames : List Frame
  depth : Nat
  depth_eq : depth = frames.length

namespace CallStack

def empty : CallStack := ⟨.new "<global>", [], 0, List.length_nil.symm⟩

instance : Inhabited CallStack := ⟨empty⟩

def isEmpty (s : CallStack) : Bool := s.frames.isEmpty

def current (s : CallStack) : Frame :=
  match s.frames with
  | f :: _ => f
  | [] => s.globals

def updateCurrent (f : Frame → Frame) : CallStack → CallStack
  | ⟨globals, top :: rest, n, h⟩ => ⟨globals, f top :: rest, n, h⟩
  | ⟨globals, [], n, h⟩ => ⟨f globals, [], n, h⟩

def pushFrame (name : String) : CallStack → CallStack
  | ⟨globals, frames, n, h⟩ => ⟨globals, .new name :: frames, n + 1, congrArg (· + 1) h⟩

def popFrame : CallStack → CallStack
  | ⟨globals, _ :: rest, n, h⟩ => ⟨globals, rest, n - 1, congrArg (· - 1) h⟩
  | ⟨globals, [], n, h⟩ => ⟨globals, [], n, h⟩

/-- Whether a name is a variable of the innermost call; at top level none is. -/
def isLocal (s : CallStack) (name : String) : Bool :=
  match s.frames with
  | f :: _ => (f.lookup name).isSome
  | [] => false

def lookup (s : CallStack) (name : String) : Option Value :=
  match s.frames with
  | f :: _ => (f.lookup name).or (s.globals.lookup name)
  | [] => s.globals.lookup name

/-- Overwrites a variable that can be looked up; `none` if there is none of that name. -/
def assign? (s : CallStack) (name : String) (value : Value) : Option CallStack :=
  if s.isLocal name then some (s.updateCurrent (·.assign name value))
  else if (s.globals.lookup name).isSome then
    some { s with globals := s.globals.assign name value }
  else none

def declare (s : CallStack) (name : String) (value : Value) : CallStack :=
  s.updateCurrent (·.declare name value)

def pushScope (s : CallStack) : CallStack := s.updateCurrent Frame.pushScope

def popScope (s : CallStack) : CallStack := s.updateCurrent Frame.popScope

@[simp] theorem popFrame_pushFrame (s : CallStack) (name : String) :
    (s.pushFrame name).popFrame = s := rfl

@[simp] theorem current_pushFrame (s : CallStack) (name : String) :
    (s.pushFrame name).current = .new name := rfl

theorem lookup_of_local {s : CallStack} {name : String} (h : s.isLocal name) :
    s.lookup name = s.current.lookup name := by
  unfold isLocal at h
  unfold lookup current
  split at h
  · exact Option.or_of_isSome h
  · exact absurd h Bool.false_ne_true

end CallStack

end CallTrace
