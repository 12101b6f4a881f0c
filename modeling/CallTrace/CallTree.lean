import CallTrace.Timeline

/-! # The tree of calls

* `CallNode`: a call with the calls made by it.
* `CallTree`: every call of a timeline in order; `roots` are the calls whose caller is not among them.
* `callTree`: the tree of a timeline, or of any stretch of one.
* `CallTree.text`: the tree depth first, each call on a line of its own, indented by its depth.
-/

namespace CallTrace
set_option autoImplicit false

/-- A call and the calls that it made. -/
structure CallNode where
  id : FrameId
  name : String
  args : Bindings
  depth : Nat
  parent : Option FrameId
  children : Array FrameId
  returned : Option Snapshot
  deriving Repr, Inhabited

structure CallTree where
  nodes : Array CallNode
  roots : Array FrameId
  deriving Repr, Inhabited

namespace CallTree

def empty : CallTree := ⟨#[], #[]⟩

def node? (t : CallTree) (id : FrameId) : Option CallNode := t.nodes.find? fun n => n.id == id

def updateNode (t : CallTree) (id : FrameId) (f : CallNode → CallNode) : CallTree :=
  { t with nodes := t.nodes.map fun n => if n.id = id then f n else n }

/-- Adds a call below the call that made it, or as a root. -/
def addCall (t : CallTree) (a : Activation) : CallTree :=
  let node : CallNode :=
    { id := a.id
      name := a.name
      args := a.args
      depth := a.depth
      parent := a.parent
      children := #[]
      returned := none }
  let caller := a.parent.bind t.node?
  let t := { t with nodes := t.nodes.push node }
  match caller with
  | some c => t.updateNode c.id fun n => { n with children := n.children.push a.id }
  | none => { t with roots := t.roots.push a.id }

def after (t : CallTree) (e : Event) : CallTree :=
  match e.payload with
  | .call frame _ => t.addCall frame
  | .ret frame value _ => t.updateNode frame.id fun n => { n with returned := some value }
  | _ => t

def size (t : CallTree) : Nat := t.nodes.size

def isEmpty (t : CallTree) : Bool := t.nodes.isEmpty

def height (t : CallTree) : Nat := t.nodes.foldl (fun h n => max h (n.depth + 1)) 0

def lineText (n : CallNode) : String :=
  String.ofList (List.replicate (n.depth * 2) ' ') ++ n.name ++ "("
    ++ ", ".intercalate (n.args.values.map Snapshot.text) ++ ")"
    ++ (match n.returned with
      | some value => " => " ++ value.text
      | none => "")
    ++ "\n"

/-- The calls below some calls and these themselves, depth first. The fuel bounds the height. -/
def walk (t : CallTree) : Nat → List FrameId → List CallNode
  | 0, _ => []
  | fuel + 1, ids =>
    (ids.filterMap t.node?).flatMap fun n => n :: t.walk fuel n.children.toList

def preorder (t : CallTree) : List CallNode := t.walk (t.size + 1) t.roots.toList

def text (t : CallTree) : String := String.join (t.preorder.map lineText)

end CallTree

def callTree (t : Timeline) : CallTree := t.foldl CallTree.after .empty

end CallTrace
