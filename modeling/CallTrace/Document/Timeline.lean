import CallTrace.Document
import CallTrace.Replay

/-! # Timelines as documents

The document of every kind of value that a timeline or a state of a replay consists of. Names with
values are an object in their own order; a return value that does not exist yet has no field.
-/

namespace CallTrace
set_option autoImplicit false

mutual

def Snapshot.document : Snapshot → Document
  | .undefined => .null
  | .bool b => .bool b
  | .int n => .int n
  | .float x => .float x
  | .str s => .str s
  | .list items => .list (Snapshot.documents items)

def Snapshot.documents : List Snapshot → List Document
  | [] => []
  | v :: rest => v.document :: Snapshot.documents rest

end

def Bindings.document (b : Bindings) : Document :=
  .object (b.entries.map fun (name, value) => (name, value.document))

def Activation.document (a : Activation) : Document :=
  .object ([
    ("id", .nat a.id),
    ("name", .str a.name),
    ("args", a.args.document),
    ("parent", .orNull .nat a.parent),
    ("depth", .nat a.depth),
    ("locals", a.locals.document)]
    ++ Document.optionalField "return_value" Snapshot.document a.returned
    ++ [("state", .str (if a.isActive then "active" else "returned"))])

def Payload.fields : Payload → List (String × Document)
  | .call frame depth =>
    [("type", .str "call"), ("frame", frame.document), ("stack_depth", .nat depth)]
  | .ret frame value depth =>
    [("type", .str "return"), ("frame", frame.document), ("value", value.document),
      ("stack_depth", .nat depth)]
  | .line => [("type", .str "line")]
  | .set name value locals =>
    [("type", .str "variable_set"), ("name", .str name), ("value", value.document),
      ("locals", locals.document)]
  | .log text => [("type", .str "log"), ("text", .str text)]

def Event.document (e : Event) : Document :=
  .object (e.payload.fields ++ [
    ("message", .str e.message),
    ("line", .orNull .nat e.line),
    ("frame_id", .orNull .nat e.frameId)])

def Timeline.document (t : Timeline) : Document := .list (t.toList.map Event.document)

def FrameStatus.name : FrameStatus → String
  | .active => "active"
  | .returning => "returning"
  | .returned => "returned"

def FrameView.document (v : FrameView) : Document :=
  .object ([
    ("id", .nat v.id),
    ("name", .str v.name),
    ("args", v.args.document),
    ("parent", .orNull .nat v.parent),
    ("depth", .nat v.depth),
    ("status", .str v.status.name),
    ("locals", v.locals.document)]
    ++ Document.optionalField "return_value" Snapshot.document v.returned)

def ReplayState.document (s : ReplayState) : Document :=
  .object [
    ("index", .nat s.index),
    ("event", .orNull Event.document s.event),
    ("frames", .list (s.frames.toList.map FrameView.document)),
    ("active_stack", .list (s.activeStack.map .nat)),
    ("output", .list (s.output.toList.map .str)),
    ("current_line", .orNull .nat s.currentLine)]

end CallTrace
