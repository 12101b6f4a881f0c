import CallTrace.Preset.Catalog
import CallTrace.Replay
import CallTrace.Terminal

/-! # What a terminal shows

* `timelineText`: every event on a line of its own, indented by the calls around it.
* `stateText`: one state of a replay, with the calls on the stack and the output so far.
* `presetsText`: the presets in their groups.
-/

namespace CallTrace.CommandLine
set_option autoImplicit false

open Terminal (coloured bold)

def padLeft (width : Nat) (s : String) : String :=
  String.ofList (List.replicate (width - s.length) ' ') ++ s

def indent (depth : Nat) : String := String.ofList (List.replicate (2 * depth) ' ')

/-! ## Timelines -/

def kindColour : EventKind → Terminal.Colour
  | .call => .green
  | .ret => .magenta
  | .line => .darkGrey
  | .set => .cyan
  | .log => .yellow

def valueText : Payload → String
  | .ret _ value _ => " " ++ bold ("=> " ++ value.text)
  | .set _ value _ => " " ++ bold ("= " ++ value.text)
  | _ => ""

/-- The line of an event at a position, inside `depth` calls. -/
def eventLine (index depth : Nat) (e : Event) : String :=
  padLeft 5 (toString index) ++ " " ++ indent depth ++ coloured (kindColour e.kind) e.text
    ++ valueText e.payload ++ "\n"

/-- The lines of events from a position on, inside `depth` calls. A call stands outside itself, and so
does its return. -/
def eventLines : Nat → Nat → List Event → List String
  | _, _, [] => []
  | index, depth, e :: rest =>
    match e.payload with
    | .call .. => eventLine index depth e :: eventLines (index + 1) (depth + 1) rest
    | .ret .. => eventLine index (depth - 1) e :: eventLines (index + 1) (depth - 1) rest
    | _ => eventLine index depth e :: eventLines (index + 1) depth rest

def timelineText (t : Timeline) : String := String.join (eventLines 0 0 t.toList)

/-! ## States -/

def frameText (v : FrameView) : String :=
  let marker := match v.status with
    | .returning => coloured .magenta "<-"
    | _ => "  "
  let args := v.args.entries.map fun (name, value) => name ++ "=" ++ value.text
  marker ++ " " ++ indent v.depth ++ coloured .green v.name ++ "(" ++ ", ".intercalate args ++ ")\n"
    ++ (if v.locals.isEmpty then ""
      else "   " ++ indent v.depth ++ "locals " ++ v.locals.text ++ "\n")
    ++ (match v.returned with
      | some value => "   " ++ indent v.depth ++ "returns " ++ value.text ++ "\n"
      | none => "")

/-- The text of a state of a timeline with `total` events. -/
def stateText (s : ReplayState) (total : Nat) : String :=
  match s.event with
  | none => coloured .darkGrey "Empty timeline" ++ "\n"
  | some e =>
    bold "Step" ++ " " ++ toString (s.index + 1) ++ "/" ++ toString total ++ "  " ++ e.message ++ "\n"
      ++ (match s.currentLine with
        | some line => bold "Line" ++ " " ++ toString line ++ "\n"
        | none => "")
      ++ bold "Call stack (oldest first):" ++ "\n"
      ++ String.join (s.stack.map frameText)
      ++ (if s.output.isEmpty then ""
        else bold "Output:" ++ "\n"
          ++ String.join (s.output.toList.map fun line => "  " ++ line ++ "\n"))

/-! ## Presets -/

def presetLine (p : Preset) : String :=
  "  " ++ coloured .green (padRight 16 p.id) ++ " " ++ padRight 30 p.name ++ " input: "
    ++ (if p.defaultInput.isEmpty then "-" else p.defaultInput) ++ "\n"

def categoryText (c : Category) : String :=
  bold c.name ++ " " ++ coloured .darkGrey ("(" ++ c.id ++ ")") ++ "\n"
    ++ "  " ++ c.description ++ "\n" ++ String.join (c.presets.map presetLine) ++ "\n"

def presetsText : String := String.join (catalog.map categoryText)

end CallTrace.CommandLine
