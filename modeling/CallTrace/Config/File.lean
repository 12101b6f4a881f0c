import CallTrace.Config
import CallTrace.Toml.Read

/-! # Settings in a file

`Config.ofText?` reads settings from a TOML document. A setting that the document does not give keeps
its default; keys that are no settings are ignored; a setting of the wrong kind, or a negative one, makes
the document invalid.
-/

namespace CallTrace.Config
set_option autoImplicit false

def text? (entries : Toml.Entries) (key : String) (default : String) : Option String :=
  match entries.lookup key with
  | none => some default
  | some (.str s) => some s
  | some _ => none

def nat? (entries : Toml.Entries) (key : String) (default : Nat) : Option Nat :=
  match entries.lookup key with
  | none => some default
  | some (.int n) => if 0 ≤ n then some n.toNat else none
  | some _ => none

def ofEntries? (entries : Toml.Entries) : Option Config := do
  return {
    entryPoint := ← text? entries "entry_point" default.entryPoint
    maxCallDepth := ← nat? entries "max_call_depth" default.maxCallDepth
    maxEvents := ← nat? entries "max_events" default.maxEvents
    stackSize := ← nat? entries "stack_size" default.stackSize
    presentationDelayMs := ← nat? entries "presentation_delay_ms" default.presentationDelayMs }

def ofText? (text : String) : Option Config := (Toml.read? text).bind ofEntries?

end CallTrace.Config
