import CallTrace.CallTree
import CallTrace.CommandLine
import CallTrace.CommandLine.Display
import CallTrace.Config.File
import CallTrace.Document.Timeline
import CallTrace.Files
import CallTrace.Instrumented.Listing
import CallTrace.Run

/-! # What a command writes

`Invocation.report` is what a command writes and its exit code, given the files that it can read.

* `Failure`: why a command cannot be done, with the error below it.
* `Invocation.config`: the settings, from the file and then from the options.
* `SourceArgs.load`: the text of the program.
-/

namespace CallTrace
set_option autoImplicit false

/-- What is written to the two output streams, and the exit code. -/
structure Report where
  code : Nat
  out : String
  err : String
  deriving DecidableEq, Repr

/-- Why a command cannot be done, and the error that caused it. -/
structure Failure where
  message : String
  cause : Option String
  deriving DecidableEq, Repr

def Failure.text (f : Failure) : String :=
  "Error: " ++ f.message ++ "\n"
    ++ (match f.cause with
      | some cause => "\nCaused by:\n    " ++ cause ++ "\n"
      | none => "")

/-- The report of a command that failed after it had written something. -/
def Report.failed (out : String) (f : Failure) : Report := ⟨1, out, f.text⟩

def Report.usage : Report := ⟨2, "", "Usage: [OPTIONS] <COMMAND>\n"⟩

/-! ## Settings and sources -/

def Config.load (files : Files) (path : String) : Except Failure Config :=
  match files path with
  | .error e =>
    .error ⟨"Failed to read config file " ++ path ++ ": " ++ e.message, some e.message⟩
  | .ok text =>
    match Config.ofText? text with
    | some config => .ok config
    | none =>
      let cause := "invalid document or setting"
      .error ⟨"Failed to parse config file " ++ path ++ ": " ++ cause, some cause⟩

def Invocation.config (i : Invocation) (files : Files) : Except Failure Config := do
  let base ← match i.configFile with
    | some path => Config.load files path
    | none => .ok .default
  return { base with
    entryPoint := i.entryPoint.getD base.entryPoint
    maxCallDepth := i.maxCallDepth.getD base.maxCallDepth }

namespace SourceArgs

def findPreset (s : SourceArgs) : Except Failure (Option Preset) :=
  match s.preset with
  | none => .ok none
  | some id =>
    match Preset.find? id with
    | some p => .ok (some p)
    | none => .error ⟨"Unknown preset '" ++ id ++ "' (see `recurtrace presets`)", none⟩

/-- The text of a program. A file that is called as a preset is gets the calling section of the preset
in place of its own. -/
def load (s : SourceArgs) (files : Files) : Except Failure String := do
  let preset ← s.findPreset
  let source ← match s.file, preset with
    | some path, _ =>
      match files path with
      | .ok text => .ok text
      | .error e => .error ⟨"File '" ++ path ++ "' not found", some e.message⟩
    | none, some p => .ok p.code
    | none, none => .error ⟨"No input: pass a source file or --preset <ID>", none⟩
  match preset with
  | none => return source
  | some p =>
    match p.driver? (s.input.getD p.defaultInput) with
    | some driver => return withDriver source driver
    | none => return source

end SourceArgs

/-! ## Commands -/

namespace CommandLine

open Terminal (coloured bold)

def haltText : Halt → String
  | .failed e => e.message
  | .outOfFuel => "out of fuel"

def runReport (o : Outcome) (json tree : Bool) : Report :=
  let shown :=
    if json then o.timeline.document.pretty ++ "\n"
    else timelineText o.timeline ++ (if tree then "\n" ++ (callTree o.timeline).text else "")
  match o.halt with
  | some h => .failed shown ⟨"Runtime error: " ++ haltText h, none⟩
  | none =>
    let result := match o.timeline.rootResult with
      | some value => if json then "" else bold "Result:" ++ " " ++ value.text ++ "\n"
      | none => ""
    ⟨0, shown ++ result, ""⟩

def listingReport (p : Instrumented.Program) : Report :=
  let line (d : Instrumented.Degradation) : String :=
    coloured .yellow "unsupported" ++ " line " ++ toString d.pos.line ++ ": " ++ d.text ++ " ("
      ++ d.reason ++ ")\n"
  ⟨0, p.text, String.join (p.degradations.map line)⟩

def stateReport (o : Outcome) (step : Nat) (json : Bool) : Report :=
  let state := reconstruct o.timeline step
  let err := match o.halt with
    | some h => coloured .red "Runtime error:" ++ " " ++ haltText h ++ "\n"
    | none => ""
  ⟨0, if json then state.document.pretty ++ "\n" else stateText state o.timeline.size, err⟩

def commandReport (files : Files) (config : Config) : Command → Except Failure Report
  | .run source json tree => do
    return runReport (runSource (← source.load files) config) json tree
  | .translate source => do
    return listingReport (Instrumented.translate (← source.load files))
  | .replay source step json => do
    return stateReport (runSource (← source.load files) config) step json
  | .presets => return ⟨0, presetsText, ""⟩

end CommandLine

def Invocation.report (i : Invocation) (files : Files) : Report :=
  let result := do
    let config ← i.config files
    CommandLine.commandReport files config i.command
  match result with
  | .ok report => report
  | .error failure => .failed "" failure

def reportOf (args : List String) (files : Files) : Report :=
  match Invocation.ofArgs? args with
  | some i => i.report files
  | none => .usage

end CallTrace
