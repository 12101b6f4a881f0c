import CallTrace.Text.Blank
import CallTrace.Text.Split

/-! # Presets

A preset is a sample program whose last section, after a marker, calls its root function on an input.
`Preset.program` puts a section made from another input in its place.

* `InputShape`: what the text of an input means.
* `Preset.driver?`: the calling section for an input; presets that take no input have none.
* `withDriver`: a source with everything from the marker on replaced.
-/

namespace CallTrace
set_option autoImplicit false

/-- What the text of an input means. -/
inductive InputShape where
  /-- One integer expression. -/
  | number
  /-- The items of a list. -/
  | array
  /-- A text, with or without double quotes around it. -/
  | str
  /-- One integer expression for each parameter, between commas. -/
  | multiNumber
  /-- The preset takes no input. -/
  | none
  deriving DecidableEq, Repr

def InputShape.name : InputShape → String
  | .number => "number"
  | .array => "array"
  | .str => "str"
  | .multiNumber => "multi-number"
  | .none => "none"

/-- A sample program. Its root function is called with the inputs, which are declared under the names
`params`, and then with the expressions `extraArgs`; the lines `setup` stand between the declarations
and the call. -/
structure Preset where
  id : String
  name : String
  shape : InputShape
  defaultInput : String
  params : List String
  extraArgs : List String
  setup : List String
  rootFunction : String
  code : String
  deriving DecidableEq, Repr

structure Category where
  id : String
  name : String
  description : String
  presets : List Preset
  deriving DecidableEq, Repr

/-! ## Driver sections -/

def driverMarker : String := "// Driver"

/-- What stands before the first `marker` and after it, if there is one. -/
def splitAtMarker (marker : List Char) : List Char → Option (List Char × List Char)
  | [] => if marker.isEmpty then some ([], []) else none
  | c :: cs =>
    if marker.isPrefixOf (c :: cs) then some ([], (c :: cs).drop marker.length)
    else (splitAtMarker marker cs).map fun (before, after) => (c :: before, after)

/-- A source with everything from the marker on replaced by a marked driver section; a source without
the marker gets the section added. -/
def withDriver (source driver : String) : String :=
  match splitAtMarker driverMarker.toList source.toList with
  | some (head, _) => String.ofList head ++ "\n" ++ driverMarker ++ "\n" ++ driver
  | none => source ++ "\n\n" ++ driverMarker ++ "\n" ++ driver

/-- A text without the double quotes around it, if it has both. -/
def unquoted (s : String) : String :=
  match s.toList with
  | '"' :: cs =>
    match cs.reverse with
    | '"' :: ds => String.ofList ds.reverse
    | _ => s
  | _ => s

/-- Declarations of integers; a part that is missing or empty stands for `0`. -/
def intDeclarations : List String → List String → List String
  | [], _ => []
  | name :: names, parts =>
    let part := Text.trim (parts.headD "")
    ("int " ++ name ++ " = " ++ (if part = "" then "0" else part) ++ ";")
      :: intDeclarations names (parts.drop 1)

namespace Preset

def inputLines (p : Preset) (input : String) : List String :=
  match p.shape with
  | .none => []
  | .number => ["int " ++ p.params.headD "n" ++ " = " ++ input ++ ";"]
  | .array =>
    let name := p.params.headD "arr"
    ("vector<int> " ++ name ++ " = \x7b" ++ input ++ "\x7d;")
      :: (if p.params[1]? = some "n" then ["int n = " ++ name ++ ".size();"] else [])
  | .str => ["string " ++ p.params.headD "s" ++ " = \"" ++ unquoted input ++ "\";"]
  | .multiNumber => intDeclarations p.params ((Text.split ',' input.toList).map String.ofList)

def callLine (p : Preset) : String :=
  p.rootFunction ++ "(" ++ ", ".intercalate (p.params ++ p.extraArgs) ++ ");"

def driver? (p : Preset) (input : String) : Option String :=
  match p.shape with
  | .none => none
  | _ => some ("\n".intercalate (p.inputLines (Text.trim input) ++ p.setup ++ [p.callLine]))

def program (p : Preset) (input : String) : String :=
  match p.driver? input with
  | some driver => withDriver p.code driver
  | none => p.code

def defaultProgram (p : Preset) : String := p.program p.defaultInput

end Preset

end CallTrace
