import CallTrace.Text.Digit

/-! # Command lines

`Invocation.ofArgs?` reads the arguments of the program: options for every command, the name of a
command, and the arguments of that command. Options for every command may also stand after its name, and
those after it win.

* A long option stands with its value in one argument, after `=`, or in the next one; so does a short
  one, where `=` may be left out. Short options without value can share an argument.
* An argument that starts with `-` and has more characters is never the value of the one before it.
* After `--` nothing is an option.
* No option stands twice at the same level.
-/

namespace CallTrace
set_option autoImplicit false

/-! ## What can be asked for -/

/-- Where a program text comes from: a file, a preset, or a file that is called as a preset is. -/
structure SourceArgs where
  file : Option String
  preset : Option String
  input : Option String
  deriving DecidableEq, Repr

inductive Command where
  | run (source : SourceArgs) (json tree : Bool)
  | translate (source : SourceArgs)
  | replay (source : SourceArgs) (step : Nat) (json : Bool)
  | presets
  deriving DecidableEq, Repr

/-- A command with the options that hold for every command. -/
structure Invocation where
  command : Command
  configFile : Option String
  entryPoint : Option String
  maxCallDepth : Option Nat
  deriving DecidableEq, Repr

namespace CommandLine

/-! ## Options -/

inductive Flag where
  | verbose
  | config
  | entry
  | maxDepth
  | preset
  | input
  | step
  | json
  | tree
  deriving DecidableEq, Repr

namespace Flag

def long : Flag → String
  | .verbose => "verbose"
  | .config => "config"
  | .entry => "entry"
  | .maxDepth => "max-depth"
  | .preset => "preset"
  | .input => "input"
  | .step => "step"
  | .json => "json"
  | .tree => "tree"

def short? : Flag → Option Char
  | .verbose => some 'v'
  | .config => some 'c'
  | .preset => some 'p'
  | .input => some 'i'
  | .step => some 's'
  | _ => none

def hasValue : Flag → Bool
  | .verbose | .json | .tree => false
  | _ => true

def everywhere : List Flag := [.verbose, .config, .entry, .maxDepth]

def ofSource : List Flag := [.preset, .input]

end Flag

/-- A number that an option can have: digits after an optional plus sign, below `2^64`. -/
def readNumber (s : String) : Option Nat :=
  let digits := match s.toList with
    | '+' :: cs => cs
    | cs => cs
  if digits.isEmpty || digits.any fun c => !Text.isDigit c then none
  else
    let n := Text.numeral digits
    if n < 18446744073709551616 then some n else none

def isValid (f : Flag) (value : String) : Bool :=
  match f with
  | .config => !value.isEmpty
  | .maxDepth | .step => (readNumber value).isSome
  | _ => true

/-! ## Arguments -/

/-- The arguments of one level. An option without value has an empty one. -/
structure Level where
  options : List (Flag × String)
  positional : List String
  deriving DecidableEq, Repr

namespace Level

def empty : Level := ⟨[], []⟩

/-- Adds an option, which must not stand there already. -/
def add (l : Level) (f : Flag) (value : String) : Option Level :=
  if (l.options.lookup f).isSome || !isValid f value then none
  else some { l with options := l.options ++ [(f, value)] }

def get? (l : Level) (f : Flag) : Option String := l.options.lookup f

def has (l : Level) (f : Flag) : Bool := (l.get? f).isSome

end Level

/-- Whether an argument can be the value of the option before it. -/
def isValue (arg : String) : Bool := !arg.startsWith "-" || arg == "-"

/-- The characters before the first `=`, and those after it if there is one. -/
def splitEquals : List Char → List Char × Option (List Char)
  | [] => ([], none)
  | c :: cs =>
    if c = '=' then ([], some cs)
    else
      let (name, value) := splitEquals cs
      (c :: name, value)

/-- What an argument with options still lacks. -/
inductive Pending where
  | nothing
  | value (f : Flag)

def longOption (flags : List Flag) (l : Level) (cs : List Char) : Option (Level × Pending) := do
  let (name, value) := splitEquals cs
  let f ← flags.find? fun f => f.long == String.ofList name
  match f.hasValue, value with
  | true, some v => return (← l.add f (String.ofList v), .nothing)
  | true, none => return (l, .value f)
  | false, some _ => none
  | false, none => return (← l.add f "", .nothing)

/-- Short options in one argument, without the dash. -/
def shortOptions (flags : List Flag) (l : Level) : List Char → Option (Level × Pending)
  | [] => some (l, .nothing)
  | c :: cs => do
    let f ← flags.find? fun f => f.short? == some c
    if f.hasValue then
      match cs with
      | [] => return (l, .value f)
      | '=' :: v => return (← l.add f (String.ofList v), .nothing)
      | v => return (← l.add f (String.ofList v), .nothing)
    else shortOptions flags (← l.add f "") cs

/-- Reads the arguments of a level. With `stop` the first argument that is no option ends it, and is
given with those after it. -/
def readLevel (flags : List Flag) (stop : Bool) : Level → Pending → List String →
    Option (Level × List String)
  | l, .nothing, [] => some (l, [])
  | _, .value _, [] => none
  | l, .value f, arg :: rest => do
    if isValue arg then readLevel flags stop (← l.add f arg) .nothing rest else none
  | l, .nothing, arg :: rest =>
    match arg.toList with
    | ['-', '-'] => if stop then none else some ({ l with positional := l.positional ++ rest }, [])
    | '-' :: '-' :: cs => do
      let (l, pending) ← longOption flags l cs
      readLevel flags stop l pending rest
    | '-' :: c :: cs => do
      let (l, pending) ← shortOptions flags l (c :: cs)
      readLevel flags stop l pending rest
    | _ =>
      if stop then some (l, arg :: rest)
      else readLevel flags stop { l with positional := l.positional ++ [arg] } .nothing rest

def commandLevel (flags : List Flag) (args : List String) : Option Level :=
  (readLevel (Flag.everywhere ++ flags) false .empty .nothing args).map (·.1)

/-- Where a program text comes from. An input needs a preset, and a file needs a name. -/
def sourceArgs (l : Level) : Option SourceArgs :=
  if l.has .input && !l.has .preset then none
  else match l.positional with
    | [] => some ⟨none, l.get? .preset, l.get? .input⟩
    | [file] => if file.isEmpty then none else some ⟨some file, l.get? .preset, l.get? .input⟩
    | _ => none

def command (name : String) (args : List String) : Option (Command × Level) :=
  match name with
  | "run" => do
    let l ← commandLevel (Flag.ofSource ++ [.json, .tree]) args
    return (.run (← sourceArgs l) (l.has .json) (l.has .tree), l)
  | "translate" => do
    let l ← commandLevel Flag.ofSource args
    return (.translate (← sourceArgs l), l)
  | "replay" => do
    let l ← commandLevel (Flag.ofSource ++ [.step, .json]) args
    return (.replay (← sourceArgs l) (← readNumber (← l.get? .step)) (l.has .json), l)
  | "presets" => do
    let l ← commandLevel [] args
    if l.positional.isEmpty then return (.presets, l) else none
  | _ => none

end CommandLine

open CommandLine in
/-- What some arguments ask for; `none` if they are no command line of the program. -/
def Invocation.ofArgs? (args : List String) : Option Invocation := do
  match ← readLevel Flag.everywhere true .empty .nothing args with
  | (_, []) => none
  | (outer, name :: rest) =>
    let (command, inner) ← CommandLine.command name rest
    let option (f : Flag) : Option String := (inner.get? f).or (outer.get? f)
    return {
      command
      configFile := option .config
      entryPoint := option .entry
      maxCallDepth := (option .maxDepth).bind readNumber }

end CallTrace
