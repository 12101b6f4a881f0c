import CallTrace.CommandLine.Report

/-! # The program

Reads the files that the arguments name, waits as long as the settings say, and writes the report.
-/

namespace CallTrace
set_option autoImplicit false

/-- The paths of the files that an invocation may read. -/
def Invocation.paths (i : Invocation) : List String :=
  let source := match i.command with
    | .run s _ _ => s.file
    | .translate s => s.file
    | .replay s _ _ => s.file
    | .presets => none
  i.configFile.toList ++ source.toList

/-- Why reading failed. An error number stands with its sign or, from some operations, without it. -/
def FileError.ofSystem (e : IO.Error) : FileError :=
  match e with
  | .noFileOrDirectory .. => .notFound
  | .inappropriateType _ code _ => if isNumber code 21 then .isDirectory else .notDirectory
  | .invalidArgument _ code _ => if isNumber code 36 then .nameTooLong else .other (toString e)
  | _ => .other (toString e)
where
  isNumber (code n : UInt32) : Bool := code = n || code = 0 - n

def readPath (path : String) : IO (String × Except FileError String) := do
  try
    return (path, .ok (← IO.FS.readFile path))
  catch e => return (path, .error (.ofSystem e))

def Invocation.readFiles (i : Invocation) : IO Files := do
  let contents ← i.paths.mapM readPath
  return fun path => (contents.lookup path).getD (.error .notFound)

def Invocation.wait (i : Invocation) (files : Files) : IO Unit :=
  match i.command, i.config files with
  | .run .., .ok config => IO.sleep config.presentationDelayMs.toUInt32
  | .replay .., .ok config => IO.sleep config.presentationDelayMs.toUInt32
  | _, _ => pure ()

def Report.write (r : Report) : IO UInt32 := do
  IO.print r.out
  IO.eprint r.err
  return r.code.toUInt32

end CallTrace

open CallTrace in
/-- The program: its arguments ask for a command, and its exit code says whether that was done. -/
def main (args : List String) : IO UInt32 := do
  match Invocation.ofArgs? args with
  | none => Report.usage.write
  | some i =>
    let files ← i.readFiles
    i.wait files
    (i.report files).write
