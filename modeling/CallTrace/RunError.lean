/-! # Errors of a run

* `Cause`: why a run stops. Every error is final.
* `RunError`: a cause and the source line it points at, with the wording in `RunError.message`.
-/

namespace CallTrace
set_option autoImplicit false

inductive Cause where
  | undefinedVariable (name : String)
  | undefinedFunction (name : String)
  | argumentCount (function : String) (expected got : Nat)
  | typeMismatch (expected got : String)
  | indexOutOfBounds (index : Int) (size : Nat)
  | emptyContainer (operation : String)
  | invalidSize (size : Int)
  | divisionByZero
  | moduloByZero
  | overflow (operation : String)
  | invalidFormat (message : String)
  /-- A statement was reached that is outside the language. -/
  | unsupported (text reason : String)
  | callDepth (limit : Nat)
  | eventLimit (limit : Nat)
  deriving DecidableEq, Repr

structure RunError where
  cause : Cause
  line : Nat
  deriving DecidableEq, Repr

def mismatchText (expected got : String) : String := "expected " ++ expected ++ ", got " ++ got

namespace RunError

def message (e : RunError) : String :=
  let atLine := " at line " ++ toString e.line
  match e.cause with
  | .undefinedVariable name => "Undefined variable '" ++ name ++ "'" ++ atLine
  | .undefinedFunction name => "Undefined function '" ++ name ++ "'" ++ atLine
  | .argumentCount function expected got =>
    "Function '" ++ function ++ "' expects " ++ toString expected ++ " argument"
      ++ (if expected = 1 then "" else "s") ++ ", got " ++ toString got ++ atLine
  | .typeMismatch expected got => "Type error" ++ atLine ++ ": " ++ mismatchText expected got
  | .indexOutOfBounds index size =>
    "Index " ++ toString index ++ " out of bounds for size " ++ toString size ++ atLine
  | .emptyContainer operation => operation ++ " on an empty container" ++ atLine
  | .invalidSize size => "Invalid container size " ++ toString size ++ atLine
  | .divisionByZero => "Division by zero" ++ atLine
  | .moduloByZero => "Modulo by zero" ++ atLine
  | .overflow operation => "Integer overflow in operation: " ++ operation ++ atLine
  | .invalidFormat message => "Invalid printf format" ++ atLine ++ ": " ++ message
  | .unsupported text reason =>
    "Unsupported construct" ++ atLine ++ ": " ++ text ++ " (" ++ reason ++ ")"
  | .callDepth limit => "Maximum call depth of " ++ toString limit ++ " exceeded" ++ atLine
  | .eventLimit limit => "Event limit of " ++ toString limit ++ " exceeded" ++ atLine

def isDegradation (e : RunError) : Bool :=
  match e.cause with
  | .unsupported .. => true
  | _ => false

end RunError

end CallTrace
