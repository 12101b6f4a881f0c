import CallTrace.Machine

/-! # Library functions

The functions that a program can call without defining them: `max`, `min`, `abs` and `to_string`. A
program that defines one of these names calls its own function instead.
-/

namespace CallTrace
set_option autoImplicit false

/-- The names of the library functions. -/
inductive LibraryFunction where
  | max
  | min
  | abs
  | toText
  deriving DecidableEq, Repr

namespace LibraryFunction

def ofName? : String → Option LibraryFunction
  | "max" => some .max
  | "min" => some .min
  | "abs" => some .abs
  | "to_string" => some .toText
  | _ => none

def name : LibraryFunction → String
  | .max => "max"
  | .min => "min"
  | .abs => "abs"
  | .toText => "to_string"

def arity : LibraryFunction → Nat
  | .max | .min => 2
  | .abs | .toText => 1

/-- The value of a library function. Of two equal arguments the first is both the greatest and the
least. -/
def apply (h : Heap) (f : LibraryFunction) (args : List Value) : Except Cause Value :=
  match f, args with
  | .max, [a, b] => return if (← compareValues .lt a b) == .lt then b else a
  | .min, [a, b] => return if (← compareValues .lt a b) == .gt then b else a
  | .abs, [x] => absolute x
  | .toText, [x] => return .str (h.text x)
  | _, _ => .error (.argumentCount f.name f.arity args.length)

end LibraryFunction

/-- Calls a library function, if one has the name. -/
def Exec.callLibrary (name : String) (args : List Value) : Exec Value := do
  match LibraryFunction.ofName? name with
  | some f => ofExcept (f.apply (← get).heap args)
  | none => fail (.undefinedFunction name)

end CallTrace
