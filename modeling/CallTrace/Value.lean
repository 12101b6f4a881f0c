import CallTrace.Number.Format

/-! # Live values

* `Value`: a value while the program runs. A list is a cell of the heap, so that two variables can
  hold the same list; every other value is complete in itself.
* `Value.int?`, `Value.float?`, `Value.isTruthy`: how values count as numbers and as conditions.
* `Value.scalarText`, `Value.scalarEq`: text and equality as far as they need no heap.
-/

namespace CallTrace
set_option autoImplicit false

abbrev CellId := Nat

/-- A live value. A character is a string of length one. -/
inductive Value where
  | undefined
  | bool (b : Bool)
  | int (n : Int)
  | float (x : Float)
  | str (s : String)
  | list (cell : CellId)
  deriving Repr, Inhabited

namespace Value

def kindName : Value → String
  | .undefined => "void"
  | .bool _ => "bool"
  | .int _ => "int"
  | .float _ => "double"
  | .str _ => "string"
  | .list _ => "vector"

/-- The integer that a value stands for; truth values are `0` and `1`. -/
def int? : Value → Option Int
  | .int n => some n
  | .bool b => some (if b then 1 else 0)
  | _ => none

def float? : Value → Option Float
  | .float x => some x
  | .int n => some (Float.ofInt n)
  | .bool b => some (if b then 1.0 else 0.0)
  | _ => none

def cell? : Value → Option CellId
  | .list c => some c
  | _ => none

def isTruthy : Value → Bool
  | .undefined => false
  | .bool b => b
  | .int n => n != 0
  | .float x => x != 0.0
  | .str s => !s.isEmpty
  | .list _ => true

def isUndefined : Value → Bool
  | .undefined => true
  | _ => false

def isStr : Value → Bool
  | .str _ => true
  | _ => false

def isList : Value → Bool
  | .list _ => true
  | _ => false

/-- The text of a float as the program prints it: a whole number below `10^15` without a fraction. -/
def floatText (x : Float) : String :=
  match (Binary64.ofFloat x).toInt? with
  | some n => if n.natAbs < 1000000000000000 then toString n else FloatFormat.plain.render x
  | none => FloatFormat.plain.render x

def scalarText : Value → String
  | .undefined => "undefined"
  | .bool b => if b then "true" else "false"
  | .int n => toString n
  | .float x => floatText x
  | .str s => s
  | .list _ => ""

/-- Equality without regard to what lists hold: numbers are equal by value across kinds, a list equals
only itself. -/
def scalarEq : Value → Value → Bool
  | .undefined, .undefined => true
  | .str a, .str b => a == b
  | .list a, .list b => a == b
  | .int a, .int b => a == b
  | .bool a, .bool b => a == b
  | a, b =>
    match a.float?, b.float? with
    | some x, some y => x == y
    | _, _ => false

end Value

end CallTrace
