import CallTrace.Heap
import CallTrace.Number.Binary64
import CallTrace.Operator
import CallTrace.RunError

/-! # Operators on values

* `intArith`: integer arithmetic. It is exact, and a result that a program cannot hold is an error.
  Division cuts toward zero, and a remainder has the sign of the dividend.
* `floatArith`: arithmetic as soon as one operand is a float.
* `addValues`: `+` joins texts when an operand is a string, unless one is a list.
* `compareValues`: the order of numbers and of strings.
* `binaryOp`, `negate`, `stepBy`: what operators in expressions do.
-/

namespace CallTrace
set_option autoImplicit false

def operandError (expected : String) (l r : Value) (op : BinOp) : Cause :=
  .typeMismatch expected (l.kindName ++ " " ++ op.symbol ++ " " ++ r.kindName)

/-- An integer result, if a program can hold it; `operation` words the error. -/
def checked (n : Int) (operation : String) : Except Cause Value :=
  if inRange n then .ok (.int n) else .error (.overflow operation)

/-- Arithmetic on integers; `none` for operators that are not arithmetic. -/
def intArith (op : BinOp) (a b : Int) : Option (Except Cause Value) :=
  let operation := toString a ++ " " ++ op.symbol ++ " " ++ toString b
  match op with
  | .add => some (checked (a + b) operation)
  | .sub => some (checked (a - b) operation)
  | .mul => some (checked (a * b) operation)
  | .div => some (if b = 0 then .error .divisionByZero else checked (a.tdiv b) operation)
  | .mod => some (
      if b = 0 then .error .moduloByZero
      else if inRange (a.tdiv b) then .ok (.int (a.tmod b))
      else .error (.overflow operation))
  | _ => none

/-- Arithmetic on floats; `none` for operators that are not arithmetic. -/
def floatArith (op : BinOp) (x y : Float) : Option Float :=
  match op with
  | .add => some (x + y)
  | .sub => some (x - y)
  | .mul => some (x * y)
  | .div => some (x / y)
  | .mod => some (remainder x y)
  | _ => none

def arith (op : BinOp) (l r : Value) : Except Cause Value :=
  match l.int?, r.int? with
  | some a, some b =>
    match intArith op a b with
    | some result => result
    | none => .error (operandError "arithmetic operator" l r op)
  | _, _ =>
    match l.float?, r.float? with
    | some x, some y =>
      match floatArith op x y with
      | some z => .ok (.float z)
      | none => .error (operandError "arithmetic operator" l r op)
    | _, _ => .error (operandError "number" l r op)

def addValues (l r : Value) : Except Cause Value :=
  if l.isStr || r.isStr then
    if l.isList || r.isList then .error (operandError "string or number" l r .add)
    else .ok (.str (l.scalarText ++ r.scalarText))
  else arith .add l r

/-- The order of two floats. With a NaN every comparison is false, so the order is the one that makes
`op` false. -/
def compareFloats (op : BinOp) (x y : Float) : Ordering :=
  if x < y then .lt
  else if x == y then .eq
  else if y < x then .gt
  else match op with
    | .lt | .le => .gt
    | _ => .lt

def compareStrings (a b : String) : Ordering :=
  if a < b then .lt else if a = b then .eq else .gt

/-- The order of two values for the comparison `op`. -/
def compareValues (op : BinOp) (l r : Value) : Except Cause Ordering :=
  match l.int?, r.int? with
  | some a, some b => .ok (compare a b)
  | _, _ =>
    match l.float?, r.float? with
    | some x, some y => .ok (compareFloats op x y)
    | _, _ =>
      match l, r with
      | .str a, .str b => .ok (compareStrings a b)
      | _, _ => .error (operandError "comparable values" l r op)

def holds (op : BinOp) (o : Ordering) : Bool :=
  match op with
  | .lt => o == .lt
  | .le => o != .gt
  | .gt => o == .gt
  | _ => o != .lt

def binaryOp (h : Heap) (op : BinOp) (l r : Value) : Except Cause Value :=
  match op with
  | .add => addValues l r
  | .sub | .mul | .div | .mod => arith op l r
  | .eq => .ok (.bool (h.equal l r))
  | .ne => .ok (.bool (!h.equal l r))
  | .lt | .le | .gt | .ge => (compareValues op l r).map fun o => .bool (holds op o)
  | .and => .ok (.bool (l.isTruthy && r.isTruthy))
  | .or => .ok (.bool (l.isTruthy || r.isTruthy))

def negate (v : Value) : Except Cause Value :=
  match v with
  | .float x => .ok (.float (-x))
  | _ =>
    match v.int? with
    | some n => checked (-n) ("-" ++ toString n)
    | none => .error (.typeMismatch "number" v.kindName)

def absolute (v : Value) : Except Cause Value :=
  match v with
  | .float x => .ok (.float x.abs)
  | _ =>
    match v.int? with
    | some n => checked n.natAbs ("abs(" ++ toString n ++ ")")
    | none => .error (.typeMismatch "number" v.kindName)

/-- A number one greater, for `delta = 1`, or one less, for `delta = -1`. -/
def stepBy (delta : Int) (v : Value) : Except Cause Value :=
  match v with
  | .float x => .ok (.float (x + Float.ofInt delta))
  | _ =>
    match v.int? with
    | some n =>
      checked (n + delta) (toString n ++ (if 0 < delta then " + 1" else " - 1"))
    | none => .error (.typeMismatch "number" v.kindName)

end CallTrace
