import CallTrace.Place

/-! # Operations on lists and strings

* `Exec.listOp`: an operation on a list, which changes the cell that the list is stored in.
* `stringOp`: an operation on a string. A string is a value, so an operation that changes one gives the
  new string, and the caller stores it where the string came from.
* `substring`: a part of a string; a length that is negative or too great reaches to the end.
-/

namespace CallTrace
set_option autoImplicit false

open Instrumented (ContainerOp)

/-- The error of an operation that a value does not support. -/
def unsupportedOp (op : ContainerOp) (v : Value) : Cause :=
  .typeMismatch ("container supporting " ++ op.name) v.kindName

/-- A new copy of the first argument, or nothing if there is none. -/
def Exec.copyFirst (args : List Value) : Exec Value :=
  match args with
  | v :: _ => Exec.copy v
  | [] => pure .undefined

def Exec.listOp (op : ContainerOp) (c : CellId) (args : List Value) : Exec Value := do
  match op with
  | .append =>
    let item ← copyFirst args
    modifyHeap (·.update c (·.push item))
    return .undefined
  | .removeLast =>
    if ((← get).heap.items c).isEmpty then fail (.emptyContainer "pop_back")
    modifyHeap (·.update c Array.pop)
    return .undefined
  | .length => return .int ((← get).heap.items c).size
  | .back =>
    match ((← get).heap.items c).back? with
    | some item => return item
    | none => fail (.emptyContainer "back")
  | .isEmpty => return .bool ((← get).heap.items c).isEmpty
  | .substr => fail (unsupportedOp op (.list c))

/-- The part of a string from a position on, cut to a length if one is given. -/
def substring (s : String) (args : List Value) : Except Cause String := do
  let pos ← intOf "int" (args.headD .undefined)
  if pos < 0 ∨ (s.length : Int) < pos then .error (.indexOutOfBounds pos s.length)
  let rest := s.toList.drop pos.toNat
  match args with
  | _ :: count :: _ =>
    let n ← intOf "int" count
    return String.ofList (if n < 0 then rest else rest.take n.toNat)
  | _ => return String.ofList rest

/-- An operation on a string: its value, and the new string if it changes the string. -/
def stringOp (op : ContainerOp) (s : String) (args : List Value) :
    Except Cause (Value × Option String) := do
  match op with
  | .append =>
    match args with
    | v :: _ =>
      let c ← charOf v
      return (.undefined, some (s.push c))
    | [] => .error (.emptyContainer "push_back")
  | .removeLast =>
    if s.isEmpty then .error (.emptyContainer "pop_back")
    else return (.undefined, some (String.ofList s.toList.dropLast))
  | .length => return (.int s.length, none)
  | .back =>
    match s.toList.getLast? with
    | some c => return (.str c.toString, none)
    | none => .error (.emptyContainer "back")
  | .isEmpty => return (.bool s.isEmpty, none)
  | .substr => return (.str (← substring s args), none)

end CallTrace
