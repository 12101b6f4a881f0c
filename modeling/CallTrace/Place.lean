import CallTrace.Machine
import CallTrace.Printf

/-! # Storage

A place of a program is resolved once into a `Slot`, so that its index expressions run once:

* a variable is read and written by its name;
* an item of a list is read and written through the cell of the list, so that a write reaches every
  variable that holds the list;
* a character of a string is written by building the string anew and writing it to where it came from.
-/

namespace CallTrace
set_option autoImplicit false

inductive Slot where
  | var (name : String)
  | item (cell : CellId) (index : Int)
  | char (owner : Slot) (index : Int)
  deriving DecidableEq, Repr

/-- An index as a position below `size`. -/
def position (index : Int) (size : Nat) : Except Cause Nat :=
  if 0 ≤ index ∧ index < size then .ok index.toNat else .error (.indexOutOfBounds index size)

def itemOf (h : Heap) (container : Value) (index : Int) : Except Cause Value :=
  match container with
  | .list c => do
    let i ← position index (h.items c).size
    return (h.items c).getD i .undefined
  | .str s => do
    let i ← position index s.length
    return .str (s.toList.getD i ' ').toString
  | v => .error (.typeMismatch "vector or string" v.kindName)

def charOf (v : Value) : Except Cause Char :=
  let c? := match v with
    | .str s =>
      match s.toList with
      | [c] => some c
      | _ => none
    | .int n => Printf.charOfInt? n
    | _ => none
  match c? with
  | some c => .ok c
  | none => .error (.typeMismatch "char" v.kindName)

/-- An integer operand; `expected` words the error. -/
def intOf (expected : String) (v : Value) : Except Cause Int :=
  match v.int? with
  | some n => .ok n
  | none => .error (.typeMismatch expected v.kindName)

namespace Exec

def readSlot : Slot → Exec Value
  | .var name => lookup name
  | .item c i => do ofExcept (itemOf (← get).heap (.list c) i)
  | .char owner i => do
    let v ← readSlot owner
    ofExcept (itemOf (← get).heap v i)

def assign (name : String) (v : Value) : Exec Unit := fun m =>
  match m.stack.assign? name v with
  | some stack => .ok () { m with stack }
  | none => .error (.failed ⟨.undefinedVariable name, m.line⟩) m

def writeSlot : Slot → Value → Exec Unit
  | .var name, v => assign name v
  | .item c i, v => do
    let k ← ofExcept (position i ((← get).heap.items c).size)
    modifyHeap (·.update c fun items => items.setIfInBounds k v)
  | .char owner i, v => do
    match ← readSlot owner with
    | .str s =>
      let c ← ofExcept (charOf v)
      let k ← ofExcept (position i s.length)
      writeSlot owner (.str (String.ofList (s.toList.set k c)))
    | _ => fail (.typeMismatch "string" "non-string")

end Exec

end CallTrace
