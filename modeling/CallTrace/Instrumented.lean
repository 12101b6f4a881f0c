import CallTrace.Operator
import CallTrace.Token

/-! # Instrumented programs

The form in which programs run. Types are gone, container methods are reduced to six operations, and
everything that the timeline records is explicit:

* a function has the line of its head, where its call is recorded, and the line of its end, where it
  returns when no statement has returned before;
* a statement has its line and says whether a step is recorded before it runs;
* an expression that writes to storage is recorded for the variable that owns the storage
  (`Expr.probe?`).
-/

namespace CallTrace.Instrumented
set_option autoImplicit false

/-! ## Containers -/

/-- The operations on lists and strings. -/
inductive ContainerOp where
  | append
  | removeLast
  | length
  | substr
  | back
  | isEmpty
  deriving DecidableEq, Repr

namespace ContainerOp

def ofMethod? : String → Option ContainerOp
  | "push_back" => some .append
  | "pop_back" => some .removeLast
  | "size" => some .length
  | "length" => some .length
  | "substr" => some .substr
  | "back" => some .back
  | "empty" => some .isEmpty
  | _ => none

def mutates : ContainerOp → Bool
  | .append | .removeLast => true
  | _ => false

/-- The least and the greatest number of arguments. -/
def arity : ContainerOp → Nat × Nat
  | .append => (1, 1)
  | .substr => (1, 2)
  | _ => (0, 0)

def name : ContainerOp → String
  | .append => "append"
  | .removeLast => "remove_last"
  | .length => "length"
  | .substr => "substr"
  | .back => "back"
  | .isEmpty => "is_empty"

end ContainerOp

/-! ## Expressions -/

inductive Step where
  | up
  | down
  deriving DecidableEq, Repr

def Step.delta : Step → Int
  | .up => 1
  | .down => -1

mutual

inductive Expr where
  | int (n : Int)
  | float (x : Float)
  | bool (b : Bool)
  | str (s : String)
  | undefined
  | list (items : List Expr)
  /-- A list of `size` copies of `fill`. -/
  | fill (size fill : Expr)
  | var (name : String)
  | binary (op : BinOp) (left right : Expr)
  | neg (operand : Expr)
  | not (operand : Expr)
  | ternary (cond yes no : Expr)
  /-- An assignment; `op` is the arithmetic part of a compound one. -/
  | assign (target : Place) (op : Option BinOp) (value : Expr)
  /-- A step, whose value is the new one if the operator stands before its operand. -/
  | update (target : Place) (step : Step) (before : Bool)
  | index (base index : Expr)
  | call (name : String) (args : List Expr)
  | container (op : ContainerOp) (target : Expr) (args : List Expr)

inductive Place where
  | var (name : String)
  | index (base index : Expr)

end

def Place.toExpr : Place → Expr
  | .var name => .var name
  | .index base i => .index base i

/-- The variable through which an expression reads storage, if it does. -/
def Expr.root? : Expr → Option String
  | .var name => some name
  | .index base _ => base.root?
  | _ => none

def Place.root? : Place → Option String
  | .var name => some name
  | .index base _ => base.root?

def Expr.probe? : Expr → Option String
  | .assign target _ _ => target.root?
  | .update target _ _ => target.root?
  | .container op target _ => if op.mutates then target.root? else none
  | _ => none

/-! ## Statements and programs -/

/-- Statements without statements inside, after which the next one runs. -/
inductive Action where
  /-- A declaration; one that is no reference copies its list. -/
  | declare (name : String) (init : Expr) (byRef : Bool)
  | eval (e : Expr)
  /-- Output of the texts of some values, joined. -/
  | log (parts : List Expr)
  | printf (format : Expr) (args : List Expr)
  /-- Fails when it runs. -/
  | unsupported (text reason : String)

/-- Statements, with their line and whether a step is recorded before they run. A `for` statement has
the line of its first clause beside that clause. -/
inductive Stmt where
  | act (line : Nat) (step : Bool) (action : Action)
  | ifElse (line : Nat) (step : Bool) (cond : Expr) (yes no : List Stmt)
  | whileLoop (line : Nat) (step : Bool) (cond : Expr) (body : List Stmt)
  | doWhile (line : Nat) (step : Bool) (body : List Stmt) (cond : Expr)
  | forLoop (line : Nat) (step : Bool) (init : Option (Nat × Action)) (cond update : Option Expr)
      (body : List Stmt)
  | block (line : Nat) (step : Bool) (body : List Stmt)
  | breakLoop (line : Nat) (step : Bool)
  | continueLoop (line : Nat) (step : Bool)
  | ret (line : Nat) (step : Bool) (value : Option Expr)

namespace Stmt

def line : Stmt → Nat
  | .act l _ _ | .ifElse l _ _ _ _ | .whileLoop l _ _ _ | .doWhile l _ _ _ | .forLoop l _ _ _ _ _
  | .block l _ _ | .breakLoop l _ | .continueLoop l _ | .ret l _ _ => l

/-- Whether a step is recorded before a statement runs. -/
def step : Stmt → Bool
  | .act _ s _ | .ifElse _ s _ _ _ | .whileLoop _ s _ _ | .doWhile _ s _ _ | .forLoop _ s _ _ _ _
  | .block _ s _ | .breakLoop _ s | .continueLoop _ s | .ret _ s _ => s

end Stmt

/-- A parameter; a list passed for one that is no reference is copied. -/
structure Param where
  name : String
  byRef : Bool

/-- A function, with the lines of its head and of its end. -/
structure Function where
  name : String
  params : List Param
  body : List Stmt
  line : Nat
  endLine : Nat

/-- Source outside the language, with the reason and its place. -/
structure Degradation where
  text : String
  reason : String
  pos : Pos

/-- A program: its functions, and the statements at top level, which run first. -/
structure Program where
  functions : List Function
  driver : List Stmt
  degradations : List Degradation

namespace Program

def function? (p : Program) (name : String) : Option Function :=
  p.functions.find? (·.name == name)

def isComplete (p : Program) : Bool := p.degradations.isEmpty

end Program

end CallTrace.Instrumented
