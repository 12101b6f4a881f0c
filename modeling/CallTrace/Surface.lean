import CallTrace.Operator
import CallTrace.Token

/-! # Programs as they are written

The trees that a source text is read into. Every node carries the place that messages and the
timeline refer to: an operator stands where its symbol is, a call where its name is, a declaration
where the declared name is, any other statement where its first token is.

* `Ty`: types, with their `const` and reference marks.
* `Expr`, `Stmt`, `Item`: expressions, statements, and what may stand at top level.
* `Stmt.unsupported`: source that is outside the language, kept as text with the reason.
-/

namespace CallTrace.Surface
set_option autoImplicit false

/-- The types without components. -/
inductive Scalar where
  | void | int | long | bool | char | double | float | string | auto
  deriving DecidableEq, Repr

def Scalar.text : Scalar → String
  | .void => "void" | .int => "int" | .long => "long" | .bool => "bool" | .char => "char"
  | .double => "double" | .float => "float" | .string => "string" | .auto => "auto"

/-- A type with its `const` and reference marks. -/
inductive Ty where
  | scalar (s : Scalar) (isConst isRef : Bool)
  | vector (element : Ty) (isConst isRef : Bool)
  deriving DecidableEq, Repr

namespace Ty

def isRef : Ty → Bool
  | .scalar _ _ r => r
  | .vector _ _ r => r

def plainVector (element : Ty) : Ty := .vector element false false

def text : Ty → String
  | .scalar s c r => marked s.text c r
  | .vector element c r => marked ("vector<" ++ element.text ++ ">") c r
where
  marked (base : String) (isConst isRef : Bool) : String :=
    (if isConst then "const " else "") ++ base ++ (if isRef then "&" else "")

end Ty

inductive Expr where
  | int (n : Int) (pos : Pos)
  | float (x : Float) (pos : Pos)
  | bool (b : Bool) (pos : Pos)
  | char (c : Char) (pos : Pos)
  | str (s : String) (pos : Pos)
  /-- A list in braces. -/
  | list (items : List Expr) (pos : Pos)
  /-- A vector of `size` zero values of the element type. -/
  | sized (size : Expr) (element : Ty) (pos : Pos)
  /-- A vector of `size` copies of `fill`. -/
  | filled (size fill : Expr) (element : Ty) (pos : Pos)
  | var (name : String) (pos : Pos)
  | binary (op : BinOp) (left right : Expr) (pos : Pos)
  | unary (op : UnOp) (operand : Expr) (pos : Pos)
  | ternary (cond yes no : Expr) (pos : Pos)
  | assign (target value : Expr) (pos : Pos)
  | compound (target : Expr) (op : BinOp) (value : Expr) (pos : Pos)
  | call (name : String) (args : List Expr) (pos : Pos)
  | method (object : Expr) (name : String) (args : List Expr) (pos : Pos)
  | index (base index : Expr) (pos : Pos)
  deriving Repr, Inhabited

/-- A declaration of one variable. -/
structure VarDecl where
  name : String
  ty : Ty
  init : Option Expr
  pos : Pos
  deriving Repr

/-- The first clause of a `for` statement. -/
inductive ForInit where
  | none
  | decl (d : VarDecl)
  | expr (e : Expr) (pos : Pos)
  deriving Repr

inductive Stmt where
  | decl (d : VarDecl)
  | expr (e : Expr) (pos : Pos)
  | output (items : List Expr) (pos : Pos)
  | ret (value : Option Expr) (pos : Pos)
  | ifThen (cond : Expr) (yes : List Stmt) (pos : Pos)
  | ifElse (cond : Expr) (yes no : List Stmt) (pos : Pos)
  | whileLoop (cond : Expr) (body : List Stmt) (pos : Pos)
  | doWhile (body : List Stmt) (cond : Expr) (pos : Pos)
  | forLoop (init : ForInit) (cond update : Option Expr) (body : List Stmt) (pos : Pos)
  | block (body : List Stmt) (pos : Pos)
  | breakLoop (pos : Pos)
  | continueLoop (pos : Pos)
  | usingDirective (pos : Pos)
  | unsupported (text reason : String) (pos : Pos)
  deriving Repr, Inhabited

def Stmt.pos : Stmt → Pos
  | .decl d => d.pos
  | .expr _ p | .output _ p | .ret _ p | .ifThen _ _ p | .ifElse _ _ _ p | .whileLoop _ _ p
  | .doWhile _ _ p | .forLoop _ _ _ _ p | .block _ p | .breakLoop p | .continueLoop p
  | .usingDirective p | .unsupported _ _ p => p

/-- A parameter; its name is empty when it has none. -/
structure Param where
  name : String
  ty : Ty
  deriving Repr

/-- A function with its body; `finish` is the place of the closing brace. -/
structure Function where
  name : String
  ty : Ty
  params : List Param
  body : List Stmt
  pos : Pos
  finish : Pos
  deriving Repr

/-- What may stand at top level. -/
inductive Item where
  | function (f : Function)
  | declared (name : String) (ty : Ty) (params : List Param) (pos : Pos)
  | stmt (s : Stmt)
  deriving Repr

end CallTrace.Surface
