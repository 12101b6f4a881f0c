import CallTrace.Instrumented
import CallTrace.Surface.Parser.Statement

/-! # From written to instrumented programs

`translate` never fails. What cannot be expressed becomes an `unsupported` action that fails only when
it runs, and is listed among the degradations of the program.

* `Refusal`: why an expression cannot be expressed, with its wording.
* `lowerExpr`, `lowerPlace`: expressions, which need no state.
* `Lowering`: what lowering statements remembers: the line of the last recorded step, and the
  degradations so far. A statement records a step unless it starts on that line; blocks and the first
  clause of a `for` statement never do, and the line of a function's head counts as recorded.
-/

namespace CallTrace.Instrumented
set_option autoImplicit false

/-! ## Expressions -/

/-- Why an expression cannot be expressed. -/
inductive Refusal where
  | unknownMethod (name : String)
  | methodArity (name : String) (least greatest got : Nat)
  | notAssignable
  | printfValue
  | printfWithoutFormat
  deriving DecidableEq, Repr

def Refusal.message : Refusal → String
  | .unknownMethod name => "unsupported method '" ++ name ++ "'"
  | .methodArity name least greatest got =>
    let wanted := if least = greatest then toString least
      else toString least ++ "-" ++ toString greatest
    "'" ++ name ++ "' takes " ++ wanted ++ " argument(s), got " ++ toString got
  | .notAssignable => "left side of assignment is not assignable"
  | .printfValue => "printf can only be used as a statement"
  | .printfWithoutFormat => "printf needs a format string"

/-- The value that a variable of a type has before anything is assigned to it. -/
def zeroValue : Surface.Ty → Expr
  | .scalar .int _ _ | .scalar .long _ _ => .int 0
  | .scalar .double _ _ | .scalar .float _ _ => .float 0.0
  | .scalar .bool _ _ => .bool false
  | .scalar .char _ _ | .scalar .string _ _ => .str ""
  | .scalar .void _ _ | .scalar .auto _ _ => .undefined
  | .vector .. => .list []

/-- The operation that a method call stands for, if it has the right number of arguments. -/
def containerOp (name : String) (got : Nat) : Except Refusal ContainerOp :=
  match ContainerOp.ofMethod? name with
  | none => .error (.unknownMethod name)
  | some op =>
    let (least, greatest) := op.arity
    if got < least ∨ greatest < got then .error (.methodArity name least greatest got) else .ok op

mutual

def lowerExpr : Surface.Expr → Except Refusal Expr
  | .int n _ => return .int n
  | .float x _ => return .float x
  | .bool b _ => return .bool b
  | .char c _ => return .str c.toString
  | .str s _ => return .str s
  | .list items _ => return .list (← lowerExprs items)
  | .sized size element _ => return .fill (← lowerExpr size) (zeroValue element)
  | .filled size fill _ _ => do
    let f ← lowerExpr fill
    return .fill (← lowerExpr size) f
  | .var name _ => return .var name
  | .binary op left right _ => do
    let l ← lowerExpr left
    return .binary op l (← lowerExpr right)
  | .unary .neg e _ => return .neg (← lowerExpr e)
  | .unary .not e _ => return .not (← lowerExpr e)
  | .unary .preInc e _ => return .update (← lowerPlace e) .up true
  | .unary .preDec e _ => return .update (← lowerPlace e) .down true
  | .unary .postInc e _ => return .update (← lowerPlace e) .up false
  | .unary .postDec e _ => return .update (← lowerPlace e) .down false
  | .ternary cond yes no _ => do
    let c ← lowerExpr cond
    let y ← lowerExpr yes
    return .ternary c y (← lowerExpr no)
  | .assign target value _ => do
    let t ← lowerPlace target
    return .assign t none (← lowerExpr value)
  | .compound target op value _ => do
    let t ← lowerPlace target
    return .assign t (some op) (← lowerExpr value)
  | .call name args _ => do
    if name = "printf" then throw .printfValue
    return .call name (← lowerExprs args)
  | .method object name args _ => do
    let op ← containerOp name args.length
    let o ← lowerExpr object
    return .container op o (← lowerExprs args)
  | .index base index _ => do
    let b ← lowerExpr base
    return .index b (← lowerExpr index)

def lowerExprs : List Surface.Expr → Except Refusal (List Expr)
  | [] => return []
  | e :: es => do
    let x ← lowerExpr e
    return x :: (← lowerExprs es)

def lowerPlace : Surface.Expr → Except Refusal Place
  | .var name _ => return .var name
  | .index base index _ => do
    let b ← lowerExpr base
    return .index b (← lowerExpr index)
  | _ => throw .notAssignable

end

def lowerDecl (d : Surface.VarDecl) : Except Refusal Action := do
  let init ← match d.init with
    | some e => lowerExpr e
    | none => pure (zeroValue d.ty)
  return .declare d.name init d.ty.isRef

def lowerAction : Surface.Expr → Except Refusal Action
  | .call "printf" [] _ => throw .printfWithoutFormat
  | .call "printf" (format :: args) _ => do
    let f ← lowerExpr format
    return .printf f (← lowerExprs args)
  | e => return .eval (← lowerExpr e)

/-- Whether an output item only ends the line, which every output does. -/
def endsLine : Surface.Expr → Bool
  | .var "endl" _ => true
  | _ => false

def lowerOutput (items : List Surface.Expr) : Except Refusal Action :=
  return .log (← lowerExprs (items.filter fun e => !endsLine e))

/-! ## Statements -/

/-- What lowering statements remembers. -/
structure Lowering where
  stepped : Option Nat
  degradations : List Degradation

/-- Lowering that remembers. The degradations are kept with the latest first. -/
abbrev Lower := StateM Lowering

/-- Whether a statement that starts on `line` records a step; if so, the line counts as recorded. -/
def stepAt (line : Nat) : Lower Bool := fun s =>
  if s.stepped = some line then (false, s) else (true, { s with stepped := some line })

def degrade (text reason : String) (pos : Pos) : Lower Unit :=
  modify fun s => { s with degradations := ⟨text, reason, pos⟩ :: s.degradations }

/-- A source line without the blanks at its ends. -/
def lineText (lines : List String) (line : Nat) : String :=
  match lines[line - 1]? with
  | some s => Text.trim s
  | none => ""

/-- The action that stands for a construct that cannot be expressed. Its text is its source line. -/
def refuse (lines : List String) (pos : Pos) (r : Refusal) : Lower Action := do
  let text := lineText lines pos.line
  degrade text r.message pos
  return .unsupported text r.message

/-- The action itself, or the one that stands for what cannot be expressed. -/
def orRefuse (lines : List String) (pos : Pos) : Except Refusal Action → Lower Action
  | .ok a => return a
  | .error r => refuse lines pos r

/-- The first clause of a `for` statement. -/
def lowerInit (lines : List String) : Surface.ForInit → Lower (Option (Nat × Action))
  | .none => return none
  | .decl d => do
    let _ ← stepAt d.pos.line
    return some (d.pos.line, ← orRefuse lines d.pos (lowerDecl d))
  | .expr e pos => do
    let _ ← stepAt pos.line
    return some (pos.line, ← orRefuse lines pos (lowerAction e))

def lowerOption : Option Surface.Expr → Except Refusal (Option Expr)
  | some e => some <$> lowerExpr e
  | none => return none

mutual

def lowerStmt (lines : List String) : Surface.Stmt → Lower (Option Stmt)
  | .decl d => do
    let step ← stepAt d.pos.line
    return some (.act d.pos.line step (← orRefuse lines d.pos (lowerDecl d)))
  | .expr e pos => do
    let step ← stepAt pos.line
    return some (.act pos.line step (← orRefuse lines pos (lowerAction e)))
  | .output items pos => do
    let step ← stepAt pos.line
    return some (.act pos.line step (← orRefuse lines pos (lowerOutput items)))
  | .ret value pos => do
    let step ← stepAt pos.line
    match lowerOption value with
    | .ok v => return some (.ret pos.line step v)
    | .error r => return some (.act pos.line step (← refuse lines pos r))
  | .ifThen cond yes pos => do
    let step ← stepAt pos.line
    match lowerExpr cond with
    | .ok c => return some (.ifElse pos.line step c (← lowerBody lines yes) [])
    | .error r => return some (.act pos.line step (← refuse lines pos r))
  | .ifElse cond yes no pos => do
    let step ← stepAt pos.line
    match lowerExpr cond with
    | .ok c =>
      let y ← lowerBody lines yes
      return some (.ifElse pos.line step c y (← lowerBody lines no))
    | .error r => return some (.act pos.line step (← refuse lines pos r))
  | .whileLoop cond body pos => do
    let step ← stepAt pos.line
    match lowerExpr cond with
    | .ok c => return some (.whileLoop pos.line step c (← lowerBody lines body))
    | .error r => return some (.act pos.line step (← refuse lines pos r))
  | .doWhile body cond pos => do
    let step ← stepAt pos.line
    let b ← lowerBody lines body
    match lowerExpr cond with
    | .ok c => return some (.doWhile pos.line step b c)
    | .error r => return some (.act pos.line step (← refuse lines pos r))
  | .forLoop init cond update body pos => do
    let step ← stepAt pos.line
    let i ← lowerInit lines init
    match lowerOption cond, lowerOption update with
    | .ok c, .ok u => return some (.forLoop pos.line step i c u (← lowerBody lines body))
    | .error r, _ => return some (.act pos.line step (← refuse lines pos r))
    | .ok _, .error r => return some (.act pos.line step (← refuse lines pos r))
  | .block body pos => return some (.block pos.line false (← lowerBody lines body))
  | .breakLoop pos => return some (.breakLoop pos.line (← stepAt pos.line))
  | .continueLoop pos => return some (.continueLoop pos.line (← stepAt pos.line))
  | .usingDirective _ => return none
  | .unsupported text reason pos => do
    degrade text reason pos
    return some (.act pos.line (← stepAt pos.line) (.unsupported text reason))

def lowerBody (lines : List String) : List Surface.Stmt → Lower (List Stmt)
  | [] => return []
  | s :: ss => do
    match ← lowerStmt lines s with
    | some x => return x :: (← lowerBody lines ss)
    | none => lowerBody lines ss

end

/-! ## Programs -/

/-- The parameters of a function; one without a name is named for its position. -/
def lowerParams (i : Nat) : List Surface.Param → List Param
  | [] => []
  | p :: ps =>
    ⟨if p.name = "" then "_arg" ++ toString i else p.name, p.ty.isRef⟩ :: lowerParams (i + 1) ps

def lowerFunction (lines : List String) (f : Surface.Function) : Lower Function := do
  modify fun s => { s with stepped := some f.pos.line }
  let body ← lowerBody lines f.body
  return ⟨f.name, lowerParams 0 f.params, body, f.pos.line, f.finish.line⟩

/-- Adds a function to those before it. A function of the same name is replaced where it stands. -/
def addFunction (f : Function) : List Function → List Function
  | [] => [f]
  | g :: gs => if g.name = f.name then f :: gs else g :: addFunction f gs

/-- Whether the text of a construct at top level ends with a brace, so that it only declares
something and is no statement. -/
def isDeclarationText (text : String) : Bool :=
  let t := (Text.trimEnd text).toList.reverse
  t.head? == some '\x7d' || t.take 2 == [';', '\x7d']

/-- Adds one item to the functions and statements before it; the statements are kept with the latest
first. -/
def lowerItem (lines : List String) (functions : List Function) (driver : List Stmt) :
    Surface.Item → Lower (List Function × List Stmt)
  | .function f => return (addFunction (← lowerFunction lines f) functions, driver)
  | .declared .. => return (functions, driver)
  | .stmt (.unsupported text reason pos) => do
    degrade text reason pos
    if isDeclarationText text then return (functions, driver)
    else return (functions, .act pos.line false (.unsupported text reason) :: driver)
  | .stmt s => do
    match ← lowerStmt lines s with
    | some x => return (functions, x :: driver)
    | none => return (functions, driver)

def lowerItems (lines : List String) (functions : List Function) (driver : List Stmt) :
    List Surface.Item → Lower (List Function × List Stmt)
  | [] => return (functions, driver)
  | i :: is => do
    let (fs, ds) ← lowerItem lines functions driver i
    lowerItems lines fs ds is

def translate (source : String) : Program :=
  let ((functions, driver), s) :=
    (lowerItems (Text.lines source) [] [] (Surface.parse source)).run ⟨none, []⟩
  ⟨functions, driver.reverse, s.degradations.reverse⟩

end CallTrace.Instrumented
