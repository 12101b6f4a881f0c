import CallTrace.Container
import CallTrace.Library

/-! # Evaluation

The meaning of instrumented programs as computations on the state of a run. What a construct means is
given in terms of a `Meaning`, which says what its parts mean; `Exec.meaning` closes the recursion. It
takes fuel, which bounds the depth of the recursion and the rounds of every loop; with more fuel than a
program uses, the result does not depend on it.

* `Exec.sequence`, `Exec.inScope`, `Exec.repeatWhile`: how statements follow one another, independent of
  what the statements are.
* `Exec.evalWith`, `Exec.resolveWith`: the value of an expression, and the slot that one names.
* `Exec.runWith`: one statement. Its line becomes the current one, its step is recorded, then it runs.
* `Exec.callWith`: one call. It is recorded before the body runs, and its return when the body ends.
-/

namespace CallTrace
set_option autoImplicit false

open Instrumented (Expr Place Action Stmt ContainerOp)

/-! ## Flow -/

/-- How a loop ends when its body has ended in a given way; `none` if the loop goes on. -/
def Flow.loopExit? : Flow → Option Flow
  | .normal | .continueLoop => none
  | .breakLoop => some .normal
  | .ret v => some (.ret v)

/-- The value that a body returns; one that ends otherwise returns none. -/
def Flow.returned? : Flow → Option Value
  | .ret v => some v
  | _ => none

namespace Exec

/-- Runs statements one after the other until one does not end normally. -/
def sequence (run : Stmt → Exec Flow) : List Stmt → Exec Flow
  | [] => pure .normal
  | s :: rest => do
    match ← run s with
    | .normal => sequence run rest
    | flow => pure flow

def inScope (run : Exec Flow) : Exec Flow := do
  modifyStack CallStack.pushScope
  let flow ← run
  modifyStack CallStack.popScope
  return flow

/-- Repeats `body` while `cond` holds, with `next` after each round. -/
def repeatWhile (cond : Exec Bool) (body : Exec Flow) (next : Exec Unit) : Nat → Exec Flow
  | 0 => outOfFuel
  | fuel + 1 => do
    if ← cond then
      match (← body).loopExit? with
      | some flow => pure flow
      | none => do
        next
        repeatWhile cond body next fuel
    else pure .normal

/-! ## Expressions -/

/-- The greatest size of a list that a program can make at once. -/
def maxFill : Int := 10000000

def fillSize (v : Value) : Except Cause Nat := do
  let n ← intOf "int size" v
  if 0 ≤ n ∧ n ≤ maxFill then return n.toNat else .error (.invalidSize n)

def elementSlot (owner : Slot) (index : Int) : Exec Slot := do
  match ← readSlot owner with
  | .list c => return .item c index
  | .str _ => return .char owner index
  | v => fail (.typeMismatch "vector or string" v.kindName)

/-- Changes the value in a slot: the value before and the value after. -/
def updateSlot (slot : Slot) (f : Value → Except Cause Value) : Exec (Value × Value) := do
  let old ← readSlot slot
  let new ← ofExcept (f old)
  writeSlot slot new
  return (old, new)

/-- Passes arguments to parameters: a list is copied unless the parameter is a reference. -/
def bindArgs (params : List Instrumented.Param) (args : List Value) : Exec (List (String × Value)) :=
  (params.zip args).mapM fun (p, v) => do
    return (p.name, ← if p.byRef then pure v else copy v)

/-- Stops unless a function can be called with these arguments now. -/
def checkCall (env : Env) (f : Instrumented.Function) (args : List Value) : Exec Unit := do
  if args.length ≠ f.params.length then
    fail (.argumentCount f.name f.params.length args.length)
  if env.config.maxCallDepth ≤ (← get).stack.depth then
    fail (.callDepth env.config.maxCallDepth)

def noteEntry (env : Env) (name : String) : Exec Unit := modify fun m =>
  { m with entered := m.entered || (m.stack.isEmpty && name == env.config.entryPoint) }

def enter (env : Env) (f : Instrumented.Function) (vars : List (String × Value)) : Exec Unit := do
  modify fun m =>
    let args := vars.map fun (name, v) => (name, m.heap.snapshot v)
    { m with recorder := m.recorder.call f.name args (some f.line) }
  checkEvents env
  modifyStack (·.pushFrame f.name)
  modifyStack fun s => vars.foldl (fun s (name, v) => s.declare name v) s
  setLine f.line

/-- Records that the latest call returns a value. -/
def recordReturn (v : Value) (line : Nat) : Exec Unit := modify fun m =>
  { m with recorder := m.recorder.ret (m.heap.snapshot v) (some line) }

/-- The value of a call whose body has ended: the value returned, or none, which is recorded here. -/
def finish (f : Instrumented.Function) (flow : Flow) : Exec Value :=
  match flow.returned? with
  | some v => pure v
  | none => do
    recordReturn .undefined f.endLine
    return .undefined

def begin (env : Env) (line : Nat) (step : Bool) : Exec Unit := do
  setLine line
  if step then record (·.step ("Executing line " ++ toString line) (some line))
  checkEvents env

/-! ## What the parts mean -/

/-- The meaning of expressions, of the slots that expressions name, of calls, and of statements. -/
structure Meaning where
  eval : Expr → Exec Value
  resolve : Expr → Exec Slot
  call : String → List Value → Exec Value
  run : Stmt → Exec Flow

section

variable (p : Meaning)

def literal (items : List Expr) : Exec Value := do
  let values ← items.mapM fun item => do copy (← p.eval item)
  newList values.toArray

def filled (size fill : Expr) : Exec Value := do
  let n ← ofExcept (fillSize (← p.eval size))
  let v ← p.eval fill
  newList (← onHeap (Heap.copies v n #[]))

def truth (cond : Expr) : Exec Bool := return (← p.eval cond).isTruthy

/-- A binary operator. The right operand of `&&` and `||` is evaluated only if it decides. -/
def binary (op : BinOp) (left right : Expr) : Exec Value := do
  let l ← p.eval left
  match op with
  | .and => if l.isTruthy then return .bool (← truth p right) else return .bool false
  | .or => if l.isTruthy then return .bool true else return .bool (← truth p right)
  | _ =>
    let r ← p.eval right
    ofExcept (binaryOp (← get).heap op l r)

/-- What an assignment stores: a copy of the value, or the result of the operator on the old value and
the value. -/
def stored (slot : Slot) (op : Option BinOp) (v : Value) : Exec Value :=
  match op with
  | some op => do
    let old ← readSlot slot
    ofExcept (binaryOp (← get).heap op old v)
  | none => copy v

def assignment (target : Place) (op : Option BinOp) (value : Expr) : Exec Value := do
  let slot ← p.resolve target.toExpr
  let v ← p.eval value
  let new ← stored slot op v
  writeSlot slot new
  recordRoot target.root?
  return new

def stepping (target : Place) (step : Instrumented.Step) (before : Bool) : Exec Value := do
  let slot ← p.resolve target.toExpr
  let (old, new) ← updateSlot slot (stepBy step.delta)
  recordRoot target.root?
  return if before then new else old

def indexing (base index : Expr) : Exec Value := do
  let container ← p.eval base
  let i ← ofExcept (intOf "int index" (← p.eval index))
  ofExcept (itemOf (← get).heap container i)

def onString (op : ContainerOp) (target : Expr) (s : String) (args : List Value) : Exec Value := do
  let (result, changed) ← ofExcept (stringOp op s args)
  match changed with
  | some s => do writeSlot (← p.resolve target) (.str s)
  | none => pure ()
  return result

def operation (op : ContainerOp) (target : Expr) (args : List Expr) : Exec Value := do
  let container ← p.eval target
  let values ← args.mapM p.eval
  let result ← match container with
    | .list c => listOp op c values
    | .str s => onString p op target s values
    | v => fail (unsupportedOp op v)
  recordRoot (Expr.container op target args).probe?
  return result

def evalWith (e : Expr) : Exec Value :=
  match e with
  | .int n => pure (.int n)
  | .float x => pure (.float x)
  | .bool b => pure (.bool b)
  | .str s => pure (.str s)
  | .undefined => pure .undefined
  | .list items => literal p items
  | .fill size fill => filled p size fill
  | .var name => lookup name
  | .binary op left right => binary p op left right
  | .neg operand => do ofExcept (negate (← p.eval operand))
  | .not operand => return .bool (!(← truth p operand))
  | .ternary cond yes no => do if ← truth p cond then p.eval yes else p.eval no
  | .assign target op value => assignment p target op value
  | .update target step before => stepping p target step before
  | .index base index => indexing p base index
  | .call name args => do p.call name (← args.mapM p.eval)
  | .container op target args => operation p op target args

def resolveWith (e : Expr) : Exec Slot :=
  match e with
  | .var name => pure (.var name)
  | .index base index => do
    let owner ← p.resolve base
    let i ← ofExcept (intOf "int index" (← p.eval index))
    elementSlot owner i
  | _ => fail (.typeMismatch "assignable expression" "temporary value")

def body (f : Instrumented.Function) : Exec Value := do finish f (← sequence p.run f.body)

/-- Calls a function of the program, or of the library if the program has none of that name. -/
def callWith (env : Env) (name : String) (args : List Value) : Exec Value :=
  match env.program.function? name with
  | none => callLibrary name args
  | some f => do
    checkCall env f args
    noteEntry env name
    let vars ← bindArgs f.params args
    let line := (← get).line
    enter env f vars
    let result ← body p f
    modifyStack CallStack.popFrame
    setLine line
    return result

/-! ## Statements -/

/-- Declares a variable. A list is copied unless the declaration is a reference. -/
def declaration (name : String) (init : Expr) (byRef : Bool) : Exec Unit := do
  let v ← p.eval init
  let v ← if byRef then pure v else copy v
  modifyStack (·.declare name v)
  recordSet name

def perform : Action → Exec Unit
  | .declare name init byRef => declaration p name init byRef
  | .eval e => discard (p.eval e)
  | .log parts => do
    let texts ← parts.mapM fun e => do
      let v ← p.eval e
      return (← get).heap.text v
    recordLog (String.join texts)
  | .printf format args => do
    match ← p.eval format with
    | .str format =>
      let values ← args.mapM p.eval
      let text ← ofExcept (Printf.format (← get).heap format values)
      recordLog (Printf.dropLineFeed text)
    | v => fail (.invalidFormat ("format must be a string, got " ++ v.kindName))
  | .unsupported text reason => fail (.unsupported text reason)

def block (body : List Stmt) : Exec Flow := inScope (sequence p.run body)

/-- Runs the first clause of a `for` statement. -/
def forInit (env : Env) : Option (Nat × Action) → Exec Unit
  | some (line, action) => do
    begin env line false
    perform p action
  | none => pure ()

/-- Whether another round of a `for` statement follows. -/
def forCond (header : Nat) (cond : Option Expr) : Exec Bool := do
  setLine header
  match cond with
  | some e => truth p e
  | none => return true

/-- What follows a round of a `for` statement. -/
def forNext (env : Env) (header : Nat) (update : Option Expr) : Exec Unit := do
  setLine header
  match update with
  | some e => discard (p.eval e)
  | none => pure ()
  checkEvents env

def returning (env : Env) (value : Option Expr) : Exec Flow := do
  let v ← match value with
    | some e => p.eval e
    | none => pure .undefined
  recordReturn v (← get).line
  checkEvents env
  return .ret v

/-- What a statement does once it has begun. A loop has a number of rounds at most. -/
def runBegun (env : Env) (rounds : Nat) (s : Stmt) : Exec Flow :=
  match s with
  | .act _ _ action => do
    perform p action
    return .normal
  | .ifElse _ _ cond yes no => do if ← truth p cond then block p yes else block p no
  | .whileLoop _ _ cond body => repeatWhile (truth p cond) (block p body) (checkEvents env) rounds
  | .doWhile _ _ body cond => do
    match (← block p body).loopExit? with
    | some flow => return flow
    | none => do
      checkEvents env
      repeatWhile (truth p cond) (block p body) (checkEvents env) rounds
  | .forLoop _ _ init cond update body => inScope do
    forInit p env init
    let header := (← get).line
    repeatWhile (forCond p header cond) (block p body) (forNext p env header update) rounds
  | .block _ _ body => block p body
  | .breakLoop _ _ => return .breakLoop
  | .continueLoop _ _ => return .continueLoop
  | .ret _ _ value => returning p env value

def runWith (env : Env) (rounds : Nat) (s : Stmt) : Exec Flow := do
  begin env s.line s.step
  runBegun p env rounds s

end

/-! ## The recursion -/

/-- The meaning of everything without fuel. -/
def Meaning.outOfFuel : Meaning where
  eval _ := Exec.outOfFuel
  resolve _ := Exec.outOfFuel
  call _ _ := Exec.outOfFuel
  run _ := Exec.outOfFuel

/-- The meaning of everything whose parts mean what `p` says. -/
def Meaning.next (env : Env) (rounds : Nat) (p : Meaning) : Meaning where
  eval := evalWith p
  resolve := resolveWith p
  call := callWith p env
  run := runWith p env rounds

/-- The meaning of everything in a program, with some fuel. -/
def meaning (env : Env) : Nat → Meaning
  | 0 => .outOfFuel
  | fuel + 1 =>
    { eval := fun e => ((meaning env fuel).next env fuel).eval e
      resolve := fun e => ((meaning env fuel).next env fuel).resolve e
      call := fun name args => ((meaning env fuel).next env fuel).call name args
      run := fun s => ((meaning env fuel).next env fuel).run s }

end Exec

end CallTrace
