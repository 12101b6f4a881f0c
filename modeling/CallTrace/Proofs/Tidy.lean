import CallTrace.Instrumented

/-! # Tidy programs

What the text of a program can do to keep the variables that are recorded for a call up to date.

* `Expr.named`: every operation that changes a container names the variable that the container belongs to.
* `Layout`: which names the function and every open block of it declare.
* `Stmt.tidy`: a statement is named throughout, and no block in it declares a name that the blocks around it, or
  the function, declare. One block may declare a name twice, and so may two blocks side by side.
-/

namespace CallTrace.Instrumented
set_option autoImplicit false

/-! ## Names of containers -/

mutual

/-- Whether every operation that changes a container names a variable. -/
def Expr.named : Expr → Bool
  | .list items => allNamed items
  | .fill size fill => size.named && fill.named
  | .binary _ left right => left.named && right.named
  | .neg e => e.named
  | .not e => e.named
  | .ternary cond yes no => cond.named && (yes.named && no.named)
  | .assign target _ value => target.named && value.named
  | .update target _ _ => target.named
  | .index base index => base.named && index.named
  | .call _ args => allNamed args
  | .container op target args => (!op.mutates || target.root?.isSome) && (target.named && allNamed args)
  | .int _ | .float _ | .bool _ | .str _ | .undefined | .var _ => true

def Place.named : Place → Bool
  | .var _ => true
  | .index base index => base.named && index.named

def allNamed : List Expr → Bool
  | [] => true
  | e :: es => e.named && allNamed es

end

theorem allNamed_iff {es : List Expr} : allNamed es ↔ ∀ e ∈ es, e.named := by
  induction es with
  | nil => simp [allNamed]
  | cons e es ih => simp [allNamed, ih]

theorem allNamed_append {es fs : List Expr} : allNamed (es ++ fs) ↔ allNamed es ∧ allNamed fs := by
  simp only [allNamed_iff, List.forall_mem_append]

theorem Place.named_toExpr (target : Place) : target.toExpr.named = target.named := by
  cases target <;> rfl

theorem Place.root?_toExpr (target : Place) : target.toExpr.root? = target.root? := by
  cases target <;> rfl

/-! ## Parts of actions -/

/-- The expressions of an action, in the order of evaluation. -/
def Action.operands : Action → List Expr
  | .declare _ init _ => [init]
  | .eval e => [e]
  | .log parts => parts
  | .printf format args => format :: args
  | .unsupported _ _ => []

def Action.declared : Action → List String
  | .declare name _ _ => [name]
  | _ => []

/-- The names that a statement declares in the block that it stands in. -/
def Stmt.declared : Stmt → List String
  | .act _ _ action => action.declared
  | _ => []

/-! ## Layouts -/

/-- The names that the scopes of a call declare: those of the function, and those of every open block, the
innermost first. -/
structure Layout where
  base : List String
  blocks : List (List String)

namespace Layout

def push (L : Layout) (names : List String) : Layout := { L with blocks := names :: L.blocks }

/-- The names of the innermost scope. -/
def inner (L : Layout) : List String := L.blocks.headD L.base

/-- The names of the scopes around the innermost one. -/
def outer (L : Layout) : List String :=
  match L.blocks with
  | [] => []
  | _ :: rest => L.base ++ rest.flatten

end Layout

/-! ## Tidy statements -/

/-- The names that statements in one block declare in it. -/
def declaredIn (body : List Stmt) : List String := body.flatMap Stmt.declared

/-- The names that the first clause of a `for` statement declares. -/
def initDeclared (init : Option (Nat × Action)) : List String := init.elim [] fun i => i.2.declared

/-- Whether an action is named and declares nothing that the scopes around declare. -/
def Action.tidy (L : Layout) (action : Action) : Bool :=
  allNamed action.operands && action.declared.all fun name => decide (name ∉ L.outer)

mutual

/-- Whether a statement in a scope is named, and no block declares a name that is declared around it. -/
def Stmt.tidy (L : Layout) : Stmt → Bool
  | .act _ _ action => action.tidy L
  | .ifElse _ _ cond yes no =>
    cond.named && (allTidy (L.push (declaredIn yes)) yes && allTidy (L.push (declaredIn no)) no)
  | .whileLoop _ _ cond body => cond.named && allTidy (L.push (declaredIn body)) body
  | .doWhile _ _ body cond => cond.named && allTidy (L.push (declaredIn body)) body
  | .forLoop _ _ init cond update body =>
    init.all (fun i => i.2.tidy (L.push (initDeclared init))) &&
      (allNamed (cond.toList ++ update.toList) &&
        allTidy ((L.push (initDeclared init)).push (declaredIn body)) body)
  | .block _ _ body => allTidy (L.push (declaredIn body)) body
  | .breakLoop .. | .continueLoop .. => true
  | .ret _ _ value => allNamed value.toList

def allTidy (L : Layout) : List Stmt → Bool
  | [] => true
  | s :: rest => s.tidy L && allTidy L rest

end

/-- The scope of a function, in which its parameters and what stands in its body are declared. -/
def Function.layout (f : Function) : Layout := ⟨f.params.map (·.name) ++ declaredIn f.body, []⟩

/-- Whether the functions and the statements at top level are tidy. -/
def Program.tidy (p : Program) : Bool :=
  p.functions.all (fun f => allTidy f.layout f.body) && allTidy ⟨declaredIn p.driver, []⟩ p.driver

end CallTrace.Instrumented
