import CallTrace.Proofs.Evaluation.Covered
import CallTrace.Proofs.Evaluation.Growing
import CallTrace.Proofs.Evaluation.Idle
import CallTrace.Proofs.Sight
import CallTrace.Proofs.Tidy

/-! # Variables that are not assigned to

A variable of a call that has a list keeps it while nothing is assigned to the variable as a whole, whatever is done to
the list, and whatever other variables of its name blocks declare.

* `Expr.spares x`, `Stmt.spares x`, `Function.spares x`: nothing is assigned to `x` as a whole. In a block that declares
  `x`, the name means another variable from there on.
* `Exec.frames_of_call`: a call gives its caller the variables back.
* `Exec.Retains x l σ c`: if `x` has the list `l` and stands as `σ` says, a computation leaves it so.
* `Exec.retains_meaning`: everything that spares `x` does, whatever it does where a block hides `x`.
-/

namespace CallTrace
set_option autoImplicit false

open Instrumented (Expr Place Action Stmt ContainerOp)

/-! ## What spares a variable -/

namespace Instrumented

def Place.isVar (x : String) : Place → Bool
  | .var name => name == x
  | .index _ _ => false

mutual

/-- Whether an expression assigns to no variable `x` as a whole. A step of `x` counts as none: there is none of a
list. -/
def Expr.spares (x : String) : Expr → Bool
  | .list items => allSpare x items
  | .fill size fill => size.spares x && fill.spares x
  | .binary _ left right => left.spares x && right.spares x
  | .neg e => e.spares x
  | .not e => e.spares x
  | .ternary cond yes no => cond.spares x && (yes.spares x && no.spares x)
  | .assign target _ value => !target.isVar x && (target.spares x && value.spares x)
  | .update target _ _ => target.spares x
  | .index base index => base.spares x && index.spares x
  | .call _ args => allSpare x args
  | .container _ target args => target.spares x && allSpare x args
  | .int _ | .float _ | .bool _ | .str _ | .undefined | .var _ => true

def Place.spares (x : String) : Place → Bool
  | .var _ => true
  | .index base index => base.spares x && index.spares x

def allSpare (x : String) : List Expr → Bool
  | [] => true
  | e :: es => e.spares x && allSpare x es

end

theorem allSpare_iff {x : String} {es : List Expr} : allSpare x es ↔ ∀ e ∈ es, e.spares x := by
  induction es with
  | nil => simp [allSpare]
  | cons e es ih => simp [allSpare, ih]

theorem Place.spares_toExpr (target : Place) (x : String) : target.toExpr.spares x = target.spares x := by
  cases target <;> rfl

theorem Place.toExpr_ne_var {target : Place} {x : String} (h : !target.isVar x) : target.toExpr ≠ .var x := by
  cases target with
  | var name =>
    intro he
    obtain rfl := Expr.var.inj he
    simp [Place.isVar] at h
  | index base index => simp [Place.toExpr]

mutual

/-- Whether a statement assigns to no variable `x` of the scopes around it as a whole, its own declaration apart. -/
def Stmt.spares (x : String) : Stmt → Bool
  | .act _ _ action => allSpare x action.operands
  | .ifElse _ _ cond yes no => cond.spares x && (blockSpares x yes && blockSpares x no)
  | .whileLoop _ _ cond body => cond.spares x && blockSpares x body
  | .doWhile _ _ body cond => cond.spares x && blockSpares x body
  | .forLoop _ _ init cond update body =>
    init.all (fun i => allSpare x i.2.operands) &&
      (decide (x ∈ initDeclared init) || (allSpare x (cond.toList ++ update.toList) && blockSpares x body))
  | .block _ _ body => blockSpares x body
  | .breakLoop .. | .continueLoop .. => true
  | .ret _ _ value => allSpare x value.toList

/-- Whether a block does. Once it has declared `x` it may do anything with the name but declare it again, which would
change the variable that the name had meant before. -/
def blockSpares (x : String) : List Stmt → Bool
  | [] => true
  | s :: rest => s.spares x && if x ∈ s.declared then decide (x ∉ declaredIn rest) else blockSpares x rest

end

/-- Whether the body of a function assigns to its parameter `x` as a whole nowhere. -/
def Function.spares (x : String) (f : Function) : Bool :=
  decide (x ∉ declaredIn f.body) && f.body.all (Stmt.spares x)

end Instrumented

namespace Exec

open CallStack (SameShape)

/-! ## Calls -/

/-- The contract that as many scopes are open as before, and the callers have the same variables. -/
def shapes : Contract true where
  Inv _ := True
  Rel m n := SameShape m.stack n.stack
  Runs _ m n := SameShape m.stack n.stack
  Hand _ _ := True
  Pending _ _ _ := True
  refl m := .refl m.stack
  trans h h' := h.trans h'
  hand_scalar _ := trivial
  hand_of_rel _ _ := trivial
  pending_scalar _ := trivial
  pending_of_rel _ _ := trivial
  pending_rel _ _ _ := trivial
  hand_of_pending _ := trivial
  lookup _ _ _ := trivial
  item _ _ _ _ := trivial
  copy {m} _ _ := ⟨trivial, .refl m.stack, trivial⟩
  newList _ h _ := ⟨trivial, h, trivial⟩
  store _ h _ _ := ⟨trivial, h⟩
  assign _ h _ hs := ⟨trivial, h.trans (.assign hs)⟩
  set {m} _ _ _ := ⟨trivial, .refl m.stack⟩
  log {m} _ _ := ⟨trivial, .refl m.stack⟩
  entered {m} _ _ := ⟨trivial, .refl m.stack⟩
  runs_of_rel h := h
  runs_trans h h' := h.trans h'
  setLine {m} _ _ := ⟨trivial, .refl m.stack⟩
  step {m} _ _ _ := ⟨trivial, .refl m.stack⟩
  declare name _ h _ := ⟨trivial, h.trans (.declare _ name _)⟩
  pushScope _ := trivial
  popScope _ _ h := ⟨trivial, h.scope⟩
  ret _ h _ := ⟨trivial, h⟩
  enter _ _ _ _ _ _ := trivial
  leave _ h _ _ hrun := ⟨trivial, h.trans hrun.popFrame, trivial⟩

/-- When a call has given a value, its caller and the callers of that have their variables as before. -/
theorem frames_of_call {env : Env} {fuel : Nat} {name : String} {args : List Value} {m n : Machine} {v : Value}
    (h : (meaning env fuel).call name args m = .ok v n) : n.stack.frames = m.stack.frames := by
  cases fuel with
  | zero => cases h
  | succ fuel =>
    have hcall : callWith (meaning env fuel) env name args m = .ok v n := h
    cases hf : env.program.function? name with
    | none =>
      simp only [callWith, hf] at hcall
      rw [Unmoving.rules.callLibrary name args hcall]
    | some f =>
      obtain ⟨vars, o, flow, b, -, hargs, hbody, -, rfl⟩ := callWith_ok hf hcall
      obtain ⟨⟨heap, -, rfl⟩, -⟩ := bindArgs_ok hargs
      have hshape : SameShape (Machine.entering { m.noting env name with heap } f vars).stack b.stack :=
        (shapes.sequence_of_ok (Instrumented.Program.refsOnlyIf_true _)
          (Instrumented.Stmt.allRefsOnlyIf_true f.body) trivial hbody).2
      exact hshape.call.1

/-! ## Keeping a list -/

variable {α β : Type} {x : String} {l : CellId} {σ : Sight}

/-- If the variable `x` has the list `l` and stands as `σ` says, a computation that gives a value leaves it so. -/
def Retains (x : String) (l : CellId) (σ : Sight) (c : Exec α) : Prop :=
  ∀ ⦃m a n⦄, m.stack.Sees x (.list l) σ → c m = .ok a n → n.stack.Sees x (.list l) σ

namespace Retains

theorem still {c : Exec α} (h : Still c) : Retains x l σ c := fun m a n hm hc => (h.ok m a n hc).2 ▸ hm

theorem unmoving {c : Exec α} (h : Unmoving c) : Retains x l σ c := fun _ _ _ hm hc => h hc ▸ hm

theorem pure (a : α) : Retains x l σ (Pure.pure a) := unmoving (.pure a)

theorem fail (cause : Cause) : Retains x l σ (Exec.fail cause : Exec α) := unmoving (.fail cause)

theorem ofExcept (r : Except Cause α) : Retains x l σ (Exec.ofExcept r) := unmoving (.ofExcept r)

theorem outOfFuel : Retains x l σ (Exec.outOfFuel : Exec α) := by
  intro m a n hm hc
  cases hc

theorem bind {c : Exec α} {f : α → Exec β} (h : Retains x l σ c) (hf : ∀ a, Retains x l σ (f a)) :
    Retains x l σ (c >>= f) := by
  intro m b n hm hc
  obtain ⟨a, o, ha, hb⟩ := ok_of_bind hc
  exact hf a (h hm ha) hb

theorem get_bind {f : Machine → Exec α} (hf : ∀ m, Retains x l σ (f m)) :
    Retains x l σ ((get : Exec Machine) >>= f) := fun m _ _ hm hc => hf m hm hc

/-- Changes to lists leave the variables alone. -/
theorem rules : StoreRules fun c => Retains x l σ c where
  pure := pure
  fail _ := fail _
  get h _ := get_bind h
  bind := bind
  onHeap f := by
    intro m a n hm hc
    cases hc
    exact hm

/-- What is written to is another variable or an item of a list, unless `x` is hidden. -/
theorem writeSlot {slot : Slot} (hslot : σ.isClear → slot.base ≠ .var x) (v : Value) :
    Retains x l σ (writeSlot slot v) := by
  induction slot generalizing v with
  | var name =>
    intro m a n hm hc
    unfold Exec.writeSlot Exec.assign at hc
    split at hc
    · next s hs =>
      cases hc
      exact hm.assign hs fun hσ he => hslot hσ (congrArg Slot.var he)
    · cases hc
  | item c i => exact get_bind fun m => (ofExcept _).bind fun k => rules.modifyHeap _
  | char owner i ih =>
    refine (rules.readSlot owner).bind fun w => ?_
    split
    · exact (ofExcept _).bind fun c => (ofExcept _).bind fun k => ih hslot _
    · exact fail _

theorem updateSlot {slot : Slot} (hslot : σ.isClear → slot.base ≠ .var x) (f : Value → Except Cause Value) :
    Retains x l σ (updateSlot slot f) :=
  (rules.readSlot slot).bind fun _ => (ofExcept _).bind fun _ => (writeSlot hslot _).bind fun _ => pure _

theorem sequence {run : Stmt → Exec Flow} {body : List Stmt} (hrun : ∀ s ∈ body, Retains x l σ (run s)) :
    Retains x l σ (sequence run body) := by
  induction body with
  | nil => exact pure _
  | cons s rest ih =>
    refine (hrun s List.mem_cons_self).bind fun flow => ?_
    cases flow with
    | normal => exact ih fun t ht => hrun t (List.mem_cons_of_mem s ht)
    | _ => exact pure _

theorem repeatWhile {cond : Exec Bool} {body : Exec Flow} {next : Exec Unit} (hcond : Retains x l σ cond)
    (hbody : Retains x l σ body) (hnext : Retains x l σ next) (rounds : Nat) :
    Retains x l σ (repeatWhile cond body next rounds) := by
  induction rounds with
  | zero => exact outOfFuel
  | succ rounds ih =>
    refine hcond.bind fun go => ?_
    cases go with
    | false => exact pure _
    | true =>
      refine hbody.bind fun flow => ?_
      cases flow.loopExit? with
      | some last => exact pure last
      | none => exact hnext.bind fun _ => ih

/-- In the scope the variable may come to be hidden; when the scope is left, it stands as before. -/
theorem inScope {c : Exec Flow} (h : ∀ {m : Machine} {flow : Flow} {n : Machine},
    m.stack.Sees x (.list l) σ.inside → c m = .ok flow n → n.stack.popScope.Sees x (.list l) σ) :
    Retains x l σ (inScope c) := by
  intro m flow n hm hc
  obtain ⟨_, p, hpush, hc⟩ := ok_of_bind hc
  cases hpush
  obtain ⟨flow', o, ho, hpop⟩ := ok_of_bind hc
  cases hpop
  exact h (hm.updateCurrent fun _ hf => hf.pushScope) ho

/-- So it does if it stays visible, or hidden. -/
theorem inScope_inside {c : Exec Flow} (h : Retains x l σ.inside c) : Retains x l σ (Exec.inScope c) :=
  inScope fun hm hc => (h hm hc).updateCurrent fun _ hf => hf.popScope

end Retains

/-! ## Expressions -/

/-- The place of an element is no variable, and no character of `x` while `x` is a visible list. -/
theorem base_elementSlot {k : Nat} {m n : Machine} {owner slot : Slot} {i : Int}
    (hm : m.stack.Sees x (.list l) (.clear k)) (howner : owner.base = .var x → owner = .var x)
    (hc : elementSlot owner i m = .ok slot n) : slot.base ≠ .var x := by
  obtain ⟨v, o, hread, hc⟩ := ok_of_bind hc
  cases v with
  | list c =>
    cases hc
    simp [Slot.base]
  | str s =>
    cases hc
    intro hbase
    obtain rfl := howner hbase
    cases (lookup_of_some hm.lookup).symm.trans hread
  | _ => cases hc

/-- What spares `x` keeps its list. -/
structure Meaning.Retains (x : String) (l : CellId) (p : Meaning) : Prop where
  value {m n : Machine} {v : Value} : p.eval (.var x) m = .ok v n → m.stack.lookup x = some v
  place {m n : Machine} {slot : Slot} : p.resolve (.var x) m = .ok slot n → slot = .var x
  base {k : Nat} {e : Expr} {m n : Machine} {slot : Slot} : m.stack.Sees x (.list l) (.clear k) → e.spares x →
    p.resolve e m = .ok slot n → slot.base = .var x → e = .var x
  eval {σ : Sight} (e : Expr) : (σ.isClear → e.spares x) → Exec.Retains x l σ (p.eval e)
  resolve {σ : Sight} (e : Expr) : (σ.isClear → e.spares x) → Exec.Retains x l σ (p.resolve e)
  call {σ : Sight} (name : String) (args : List Value) : Exec.Retains x l σ (p.call name args)
  run {σ : Sight} (s : Stmt) : (σ.isClear → s.spares x) → (x ∈ s.declared → σ.isCovered) → Exec.Retains x l σ (p.run s)
  declares {k : Nat} {s : Stmt} {m n : Machine} {flow : Flow} : s.spares x → x ∈ s.declared →
    m.stack.Sees x (.list l) (.clear (k + 1)) → p.run s m = .ok flow n → n.stack.Sees x (.list l) (.hidden k 0)

namespace Meaning.Retains

section

variable {p : Meaning} (h : p.Retains x l)
include h

theorem evals {es : List Expr} (hes : σ.isClear → Instrumented.allSpare x es) : Exec.Retains x l σ (es.mapM p.eval) :=
  Exec.Retains.rules.mapM fun e he => h.eval e fun hσ => Instrumented.allSpare_iff.mp (hes hσ) e he

theorem truth {cond : Expr} (hcond : σ.isClear → cond.spares x) : Exec.Retains x l σ (truth p cond) :=
  (h.eval cond hcond).bind fun _ => .pure _

theorem literal {items : List Expr} (hitems : σ.isClear → Instrumented.allSpare x items) :
    Exec.Retains x l σ (literal p items) := by
  refine (Exec.Retains.rules.mapM fun e he => ?_).bind fun _ => Exec.Retains.rules.newList _
  exact (h.eval e fun hσ => Instrumented.allSpare_iff.mp (hitems hσ) e he).bind fun v => Exec.Retains.rules.copy v

theorem filled {size fill : Expr} (hsize : σ.isClear → size.spares x) (hfill : σ.isClear → fill.spares x) :
    Exec.Retains x l σ (filled p size fill) := by
  refine (h.eval size hsize).bind fun w => (Exec.Retains.ofExcept _).bind fun n => ?_
  exact (h.eval fill hfill).bind fun v => (Exec.Retains.rules.onHeap _).bind fun _ =>
    Exec.Retains.rules.newList _

theorem binary (op : BinOp) {left right : Expr} (hleft : σ.isClear → left.spares x)
    (hright : σ.isClear → right.spares x) : Exec.Retains x l σ (binary p op left right) := by
  refine (h.eval left hleft).bind fun v => ?_
  refine afterLeft_rule (Q := fun f => Exec.Retains x l σ (f p)) op v right (fun b => .pure _) ?_ ?_
  · exact (h.truth hright).bind fun _ => .pure _
  · exact (h.eval right hright).bind fun r => .get_bind fun m => .ofExcept _

/-- A place is resolved to a variable by its name only. -/
theorem base_ne {e : Expr} (he : σ.isClear → e.spares x) (hne : σ.isClear → e ≠ .var x) {m n : Machine} {slot : Slot}
    (hm : m.stack.Sees x (.list l) σ) (hc : p.resolve e m = .ok slot n) : σ.isClear → slot.base ≠ .var x := by
  intro hσ
  cases σ with
  | clear k => exact fun hbase => hne hσ (h.base hm (he hσ) hc hbase)
  | hidden k n => cases hσ

theorem assignment {target : Place} (op : Option BinOp) {value : Expr} (htarget : σ.isClear → target.spares x)
    (hvar : σ.isClear → !target.isVar x) (hvalue : σ.isClear → value.spares x) :
    Exec.Retains x l σ (assignment p target op value) := by
  have hplace : σ.isClear → target.toExpr.spares x := fun hσ => target.spares_toExpr x ▸ htarget hσ
  intro m v n hm hc
  obtain ⟨slot, o, hslot, hc⟩ := ok_of_bind hc
  have hbase := h.base_ne hplace (fun hσ => Place.toExpr_ne_var (hvar hσ)) hm hslot
  have hwrite : Exec.Retains x l σ (p.eval value >>= fun v => stored slot op v >>= fun new =>
      writeSlot slot new >>= fun _ => recordRoot target.root? >>= fun _ => pure new) :=
    (h.eval value hvalue).bind fun v => (Exec.Retains.rules.stored slot op v).bind fun new =>
      (Exec.Retains.writeSlot hbase new).bind fun _ => (Exec.Retains.still (.recordRoot _)).bind fun _ => .pure _
  exact hwrite (h.resolve _ hplace hm hslot) hc

/-- A list has no steps. -/
theorem stepping {target : Place} (step : Instrumented.Step) (before : Bool)
    (htarget : σ.isClear → target.spares x) : Exec.Retains x l σ (stepping p target step before) := by
  have hplace : σ.isClear → target.toExpr.spares x := fun hσ => target.spares_toExpr x ▸ htarget hσ
  intro m v n hm hc
  obtain ⟨slot, o, hslot, hc⟩ := ok_of_bind hc
  obtain ⟨both, q, hupdate, hc⟩ := ok_of_bind hc
  have ho := h.resolve _ hplace hm hslot
  have hq : q.stack.Sees x (.list l) σ := by
    by_cases hvar : σ.isClear ∧ target.toExpr = .var x
    · cases σ with
      | clear k =>
        rw [hvar.2] at hslot
        obtain rfl := h.place hslot
        obtain ⟨old, r, hread, hupdate⟩ := ok_of_bind hupdate
        cases (lookup_of_some ho.lookup).symm.trans hread
        cases hupdate
      | hidden k n => cases hvar.1
    · exact Exec.Retains.updateSlot (h.base_ne hplace (fun hσ he => hvar ⟨hσ, he⟩) hm hslot) _ ho hupdate
  exact (Exec.Retains.still (.recordRoot _)).bind (fun _ => .pure _) hq hc

theorem indexing {base index : Expr} (hbase : σ.isClear → base.spares x) (hindex : σ.isClear → index.spares x) :
    Exec.Retains x l σ (indexing p base index) := by
  refine (h.eval base hbase).bind fun container => (h.eval index hindex).bind fun w => ?_
  exact (Exec.Retains.ofExcept _).bind fun i => .get_bind fun m => .ofExcept _

theorem onString (op : ContainerOp) {target : Expr} (s : String) (args : List Value)
    (htarget : σ.isClear → target.spares x) (hvar : σ.isClear → target ≠ .var x) :
    Exec.Retains x l σ (onString p op target s args) := by
  refine (Exec.Retains.ofExcept _).bind fun both => ?_
  obtain ⟨result, changed⟩ := both
  cases changed with
  | none => exact (Exec.Retains.pure ()).bind fun _ => .pure _
  | some t =>
    intro m v n hm hc
    obtain ⟨slot, o, hslot, hc⟩ := ok_of_bind hc
    have hwrite : Exec.Retains x l σ (writeSlot slot (.str t) >>= fun _ => pure result) :=
      (Exec.Retains.writeSlot (h.base_ne htarget hvar hm hslot) _).bind fun _ => .pure _
    exact hwrite (h.resolve target htarget hm hslot) hc

theorem operation (op : ContainerOp) {target : Expr} {args : List Expr} (htarget : σ.isClear → target.spares x)
    (hargs : σ.isClear → Instrumented.allSpare x args) : Exec.Retains x l σ (operation p op target args) := by
  intro m v n hm hc
  obtain ⟨container, o, hcontainer, hc⟩ := ok_of_bind hc
  have hrecord (result : Value) : Exec.Retains x l σ
      (recordRoot (Expr.container op target args).probe? >>= fun _ => pure result) :=
    (Exec.Retains.still (.recordRoot _)).bind fun _ => .pure _
  refine (h.evals hargs).bind (fun values => ?_) (h.eval target htarget hm hcontainer) hc
  cases container with
  | list c => exact (Exec.Retains.rules.listOp op c values).bind hrecord
  | str s =>
    -- A visible `x` is a list, so the string is another one.
    refine (h.onString op s values htarget fun hσ he => ?_).bind hrecord
    cases σ with
    | clear k =>
      rw [he] at hcontainer
      cases hm.lookup.symm.trans (h.value hcontainer)
    | hidden k n => cases hσ
  | _ => exact (Exec.Retains.fail _).bind hrecord

theorem evalWith {e : Expr} (he : σ.isClear → e.spares x) : Exec.Retains x l σ (evalWith p e) := by
  have hpair {a b : Bool} (hab : σ.isClear → (a && b) = true) : (σ.isClear → a) ∧ (σ.isClear → b) :=
    ⟨fun hσ => (Bool.and_eq_true_iff.mp (hab hσ)).1, fun hσ => (Bool.and_eq_true_iff.mp (hab hσ)).2⟩
  cases e with
  | int | float | bool | str | undefined => exact .pure _
  | var name => exact Exec.Retains.rules.lookup name
  | list items => exact h.literal he
  | fill size fill => exact h.filled (hpair he).1 (hpair he).2
  | binary op left right => exact h.binary op (hpair he).1 (hpair he).2
  | neg operand => exact (h.eval operand he).bind fun _ => .ofExcept _
  | not operand =>
    have hoperand : σ.isClear → operand.spares x := he
    exact (h.truth hoperand).bind fun _ => .pure _
  | ternary cond yes no =>
    refine (h.truth (hpair he).1).bind fun b => ?_
    cases b with
    | true => exact h.eval yes (hpair (hpair he).2).1
    | false => exact h.eval no (hpair (hpair he).2).2
  | assign target op value =>
    exact h.assignment op (hpair (hpair he).2).1 (hpair he).1 (hpair (hpair he).2).2
  | update target step before => exact h.stepping step before he
  | index base index => exact h.indexing (hpair he).1 (hpair he).2
  | call name args => exact (h.evals he).bind fun vs => h.call name vs
  | container op target args => exact h.operation op (hpair he).1 (hpair he).2

theorem resolveWith {e : Expr} (he : σ.isClear → e.spares x) : Exec.Retains x l σ (resolveWith p e) := by
  cases e with
  | var name => exact .pure _
  | index base index =>
    have hparts (hσ : σ.isClear) := Bool.and_eq_true_iff.mp (he hσ)
    refine (h.resolve base fun hσ => (hparts hσ).1).bind fun owner => ?_
    exact (h.eval index fun hσ => (hparts hσ).2).bind fun w => (Exec.Retains.ofExcept _).bind fun i =>
      Exec.Retains.rules.elementSlot owner i
  | _ => exact .fail _

theorem base_resolveWith {k : Nat} {e : Expr} {m n : Machine} {slot : Slot}
    (hm : m.stack.Sees x (.list l) (.clear k)) (he : e.spares x) (hc : Exec.resolveWith p e m = .ok slot n)
    (hbase : slot.base = .var x) : e = .var x := by
  cases e with
  | var name =>
    cases hc
    exact congrArg Expr.var (Slot.var.inj hbase)
  | index base index =>
    obtain ⟨hbasespares, hindex⟩ := Bool.and_eq_true_iff.mp he
    obtain ⟨owner, o, howner, hc⟩ := ok_of_bind hc
    obtain ⟨w, q, hw, hc⟩ := ok_of_bind hc
    obtain ⟨i, r, hi, hc⟩ := ok_of_bind hc
    have hr : r.stack.Sees x (.list l) (.clear k) := Exec.Retains.ofExcept _
      (h.eval index (fun _ => hindex) (h.resolve base (fun _ => hbasespares) hm howner) hw) hi
    refine absurd hbase (base_elementSlot hr (fun hvar => ?_) hc)
    obtain rfl := h.base hm hbasespares howner hvar
    exact h.place howner
  | _ => cases hc

/-! ## Statements -/

theorem declaration {name : String} {init : Expr} (byRef : Bool) (hinit : σ.isClear → init.spares x)
    (hname : name = x → σ.isCovered) : Exec.Retains x l σ (declaration p name init byRef) := by
  have hdeclare (w : Value) : Exec.Retains x l σ (modifyStack (·.declare name w) >>= fun _ => recordSet name) := by
    refine Exec.Retains.bind (fun m a n hm hc => ?_) fun _ => .still (.recordSet name)
    cases hc
    exact hm.updateCurrent fun _ hf => hf.declare hname w
  refine (h.eval init hinit).bind fun v => ?_
  cases byRef with
  | true => exact hdeclare v
  | false => exact (Exec.Retains.rules.copy v).bind hdeclare

theorem perform {action : Action} (hoperands : σ.isClear → Instrumented.allSpare x action.operands)
    (hdeclared : x ∈ action.declared → σ.isCovered) : Exec.Retains x l σ (perform p action) := by
  cases action with
  | declare name init byRef =>
    refine h.declaration byRef (fun hσ => ?_) fun he => hdeclared (he ▸ List.mem_singleton_self name)
    exact Instrumented.allSpare_iff.mp (hoperands hσ) init (List.mem_singleton_self init)
  | eval e =>
    refine (h.eval e fun hσ => ?_).bind fun _ => .pure _
    exact Instrumented.allSpare_iff.mp (hoperands hσ) e (List.mem_singleton_self e)
  | log parts =>
    refine (Exec.Retains.rules.mapM fun e he => ?_).bind fun texts => .still (.recordLog _)
    exact (h.eval e fun hσ => Instrumented.allSpare_iff.mp (hoperands hσ) e he).bind fun v => .get_bind fun m => .pure _
  | printf format args =>
    have hparts (hσ : σ.isClear) := Bool.and_eq_true_iff.mp (hoperands hσ)
    refine (h.eval format fun hσ => (hparts hσ).1).bind fun v => ?_
    cases v with
    | str text =>
      exact (h.evals fun hσ => (hparts hσ).2).bind fun values => .get_bind fun m =>
        (Exec.Retains.ofExcept _).bind fun _ => .still (.recordLog _)
    | _ => exact .fail _
  | unsupported text reason => exact .fail _

/-- In a scope, the declaration of another variable `x` hides a visible one. -/
theorem perform_declares {k : Nat} {action : Action} {m n : Machine} {u : Unit}
    (hoperands : Instrumented.allSpare x action.operands) (hdeclared : x ∈ action.declared)
    (hm : m.stack.Sees x (.list l) (.clear (k + 1))) (hc : Exec.perform p action m = .ok u n) :
    n.stack.Sees x (.list l) (.hidden k 0) := by
  cases action with
  | declare name init byRef =>
    obtain rfl := List.mem_singleton.mp hdeclared
    have hinit : init.spares x := Instrumented.allSpare_iff.mp hoperands init (List.mem_singleton_self init)
    have hhide (w : Value) {q : Machine} (hq : q.stack.Sees x (.list l) (.clear (k + 1)))
        (hc : (modifyStack (·.declare x w) >>= fun _ => recordSet x) q = .ok u n) :
        n.stack.Sees x (.list l) (.hidden k 0) := by
      obtain ⟨_, r, hr, hc⟩ := ok_of_bind hc
      cases hr
      exact Exec.Retains.still (.recordSet x) (hq.updateCurrent fun _ hf => hf.declare_self w) hc
    obtain ⟨v, o, hv, hc⟩ := ok_of_bind hc
    have ho := h.eval init (fun _ => hinit) hm hv
    cases byRef with
    | true => exact hhide v ho hc
    | false =>
      obtain ⟨w, q, hw, hc⟩ := ok_of_bind hc
      exact hhide w (Exec.Retains.rules.copy v ho hw) hc
  | _ => cases hdeclared

/-- At the end of a block `x` is visible, or hidden by the block. -/
theorem sequence_block {k : Nat} {body : List Stmt} {m n : Machine} {flow : Flow}
    (hbody : Instrumented.blockSpares x body) (hm : m.stack.Sees x (.list l) (.clear (k + 1)))
    (hc : Exec.sequence p.run body m = .ok flow n) :
    n.stack.Sees x (.list l) (.clear (k + 1)) ∨ n.stack.Sees x (.list l) (.hidden k 0) := by
  induction body generalizing m with
  | nil =>
    cases hc
    exact .inl hm
  | cons s rest ih =>
    obtain ⟨hs, hrest⟩ := Bool.and_eq_true_iff.mp hbody
    obtain ⟨flow', o, ho, hc⟩ := ok_of_bind hc
    by_cases hdeclared : x ∈ s.declared
    · -- From here on the name means another variable.
      rw [if_pos hdeclared] at hrest
      have hhidden := h.declares hs hdeclared hm ho
      have hothers : Exec.Retains x l (.hidden k 0) (Exec.sequence p.run rest) := .sequence fun t ht =>
        h.run t nofun fun hx => absurd (List.mem_flatMap.mpr ⟨t, ht, hx⟩) (of_decide_eq_true hrest)
      cases flow' with
      | normal => exact .inr (hothers hhidden hc)
      | _ =>
        cases hc
        exact .inr hhidden
    · rw [if_neg hdeclared] at hrest
      have hclear := h.run s (fun _ => hs) (fun hx => absurd hx hdeclared) hm ho
      cases flow' with
      | normal => exact ih hrest hclear hc
      | _ =>
        cases hc
        exact .inl hclear

theorem block {body : List Stmt} (hbody : σ.isClear → Instrumented.blockSpares x body) :
    Exec.Retains x l σ (block p body) := by
  cases σ with
  | clear k =>
    refine .inScope fun hm hc => ?_
    rcases h.sequence_block (hbody rfl) hm hc with hn | hn
    · exact hn.updateCurrent fun _ hf => hf.popScope
    · exact hn.updateCurrent fun _ hf => hf.popScope_hidden
  | hidden k n => exact .inScope_inside (.sequence fun s _ => h.run s nofun fun _ => rfl)

theorem forInit (env : Env) {init : Option (Nat × Action)}
    (hinit : σ.isClear → init.all fun i => Instrumented.allSpare x i.2.operands)
    (hdeclared : x ∈ Instrumented.initDeclared init → σ.isCovered) : Exec.Retains x l σ (forInit p env init) := by
  cases init with
  | none => exact .pure ()
  | some first => exact (Exec.Retains.still (.begin env first.1 false)).bind fun _ => h.perform hinit hdeclared

/-- The rounds of a `for` statement. -/
theorem rounds (env : Env) {cond update : Option Expr} {body : List Stmt}
    (hparts : σ.isClear → Instrumented.allSpare x (cond.toList ++ update.toList))
    (hbody : σ.isClear → Instrumented.blockSpares x body) (header rounds : Nat) :
    Exec.Retains x l σ (Exec.repeatWhile (forCond p header cond) (Exec.block p body) (forNext p env header update)
      rounds) := by
  have hpart {e : Expr} (he : e ∈ cond.toList ++ update.toList) : σ.isClear → e.spares x := fun hσ =>
    Instrumented.allSpare_iff.mp (hparts hσ) e he
  refine .repeatWhile ((Exec.Retains.still (.setLine header)).bind fun _ => ?_) (h.block hbody)
    ((Exec.Retains.still (.setLine header)).bind fun _ => ?_) rounds
  · cases cond with
    | none => exact .pure true
    | some e => exact h.truth (hpart (List.mem_append_left _ (List.mem_singleton_self e)))
  · cases update with
    | none => exact (Exec.Retains.pure ()).bind fun _ => .still (.checkEvents env)
    | some e =>
      refine Exec.Retains.bind ?_ fun _ => .still (.checkEvents env)
      exact (h.eval e (hpart (List.mem_append_right _ (List.mem_singleton_self e)))).bind fun _ => .pure ()

theorem forLoop (env : Env) {init : Option (Nat × Action)} {cond update : Option Expr} {body : List Stmt}
    (hinit : σ.isClear → init.all fun i => Instrumented.allSpare x i.2.operands)
    (hrest : σ.isClear → (decide (x ∈ Instrumented.initDeclared init) ||
      (Instrumented.allSpare x (cond.toList ++ update.toList) && Instrumented.blockSpares x body)) = true)
    (count : Nat) :
    Exec.Retains x l σ (Exec.inScope do
      Exec.forInit p env init
      let header := (← get).line
      Exec.repeatWhile (forCond p header cond) (Exec.block p body) (forNext p env header update) count) := by
  by_cases hhides : σ.isClear ∧ x ∈ Instrumented.initDeclared init
  · cases σ with
    | hidden k n => cases hhides.1
    | clear k =>
      refine .inScope fun {m flow n} hm hc => ?_
      obtain ⟨_, o, ho, hc⟩ := ok_of_bind hc
      have hhidden : o.stack.Sees x (.list l) (.hidden k 0) := by
        cases init with
        | none => cases hhides.2
        | some first =>
          obtain ⟨_, q, hq, ho⟩ := ok_of_bind ho
          exact h.perform_declares (hinit rfl) hhides.2 (Exec.Retains.still (.begin env first.1 false) hm hq) ho
      have hn := h.rounds (σ := .hidden k 0) env nofun nofun o.line count hhidden hc
      exact hn.updateCurrent fun _ hf => hf.popScope_hidden
  · have hinside : σ.inside.isClear → σ.isClear := by cases σ <;> exact id
    have hspares (hσ : σ.inside.isClear) :=
      Bool.and_eq_true_iff.mp ((Bool.or_eq_true_iff.mp (hrest (hinside hσ))).resolve_left fun hd =>
        hhides ⟨hinside hσ, of_decide_eq_true hd⟩)
    refine .inScope_inside ((h.forInit env (fun hσ => hinit (hinside hσ)) fun hd => ?_).bind fun _ =>
      .get_bind fun m => h.rounds env (fun hσ => (hspares hσ).1) (fun hσ => (hspares hσ).2) m.line count)
    cases σ with
    | clear k => exact absurd ⟨rfl, hd⟩ hhides
    | hidden k n => rfl

theorem returning (env : Env) {value : Option Expr} (hvalue : σ.isClear → Instrumented.allSpare x value.toList) :
    Exec.Retains x l σ (returning p env value) := by
  have hreturn (v : Value) : Exec.Retains x l σ (get >>= fun m : Machine => recordReturn v m.line >>= fun _ =>
      checkEvents env >>= fun _ => Pure.pure (Flow.ret v)) :=
    .get_bind fun m => (Exec.Retains.still (.recordReturn v m.line)).bind fun _ =>
      (Exec.Retains.still (.checkEvents env)).bind fun _ => .pure _
  cases value with
  | none => exact hreturn .undefined
  | some e =>
    refine (h.eval e fun hσ => ?_).bind hreturn
    exact Instrumented.allSpare_iff.mp (hvalue hσ) e (List.mem_singleton_self e)

theorem runBegun (env : Env) (count : Nat) {s : Stmt} (hs : σ.isClear → s.spares x)
    (hdeclared : x ∈ s.declared → σ.isCovered) : Exec.Retains x l σ (runBegun p env count s) := by
  have hloop {cond : Expr} {body : List Stmt} (hcond : σ.isClear → cond.spares x)
      (hbody : σ.isClear → Instrumented.blockSpares x body) :
      Exec.Retains x l σ (Exec.repeatWhile (Exec.truth p cond) (Exec.block p body) (checkEvents env) count) :=
    .repeatWhile (h.truth hcond) (h.block hbody) (.still (.checkEvents env)) count
  have hpair {a b : Bool} (hab : σ.isClear → (a && b) = true) : (σ.isClear → a) ∧ (σ.isClear → b) :=
    ⟨fun hσ => (Bool.and_eq_true_iff.mp (hab hσ)).1, fun hσ => (Bool.and_eq_true_iff.mp (hab hσ)).2⟩
  cases s with
  | act line step action => exact (h.perform hs hdeclared).bind fun _ => .pure _
  | ifElse line step cond yes no =>
    refine (h.truth (hpair hs).1).bind fun b => ?_
    cases b with
    | true => exact h.block (hpair (hpair hs).2).1
    | false => exact h.block (hpair (hpair hs).2).2
  | whileLoop line step cond body => exact hloop (hpair hs).1 (hpair hs).2
  | doWhile line step body cond =>
    refine (h.block (hpair hs).2).bind fun flow => ?_
    cases flow.loopExit? with
    | some last => exact .pure last
    | none => exact (Exec.Retains.still (.checkEvents env)).bind fun _ => hloop (hpair hs).1 (hpair hs).2
  | forLoop line step init cond update body => exact h.forLoop env (hpair hs).1 (hpair hs).2 count
  | block line step body => exact h.block hs
  | breakLoop line step | continueLoop line step => exact .pure _
  | ret line step value => exact h.returning env hs

theorem runWith (env : Env) (count : Nat) {s : Stmt} (hs : σ.isClear → s.spares x)
    (hdeclared : x ∈ s.declared → σ.isCovered) : Exec.Retains x l σ (runWith p env count s) :=
  (Exec.Retains.still (.begin env s.line s.step)).bind fun _ => h.runBegun env count hs hdeclared

theorem runWith_declares (env : Env) (count : Nat) {k : Nat} {s : Stmt} {m n : Machine} {flow : Flow}
    (hs : s.spares x) (hdeclared : x ∈ s.declared) (hm : m.stack.Sees x (.list l) (.clear (k + 1)))
    (hc : Exec.runWith p env count s m = .ok flow n) : n.stack.Sees x (.list l) (.hidden k 0) := by
  obtain ⟨_, o, ho, hc⟩ := ok_of_bind hc
  cases s with
  | act line step action =>
    obtain ⟨_, q, hq, hc⟩ := ok_of_bind hc
    cases hc
    exact h.perform_declares hs hdeclared (Exec.Retains.still (.begin env line step) hm ho) hq
  | _ => cases hdeclared

end

end Meaning.Retains

/-- What spares a variable keeps its list, by induction on the fuel. -/
theorem retains_meaning (env : Env) (fuel : Nat) : (meaning env fuel).Retains x l := by
  induction fuel with
  | zero => exact {
      value := fun hc => by cases hc
      place := fun hc => by cases hc
      base := fun _ _ hc => by cases hc
      eval := fun _ _ => .outOfFuel
      resolve := fun _ _ => .outOfFuel
      call := fun _ _ => .outOfFuel
      run := fun _ _ _ => .outOfFuel
      declares := fun _ _ _ hc => by cases hc }
  | succ fuel h => exact {
      value := fun {m n v} hc => by
        cases hx : m.stack.lookup x with
        | some w =>
          cases (lookup_of_some hx).symm.trans hc
          rfl
        | none => cases (lookup_of_none hx).symm.trans hc
      place := fun hc => by
        cases hc
        rfl
      base := h.base_resolveWith
      eval := fun e he => h.evalWith he
      resolve := fun e he => h.resolveWith he
      call := fun name args m v n hm hc => by
        have hcall : (meaning env (fuel + 1)).call name args m = .ok v n := hc
        exact hm.of_frames (frames_of_call hcall)
      run := fun s hs hdeclared => h.runWith env fuel hs hdeclared
      declares := h.runWith_declares env fuel }

end Exec

end CallTrace
