import CallTrace.Proofs.Evaluation.Silent
import CallTrace.Proofs.Storage

/-! # Expressions that change nothing

* `Expr.idle`: an expression that writes to nothing, calls nothing and makes no list.
* `Exec.Unmoving c`: a computation that leaves the state as it is when it gives a value.
* `Exec.unmoving_eval`, `Exec.unmoving_resolve`: an idle expression is evaluated so, and a place whose indices are idle
  is resolved so.
-/

namespace CallTrace
set_option autoImplicit false

open Instrumented (Expr ContainerOp)

namespace Instrumented

mutual

/-- Whether an expression writes to nothing, calls nothing and makes no list. -/
def Expr.idle : Expr → Bool
  | .binary _ left right => left.idle && right.idle
  | .neg e => e.idle
  | .not e => e.idle
  | .ternary cond yes no => cond.idle && (yes.idle && no.idle)
  | .index base index => base.idle && index.idle
  | .container op target args => !op.mutates && (target.idle && allIdle args)
  | .int _ | .float _ | .bool _ | .str _ | .undefined | .var _ => true
  | .list _ | .fill _ _ | .assign _ _ _ | .update _ _ _ | .call _ _ => false

def allIdle : List Expr → Bool
  | [] => true
  | e :: es => e.idle && allIdle es

end

theorem allIdle_iff {es : List Expr} : allIdle es ↔ ∀ e ∈ es, e.idle := by
  induction es with
  | nil => simp [allIdle]
  | cons e es ih => simp [allIdle, ih]

/-- Whether the index expressions of a place are idle. -/
def Expr.idleIndices : Expr → Bool
  | .index base i => base.idleIndices && i.idle
  | _ => true

end Instrumented

namespace Exec

/-! ## Computations that change nothing -/

/-- A computation that leaves the state as it is when it gives a value. -/
def Unmoving {α : Type} (c : Exec α) : Prop := ∀ ⦃m a n⦄, c m = .ok a n → n = m

namespace Unmoving

variable {α β : Type}

theorem pure (a : α) : Unmoving (Pure.pure a) := by
  intro m b n h
  cases h
  rfl

theorem get : Unmoving (MonadState.get : Exec Machine) := by
  intro m b n h
  cases h
  rfl

theorem fail (cause : Cause) : Unmoving (Exec.fail cause : Exec α) := fun _ _ _ h => nomatch h

theorem ofExcept (r : Except Cause α) : Unmoving (Exec.ofExcept r) := fun _ _ _ h => (ok_of_ofExcept h).2

theorem bind {c : Exec α} {f : α → Exec β} (h : Unmoving c) (hf : ∀ a, Unmoving (f a)) : Unmoving (c >>= f) := by
  intro m b n hb
  obtain ⟨a, o, ha, hb⟩ := ok_of_bind hb
  exact (hf a hb).trans (h ha)

theorem rules : ReadRules @Unmoving where
  pure := pure
  fail _ := fail _
  get h _ := get.bind h
  bind := bind

theorem onString (p : Meaning) {op : ContainerOp} (hop : op.mutates = false) (target : Expr) (s : String)
    (args : List Value) : Unmoving (onString p op target s args) := by
  refine onString_rule p op target s args fail pure fun result t hchanges => ?_
  rw [hop] at hchanges
  cases hchanges

end Unmoving

/-! ## Expressions -/

section

variable {p : Meaning} (hp : ∀ e : Expr, e.idle → Unmoving (p.eval e))
include hp

theorem unmoving_truth {cond : Expr} (hcond : cond.idle) : Unmoving (truth p cond) :=
  (hp cond hcond).bind fun _ => .pure _

theorem unmoving_binary (op : BinOp) {left right : Expr} (hleft : left.idle) (hright : right.idle) :
    Unmoving (binary p op left right) := by
  refine (hp left hleft).bind fun l => ?_
  refine afterLeft_rule (Q := fun f => Unmoving (f p)) op l right (fun b => .pure _) ?_ ?_
  · exact (unmoving_truth hp hright).bind fun b => .pure _
  · exact (hp right hright).bind fun r => Unmoving.get.bind fun m => .ofExcept _

theorem unmoving_operation {op : ContainerOp} (hop : op.mutates = false) {target : Expr} {args : List Expr}
    (htarget : target.idle) (hargs : Instrumented.allIdle args) : Unmoving (operation p op target args) := by
  have hargs : ∀ e ∈ args, e.idle := Instrumented.allIdle_iff.mp hargs
  have hprobe : (Expr.container op target args).probe? = none := by simp [Expr.probe?, hop]
  have hrecord (v : Value) : Unmoving (recordRoot (Expr.container op target args).probe? >>= fun _ =>
      Pure.pure v) := by
    rw [hprobe]
    exact (Unmoving.pure ()).bind fun _ => .pure v
  refine (hp target htarget).bind fun container => ?_
  refine (Unmoving.rules.mapM fun e he => hp e (hargs e he)).bind fun values => ?_
  cases container with
  | list c => exact (Unmoving.rules.listOp_of_not_mutates hop c values).bind hrecord
  | str s => exact (Unmoving.onString p hop target s values).bind hrecord
  | _ => exact (Unmoving.fail _).bind hrecord

end

/-- An expression that writes to nothing, calls nothing and makes no list leaves the state as it is. -/
theorem unmoving_eval (env : Env) (fuel : Nat) {e : Expr} (he : e.idle) : Unmoving ((meaning env fuel).eval e) := by
  induction fuel generalizing e with
  | zero => exact fun _ _ _ h => nomatch h
  | succ fuel ih =>
    have hp : ∀ e : Expr, e.idle → Unmoving ((meaning env fuel).eval e) := fun e he => ih he
    show Unmoving (evalWith (meaning env fuel) e)
    cases e with
    | int _ | float _ | bool _ | str _ | undefined => exact .pure _
    | var name => exact Unmoving.rules.lookup name
    | binary op left right =>
      obtain ⟨hleft, hright⟩ := Bool.and_eq_true_iff.mp he
      exact unmoving_binary hp op hleft hright
    | neg operand => exact (hp operand he).bind fun _ => .ofExcept _
    | not operand =>
      have hoperand : operand.idle := he
      exact (unmoving_truth hp hoperand).bind fun _ => .pure _
    | ternary cond yes no =>
      obtain ⟨hcond, hbranches⟩ := Bool.and_eq_true_iff.mp he
      obtain ⟨hyes, hno⟩ := Bool.and_eq_true_iff.mp hbranches
      refine (unmoving_truth hp hcond).bind fun b => ?_
      cases b with
      | true => exact hp yes hyes
      | false => exact hp no hno
    | index base index =>
      obtain ⟨hbase, hindex⟩ := Bool.and_eq_true_iff.mp he
      exact (hp base hbase).bind fun container => (hp index hindex).bind fun i =>
        (Unmoving.ofExcept _).bind fun k => Unmoving.get.bind fun m => .ofExcept _
    | container op target args =>
      obtain ⟨hop, hrest⟩ := Bool.and_eq_true_iff.mp he
      obtain ⟨htarget, hargs⟩ := Bool.and_eq_true_iff.mp hrest
      exact unmoving_operation hp (Bool.not_eq_true' _ ▸ hop) htarget hargs
    | list _ | fill _ _ | assign _ _ _ | update _ _ _ | call _ _ => cases he

/-- A place whose index expressions are idle is resolved without a change. -/
theorem unmoving_resolve (env : Env) (fuel : Nat) {e : Expr} (he : e.idleIndices) :
    Unmoving ((meaning env fuel).resolve e) := by
  induction fuel generalizing e with
  | zero => exact fun _ _ _ h => nomatch h
  | succ fuel ih =>
    show Unmoving (resolveWith (meaning env fuel) e)
    cases e with
    | var name => exact .pure _
    | index base index =>
      obtain ⟨hbase, hindex⟩ := Bool.and_eq_true_iff.mp he
      exact (ih hbase).bind fun owner => (unmoving_eval env fuel hindex).bind fun i =>
        (Unmoving.ofExcept _).bind fun k => Unmoving.rules.elementSlot owner k
    | _ => exact .fail _

end Exec

end CallTrace
