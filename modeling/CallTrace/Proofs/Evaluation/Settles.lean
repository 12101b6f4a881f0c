import CallTrace.Proofs.Bracketing
import CallTrace.Proofs.Evaluation.Comparison
import CallTrace.Proofs.Evaluation.Lockstep
import CallTrace.Proofs.Evaluation.Total

/-! # Computations that come to an end

Fuel runs out in two ways: it is too little for the recursion, or a loop goes on. The recursion goes down the
program text and starts anew with every call, and only so many calls are active at once.

* `Exec.Settles env fuel c m`: from the state `m` the computation does not run out of fuel, if the run reaches
  all that it begins.
* `Exec.Room env fuel size m`: in the state `m` the fuel is enough for every task that is smaller than `size`.
* `Exec.Calm env fuel`: no task that a run reaches with room for it runs out of fuel.
* `Calm.evalWith`, `Calm.resolveWith`, `Calm.callWith`, `Calm.sequence`: what is made of smaller tasks settles.
* `Settles.repeatWhile`: so does a loop if every round of it records something and ends within the limit.
-/

namespace CallTrace
set_option autoImplicit false

open Instrumented (Expr Place Action Stmt ContainerOp)

namespace Instrumented

/-- A statement stands in a body, or inside a statement that does. -/
inductive InBody (body : List Stmt) : Stmt → Prop where
  | mem {s : Stmt} (h : s ∈ body) : InBody body s
  | inner {s t : Stmt} (h : InBody body s) (ht : t ∈ s.inner) : InBody body t

theorem Stmt.sizeOf_lt_of_mem_inner (s : Stmt) {t : Stmt} (h : t ∈ s.inner) : sizeOf t < sizeOf s := by
  have hbody (body : List Stmt) (ht : t ∈ body) : sizeOf t < sizeOf body := List.sizeOf_lt_of_mem ht
  cases s with
  | ifElse line step cond yes no =>
    rw [Stmt.ifElse.sizeOf_spec]
    rcases List.mem_append.mp h with ht | ht
    · have := hbody yes ht
      omega
    · have := hbody no ht
      omega
  | whileLoop line step cond body =>
    rw [Stmt.whileLoop.sizeOf_spec]
    have := hbody body h
    omega
  | doWhile line step body cond =>
    rw [Stmt.doWhile.sizeOf_spec]
    have := hbody body h
    omega
  | forLoop line step init cond update body =>
    rw [Stmt.forLoop.sizeOf_spec]
    rcases List.mem_append.mp h with ht | ht
    · rcases init with _ | ⟨first, action⟩
      · cases ht
      · obtain rfl := List.mem_singleton.mp ht
        simp only [Stmt.act.sizeOf_spec, Option.some.sizeOf_spec, Prod.mk.sizeOf_spec, Bool.sizeOf_eq_one]
        omega
    · have := hbody body ht
      omega
  | block line step body =>
    rw [Stmt.block.sizeOf_spec]
    have := hbody body h
    omega
  | act line step action | breakLoop line step | continueLoop line step | ret line step value => cases h

theorem Place.sizeOf_toExpr (target : Place) : sizeOf target.toExpr = sizeOf target := by
  cases target <;> simp [Place.toExpr]

end Instrumented

namespace Exec

/-- The size of a task. A call has none: what it runs is no part of the call. -/
noncomputable def Task.size : Task → Nat
  | .eval e | .resolve e => sizeOf e
  | .call _ _ => 0
  | .run s => sizeOf s

section

variable {env : Env} {fuel : Nat} {m n : Machine} {α β : Type}

/-- From the state `m` the computation does not run out of fuel, if the run reaches what it begins. -/
def Settles (env : Env) (fuel : Nat) (c : Meaning → Exec α) (m : Machine) : Prop :=
  (∀ t n, (∀ x, c ((meaning env fuel).stopAt t n x) m = .error x n) → Reached env fuel t n) →
    ∀ n, c (meaning env fuel) m ≠ .error .outOfFuel n

/-- The parts of a loop. -/
structure Loop where
  cond : Exec Bool
  body : Exec Flow
  next : Exec Unit

/-- One round of a loop leads from the state `m` to the state `n`, and the loop goes on. -/
def Loop.GoesOn (l : Loop) (m n : Machine) : Prop := ∃ o flow q,
  l.cond m = .ok true o ∧ l.body o = .ok flow q ∧ flow.loopExit? = none ∧ l.next q = .ok () n

namespace Settles

theorem of_total {c : Exec α} (h : Total c) : Settles env fuel (fun _ => c) m := fun _ n => h m n

/-- Only what a computation does from the state matters. -/
theorem of_eq {c d : Meaning → Exec α} (h : Settles env fuel d n) (heq : ∀ p, c p m = d p n) :
    Settles env fuel c m := fun hreached o hc =>
  h (fun t q hstop => hreached t q fun x => (heq _).trans (hstop x)) o ((heq _).symm.trans hc)

theorem bind {c : Meaning → Exec α} {f : Meaning → α → Exec β} (hstops : Stops (meaning env fuel) c)
    (h : Settles env fuel c m)
    (hf : ∀ a n, c (meaning env fuel) m = .ok a n → Settles env fuel (fun p => f p a) n) :
    Settles env fuel (fun p => c p >>= f p) m := by
  intro hreached n he
  cases hc : c (meaning env fuel) m with
  | ok a o =>
    refine hf a o hc (fun t q hstop => hreached t q fun x => ?_) n ((bind_of_ok hc).symm.trans he)
    rcases hstops m t q with hsame | hstop'
    · exact (bind_of_ok ((hsame x).trans hc)).trans (hstop x)
    · exact bind_of_error (hstop'.stopped x)
  | error e o =>
    cases (bind_of_error hc).symm.trans he
    exact h (fun t q hstop => hreached t q fun x => bind_of_error (hstop x)) n hc

/-- A computation after which nothing runs out of fuel. -/
theorem bind_total {c : Meaning → Exec α} {f : α → Exec β} (hstops : Stops (meaning env fuel) c)
    (h : Settles env fuel c m) (hf : ∀ a, Total (f a)) : Settles env fuel (fun p => c p >>= f) m :=
  h.bind hstops fun a _ _ => .of_total (hf a)

/-- A computation that follows one which never runs out of fuel. -/
theorem total_bind {c : Exec α} {f : Meaning → α → Exec β} (h : Total c)
    (hf : ∀ a n, c m = .ok a n → Settles env fuel (fun p => f p a) n) :
    Settles env fuel (fun p => c >>= f p) m := (of_total h).bind .const hf

theorem ofExcept_bind {r : Except Cause α} {f : Meaning → α → Exec β}
    (hf : ∀ a, Settles env fuel (fun p => f p a) m) : Settles env fuel (fun p => ofExcept r >>= f p) m := by
  cases r with
  | ok a => exact hf a
  | error cause => exact fun _ _ => nofun

/-- One computation for each member of a list, with what holds of every state on the way. -/
theorem mapM {f : Meaning → α → Exec β} (good : Machine → Prop) {xs : List α}
    (hstops : ∀ a, Stops (meaning env fuel) fun p => f p a)
    (h : ∀ a ∈ xs, ∀ n, good n → Settles env fuel (fun p => f p a) n)
    (hgood : ∀ a n b o, good n → f (meaning env fuel) a n = .ok b o → good o) (hm : good m) :
    Settles env fuel (fun p => xs.mapM (f p)) m := by
  induction xs generalizing m with
  | nil => exact .of_total (.pure [])
  | cons x xs ih =>
    simp only [List.mapM_cons]
    refine (h x List.mem_cons_self m hm).bind (hstops x) fun b o hb => ?_
    have hrest := ih (fun a ha => h a (List.mem_cons_of_mem x ha)) (hgood x m b o hm hb)
    exact hrest.bind_total (.mapM hstops xs) fun _ => .pure _

theorem inScope {c : Meaning → Exec Flow} (hstops : Stops (meaning env fuel) c)
    (h : Settles env fuel c { m with stack := m.stack.pushScope }) :
    Settles env fuel (fun p => inScope (c p)) m := by
  refine total_bind (.modify _) fun _ n hn => ?_
  cases hn
  exact h.bind_total hstops fun _ => (Total.modify _).bind fun _ => .pure _

/-- A loop settles when its parts do, every round records something, and no round that goes on ends with more
events than the limit: then it has fewer rounds than events that fit. -/
theorem repeatWhile {l : Meaning → Loop} (good : Machine → Prop)
    (hcondStops : Stops (meaning env fuel) fun p => (l p).cond)
    (hbodyStops : Stops (meaning env fuel) fun p => (l p).body)
    (hnextStops : Stops (meaning env fuel) fun p => (l p).next)
    (hcond : ∀ n, good n → Settles env fuel (fun p => (l p).cond) n)
    (hbody : ∀ n o, good n → (l (meaning env fuel)).cond n = .ok true o →
      Settles env fuel (fun p => (l p).body) o)
    (hnext : ∀ n o flow q, good n → (l (meaning env fuel)).cond n = .ok true o →
      (l (meaning env fuel)).body o = .ok flow q → flow.loopExit? = none →
      Settles env fuel (fun p => (l p).next) q)
    (hround : ∀ n o, good n → (l (meaning env fuel)).GoesOn n o → good o ∧
      n.recorder.events.size < o.recorder.events.size ∧ o.recorder.events.size ≤ env.config.maxEvents)
    {rounds : Nat} (hrounds : env.config.maxEvents + 1 - m.recorder.events.size < rounds) (hm : good m) :
    Settles env fuel (fun p => repeatWhile (l p).cond (l p).body (l p).next rounds) m := by
  induction rounds generalizing m with
  | zero => exact absurd hrounds (Nat.not_lt_zero _)
  | succ rounds ih =>
    refine (hcond m hm).bind hcondStops fun b o ho => ?_
    cases b with
    | false => exact .of_total (.pure _)
    | true =>
      refine (hbody m o hm ho).bind hbodyStops fun flow q hq => ?_
      cases hexit : flow.loopExit? with
      | some flow => exact .of_total (.pure _)
      | none =>
        refine (hnext m o flow q hm ho hq hexit).bind hnextStops fun _ r hr => ?_
        obtain ⟨hgood, hgrows, hlimit⟩ := hround m r hm ⟨o, flow, q, ho, hq, hexit, hr⟩
        exact ih (by omega) hgood

end Settles

/-! ## Room -/

/-- There is fuel for every task that is smaller than `size`, for as many rounds of a loop as there may be
events, and for the calls that can still be made. -/
structure Room (env : Env) (fuel size : Nat) (m : Machine) : Prop where
  sound : m.recorder.Sound
  fits : env.config.maxEvents + size +
    (env.config.maxCallDepth - m.stack.depth) * (sizeOf env.program + 1) < fuel

/-- A statement stands in a function, and a call is active, or it stands at top level. -/
def Placed (env : Env) (s : Stmt) (m : Machine) : Prop :=
  (∃ f ∈ env.program.functions, Instrumented.InBody f.body s ∧ m.recorder.active ≠ []) ∨
    Instrumented.InBody env.program.driver s

/-- No task that a run reaches with room for it runs out of fuel. -/
def Calm (env : Env) (fuel : Nat) : Prop := ∀ t m n, Reached env fuel t m → Room env fuel (t.size + 1) m →
  (∀ s, t = .run s → Placed env s m) → (meaning env fuel).attempt t m ≠ .error .outOfFuel n

variable {size size' : Nat}

namespace Room

variable (h : Room env fuel size m)
include h

theorem mono (hsize : size' ≤ size) : Room env fuel size' m := ⟨h.sound, by have := h.fits; omega⟩

theorem of_eq (hrecorder : n.recorder = m.recorder) (hdepth : n.stack.depth = m.stack.depth) :
    Room env fuel size n := ⟨hrecorder ▸ h.sound, hdepth ▸ h.fits⟩

theorem of_ran (hn : n.recorder.Sound) (hran : Ran none m n) : Room env fuel size n :=
  ⟨hn, hran.1.depth_eq ▸ h.fits⟩

theorem of_during (hn : bracketing.During m n) : Room env fuel size n := h.of_ran hn.inv hn.rel

theorem eval {e : Expr} {v : Value} (hc : (meaning env fuel).eval e m = .ok v n) : Room env fuel size n :=
  h.of_during ((bracketed env fuel).eval e h.sound |>.of_ok hc).1

theorem resolve {e : Expr} {slot : Slot} (hc : (meaning env fuel).resolve e m = .ok slot n) :
    Room env fuel size n :=
  h.of_during ((bracketed env fuel).resolve e h.sound |>.of_ok hc).1

theorem evals {es : List Expr} {vs : List Value} (hc : es.mapM (meaning env fuel).eval m = .ok vs n) :
    Room env fuel size n :=
  h.of_during ((bracketed env fuel).evals_during (.refl h.sound) es |>.of_ok hc).1

theorem truth {e : Expr} {b : Bool} (hc : truth (meaning env fuel) e m = .ok b n) : Room env fuel size n :=
  h.of_during ((bracketed env fuel).truth_during (.refl h.sound) e |>.of_ok hc)

end Room

/-! ## Expressions -/

namespace Calm

variable (h : Calm env fuel)
include h

theorem eval {e : Expr} (he : sizeOf e < size) (hroom : Room env fuel size m) :
    Settles env fuel (fun p => p.eval e) m := fun hreached n hn =>
  h (.eval e) m n (hreached _ _ fun _ => if_pos ⟨rfl, rfl⟩) (hroom.mono he) (fun _ => nofun)
    (bind_of_error hn)

theorem resolve {e : Expr} (he : sizeOf e < size) (hroom : Room env fuel size m) :
    Settles env fuel (fun p => p.resolve e) m := fun hreached n hn =>
  h (.resolve e) m n (hreached _ _ fun _ => if_pos ⟨rfl, rfl⟩) (hroom.mono he) (fun _ => nofun)
    (bind_of_error hn)

theorem call (name : String) (args : List Value) (hsize : 0 < size) (hroom : Room env fuel size m) :
    Settles env fuel (fun p => p.call name args) m := fun hreached n hn =>
  h (.call name args) m n (hreached _ _ fun _ => if_pos ⟨rfl, rfl⟩) (hroom.mono hsize) (fun _ => nofun)
    (bind_of_error hn)

theorem run {s : Stmt} (hs : sizeOf s < size) (hroom : Room env fuel size m) (hplaced : Placed env s m) :
    Settles env fuel (fun p => p.run s) m := fun hreached n hn =>
  h (.run s) m n (hreached _ _ fun _ => if_pos ⟨rfl, rfl⟩) (hroom.mono hs)
    (fun t ht => by cases ht; exact hplaced) (bind_of_error hn)

theorem evals {es : List Expr} (hes : sizeOf es < size) (hroom : Room env fuel size m) :
    Settles env fuel (fun p => es.mapM p.eval) m :=
  .mapM (Room env fuel size) .eval
    (fun _ he _ hn => h.eval (Nat.lt_trans (List.sizeOf_lt_of_mem he) hes) hn)
    (fun _ _ _ _ hn hc => hn.eval hc) hroom

theorem truth {cond : Expr} (hcond : sizeOf cond < size) (hroom : Room env fuel size m) :
    Settles env fuel (fun p => truth p cond) m :=
  (h.eval hcond hroom).bind_total (.eval cond) fun _ => .pure _

theorem literal {items : List Expr} (hitems : sizeOf items < size) (hroom : Room env fuel size m) :
    Settles env fuel (fun p => literal p items) m := by
  have hitem (e : Expr) : Stops (meaning env fuel) fun p => p.eval e >>= fun v => copy v :=
    (Stops.eval e).bind fun _ => .const
  refine (Settles.mapM (Room env fuel size) hitem (fun e he n hn => ?_)
    (fun e n w o hn hc => ?_) hroom).bind_total (.mapM hitem items) fun _ => Total.rules.newList _
  · have hsize : sizeOf e < size := Nat.lt_trans (List.sizeOf_lt_of_mem he) hitems
    exact (h.eval hsize hn).bind_total (.eval e) Total.rules.copy
  · obtain ⟨v, q, hq, hcopy⟩ := ok_of_bind hc
    cases hcopy
    exact (hn.eval hq).of_eq rfl rfl

theorem filled {count fill : Expr} (hcount : sizeOf count < size) (hfill : sizeOf fill < size)
    (hroom : Room env fuel size m) : Settles env fuel (fun p => filled p count fill) m := by
  refine (h.eval hcount hroom).bind (.eval count) fun v n hv => ?_
  refine .ofExcept_bind fun k => ?_
  exact (h.eval hfill (hroom.eval hv)).bind_total (.eval fill) fun w =>
    (Total.rules.onHeap _).bind fun _ => Total.rules.newList _

theorem binary (op : BinOp) {left right : Expr} (hleft : sizeOf left < size) (hright : sizeOf right < size)
    (hroom : Room env fuel size m) : Settles env fuel (fun p => binary p op left right) m := by
  refine (h.eval hleft hroom).bind (.eval left) fun l n hl => ?_
  refine afterLeft_rule (Q := fun f => Settles env fuel f n) op l right (fun b => .of_total (.pure _)) ?_ ?_
  · exact (h.truth hright (hroom.eval hl)).bind_total ((Stops.eval right).bind fun _ => .const) fun _ => .pure _
  · exact (h.eval hright (hroom.eval hl)).bind_total (.eval right) fun r => Total.get.bind fun _ => .ofExcept _

theorem assignment {target : Place} (op : Option BinOp) {value : Expr} (htarget : sizeOf target < size)
    (hvalue : sizeOf value < size) (hroom : Room env fuel size m) :
    Settles env fuel (fun p => assignment p target op value) m := by
  have hplace : sizeOf target.toExpr < size := by rwa [target.sizeOf_toExpr]
  refine (h.resolve hplace hroom).bind (.resolve _) fun slot n hslot => ?_
  exact (h.eval hvalue (hroom.resolve hslot)).bind_total (.eval value) fun v =>
    (Total.rules.stored slot op v).bind fun new => (Total.rules.writeSlot slot new).bind fun _ =>
    (total_recordRoot _).bind fun _ => .pure _

theorem stepping {target : Place} (step : Instrumented.Step) (before : Bool)
    (htarget : sizeOf target < size) (hroom : Room env fuel size m) :
    Settles env fuel (fun p => stepping p target step before) m := by
  have hplace : sizeOf target.toExpr < size := by rwa [target.sizeOf_toExpr]
  exact (h.resolve hplace hroom).bind_total (.resolve _) fun slot =>
    (Total.rules.updateSlot slot (supported_stepBy _)).bind fun _ => (total_recordRoot _).bind fun _ => .pure _

theorem indexing {base index : Expr} (hbase : sizeOf base < size) (hindex : sizeOf index < size)
    (hroom : Room env fuel size m) : Settles env fuel (fun p => indexing p base index) m := by
  refine (h.eval hbase hroom).bind (.eval base) fun container n hn => ?_
  exact (h.eval hindex (hroom.eval hn)).bind_total (.eval index) fun v =>
    (Total.ofExcept _).bind fun i => Total.get.bind fun _ => .ofExcept _

theorem onString (op : ContainerOp) {target : Expr} (s : String) (args : List Value)
    (htarget : sizeOf target < size) (hroom : Room env fuel size m) :
    Settles env fuel (fun p => onString p op target s args) m := by
  refine .ofExcept_bind fun ⟨result, changed⟩ => ?_
  cases changed with
  | none => exact .of_total (.pure _)
  | some s =>
    exact (h.resolve htarget hroom).bind_total (.resolve target) fun slot =>
      (Total.rules.writeSlot slot _).bind fun _ => .pure _

theorem operation (op : ContainerOp) {target : Expr} {args : List Expr} (htarget : sizeOf target < size)
    (hargs : sizeOf args < size) (hroom : Room env fuel size m) :
    Settles env fuel (fun p => operation p op target args) m := by
  refine (h.eval htarget hroom).bind (.eval target) fun container n hn => ?_
  refine (h.evals hargs (hroom.eval hn)).bind (.mapM .eval args) fun values o ho => ?_
  have hroom' := (hroom.eval hn).evals ho
  have hrecord (v : Value) : Total (recordRoot (Expr.container op target args).probe? >>= fun _ =>
      Pure.pure v) := (total_recordRoot _).bind fun _ => .pure v
  cases container
  case list c => exact .of_total ((Total.rules.listOp op c values).bind hrecord)
  case str s =>
    have hstops : Stops (meaning env fuel) fun p => Exec.onString p op target s values :=
      ((Rewriting.agrees_self env fuel _).onString op target s values).stops
    exact (h.onString op s values htarget hroom').bind_total hstops hrecord
  all_goals exact .of_total ((Total.fail _).bind hrecord)

theorem evalWith {e : Expr} (hroom : Room env fuel (sizeOf e) m) :
    Settles env fuel (fun p => evalWith p e) m := by
  have htruth (cond : Expr) : Stops (meaning env fuel) fun p => Exec.truth p cond :=
    (Stops.eval cond).bind fun _ => .const
  cases e with
  | list items =>
    rw [Expr.list.sizeOf_spec] at hroom
    exact h.literal (by omega) hroom
  | fill count fill =>
    rw [Expr.fill.sizeOf_spec] at hroom
    exact h.filled (by omega) (by omega) hroom
  | var name => exact .of_total (Total.rules.lookup name)
  | binary op left right =>
    rw [Expr.binary.sizeOf_spec] at hroom
    exact h.binary op (by omega) (by omega) hroom
  | neg operand =>
    rw [Expr.neg.sizeOf_spec] at hroom
    exact (h.eval (by omega) hroom).bind_total (.eval operand) fun _ => .ofExcept _
  | not operand =>
    rw [Expr.not.sizeOf_spec] at hroom
    exact (h.truth (by omega) hroom).bind_total (htruth operand) fun _ => .pure _
  | ternary cond yes no =>
    rw [Expr.ternary.sizeOf_spec] at hroom
    refine (h.truth (by omega) hroom).bind (htruth cond) fun b n hb => ?_
    cases b with
    | true => exact h.eval (by omega) (hroom.truth hb)
    | false => exact h.eval (by omega) (hroom.truth hb)
  | assign target op value =>
    rw [Expr.assign.sizeOf_spec] at hroom
    exact h.assignment op (by omega) (by omega) hroom
  | update target step before =>
    rw [Expr.update.sizeOf_spec] at hroom
    exact h.stepping step before (by omega) hroom
  | index base index =>
    rw [Expr.index.sizeOf_spec] at hroom
    exact h.indexing (by omega) (by omega) hroom
  | call name args =>
    rw [Expr.call.sizeOf_spec] at hroom
    refine (h.evals (by omega) hroom).bind (.mapM .eval args) fun values n hn => ?_
    exact h.call name values (by omega) (hroom.evals hn)
  | container op target args =>
    rw [Expr.container.sizeOf_spec] at hroom
    exact h.operation op (by omega) (by omega) hroom
  | _ => exact .of_total (.pure _)

theorem resolveWith {e : Expr} (hroom : Room env fuel (sizeOf e) m) :
    Settles env fuel (fun p => resolveWith p e) m := by
  cases e with
  | var name => exact .of_total (.pure _)
  | index base index =>
    rw [Expr.index.sizeOf_spec] at hroom
    refine (h.resolve (by omega) hroom).bind (.resolve base) fun owner n hn => ?_
    exact (h.eval (by omega) (hroom.resolve hn)).bind_total (.eval index) fun v =>
      (Total.ofExcept _).bind fun i => Total.rules.elementSlot owner i
  | _ => exact .of_total (.fail _)

end Calm

end

end Exec

end CallTrace
