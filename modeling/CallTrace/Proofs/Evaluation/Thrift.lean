import CallTrace.Proofs.Evaluation.Budget
import CallTrace.Proofs.Evaluation.Reached

/-! # Runs keep to the budget

* `Meaning.Thrifty`: expressions add their burst to the surplus, calls add nothing, and a statement leaves a
  surplus of its burst at most, whatever it was before.
* `Meaning.Thrifty.next`: what is made of thrifty parts is thrifty. A call is, because its own ceiling is lower
  than that of its caller by one burst and one return.
* `Exec.thrifty`, `Exec.meets_runProgram`: so is everything that a run does, and the run as a whole.
-/

namespace CallTrace
set_option autoImplicit false

open Instrumented (Expr Place Action Stmt ContainerOp)

namespace Exec

/-- Expressions add their burst to the surplus, calls add nothing, and a statement leaves a surplus of its burst
at most. -/
structure Meaning.Thrifty (env : Env) (p : Meaning) : Prop where
  eval : ∀ {d e i : Nat} (x : Expr), i + x.burst ≤ e → Spends env d e i (i + x.burst) (p.eval x)
  resolve : ∀ {d e i : Nat} (x : Expr), i + x.burst ≤ e → Spends env d e i (i + x.burst) (p.resolve x)
  call : ∀ {d e i : Nat} (name : String) (args : List Value), i ≤ e →
    Spends env d e i i (p.call name args)
  run : ∀ {d e i : Nat} (s : Stmt), i ≤ e → s.burst ≤ e → Runs env d e i s.burst (p.run s)

section

variable {env : Env} {d e i j b : Nat} {p : Meaning}

namespace Meaning.Thrifty

variable (h : p.Thrifty env)
include h

/-! ### Expressions -/

omit h in
theorem spends_mapM {α : Type} {f : Expr → Exec α} (hf : ∀ {i : Nat} (x : Expr), i + x.burst ≤ e →
    Spends env d e i (i + x.burst) (f x)) (xs : List Expr) (hi : i + Instrumented.burstOf xs ≤ e) :
    Spends env d e i (i + Instrumented.burstOf xs) (xs.mapM f) := by
  induction xs generalizing i with
  | nil => exact .silent (.pure _) (by omega)
  | cons x xs ih =>
    rw [Instrumented.burstOf] at hi ⊢
    rw [List.mapM_cons]
    refine (hf x (by omega)).bind fun a => ?_
    have hrest := ih (i := i + x.burst) (by omega)
    exact (hrest.bind_silent (fun _ => .pure _) (by omega)).mono (by omega)

theorem evals (xs : List Expr) (hi : i + Instrumented.burstOf xs ≤ e) :
    Spends env d e i (i + Instrumented.burstOf xs) (xs.mapM p.eval) := spends_mapM (fun x hx => h.eval x hx) xs hi

theorem truth (x : Expr) (hi : i + x.burst ≤ e) : Spends env d e i (i + x.burst) (truth p x) :=
  (h.eval x hi).bind_silent (fun _ => .pure _) (by omega)

theorem literal (items : List Expr) (hi : i + Instrumented.burstOf items ≤ e) :
    Spends env d e i (i + Instrumented.burstOf items) (literal p items) := by
  have hitem {i : Nat} (x : Expr) (hx : i + x.burst ≤ e) :
      Spends env d e i (i + x.burst) (p.eval x >>= fun v => copy v) :=
    (h.eval x hx).bind_silent Silent.rules.copy (by omega)
  exact (spends_mapM hitem items hi).bind_silent (fun values => Silent.rules.newList _) (by omega)

theorem filled (size fill : Expr) (hi : i + (size.burst + fill.burst) ≤ e) :
    Spends env d e i (i + (size.burst + fill.burst)) (filled p size fill) := by
  refine (h.eval size (by omega)).bind fun w => ?_
  refine Spends.silent_bind (.ofExcept _) (fun n => ?_) (by omega)
  have hfill := h.eval (d := d) (e := e) (i := i + size.burst) fill (by omega)
  refine Spends.mono (hfill.bind_silent (fun v => ?_) (by omega)) (by omega)
  exact (Silent.rules.onHeap _).bind fun items => Silent.rules.newList _

theorem binary (op : BinOp) (left right : Expr) (hi : i + (left.burst + right.burst) ≤ e) :
    Spends env d e i (i + (left.burst + right.burst)) (binary p op left right) := by
  refine (h.eval left (by omega)).bind fun l => ?_
  refine afterLeft_rule (Q := fun f => Spends env d e (i + left.burst) (i + (left.burst + right.burst)) (f p))
    op l right (fun b => (Spends.silent (.pure _) (by omega)).mono (by omega)) ?_ ?_
  · exact Spends.mono ((h.truth right (by omega)).bind_silent (fun b => .pure _) (by omega)) (by omega)
  · refine Spends.mono ((h.eval right (by omega)).bind_silent (fun r => ?_) (by omega)) (by omega)
    exact Silent.rules.heap_ofExcept fun heap => supported_binaryOp heap op l r

theorem assignment (target : Place) (op : Option BinOp) (value : Expr)
    (hi : i + (target.burst + value.burst + 1) ≤ e) :
    Spends env d e i (i + (target.burst + value.burst + 1)) (assignment p target op value) := by
  have htarget := h.resolve (d := d) (e := e) (i := i) target.toExpr
  rw [Place.burst_toExpr] at htarget
  refine (htarget (by omega)).bind fun slot => (h.eval value (by omega)).bind fun v => ?_
  refine Spends.silent_bind (Silent.rules.stored slot op v) (fun new => ?_) (by omega)
  refine Spends.silent_bind (Silent.rules.writeSlot slot new) (fun _ => ?_) (by omega)
  exact ((spends_recordRoot target.root?).bind_silent (fun _ => .pure _) (by omega)).mono (by omega)

theorem stepping (target : Place) (step : Instrumented.Step) (before : Bool)
    (hi : i + (target.burst + 1) ≤ e) :
    Spends env d e i (i + (target.burst + 1)) (stepping p target step before) := by
  have htarget := h.resolve (d := d) (e := e) (i := i) target.toExpr
  rw [Place.burst_toExpr] at htarget
  refine (htarget (by omega)).bind fun slot => ?_
  refine Spends.silent_bind (Silent.rules.updateSlot slot (supported_stepBy _)) (fun both => ?_) (by omega)
  exact ((spends_recordRoot target.root?).bind_silent (fun _ => .pure _) (by omega)).mono (by omega)

theorem indexing (base index : Expr) (hi : i + (base.burst + index.burst) ≤ e) :
    Spends env d e i (i + (base.burst + index.burst)) (indexing p base index) := by
  refine (h.eval base (by omega)).bind fun container => ?_
  refine Spends.mono ((h.eval index (by omega)).bind_silent (fun w => ?_) (by omega)) (by omega)
  exact (Silent.ofExcept _).bind fun k => Silent.get.bind fun m => .ofExcept _

/-- A string that is not changed does not have its target evaluated again. -/
theorem onString (op : ContainerOp) (target : Expr) (s : String) (args : List Value)
    (hi : i + (if op.mutates then target.burst else 0) ≤ e) :
    Spends env d e i (i + (if op.mutates then target.burst else 0)) (onString p op target s args) := by
  refine onString_rule p op target s args (fun cause => (Spends.silent (.fail cause) (by omega)).mono (by omega))
    (fun result => (Spends.silent (.pure result) (by omega)).mono (by omega)) fun result t hop => ?_
  rw [if_pos hop] at hi ⊢
  exact (h.resolve target hi).bind_silent (fun slot => (Silent.rules.writeSlot slot _).bind fun _ => .pure _)
    (by omega)

theorem operation (op : ContainerOp) (target : Expr) (args : List Expr)
    (hi : i + (Expr.container op target args).burst ≤ e) :
    Spends env d e i (i + (Expr.container op target args).burst) (operation p op target args) := by
  rw [Expr.burst] at hi ⊢
  refine (h.eval target (by omega)).bind fun container => (h.evals args (by omega)).bind fun values => ?_
  have hrecord (result : Value) : Spends env d e
      (i + target.burst + Instrumented.burstOf args + (if op.mutates then target.burst else 0))
      (i + (target.burst + Instrumented.burstOf args + (if op.mutates then target.burst + 1 else 0)))
      (recordRoot (Expr.container op target args).probe? >>= fun _ => pure result) := by
    by_cases hop : op.mutates
    · rw [if_pos hop] at hi
      rw [if_pos hop, if_pos hop]
      exact ((spends_recordRoot _).bind_silent (fun _ => .pure _) (by omega)).mono (by omega)
    · have hprobe : (Expr.container op target args).probe? = none := if_neg hop
      rw [if_neg hop] at hi
      rw [if_neg hop, if_neg hop, hprobe]
      exact (Spends.silent (.pure result) (by omega)).mono (by omega)
  have hroom :
      i + target.burst + Instrumented.burstOf args + (if op.mutates then target.burst else 0) ≤ e := by
    split at hi
    · next hop =>
      rw [if_pos hop]
      omega
    · next hop =>
      rw [if_neg hop]
      omega
  have hsilent {c : Exec Value} (hc : Silent c) : Spends env d e (i + target.burst + Instrumented.burstOf args)
      (i + target.burst + Instrumented.burstOf args + (if op.mutates then target.burst else 0)) c :=
    (Spends.silent hc (by omega)).mono (by omega)
  cases container with
  | list c => exact (hsilent (Silent.rules.listOp op c values)).bind hrecord
  | str s => exact (h.onString op target s values hroom).bind hrecord
  | _ => exact (hsilent (.fail _)).bind hrecord

theorem evalWith (x : Expr) (hi : i + x.burst ≤ e) : Spends env d e i (i + x.burst) (evalWith p x) := by
  cases x with
  | int | float | bool | str | undefined => exact .silent (.pure _) (by omega)
  | var name => exact .silent (Silent.rules.lookup name) (by omega)
  | list items => exact h.literal items hi
  | fill size fill => exact h.filled size fill hi
  | binary op left right => exact h.binary op left right hi
  | neg operand =>
    rw [Expr.burst] at hi ⊢
    exact (h.eval operand hi).bind_silent (fun v => .ofExcept _) (by omega)
  | not operand =>
    rw [Expr.burst] at hi ⊢
    exact (h.truth operand hi).bind_silent (fun b => .pure _) (by omega)
  | ternary cond yes no =>
    rw [Expr.burst] at hi ⊢
    refine (h.truth cond (by omega)).bind fun b => ?_
    cases b with
    | true => exact (h.eval yes (by omega)).mono (by omega)
    | false => exact (h.eval no (by omega)).mono (by omega)
  | assign target op value => exact h.assignment target op value hi
  | update target step before => exact h.stepping target step before hi
  | index base index => exact h.indexing base index hi
  | call name args =>
    rw [Expr.burst] at hi ⊢
    exact (h.evals args hi).bind fun vs => h.call name vs hi
  | container op target args => exact h.operation op target args hi

theorem resolveWith (x : Expr) (hi : i + x.burst ≤ e) :
    Spends env d e i (i + x.burst) (resolveWith p x) := by
  have hfail (cause : Cause) : Spends env d e i (i + x.burst) (fail cause : Exec Slot) :=
    (Spends.silent (.fail cause) (by omega)).mono (by omega)
  cases x with
  | var name => exact .silent (.pure _) (by omega)
  | index base index =>
    rw [Expr.burst] at hi ⊢
    refine (h.resolve base (by omega)).bind fun owner => ?_
    refine Spends.mono ((h.eval index (by omega)).bind_silent (fun w => ?_) (by omega)) (by omega)
    exact (Silent.ofExcept _).bind fun k => Silent.rules.elementSlot owner k
  | _ => exact hfail _

/-! ### Statements -/

theorem sequence (body : List Stmt) (hi : i ≤ e) (hbody : Instrumented.bodyBurst body ≤ e) :
    Runs env d e i (max i (Instrumented.bodyBurst body)) (sequence p.run body) := by
  induction body generalizing i with
  | nil => exact (runs_pure rfl).mono (by omega)
  | cons s rest ih =>
    rw [Instrumented.bodyBurst] at hbody ⊢
    intro m hm
    refine (h.run s hi (by omega) m hm).bind fun flow n _ hn => ?_
    cases flow with
    | normal => exact (ih (i := s.burst) (by omega) (by omega)).mono (by omega) n hn
    | _ => exact .of_ok rfl (hn.mono (by omega))

omit h in
theorem inScope {c : Exec Flow} (hc : Runs env d e i j c) : Runs env d e i j (inScope c) := by
  intro m hm
  have hpush : Machine.Budgeted env d 0 i { m with stack := m.stack.pushScope } :=
    hm.of_eq rfl (CallStack.depth_updateCurrent _ _)
  refine .ok_bind (n := { m with stack := m.stack.pushScope }) rfl ?_
  refine (hc _ hpush).bind fun flow o _ ho => ?_
  exact .of_ok rfl (ho.of_eq rfl (CallStack.depth_updateCurrent _ _))

theorem block (body : List Stmt) (hi : i ≤ e) (hbody : Instrumented.bodyBurst body ≤ e) :
    Runs env d e i (max i (Instrumented.bodyBurst body)) (block p body) := inScope (h.sequence body hi hbody)

omit h in
/-- The condition and the body of a loop leave a surplus, and what follows a round takes it away. -/
theorem repeatWhile {cond : Exec Bool} {body : Exec Flow} {next : Exec Unit}
    (hcond : Spends env d e i j cond) (hbody : Runs env d e j b body) (hnext : Spends env d e b i next)
    (hi : i ≤ e + 1) (hjb : j ≤ b) (rounds : Nat) :
    Runs env d e i b (repeatWhile cond body next rounds) := by
  induction rounds with
  | zero => exact fun m hm => .of_error rfl (hm.overrun hi)
  | succ rounds ih =>
    intro m hm
    refine (hcond m hm).bind fun go n _ hn => ?_
    cases go with
    | false => exact .of_ok rfl (hn.mono hjb)
    | true =>
      refine (hbody n hn).bind fun flow o _ ho => ?_
      cases hexit : flow.loopExit? with
      | some last => exact .of_ok rfl (Flow.left_of_loopExit hexit ▸ ho)
      | none =>
        rw [Flow.left_of_loopExit_none hexit] at ho
        exact (hnext o ho).bind fun _ q _ hq => ih q hq

theorem declaration (name : String) (init : Expr) (byRef : Bool) (hi : i + (init.burst + 1) ≤ e) :
    Spends env d e i (i + (init.burst + 1)) (declaration p name init byRef) := by
  refine (h.eval init (by omega)).bind fun v => ?_
  have hdeclare (w : Value) : Spends env d e (i + init.burst) (i + (init.burst + 1))
      (modifyStack (·.declare name w) >>= fun _ => recordSet name) :=
    (spends_modifyStack fun s => CallStack.depth_updateCurrent s _).bind fun _ => spends_recordSet name
  cases byRef with
  | true => exact hdeclare v
  | false => exact Spends.silent_bind (Silent.rules.copy v) hdeclare (by omega)

theorem perform (action : Action) (hi : i + action.burst ≤ e) :
    Spends env d e i (i + action.burst) (perform p action) := by
  cases action with
  | declare name init byRef => exact h.declaration name init byRef hi
  | eval x => exact (h.eval x hi).bind_silent (fun _ => .pure _) (by rw [Action.burst] at hi; omega)
  | log parts =>
    rw [Action.burst] at hi ⊢
    have hpart {i : Nat} (x : Expr) (hx : i + x.burst ≤ e) : Spends env d e i (i + x.burst)
        (p.eval x >>= fun v => get >>= fun m : Machine => pure (m.heap.text v)) :=
      (h.eval x hx).bind_silent (fun v => Silent.get.bind fun m => .pure _) (by omega)
    exact (spends_mapM hpart parts (by omega)).bind fun texts => spends_recordLog _
  | printf format args =>
    rw [Action.burst] at hi ⊢
    refine (h.eval format (by omega)).bind fun v => ?_
    cases v with
    | str text =>
      refine (h.evals args (by omega)).bind fun values => ?_
      refine Spends.silent_bind .get (fun m => Spends.silent_bind (.ofExcept _) (fun out => ?_) (by omega))
        (by omega)
      exact (spends_recordLog _).mono (by omega)
    | _ => exact (Spends.silent (.fail _) (by omega)).mono (by omega)
  | unsupported text reason => exact .silent (.fail _) (by rw [Action.burst] at hi; omega)

/-- The first clause of a `for` statement begins with a check. -/
theorem forInit (init : Option (Nat × Action)) (hinit : Instrumented.initBurst init ≤ e) :
    Spends env d e 0 (Instrumented.initBurst init) (forInit p env init) := by
  cases init with
  | none => exact .silent (.pure ()) (by omega)
  | some first =>
    obtain ⟨line, action⟩ := first
    rw [Instrumented.initBurst] at hinit ⊢
    exact (spends_begin line false (by omega)).bind fun _ => (h.perform action (by omega)).mono (by omega)

theorem forCond (header : Nat) (cond : Option Expr) (hi : i + Instrumented.optionBurst cond ≤ e) :
    Spends env d e i (i + Instrumented.optionBurst cond) (forCond p header cond) := by
  refine (spends_setLine header).bind fun _ => ?_
  cases cond with
  | none => exact .silent (.pure _) (by omega)
  | some x => exact h.truth x hi

theorem forNext (header : Nat) (update : Option Expr) (hi : i + Instrumented.optionBurst update ≤ e) :
    Spends env d e i 0 (forNext p env header update) := by
  refine (spends_setLine header).bind fun _ => ?_
  cases update with
  | none => exact spends_checkEvents (by omega)
  | some x =>
    rw [Instrumented.optionBurst] at hi
    have hx : Spends env d e i (i + x.burst) (discard (p.eval x)) :=
      (h.eval x hi).bind_silent (fun _ => .pure _) (by omega)
    exact hx.bind fun _ => spends_checkEvents (by omega)

/-- A `return` ends with a check, after which the call has returned. -/
theorem returning (value : Option Expr) (hi : i + Instrumented.optionBurst value ≤ e) :
    Runs env d e i 0 (returning p env value) := by
  have hrecord {j : Nat} (hj : j ≤ e) (v : Value) : Runs env d e j 0 (get >>= fun m : Machine =>
      recordReturn v m.line >>= fun _ => checkEvents env >>= fun _ => pure (.ret v)) := by
    intro m hm
    rw [Meets, get_bind]
    refine (meets_recordReturn v m.line hm).bind fun _ n _ hn => ?_
    refine (meets_checkEvents (hn.toUnchecked (by omega))).bind fun _ o _ hchecked => ?_
    obtain ⟨rfl, hsize, -⟩ := hchecked
    exact .of_ok rfl { hn with size := Nat.le_trans hsize (env.le_ceiling d) }
  cases value with
  | none => exact hrecord (by omega) .undefined
  | some x => exact (h.eval x hi).bind_runs fun v => hrecord hi v

/-- What a statement does once it has begun, when nothing has been recorded since the check. -/
theorem runBegun (rounds : Nat) (s : Stmt) (hs : s.burst ≤ e) :
    Runs env d e 0 s.burst (runBegun p env rounds s) := by
  cases s with
  | act line step action =>
    rw [Stmt.burst] at hs ⊢
    exact ((h.perform action (by omega)).mono (by omega)).bind_runs fun _ => runs_pure rfl
  | ifElse line step cond yes no =>
    rw [Stmt.burst] at hs ⊢
    refine (h.truth cond (by omega)).bind_runs fun b => ?_
    cases b with
    | true => exact (h.block yes (by omega) (by omega)).mono (by omega)
    | false => exact (h.block no (by omega) (by omega)).mono (by omega)
  | whileLoop line step cond body =>
    rw [Stmt.burst] at hs ⊢
    exact repeatWhile (h.truth cond (by omega)) ((h.block body (by omega) (by omega)).mono (by omega))
      (spends_checkEvents (by omega)) (by omega) (by omega) rounds
  | doWhile line step body cond =>
    rw [Stmt.burst] at hs ⊢
    have hloop : Runs env d e 0 (max cond.burst (Instrumented.bodyBurst body))
        (Exec.repeatWhile (Exec.truth p cond) (Exec.block p body) (checkEvents env) rounds) :=
      repeatWhile (h.truth cond (by omega)) ((h.block body (by omega) (by omega)).mono (by omega))
        (spends_checkEvents (by omega)) (by omega) (by omega) rounds
    intro m hm
    refine (h.block body (by omega) (by omega) m hm).bind fun flow n _ hn => ?_
    cases hexit : flow.loopExit? with
    | some last => exact .of_ok rfl (Flow.left_of_loopExit hexit ▸ hn.mono (by omega))
    | none =>
      rw [Flow.left_of_loopExit_none hexit] at hn
      exact (spends_checkEvents (by omega) n hn).bind fun _ o _ ho => hloop o ho
  | forLoop line step init cond update body =>
    rw [Stmt.burst] at hs ⊢
    refine inScope ((h.forInit init (by omega)).bind_runs fun _ => ?_)
    refine Spends.bind_runs (.silent .get (by omega)) fun m => Runs.mono ?_ (Nat.le_add_right _ _)
    exact repeatWhile (h.forCond m.line cond (by omega)) (h.block body (by omega) (by omega))
      ((h.forNext m.line update (by omega)).mono (by omega)) (by omega) (by omega) rounds
  | block line step body => exact h.block body (by omega) hs
  | breakLoop line step => exact runs_pure rfl
  | continueLoop line step => exact runs_pure rfl
  | ret line step value => exact (h.returning value (by rw [Stmt.burst] at hs; omega)).mono (by omega)

theorem runWith (rounds : Nat) (s : Stmt) (hi : i ≤ e) (hs : s.burst ≤ e) :
    Runs env d e i s.burst (runWith p env rounds s) :=
  (spends_begin s.line s.step hi).bind_runs fun _ => h.runBegun rounds s hs

/-! ### Calls -/

omit h in
/-- The call is recorded, checked, and then active. -/
theorem meets_enter {m : Machine} (f : Instrumented.Function) (vars : List (String × Value))
    (hm : m.Budgeted env d 0 i) (hi : i ≤ e) (hdepth : d < env.config.maxCallDepth) :
    Meets env d e (fun _ n => n.Budgeted env (d + 1) 0 0) (enter env f vars) m := by
  have hrecorded : m.recorder.depth ≤ d := hm.recorded
  let called : Machine := { m with recorder := (m.entering f vars).recorder }
  have hunchecked : called.Unchecked env d e :=
    hm.unchecked hi (Recorder.events_call ..) fun frame depth hp => by
      cases hp
      exact Nat.lt_of_le_of_lt hrecorded hdepth
  have hstack : (m.entering f vars).stack.depth = d + 1 :=
    (CallStack.SameShape.declares (m.stack.pushFrame f.name) vars).depth_eq.trans
      (congrArg (· + 1) hm.depth)
  refine .ok_bind (n := called) rfl ?_
  refine (meets_checkEvents hunchecked).bind fun _ n _ hchecked => ?_
  obtain ⟨rfl, hsize, hguarded⟩ := hchecked
  exact .of_ok rfl ⟨hstack, Nat.succ_le_succ hrecorded, hunchecked.shallow, hguarded,
    Nat.le_trans hsize (env.le_ceiling _)⟩

/-- The body of a call leaves a burst at most, and its return is one event more. -/
theorem body {m : Machine} {f : Instrumented.Function} (hf : f ∈ env.program.functions)
    (hm : m.Budgeted env d 0 0) :
    Meets env d env.program.burst (fun _ n => n.Budgeted env d 1 (env.program.burst + 1)) (body p f) m := by
  have hburst := Instrumented.Program.bodyBurst_le hf
  have hbody := h.sequence (d := d) (e := env.program.burst) (i := 0) f.body (by omega) hburst
  refine (hbody m hm).bind fun flow n _ hn => ?_
  unfold finish
  cases flow with
  | ret v => exact .of_ok rfl (hn.mono (by omega))
  | normal | breakLoop | continueLoop =>
    refine (meets_recordReturn .undefined f.endLine hn).bind fun _ o _ ho => ?_
    exact .of_ok rfl (ho.mono (by omega))

omit h in
/-- What stays within the budget of a call stays within the budget of its caller. -/
theorem meets_of_deeper {α : Type} {c : Exec α} {post : α → Machine → Prop} {m : Machine}
    (hdepth : d < env.config.maxCallDepth) (hc : Meets env (d + 1) env.program.burst post c m) :
    Meets env d e post c m := by
  cases hcm : c m with
  | ok a n =>
    rw [Meets, hcm] at hc
    exact .of_ok hcm hc
  | error halt n =>
    rw [Meets, hcm] at hc
    have hceiling := Env.ceiling_succ hdepth
    exact .of_error hcm { hc with size := by have := hc.size; omega }

/-- A call leaves no surplus of its own: its ceiling is lower than that of its caller by what it may add. -/
theorem callWith (name : String) (args : List Value) (hi : i ≤ e) :
    Spends env d e i i (callWith p env name args) := by
  intro m hm
  unfold Exec.callWith
  cases hf : env.program.function? name with
  | none => exact .silent (Silent.rules.callLibrary name args) hm (by omega)
  | some f =>
    refine (Meets.silent (Silent.rules.checkCall env f args) hm (by omega)).bind fun _ n hcheck _ => ?_
    obtain ⟨rfl, hlimit⟩ := checkCall_ok hcheck
    have hdepth : d < env.config.maxCallDepth := hm.depth ▸ hlimit
    refine (Meets.silent (silent_noteEntry env name) hm (by omega)).bind fun _ n _ hn => ?_
    refine (Meets.silent (Silent.rules.bindArgs f.params args) hn (by omega)).bind fun vars o _ ho => ?_
    rw [Meets, get_bind]
    refine (meets_enter f vars ho hi hdepth).bind fun _ q _ hq => ?_
    refine (meets_of_deeper hdepth (h.body (List.mem_of_find?_eq_some hf) hq)).bind fun v r _ hr => ?_
    have hceiling := Env.ceiling_succ hdepth
    have hpopped : r.stack.popFrame.depth = d := by
      rw [CallStack.depth_popFrame, hr.depth]
      omega
    have hrecorded : r.recorder.depth ≤ d - 0 := hr.recorded
    have hsize : r.recorder.events.size ≤ env.ceiling d + i := by
      have := hr.size
      omega
    exact .of_ok rfl ⟨hpopped, hrecorded, hr.shallow, hr.guarded, hsize⟩

theorem next (rounds : Nat) : (p.next env rounds).Thrifty env where
  eval x hx := h.evalWith x hx
  resolve x hx := h.resolveWith x hx
  call name args hi := h.callWith name args hi
  run s hi hs := h.runWith rounds s hi hs

end Meaning.Thrifty

end

/-- Everything keeps to the budget, by induction on the fuel. -/
theorem thrifty (env : Env) (fuel : Nat) : (meaning env fuel).Thrifty env := by
  induction fuel with
  | zero =>
    exact ⟨fun x hx _ hm => .of_error rfl (hm.overrun (by omega)),
      fun x hx _ hm => .of_error rfl (hm.overrun (by omega)),
      fun name args hi _ hm => .of_error rfl (hm.overrun (by omega)),
      fun s hi _ _ hm => .of_error rfl (hm.overrun (by omega))⟩
  | succ fuel ih =>
    have hnext := ih.next fuel
    exact ⟨hnext.eval, hnext.resolve, hnext.call, hnext.run⟩

theorem budgeted_initial (env : Env) : Machine.initial.Budgeted env 0 0 0 :=
  ⟨rfl, Nat.le_refl _, fun e he => (Array.not_mem_empty e he).elim, fun j e he => (by cases he),
    Nat.zero_le _⟩

/-- A whole run ends with a burst above the ceiling at most. -/
theorem meets_runProgram (env : Env) (fuel : Nat) :
    Meets env 0 env.program.burst (fun _ n => n.Budgeted env 0 0 env.program.burst)
      (runProgram (meaning env fuel) env) .initial := by
  have h := thrifty env fuel
  have hdriver := env.program.driverBurst_le
  have hstart := h.sequence (d := 0) (e := env.program.burst) (i := 0) env.program.driver (by omega) hdriver
  have hsequence : Meets env 0 env.program.burst (fun _ n => n.Budgeted env 0 0 env.program.burst)
      (discard (sequence (meaning env fuel).run env.program.driver)) .initial :=
    (hstart .initial (budgeted_initial env)).bind fun _ n _ hn => .of_ok rfl (hn.unleft.mono (by omega))
  refine hsequence.bind fun _ n _ hn => ?_
  rcases runEntry_cases env n with hstay | ⟨f, -, -, hentry⟩
  · exact .of_ok (hstay _) hn
  · rw [Meets, hentry]
    have hcall := h.call (d := 0) (e := env.program.burst) (i := env.program.burst) f.name [] (Nat.le_refl _)
    refine Meets.bind (spends_setLine f.line n hn) fun _ o _ ho => ?_
    exact (hcall o ho).bind fun _ q _ hq => .of_ok rfl hq

end Exec

end CallTrace
