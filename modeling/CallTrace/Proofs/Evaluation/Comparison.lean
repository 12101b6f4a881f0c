import CallTrace.Proofs.Evaluation.Plain
import CallTrace.Run
import Mathlib.Data.List.Forall2

/-! # Comparing two runs

Two runs of programs of the same form do the same plain computations; they differ in their checks of the
limits, in the fuel, and in what they do with statements that are outside the language.

* `Stmt.Parallel S`: two statements have the same form, and their parts are related by `S`.
* `Exec.Comparison env env'`: a relation between computations that is closed under doing one after the
  other, with one field for each thing in which two runs may differ.
* `Comparison.meaning`, `Comparison.runProgram`: then everything that the two runs do is related, if the
  second one has no less fuel.
-/

namespace CallTrace
set_option autoImplicit false

open Instrumented (Expr Place Action Stmt ContainerOp)

namespace Instrumented

/-- Two statements have the same form, and the statements inside them are related by `S`. The first clause
of a `for` statement counts as a statement inside it for which no step is recorded. -/
inductive Stmt.Parallel (S : Stmt → Stmt → Prop) : Stmt → Stmt → Prop where
  | act (line : Nat) (step : Bool) (action : Action) :
      Parallel S (.act line step action) (.act line step action)
  | ifElse (line : Nat) (step : Bool) (cond : Expr) {yes no yes' no' : List Stmt}
      (hyes : List.Forall₂ S yes yes') (hno : List.Forall₂ S no no') :
      Parallel S (.ifElse line step cond yes no) (.ifElse line step cond yes' no')
  | whileLoop (line : Nat) (step : Bool) (cond : Expr) {body body' : List Stmt}
      (hbody : List.Forall₂ S body body') :
      Parallel S (.whileLoop line step cond body) (.whileLoop line step cond body')
  | doWhile (line : Nat) (step : Bool) {body body' : List Stmt} (cond : Expr)
      (hbody : List.Forall₂ S body body') :
      Parallel S (.doWhile line step body cond) (.doWhile line step body' cond)
  | forLoop (line : Nat) (step : Bool) {init init' : Option (Nat × Action)}
      (cond update : Option Expr) {body body' : List Stmt}
      (hinit : Option.Rel (fun i i' => S (.act i.1 false i.2) (.act i'.1 false i'.2)) init init')
      (hbody : List.Forall₂ S body body') :
      Parallel S (.forLoop line step init cond update body)
        (.forLoop line step init' cond update body')
  | block (line : Nat) (step : Bool) {body body' : List Stmt} (hbody : List.Forall₂ S body body') :
      Parallel S (.block line step body) (.block line step body')
  | breakLoop (line : Nat) (step : Bool) : Parallel S (.breakLoop line step) (.breakLoop line step)
  | continueLoop (line : Nat) (step : Bool) :
      Parallel S (.continueLoop line step) (.continueLoop line step)
  | ret (line : Nat) (step : Bool) (value : Option Expr) :
      Parallel S (.ret line step value) (.ret line step value)

/-- The statements inside a statement. The first clause of a `for` statement counts as one for which no step
is recorded. -/
def Stmt.inner : Stmt → List Stmt
  | .ifElse _ _ _ yes no => yes ++ no
  | .forLoop _ _ init _ _ body => (init.map fun i => .act i.1 false i.2).toList ++ body
  | .whileLoop _ _ _ body | .doWhile _ _ body _ | .block _ _ body => body
  | .act .. | .breakLoop .. | .continueLoop .. | .ret .. => []

/-- A statement has the form of itself, if the statements inside it are related to themselves. -/
theorem Stmt.Parallel.self {S : Stmt → Stmt → Prop} (s : Stmt) (h : ∀ t ∈ s.inner, S t t) :
    Stmt.Parallel S s s := by
  have same (body : List Stmt) (hbody : ∀ t ∈ body, t ∈ s.inner) : List.Forall₂ S body body :=
    List.forall₂_same.mpr fun t ht => h t (hbody t ht)
  cases s with
  | act line step action => exact .act line step action
  | ifElse line step cond yes no =>
    exact .ifElse line step cond (same yes fun t ht => List.mem_append_left no ht)
      (same no fun t ht => List.mem_append_right yes ht)
  | whileLoop line step cond body => exact .whileLoop line step cond (same body fun t => id)
  | doWhile line step body cond => exact .doWhile line step cond (same body fun t => id)
  | forLoop line step init cond update body =>
    refine .forLoop line step cond update ?_ (same body fun t ht => List.mem_append_right _ ht)
    cases init with
    | none => exact .none
    | some i => exact .some (h _ List.mem_cons_self)
  | block line step body => exact .block line step (same body fun t => id)
  | breakLoop line step => exact .breakLoop line step
  | continueLoop line step => exact .continueLoop line step
  | ret line step value => exact .ret line step value

/-- Two functions differ at most in their bodies, and those are related by `S`. -/
structure Function.Parallel (S : Stmt → Stmt → Prop) (f f' : Function) : Prop where
  name_eq : f.name = f'.name
  params_eq : f.params = f'.params
  line_eq : f.line = f'.line
  endLine_eq : f.endLine = f'.endLine
  body : List.Forall₂ S f.body f'.body

theorem Program.parallel_function? {S : Stmt → Stmt → Prop} (p : Program)
    (h : ∀ f ∈ p.functions, ∀ s ∈ f.body, S s s) (name : String) :
    Option.Rel (Function.Parallel S) (p.function? name) (p.function? name) := by
  cases hf : p.function? name with
  | none => exact .none
  | some f =>
    have hbody := h f (List.mem_of_find?_eq_some hf)
    exact .some ⟨rfl, rfl, rfl, rfl, List.forall₂_same.mpr hbody⟩

end Instrumented

namespace Exec

/-- Stops unless one call more may be active. -/
def checkDepth (env : Env) : Exec Unit := do
  if env.config.maxCallDepth ≤ (← get).stack.depth then fail (.callDepth env.config.maxCallDepth)

theorem checkDepth_apply (env : Env) (m : Machine) :
    checkDepth env m = if env.config.maxCallDepth ≤ m.stack.depth then
      .error (.failed ⟨.callDepth env.config.maxCallDepth, m.line⟩) m else .ok () m := by
  unfold checkDepth
  rw [get_bind]
  split <;> rfl

/-- A way to compare a run in `env` with one in `env'`: computations are compared by `Rel`, statements by
`Same`. -/
structure Comparison (env env' : Env) where
  Rel {α : Type} : Exec α → Exec α → Prop
  Same : Stmt → Stmt → Prop
  plain {α : Type} {c : Exec α} : Plain c → Rel c c
  bind {α β : Type} {c c' : Exec α} {f f' : α → Exec β} : Rel c c' → (∀ a, Rel (f a) (f' a)) →
    Rel (c >>= f) (c' >>= f')
  outOfFuel {α : Type} {c c' : Exec α} : Rel c c' → Rel outOfFuel c'
  checkEvents : Rel (checkEvents env) (checkEvents env')
  checkDepth : Rel (checkDepth env) (checkDepth env')
  unsupported {line : Nat} {step : Bool} {text reason : String} :
    Same (.act line step (.unsupported text reason)) (.act line step (.unsupported text reason)) →
    Rel (begin env line step) (begin env' line step) →
    Rel (begin env line step >>= fun _ => fail (.unsupported text reason) : Exec Unit)
      (begin env' line step >>= fun _ => fail (.unsupported text reason))
  parallel {s s' : Stmt} : Same s s' → Stmt.Parallel Same s s'
  driver : List.Forall₂ Same env.program.driver env'.program.driver
  function (name : String) : Option.Rel (Instrumented.Function.Parallel Same)
    (env.program.function? name) (env'.program.function? name)
  entryPoint : env.config.entryPoint = env'.config.entryPoint

namespace Comparison

variable {env env' : Env} {K : Comparison env env'}

/-- Everything that two meanings say is related. -/
structure Alike (K : Comparison env env') (p p' : Meaning) : Prop where
  eval (e : Expr) : K.Rel (p.eval e) (p'.eval e)
  resolve (e : Expr) : K.Rel (p.resolve e) (p'.resolve e)
  call (name : String) (args : List Value) : K.Rel (p.call name args) (p'.call name args)
  run {s s' : Stmt} (h : K.Same s s') : K.Rel (p.run s) (p'.run s')

/-! ## Computations in order -/

theorem mapM {α β : Type} {f f' : α → Exec β} (h : ∀ a, K.Rel (f a) (f' a)) (xs : List α) :
    K.Rel (xs.mapM f) (xs.mapM f') := by
  induction xs with
  | nil => exact K.plain (.pure [])
  | cons x xs ih =>
    rw [List.mapM_cons, List.mapM_cons]
    exact K.bind (h x) fun _ => K.bind ih fun _ => K.plain (.pure _)

theorem discard {α : Type} {c c' : Exec α} (h : K.Rel c c') : K.Rel (discard c) (discard c') :=
  K.bind h fun _ => K.plain (.pure ())

theorem sequence {run run' : Stmt → Exec Flow} (h : ∀ s s', K.Same s s' → K.Rel (run s) (run' s'))
    {body body' : List Stmt} (hbody : List.Forall₂ K.Same body body') :
    K.Rel (sequence run body) (Exec.sequence run' body') := by
  induction hbody with
  | nil => exact K.plain (.pure _)
  | cons hs _ ih =>
    refine K.bind (h _ _ hs) fun flow => ?_
    cases flow with
    | normal => exact ih
    | _ => exact K.plain (.pure _)

theorem inScope {c c' : Exec Flow} (h : K.Rel c c') : K.Rel (inScope c) (Exec.inScope c') :=
  K.bind (K.plain (plain_modifyStack _)) fun _ => K.bind h fun _ =>
    K.bind (K.plain (plain_modifyStack _)) fun _ => K.plain (.pure _)

/-- With no fewer rounds the second loop is out of fuel no earlier. -/
theorem repeatWhile {cond cond' : Exec Bool} {body body' : Exec Flow} {next next' : Exec Unit}
    (hcond : K.Rel cond cond') (hbody : K.Rel body body') (hnext : K.Rel next next')
    {rounds rounds' : Nat} (h : rounds ≤ rounds') :
    K.Rel (repeatWhile cond body next rounds) (Exec.repeatWhile cond' body' next' rounds') := by
  have round (rounds rounds' : Nat)
      (hrest : K.Rel (Exec.repeatWhile cond body next rounds)
        (Exec.repeatWhile cond' body' next' rounds')) :
      K.Rel (Exec.repeatWhile cond body next (rounds + 1))
        (Exec.repeatWhile cond' body' next' (rounds' + 1)) := by
    refine K.bind hcond fun b => ?_
    split
    · refine K.bind hbody fun flow => ?_
      split
      · exact K.plain (.pure _)
      · exact K.bind hnext fun _ => hrest
    · exact K.plain (.pure _)
  induction rounds' generalizing rounds with
  | zero =>
    obtain rfl := Nat.le_zero.mp h
    exact K.plain .outOfFuel
  | succ rounds' ih =>
    cases rounds with
    | zero => exact K.outOfFuel (round 0 rounds' (ih (Nat.zero_le _)))
    | succ rounds => exact round rounds rounds' (ih (Nat.le_of_succ_le_succ h))

/-! ## Checks -/

theorem begin (K : Comparison env env') (line : Nat) (step : Bool) :
    K.Rel (begin env line step) (Exec.begin env' line step) := by
  refine K.bind (K.plain (plain_setLine line)) fun _ => ?_
  cases step with
  | false => exact K.checkEvents
  | true =>
    exact K.bind (K.plain (.modify fun m => m.recorder.prefix_step _ _)) fun _ => K.checkEvents

theorem checkCall (K : Comparison env env') (f : Instrumented.Function) {f' : Instrumented.Function}
    (hname : f.name = f'.name) (hparams : f.params = f'.params) (args : List Value) :
    K.Rel (checkCall env f args) (Exec.checkCall env' f' args) := by
  have hdepth : K.Rel (Exec.checkDepth env) (Exec.checkDepth env') := K.checkDepth
  unfold Exec.checkCall
  rw [hname, hparams]
  split
  · exact K.bind (K.plain (.fail fun _ _ h => nomatch h)) fun _ => hdepth
  · exact hdepth

theorem enter (K : Comparison env env') {f f' : Instrumented.Function} (hname : f.name = f'.name)
    (hline : f.line = f'.line) (vars : List (String × Value)) :
    K.Rel (enter env f vars) (Exec.enter env' f' vars) := by
  have hbody (declare : CallStack → CallStack) : K.Rel
      (modifyStack (·.pushFrame f.name) >>= fun _ => modifyStack declare >>= fun _ => setLine f.line)
      (modifyStack (·.pushFrame f.name) >>= fun _ => modifyStack declare >>= fun _ => setLine f.line) :=
    K.plain ((plain_modifyStack _).bind fun _ => (plain_modifyStack _).bind fun _ => plain_setLine _)
  unfold Exec.enter
  rw [← hname, ← hline]
  exact K.bind (K.plain (.modify fun m => m.recorder.prefix_call _ _ _)) fun _ =>
    K.bind K.checkEvents fun _ => hbody _

/-! ## Expressions -/

namespace Alike

variable {p p' : Meaning} (h : K.Alike p p')
include h

theorem truth (cond : Expr) : K.Rel (truth p cond) (Exec.truth p' cond) :=
  K.bind (h.eval cond) fun _ => K.plain (.pure _)

theorem literal (items : List Expr) : K.Rel (literal p items) (Exec.literal p' items) := by
  refine K.bind (mapM (fun item => ?_) items) fun values => K.plain (Plain.rules.newList _)
  exact K.bind (h.eval item) fun v => K.plain (Plain.rules.copy v)

theorem filled (size fill : Expr) : K.Rel (filled p size fill) (Exec.filled p' size fill) := by
  refine K.bind (h.eval size) fun v => ?_
  refine K.bind (K.plain (Plain.rules.ofExcept (supported_fillSize v))) fun n => ?_
  refine K.bind (h.eval fill) fun w => ?_
  exact K.plain ((Plain.rules.onHeap _).bind fun _ => Plain.rules.newList _)

theorem binary (op : BinOp) (left right : Expr) :
    K.Rel (binary p op left right) (Exec.binary p' op left right) := by
  refine K.bind (h.eval left) fun l => ?_
  refine afterLeft_rule (Q := fun f => K.Rel (f p) (f p')) op l right (fun b => K.plain (.pure _)) ?_ ?_
  · exact K.bind (h.truth right) fun _ => K.plain (.pure _)
  · exact K.bind (h.eval right) fun r => K.plain (Plain.rules.heap_ofExcept fun heap => supported_binaryOp heap op l r)

theorem assignment (target : Place) (op : Option BinOp) (value : Expr) :
    K.Rel (assignment p target op value) (Exec.assignment p' target op value) := by
  refine K.bind (h.resolve target.toExpr) fun slot => K.bind (h.eval value) fun v => K.plain ?_
  exact (Plain.rules.stored slot op v).bind fun new => (Plain.rules.writeSlot slot new).bind fun _ =>
    (plain_recordRoot _).bind fun _ => .pure _

theorem stepping (target : Place) (step : Instrumented.Step) (before : Bool) :
    K.Rel (stepping p target step before) (Exec.stepping p' target step before) := by
  refine K.bind (h.resolve target.toExpr) fun slot => K.plain ?_
  exact (Plain.rules.updateSlot slot (supported_stepBy _)).bind fun _ =>
    (plain_recordRoot _).bind fun _ => .pure _

theorem indexing (base index : Expr) :
    K.Rel (indexing p base index) (Exec.indexing p' base index) := by
  refine K.bind (h.eval base) fun container => K.bind (h.eval index) fun v => K.plain ?_
  exact (Plain.rules.ofExcept (supported_intOf _ v)).bind fun i =>
    Plain.rules.heap_ofExcept fun heap => supported_itemOf heap container i

theorem onString (op : ContainerOp) (target : Expr) (s : String) (args : List Value) :
    K.Rel (onString p op target s args) (Exec.onString p' op target s args) := by
  refine K.bind (K.plain (Plain.rules.ofExcept (supported_stringOp op s args))) fun ⟨result, changed⟩ => ?_
  cases changed with
  | none => exact K.plain (.pure _)
  | some s =>
    exact K.bind (h.resolve target) fun slot =>
      K.plain ((Plain.rules.writeSlot slot _).bind fun _ => .pure _)

theorem operation (op : ContainerOp) (target : Expr) (args : List Expr) :
    K.Rel (operation p op target args) (Exec.operation p' op target args) := by
  refine K.bind (h.eval target) fun container => K.bind (mapM h.eval args) fun values => ?_
  have hrecord {c c' : Exec Value} (hc : K.Rel c c') : K.Rel
      (c >>= fun result => recordRoot (Expr.container op target args).probe? >>= fun _ =>
        Pure.pure result)
      (c' >>= fun result => recordRoot (Expr.container op target args).probe? >>= fun _ =>
        Pure.pure result) :=
    K.bind hc fun _ => K.plain ((plain_recordRoot _).bind fun _ => .pure _)
  dsimp only
  split
  · exact hrecord (K.plain (Plain.rules.listOp op _ values))
  · exact hrecord (h.onString op target _ values)
  · exact hrecord (K.plain (.fail fun _ _ h => nomatch h))

theorem evalWith (e : Expr) : K.Rel (evalWith p e) (Exec.evalWith p' e) := by
  cases e with
  | list items => exact h.literal items
  | fill size fill => exact h.filled size fill
  | var name => exact K.plain (Plain.rules.lookup name)
  | binary op left right => exact h.binary op left right
  | neg operand =>
    exact K.bind (h.eval operand) fun v => K.plain (Plain.rules.ofExcept (supported_negate v))
  | not operand => exact K.bind (h.truth operand) fun _ => K.plain (.pure _)
  | ternary cond yes no =>
    refine K.bind (h.truth cond) fun b => ?_
    split
    · exact h.eval yes
    · exact h.eval no
  | assign target op value => exact h.assignment target op value
  | update target step before => exact h.stepping target step before
  | index base index => exact h.indexing base index
  | call name args => exact K.bind (mapM h.eval args) fun values => h.call name values
  | container op target args => exact h.operation op target args
  | _ => exact K.plain (.pure _)

theorem resolveWith (e : Expr) : K.Rel (resolveWith p e) (Exec.resolveWith p' e) := by
  cases e with
  | var name => exact K.plain (.pure _)
  | index base index =>
    refine K.bind (h.resolve base) fun owner => K.bind (h.eval index) fun v => K.plain ?_
    exact (Plain.rules.ofExcept (supported_intOf _ v)).bind fun i => Plain.rules.elementSlot owner i
  | _ => exact K.plain (.fail fun _ _ h => nomatch h)

/-! ## Calls -/

theorem sequence {body body' : List Stmt} (hbody : List.Forall₂ K.Same body body') :
    K.Rel (Exec.sequence p.run body) (Exec.sequence p'.run body') :=
  Comparison.sequence (fun _ _ hs => h.run hs) hbody

theorem body {f f' : Instrumented.Function} (hf : f.Parallel K.Same f') :
    K.Rel (body p f) (Exec.body p' f') := by
  refine K.bind (h.sequence hf.body) fun flow => ?_
  have hfinish : Exec.finish f flow = Exec.finish f' flow := by
    unfold Exec.finish
    rw [hf.endLine_eq]
  rw [← hfinish]
  exact K.plain (plain_finish f flow)

theorem callWith (name : String) (args : List Value) :
    K.Rel (callWith p env name args) (Exec.callWith p' env' name args) := by
  have hfunction := K.function name
  unfold Exec.callWith
  cases hf : env.program.function? name <;> cases hf' : env'.program.function? name <;>
    rw [hf, hf'] at hfunction <;> cases hfunction
  case none.none => exact K.plain (Plain.rules.callLibrary name args)
  case some.some f f' hpar =>
    have hnote : K.Rel (noteEntry env name) (noteEntry env' name) := by
      have heq : noteEntry env' name = noteEntry env name := by rw [noteEntry, noteEntry, K.entryPoint]
      rw [heq]
      exact K.plain (plain_noteEntry env name)
    refine K.bind (K.checkCall f hpar.name_eq hpar.params_eq args) fun _ => K.bind hnote fun _ => ?_
    refine K.bind (hpar.params_eq ▸ K.plain (Plain.rules.bindArgs f.params args)) fun vars => ?_
    refine K.bind (K.plain .get) fun m => ?_
    refine K.bind (K.enter hpar.name_eq hpar.line_eq vars) fun _ => ?_
    refine K.bind (h.body hpar) fun result => K.plain ?_
    exact (plain_modifyStack _).bind fun _ => (plain_setLine _).bind fun _ => .pure _

/-! ## Statements -/

theorem declaration (name : String) (init : Expr) (byRef : Bool) :
    K.Rel (declaration p name init byRef) (Exec.declaration p' name init byRef) := by
  refine K.bind (h.eval init) fun v => K.plain ?_
  have hdeclare (w : Value) : Plain (modifyStack (·.declare name w) >>= fun _ => recordSet name) :=
    (plain_modifyStack _).bind fun _ => plain_recordSet name
  cases byRef with
  | true => exact (Plain.pure v).bind fun _ => hdeclare _
  | false => exact (Plain.rules.copy v).bind fun _ => hdeclare _

/-- An action at the beginning of a line: one that is outside the language is compared as `Same` says. -/
theorem perform_begin {line : Nat} {step : Bool} {action : Action}
    (hs : K.Same (.act line step action) (.act line step action)) :
    K.Rel (Exec.begin env line step >>= fun _ => perform p action)
      (Exec.begin env' line step >>= fun _ => perform p' action) := by
  cases action with
  | unsupported text reason => exact K.unsupported hs (K.begin line step)
  | declare name init byRef =>
    exact K.bind (K.begin line step) fun _ => h.declaration name init byRef
  | eval e => exact K.bind (K.begin line step) fun _ => discard (h.eval e)
  | log parts =>
    refine K.bind (K.begin line step) fun _ => K.bind (mapM (fun e => ?_) parts) fun texts =>
      K.plain (plain_recordLog _)
    exact K.bind (h.eval e) fun v => K.plain (Plain.get.bind fun m => .pure _)
  | printf format args =>
    refine K.bind (K.begin line step) fun _ => K.bind (h.eval format) fun v => ?_
    split
    · refine K.bind (mapM h.eval args) fun values => K.plain ?_
      exact Plain.get.bind fun m => (Plain.rules.ofExcept (Printf.supported_formatFrom _ _ _ _ _)).bind
        fun text => plain_recordLog _
    · exact K.plain (.fail fun _ _ h => nomatch h)

theorem block {body body' : List Stmt} (hbody : List.Forall₂ K.Same body body') :
    K.Rel (block p body) (Exec.block p' body') := inScope (h.sequence hbody)

theorem forInit {init init' : Option (Nat × Action)}
    (hinit : Option.Rel (fun i i' => K.Same (.act i.1 false i.2) (.act i'.1 false i'.2)) init init') :
    K.Rel (forInit p env init) (Exec.forInit p' env' init') := by
  cases hinit with
  | none => exact K.plain (.pure ())
  | @some i i' hs =>
    obtain ⟨line, action⟩ := i
    obtain ⟨line', action'⟩ := i'
    cases K.parallel hs
    exact h.perform_begin hs

theorem forCond (header : Nat) (cond : Option Expr) :
    K.Rel (forCond p header cond) (Exec.forCond p' header cond) := by
  refine K.bind (K.plain (plain_setLine header)) fun _ => ?_
  cases cond with
  | none => exact K.plain (.pure _)
  | some e => exact h.truth e

theorem forNext (header : Nat) (update : Option Expr) :
    K.Rel (forNext p env header update) (Exec.forNext p' env' header update) := by
  refine K.bind (K.plain (plain_setLine header)) fun _ => ?_
  cases update with
  | none => exact K.bind (K.plain (.pure ())) fun _ => K.checkEvents
  | some e => exact K.bind (discard (h.eval e)) fun _ => K.checkEvents

theorem returning (value : Option Expr) :
    K.Rel (returning p env value) (Exec.returning p' env' value) := by
  have hrecord (v : Value) : K.Rel
      (get >>= fun m : Machine => recordReturn v m.line >>= fun _ => Exec.checkEvents env >>= fun _ =>
        Pure.pure (Flow.ret v))
      (get >>= fun m : Machine => recordReturn v m.line >>= fun _ => Exec.checkEvents env' >>= fun _ =>
        Pure.pure (Flow.ret v)) :=
    K.bind (K.plain .get) fun m => K.bind (K.plain (plain_recordReturn v _)) fun _ =>
      K.bind K.checkEvents fun _ => K.plain (.pure _)
  cases value with
  | none => exact K.bind (K.plain (.pure _)) hrecord
  | some e => exact K.bind (h.eval e) hrecord

/-- Statements of the same form do related things. -/
theorem runWith {rounds rounds' : Nat} (hr : rounds ≤ rounds') {s s' : Stmt} (hs : K.Same s s') :
    K.Rel (runWith p env rounds s) (Exec.runWith p' env' rounds' s') := by
  have hbegin {α : Type} {c c' : Exec α} (line : Nat) (step : Bool) (hc : K.Rel c c') :
      K.Rel (Exec.begin env line step >>= fun _ => c) (Exec.begin env' line step >>= fun _ => c') :=
    K.bind (K.begin line step) fun _ => hc
  cases K.parallel hs with
  | act line step action =>
    have hperform := K.bind (h.perform_begin hs) fun _ => K.plain (.pure Flow.normal)
    rwa [bind_assoc, bind_assoc] at hperform
  | ifElse line step cond hyes hno =>
    refine hbegin line step (K.bind (h.truth cond) fun b => ?_)
    split
    · exact h.block hyes
    · exact h.block hno
  | whileLoop line step cond hbody =>
    exact hbegin line step (repeatWhile (h.truth cond) (h.block hbody) K.checkEvents hr)
  | doWhile line step cond hbody =>
    refine hbegin line step (K.bind (h.block hbody) fun flow => ?_)
    split
    · exact K.plain (.pure _)
    · exact K.bind K.checkEvents fun _ =>
        repeatWhile (h.truth cond) (h.block hbody) K.checkEvents hr
  | forLoop line step cond update hinit hbody =>
    refine hbegin line step (inScope ?_)
    refine K.bind (h.forInit hinit) fun _ => K.bind (K.plain .get) fun m => ?_
    exact repeatWhile (h.forCond _ cond) (h.block hbody) (h.forNext _ update) hr
  | block line step hbody => exact hbegin line step (h.block hbody)
  | breakLoop line step | continueLoop line step => exact hbegin line step (K.plain (.pure _))
  | ret line step value => exact hbegin line step (h.returning value)

/-! ## Everything -/

theorem next {rounds rounds' : Nat} (hr : rounds ≤ rounds') :
    K.Alike (p.next env rounds) (p'.next env' rounds') where
  eval := h.evalWith
  resolve := h.resolveWith
  call := h.callWith
  run := h.runWith hr

theorem runEntry : K.Rel (runEntry p env) (Exec.runEntry p' env') := by
  have hfunction := K.function env.config.entryPoint
  refine K.bind (K.plain .get) fun m => ?_
  split
  · exact K.plain (.pure ())
  · rw [← K.entryPoint]
    cases hf : env.program.function? env.config.entryPoint <;>
      cases hf' : env'.program.function? env.config.entryPoint <;>
      rw [hf, hf'] at hfunction <;> cases hfunction
    case none.none => exact K.plain (.pure ())
    case some.some f f' hpar =>
      dsimp only
      rw [← hpar.params_eq, ← hpar.line_eq, ← hpar.name_eq]
      split
      · exact K.bind (K.plain (plain_setLine _)) fun _ => discard (h.call _ _)
      · exact K.plain (.pure ())

theorem runProgram : K.Rel (runProgram p env) (Exec.runProgram p' env') :=
  K.bind (discard (h.sequence K.driver)) fun _ => h.runEntry

end Alike

/-- What two runs do is related if the second one has no less fuel. -/
theorem meaning (K : Comparison env env') {fuel fuel' : Nat} (h : fuel ≤ fuel') :
    K.Alike (meaning env fuel) (Exec.meaning env' fuel') := by
  induction fuel' generalizing fuel with
  | zero =>
    obtain rfl := Nat.le_zero.mp h
    exact ⟨fun _ => K.plain .outOfFuel, fun _ => K.plain .outOfFuel, fun _ _ => K.plain .outOfFuel,
      fun _ => K.plain .outOfFuel⟩
  | succ fuel' ih =>
    cases fuel with
    | zero =>
      have hnext := (ih (Nat.zero_le _)).next (Nat.zero_le fuel')
      exact ⟨fun e => K.outOfFuel (hnext.eval e), fun e => K.outOfFuel (hnext.resolve e),
        fun name args => K.outOfFuel (hnext.call name args), fun hs => K.outOfFuel (hnext.run hs)⟩
    | succ fuel =>
      have hle : fuel ≤ fuel' := Nat.le_of_succ_le_succ h
      have hnext := (ih hle).next hle
      exact ⟨hnext.eval, hnext.resolve, hnext.call, hnext.run⟩

/-- Whole runs are related if the second one has no less fuel. -/
theorem runProgram (K : Comparison env env') {fuel fuel' : Nat} (h : fuel ≤ fuel') :
    K.Rel (runProgram (Exec.meaning env fuel) env) (Exec.runProgram (Exec.meaning env' fuel') env') :=
  (K.meaning h).runProgram

end Comparison

end Exec

end CallTrace
