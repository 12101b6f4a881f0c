import CallTrace.Proofs.Evaluation.Moves
import CallTrace.Proofs.Evaluation.Reached

/-! # Two runs in lockstep

A program is rewritten: its lines move down, and what a run never begins becomes anything. The run of the
second program then does what the run of the first one does, moved down.

* `Exec.Stops p c`: a computation made of what the meaning `p` says is stopped or does not change when `p`
  is stopped at one task.
* `Exec.Follows p k on c d`: if all that is begun on the way is `on`, then `d` does what `c` does, moved down
  by `k` lines.
* `Stmt.Moved k Body`: the same statement `k` lines further down, with the bodies inside related by `Body`.
* `Exec.Rewriting env env'`: how the statements of two programs are related, and which tasks are begun.
* `Rewriting.meaning`, `Rewriting.runProgram`: everything that is begun is done in lockstep.
-/

namespace CallTrace
set_option autoImplicit false

open Instrumented (Expr Place Action Stmt ContainerOp)

namespace Instrumented

/-- The first clause of a `for` statement, `k` lines further down. -/
def shiftInit (k : Nat) (init : Option (Nat × Action)) : Option (Nat × Action) :=
  init.map fun i => (i.1 + k, i.2)

theorem shiftInit_zero (init : Option (Nat × Action)) : shiftInit 0 init = init := by
  cases init <;> rfl

/-- The same statement `k` lines further down, with the bodies inside related by `Body`. -/
inductive Stmt.Moved (k : Nat) (Body : List Stmt → List Stmt → Prop) : Stmt → Stmt → Prop where
  | act (line : Nat) (step : Bool) (action : Action) :
      Moved k Body (.act line step action) (.act (line + k) step action)
  | ifElse (line : Nat) (step : Bool) (cond : Expr) {yes no yes' no' : List Stmt}
      (hyes : Body yes yes') (hno : Body no no') :
      Moved k Body (.ifElse line step cond yes no) (.ifElse (line + k) step cond yes' no')
  | whileLoop (line : Nat) (step : Bool) (cond : Expr) {body body' : List Stmt}
      (hbody : Body body body') :
      Moved k Body (.whileLoop line step cond body) (.whileLoop (line + k) step cond body')
  | doWhile (line : Nat) (step : Bool) {body body' : List Stmt} (cond : Expr)
      (hbody : Body body body') :
      Moved k Body (.doWhile line step body cond) (.doWhile (line + k) step body' cond)
  | forLoop (line : Nat) (step : Bool) (init : Option (Nat × Action)) (cond update : Option Expr)
      {body body' : List Stmt} (hbody : Body body body') :
      Moved k Body (.forLoop line step init cond update body)
        (.forLoop (line + k) step (shiftInit k init) cond update body')
  | block (line : Nat) (step : Bool) {body body' : List Stmt} (hbody : Body body body') :
      Moved k Body (.block line step body) (.block (line + k) step body')
  | breakLoop (line : Nat) (step : Bool) :
      Moved k Body (.breakLoop line step) (.breakLoop (line + k) step)
  | continueLoop (line : Nat) (step : Bool) :
      Moved k Body (.continueLoop line step) (.continueLoop (line + k) step)
  | ret (line : Nat) (step : Bool) (value : Option Expr) :
      Moved k Body (.ret line step value) (.ret (line + k) step value)

/-- A statement stays where it is. -/
theorem Stmt.Moved.self {Body : List Stmt → List Stmt → Prop} (h : ∀ body, Body body body) {s : Stmt} :
    s.Moved 0 Body s := by
  cases s with
  | act line step action => exact .act line step action
  | ifElse line step cond yes no => exact .ifElse line step cond (h yes) (h no)
  | whileLoop line step cond body => exact .whileLoop line step cond (h body)
  | doWhile line step body cond => exact .doWhile line step cond (h body)
  | forLoop line step init cond update body =>
    have hmoved : (Stmt.forLoop line step init cond update body).Moved 0 Body
        (.forLoop line step (shiftInit 0 init) cond update body) :=
      .forLoop line step init cond update (h body)
    rwa [shiftInit_zero] at hmoved
  | block line step body => exact .block line step (h body)
  | breakLoop line step => exact .breakLoop line step
  | continueLoop line step => exact .continueLoop line step
  | ret line step value => exact .ret line step value

end Instrumented

namespace Exec

variable {α β : Type}

/-! ## Computations made of what a meaning says -/

theorem error_of_discard {c : Exec α} {m n : Machine} {e : Halt} (h : discard c m = .error e n) :
    c m = .error e n := by
  cases hc : c m with
  | ok a o =>
    have hok : discard c m = .ok () o := bind_of_ok hc
    cases hok.symm.trans h
  | error e' o =>
    have herror : discard c m = .error e' o := bind_of_error hc
    cases herror.symm.trans h
    rfl

/-- From the state `m` the computation begins the task `t` in the state `n`: it is stopped when `p` is stopped
there, and it ends with the error of the task if that has one. -/
structure StopsAt (p : Meaning) (c : Meaning → Exec α) (m : Machine) (t : Task) (n : Machine) : Prop where
  stopped : ∀ x, c (p.stopAt t n x) m = .error x n
  error : ∀ e o, p.attempt t n = .error e o → c p m = .error e o

/-- When `p` is stopped at one task, the computation is stopped there or does not change. -/
def Stops (p : Meaning) (c : Meaning → Exec α) : Prop :=
  ∀ m t n, (∀ x, c (p.stopAt t n x) m = c p m) ∨ StopsAt p c m t n

/-- If every task is `on` at which the computation `c` can be stopped, `d` does what `c` does, moved down by
`k` lines. -/
structure Follows (p : Meaning) (k : Nat) (on : Task → Machine → Prop) (c : Meaning → Exec α)
    (d : Exec α) : Prop where
  stops : Stops p c
  eq (m : Machine) (h : ∀ t n, (∀ x, c (p.stopAt t n x) m = .error x n) → on t n) :
    d (m.shift k) = shiftResult k (c p m)

namespace Stops

variable {p : Meaning}

theorem const {c : Exec α} : Stops p fun _ => c := fun _ _ _ => .inl fun _ => rfl

theorem bind {c : Meaning → Exec α} {f : Meaning → α → Exec β} (h : Stops p c)
    (hf : ∀ a, Stops p fun p => f p a) : Stops p fun p => c p >>= f p := by
  intro m t n
  rcases h m t n with hsame | hstop
  · cases hc : c p m with
    | ok a o =>
      have hc' (x : Halt) : c (p.stopAt t n x) m = .ok a o := (hsame x).trans hc
      rcases hf a o t n with hsame | hstop
      · exact .inl fun x => (bind_of_ok (hc' x)).trans ((hsame x).trans (bind_of_ok hc).symm)
      · exact .inr ⟨fun x => (bind_of_ok (hc' x)).trans (hstop.stopped x),
          fun e o he => (bind_of_ok hc).trans (hstop.error e o he)⟩
    | error e o =>
      exact .inl fun x => (bind_of_error ((hsame x).trans hc)).trans (bind_of_error hc).symm
  · exact .inr ⟨fun x => bind_of_error (hstop.stopped x), fun e o he => bind_of_error (hstop.error e o he)⟩

/-- A task that is stopped where it begins, and otherwise is done as `p` says. -/
theorem task {c : Meaning → Exec α} {t : Task} (hattempt : p.attempt t = discard (c p))
    (hstop : ∀ m x, c (p.stopAt t m x) m = .error x m)
    (hother : ∀ m o n x, ¬ (o = t ∧ m = n) → c (p.stopAt o n x) m = c p m) : Stops p c := by
  intro m o n
  by_cases ho : o = t ∧ m = n
  · obtain ⟨rfl, rfl⟩ := ho
    exact .inr ⟨hstop m, fun e n he => error_of_discard ((congrFun hattempt m).symm.trans he)⟩
  · exact .inl fun x => hother m o n x ho

theorem eval (e : Expr) : Stops p fun p => p.eval e :=
  task rfl (fun _ _ => if_pos ⟨rfl, rfl⟩) fun _ _ _ _ h => if_neg h

theorem resolve (e : Expr) : Stops p fun p => p.resolve e :=
  task rfl (fun _ _ => if_pos ⟨rfl, rfl⟩) fun _ _ _ _ h => if_neg h

theorem call (name : String) (args : List Value) : Stops p fun p => p.call name args :=
  task rfl (fun _ _ => if_pos ⟨rfl, rfl⟩) fun _ _ _ _ h => if_neg h

theorem run (s : Stmt) : Stops p fun p => p.run s :=
  task rfl (fun _ _ => if_pos ⟨rfl, rfl⟩) fun _ _ _ _ h => if_neg h

theorem mapM {f : Meaning → α → Exec β} (h : ∀ a, Stops p fun p => f p a) (xs : List α) :
    Stops p fun p => xs.mapM (f p) := by
  induction xs with
  | nil => exact const
  | cons x xs ih =>
    simp only [List.mapM_cons]
    exact (h x).bind fun _ => ih.bind fun _ => const

theorem sequence (body : List Stmt) : Stops p fun p => sequence p.run body := by
  induction body with
  | nil => exact const
  | cons s rest ih =>
    refine (run s).bind fun flow => ?_
    cases flow with
    | normal => exact ih
    | _ => exact const

end Stops

namespace Follows

variable {p : Meaning} {k : Nat} {on : Task → Machine → Prop} {c : Meaning → Exec α} {d : Exec α}

/-- What does not depend on the program. -/
theorem of_moves {c d : Exec α} (h : Moves k c d) : Follows p k on (fun _ => c) d :=
  ⟨.const, fun m _ => h m⟩

theorem bind {f : Meaning → α → Exec β} {g : α → Exec β} (h : Follows p k on c d)
    (hf : ∀ a, Follows p k on (fun p => f p a) (g a)) :
    Follows p k on (fun p => c p >>= f p) (d >>= g) := by
  refine ⟨h.stops.bind fun a => (hf a).stops, fun m hon => ?_⟩
  have hd : d (m.shift k) = shiftResult k (c p m) :=
    h.eq m fun t n hstop => hon t n fun x => bind_of_error (hstop x)
  show (d >>= g) (m.shift k) = shiftResult k ((c p >>= f p) m)
  cases hc : c p m with
  | ok a o =>
    rw [bind_of_ok (hd.trans (congrArg _ hc)), bind_of_ok hc]
    refine (hf a).eq o fun t n hstop => hon t n ?_
    rcases h.stops m t n with hsame | hstop'
    · exact fun x => (bind_of_ok ((hsame x).trans hc)).trans (hstop x)
    · exact fun x => bind_of_error (hstop'.stopped x)
  | error e o =>
    rw [bind_of_error (hd.trans (congrArg _ hc)), bind_of_error hc]
    rfl

/-- A task, which is stopped where it begins. -/
theorem task {t : Task} (hstops : Stops p c) (hstop : ∀ m x, c (p.stopAt t m x) m = .error x m)
    (heq : ∀ m, on t m → d (m.shift k) = shiftResult k (c p m)) : Follows p k on c d :=
  ⟨hstops, fun m h => heq m (h t m (hstop m))⟩

/-- A computation that looks at the state. -/
theorem get {c : Meaning → Machine → Exec α} {d : Machine → Exec α}
    (h : ∀ m, Follows p k on (fun p => c p m) (d (m.shift k))) :
    Follows p k on (fun p => MonadState.get >>= c p) (MonadState.get >>= d) :=
  ⟨fun m t n => ((h m).stops m t n).imp id fun hstop => ⟨hstop.stopped, hstop.error⟩, fun m => (h m).eq m⟩

theorem mapM {f : Meaning → α → Exec β} {g : α → Exec β}
    (h : ∀ a, Follows p k on (fun p => f p a) (g a)) (xs : List α) :
    Follows p k on (fun p => xs.mapM (f p)) (xs.mapM g) := by
  induction xs with
  | nil => exact of_moves (.pure [])
  | cons x xs ih =>
    simp only [List.mapM_cons]
    exact (h x).bind fun _ => ih.bind fun _ => of_moves (.pure _)

theorem discard (h : Follows p k on c d) :
    Follows p k on (fun p => Functor.discard (c p)) (Functor.discard d) :=
  h.bind fun _ => of_moves (.pure ())

theorem inScope {c : Meaning → Exec Flow} {d : Exec Flow} (h : Follows p k on c d) :
    Follows p k on (fun p => inScope (c p)) (Exec.inScope d) :=
  (of_moves (moves_modifyStack _)).bind fun _ => h.bind fun _ =>
    (of_moves (moves_modifyStack _)).bind fun _ => of_moves (.pure _)

theorem repeatWhile {cond : Meaning → Exec Bool} {body : Meaning → Exec Flow}
    {next : Meaning → Exec Unit} {cond' : Exec Bool} {body' : Exec Flow} {next' : Exec Unit}
    (hcond : Follows p k on cond cond') (hbody : Follows p k on body body')
    (hnext : Follows p k on next next') (rounds : Nat) :
    Follows p k on (fun p => repeatWhile (cond p) (body p) (next p) rounds)
      (Exec.repeatWhile cond' body' next' rounds) := by
  induction rounds with
  | zero => exact of_moves .outOfFuel
  | succ rounds ih =>
    refine hcond.bind fun b => ?_
    cases b with
    | false => exact of_moves (.pure _)
    | true =>
      refine hbody.bind fun flow => ?_
      split
      · exact of_moves (.pure _)
      · exact hnext.bind fun _ => ih

end Follows

/-! ## Rewritten programs -/

/-- How the statements of two programs are related: `Same` relates statements and `Body` bodies. What is `on`
contains everything that a run in `env` begins. A body need not be related any further from a statement on
that is never begun, and the parts of a statement need not be related if the statement never gets past its
beginning. -/
structure Rewriting (env env' : Env) where
  distance : Nat
  on : Nat → Task → Machine → Prop
  Same : Stmt → Stmt → Prop
  Body : List Stmt → List Stmt → Prop
  start {fuel : Nat} {t : Task} {m : Machine} :
    (∀ x, runProgram ((meaning env fuel).stopAt t m x) env .initial = .error x m) → on fuel t m
  part {fuel : Nat} {s t : Task} {m n : Machine} : on (fuel + 1) s m →
    (∀ x, (((meaning env fuel).stopAt t n x).next env fuel).attempt s m = .error x n) → on fuel t n
  nil {body : List Stmt} : Body [] body → body = []
  cons {s : Stmt} {rest body : List Stmt} : Body (s :: rest) body →
    (∃ s' rest', body = s' :: rest' ∧ Same s s' ∧ Body rest rest') ∨ ∀ fuel m, ¬ on fuel (.run s) m
  same {s s' : Stmt} : Same s s' → Stmt.Moved distance Body s s' ∨
    s'.line = s.line + distance ∧ s'.step = s.step ∧
      ∀ fuel m, on (fuel + 1) (.run s) m → ∃ e n, begin env s.line s.step m = .error e n
  config : env'.config = env.config
  driver : Body env.program.driver env'.program.driver
  function (name : String) :
    Option.Rel (fun f g => SameHead distance f g ∧ Body f.body g.body)
      (env.program.function? name) (env'.program.function? name)

namespace Rewriting

variable {env env' : Env} {K : Rewriting env env'} {fuel : Nat}

/-- Everything that two meanings say is done in lockstep. -/
structure Agrees (K : Rewriting env env') (fuel : Nat) (p p' : Meaning) : Prop where
  eval (e : Expr) : Follows p K.distance (K.on fuel) (fun p => p.eval e) (p'.eval e)
  resolve (e : Expr) : Follows p K.distance (K.on fuel) (fun p => p.resolve e) (p'.resolve e)
  call (name : String) (args : List Value) :
    Follows p K.distance (K.on fuel) (fun p => p.call name args) (p'.call name args)
  run {s s' : Stmt} (h : K.Same s s') :
    Follows p K.distance (K.on fuel) (fun p => p.run s) (p'.run s')

namespace Agrees

variable {p p' : Meaning} (h : K.Agrees fuel p p')
include h

/-! ## Expressions -/

theorem truth (cond : Expr) :
    Follows p K.distance (K.on fuel) (fun p => truth p cond) (Exec.truth p' cond) :=
  (h.eval cond).bind fun _ => .of_moves (.pure _)

theorem literal (items : List Expr) :
    Follows p K.distance (K.on fuel) (fun p => literal p items) (Exec.literal p' items) := by
  refine (Follows.mapM (fun item => ?_) items).bind fun values => .of_moves (Moves.rules.newList _)
  exact (h.eval item).bind fun v => .of_moves (Moves.rules.copy v)

theorem filled (size fill : Expr) :
    Follows p K.distance (K.on fuel) (fun p => filled p size fill) (Exec.filled p' size fill) := by
  refine (h.eval size).bind fun v => (Follows.of_moves (.ofExcept _)).bind fun n => ?_
  exact (h.eval fill).bind fun w => .of_moves ((Moves.rules.onHeap _).bind fun _ => Moves.rules.newList _)

theorem binary (op : BinOp) (left right : Expr) :
    Follows p K.distance (K.on fuel) (fun p => binary p op left right)
      (Exec.binary p' op left right) := by
  refine (h.eval left).bind fun l => ?_
  refine afterLeft_rule (Q := fun f => Follows p K.distance (K.on fuel) f (f p')) op l right
    (fun b => .of_moves (.pure _)) ?_ ?_
  · exact (h.truth right).bind fun _ => .of_moves (.pure _)
  · exact (h.eval right).bind fun r => .of_moves (.get (fun _ => rfl) fun m => .ofExcept _)

theorem assignment (target : Place) (op : Option BinOp) (value : Expr) :
    Follows p K.distance (K.on fuel) (fun p => assignment p target op value)
      (Exec.assignment p' target op value) := by
  refine (h.resolve target.toExpr).bind fun slot => (h.eval value).bind fun v => .of_moves ?_
  exact (Moves.rules.stored slot op v).bind fun new => (Moves.rules.writeSlot slot new).bind fun _ =>
    (moves_recordRoot _).bind fun _ => .pure _

theorem stepping (target : Place) (step : Instrumented.Step) (before : Bool) :
    Follows p K.distance (K.on fuel) (fun p => stepping p target step before)
      (Exec.stepping p' target step before) := by
  refine (h.resolve target.toExpr).bind fun slot => .of_moves ?_
  exact (Moves.rules.updateSlot slot (supported_stepBy _)).bind fun _ => (moves_recordRoot _).bind fun _ => .pure _

theorem indexing (base index : Expr) :
    Follows p K.distance (K.on fuel) (fun p => indexing p base index)
      (Exec.indexing p' base index) := by
  refine (h.eval base).bind fun container => (h.eval index).bind fun v => .of_moves ?_
  exact (Moves.ofExcept _).bind fun i => .get (fun _ => rfl) fun m => .ofExcept _

theorem onString (op : ContainerOp) (target : Expr) (s : String) (args : List Value) :
    Follows p K.distance (K.on fuel) (fun p => onString p op target s args)
      (Exec.onString p' op target s args) := by
  refine (Follows.of_moves (.ofExcept _)).bind fun ⟨result, changed⟩ => ?_
  cases changed with
  | none => exact .of_moves (.pure _)
  | some s =>
    exact (h.resolve target).bind fun slot =>
      .of_moves ((Moves.rules.writeSlot slot _).bind fun _ => .pure _)

theorem operation (op : ContainerOp) (target : Expr) (args : List Expr) :
    Follows p K.distance (K.on fuel) (fun p => operation p op target args)
      (Exec.operation p' op target args) := by
  refine (h.eval target).bind fun container => (Follows.mapM h.eval args).bind fun values => ?_
  have hrecord {c : Meaning → Exec Value} {d : Exec Value}
      (hc : Follows p K.distance (K.on fuel) c d) : Follows p K.distance (K.on fuel)
      (fun p => c p >>= fun result => recordRoot (Expr.container op target args).probe? >>= fun _ =>
        Pure.pure result)
      (d >>= fun result => recordRoot (Expr.container op target args).probe? >>= fun _ =>
        Pure.pure result) :=
    hc.bind fun _ => .of_moves ((moves_recordRoot _).bind fun _ => .pure _)
  cases container
  case list c => exact hrecord (.of_moves (Moves.rules.listOp op c values))
  case str s => exact hrecord (h.onString op target s values)
  all_goals exact hrecord (.of_moves (.fail _))

theorem evalWith (e : Expr) :
    Follows p K.distance (K.on fuel) (fun p => evalWith p e) (Exec.evalWith p' e) := by
  cases e with
  | list items => exact h.literal items
  | fill size fill => exact h.filled size fill
  | var name => exact .of_moves (Moves.rules.lookup name)
  | binary op left right => exact h.binary op left right
  | neg operand => exact (h.eval operand).bind fun v => .of_moves (.ofExcept _)
  | not operand => exact (h.truth operand).bind fun _ => .of_moves (.pure _)
  | ternary cond yes no =>
    refine (h.truth cond).bind fun b => ?_
    cases b with
    | true => exact h.eval yes
    | false => exact h.eval no
  | assign target op value => exact h.assignment target op value
  | update target step before => exact h.stepping target step before
  | index base index => exact h.indexing base index
  | call name args => exact (Follows.mapM h.eval args).bind fun values => h.call name values
  | container op target args => exact h.operation op target args
  | _ => exact .of_moves (.pure _)

theorem resolveWith (e : Expr) :
    Follows p K.distance (K.on fuel) (fun p => resolveWith p e) (Exec.resolveWith p' e) := by
  cases e with
  | var name => exact .of_moves (.pure _)
  | index base index =>
    refine (h.resolve base).bind fun owner => (h.eval index).bind fun v => .of_moves ?_
    exact (Moves.ofExcept _).bind fun i => Moves.rules.elementSlot owner i
  | _ => exact .of_moves (.fail _)

/-! ## Bodies and calls -/

/-- A body is done in lockstep up to a statement that is never begun. -/
theorem sequence {body body' : List Stmt} (hbody : K.Body body body') :
    Follows p K.distance (K.on fuel) (fun p => sequence p.run body)
      (Exec.sequence p'.run body') := by
  induction body generalizing body' with
  | nil =>
    rw [K.nil hbody]
    exact .of_moves (.pure _)
  | cons s rest ih =>
    rcases K.cons hbody with ⟨s', rest', rfl, hs, hrest⟩ | hnever
    · refine (h.run hs).bind fun flow => ?_
      cases flow with
      | normal => exact ih hrest
      | _ => exact .of_moves (.pure _)
    · refine ⟨.sequence _, fun m hon => absurd (hon (.run s) m fun x => ?_) (hnever fuel m)⟩
      exact bind_of_error (if_pos ⟨rfl, rfl⟩)

theorem block {body body' : List Stmt} (hbody : K.Body body body') :
    Follows p K.distance (K.on fuel) (fun p => block p body) (Exec.block p' body') :=
  (h.sequence hbody).inScope

theorem body {f g : Instrumented.Function} (hfg : SameHead K.distance f g)
    (hbody : K.Body f.body g.body) :
    Follows p K.distance (K.on fuel) (fun p => body p f) (Exec.body p' g) :=
  (h.sequence hbody).bind fun flow => .of_moves (moves_finish hfg flow)

theorem callWith (name : String) (args : List Value) :
    Follows p K.distance (K.on fuel) (fun p => callWith p env name args)
      (Exec.callWith p' env' name args) := by
  have hfunction := K.function name
  unfold Exec.callWith
  cases hf : env.program.function? name <;> cases hg : env'.program.function? name <;>
    rw [hf, hg] at hfunction <;> cases hfunction
  case none.none => exact .of_moves (Moves.rules.callLibrary name args)
  case some.some f g hfg =>
    obtain ⟨hhead, hbody⟩ := hfg
    refine (Follows.of_moves (moves_checkCall K.config hhead args)).bind fun _ => ?_
    refine (Follows.of_moves (moves_noteEntry K.config name)).bind fun _ => ?_
    rw [hhead.params_eq]
    refine (Follows.of_moves (Moves.rules.bindArgs f.params args)).bind fun vars => ?_
    refine .get fun m => (Follows.of_moves (moves_enter K.config hhead vars)).bind fun _ => ?_
    refine (h.body hhead hbody).bind fun result => .of_moves ?_
    exact (moves_modifyStack _).bind fun _ => (moves_setLine m.line).bind fun _ => .pure _

/-! ## Statements -/

theorem declaration (name : String) (init : Expr) (byRef : Bool) :
    Follows p K.distance (K.on fuel) (fun p => declaration p name init byRef)
      (Exec.declaration p' name init byRef) := by
  refine (h.eval init).bind fun v => .of_moves ?_
  have hdeclare (w : Value) : Moves K.distance
      (modifyStack (·.declare name w) >>= fun _ => recordSet name)
      (modifyStack (·.declare name w) >>= fun _ => recordSet name) :=
    (moves_modifyStack _).bind fun _ => moves_recordSet name
  cases byRef with
  | true => exact (Moves.pure v).bind fun _ => hdeclare _
  | false => exact (Moves.rules.copy v).bind fun _ => hdeclare _

theorem perform (action : Action) :
    Follows p K.distance (K.on fuel) (fun p => perform p action) (Exec.perform p' action) := by
  cases action with
  | declare name init byRef => exact h.declaration name init byRef
  | eval e => exact (h.eval e).discard
  | log parts =>
    refine (Follows.mapM (fun e => ?_) parts).bind fun texts => .of_moves (moves_recordLog _)
    exact (h.eval e).bind fun v => .of_moves (.get (fun _ => rfl) fun m => .pure _)
  | printf format args =>
    refine (h.eval format).bind fun v => ?_
    cases v
    case str format =>
      refine (Follows.mapM h.eval args).bind fun values => .of_moves ?_
      exact .get (fun _ => rfl) fun m => (Moves.ofExcept _).bind fun text => moves_recordLog _
    all_goals exact .of_moves (.fail _)
  | unsupported text reason => exact .of_moves (.fail _)

theorem forInit (init : Option (Nat × Action)) :
    Follows p K.distance (K.on fuel) (fun p => forInit p env init)
      (Exec.forInit p' env' (Instrumented.shiftInit K.distance init)) := by
  cases init with
  | none => exact .of_moves (.pure ())
  | some i => exact (Follows.of_moves (moves_begin K.config i.1 false)).bind fun _ => h.perform i.2

theorem forCond (header : Nat) (cond : Option Expr) :
    Follows p K.distance (K.on fuel) (fun p => forCond p header cond)
      (Exec.forCond p' (header + K.distance) cond) := by
  refine (Follows.of_moves (moves_setLine header)).bind fun _ => ?_
  cases cond with
  | none => exact .of_moves (.pure _)
  | some e => exact h.truth e

theorem forNext (header : Nat) (update : Option Expr) :
    Follows p K.distance (K.on fuel) (fun p => forNext p env header update)
      (Exec.forNext p' env' (header + K.distance) update) := by
  have hcheck : Follows p K.distance (K.on fuel) (fun _ => checkEvents env) (checkEvents env') :=
    .of_moves (moves_checkEvents K.config)
  refine (Follows.of_moves (moves_setLine header)).bind fun _ => ?_
  cases update with
  | none => exact (Follows.of_moves (.pure ())).bind fun _ => hcheck
  | some e => exact (h.eval e).discard.bind fun _ => hcheck

theorem returning (value : Option Expr) :
    Follows p K.distance (K.on fuel) (fun p => returning p env value)
      (Exec.returning p' env' value) := by
  have hrecord (v : Value) : Moves K.distance
      (get >>= fun m : Machine => recordReturn v m.line >>= fun _ => checkEvents env >>= fun _ =>
        Pure.pure (Flow.ret v))
      (get >>= fun m : Machine => recordReturn v m.line >>= fun _ => checkEvents env' >>= fun _ =>
        Pure.pure (Flow.ret v)) :=
    .get_shift fun m => (moves_recordReturn v m.line).bind fun _ =>
      (moves_checkEvents K.config).bind fun _ => .pure _
  cases value with
  | none => exact (Follows.of_moves (.pure _)).bind fun v => .of_moves (hrecord v)
  | some e => exact (h.eval e).bind fun v => .of_moves (hrecord v)

/-- A statement is done in lockstep when the bodies inside it are. -/
theorem runWith {s s' : Stmt} (hs : s.Moved K.distance K.Body s') (rounds : Nat) :
    Follows p K.distance (K.on fuel) (fun p => runWith p env rounds s)
      (Exec.runWith p' env' rounds s') := by
  have hbegin (line : Nat) (step : Bool) : Follows p K.distance (K.on fuel)
      (fun _ => begin env line step) (begin env' (line + K.distance) step) :=
    .of_moves (moves_begin K.config line step)
  have hcheck : Follows p K.distance (K.on fuel) (fun _ => checkEvents env) (checkEvents env') :=
    .of_moves (moves_checkEvents K.config)
  cases hs with
  | act line step action =>
    exact (hbegin line step).bind fun _ => (h.perform action).bind fun _ => .of_moves (.pure _)
  | ifElse line step cond hyes hno =>
    refine (hbegin line step).bind fun _ => (h.truth cond).bind fun b => ?_
    cases b with
    | true => exact h.block hyes
    | false => exact h.block hno
  | whileLoop line step cond hbody =>
    exact (hbegin line step).bind fun _ =>
      Follows.repeatWhile (h.truth cond) (h.block hbody) hcheck rounds
  | doWhile line step cond hbody =>
    refine (hbegin line step).bind fun _ => (h.block hbody).bind fun flow => ?_
    split
    · exact .of_moves (.pure _)
    · exact hcheck.bind fun _ =>
        Follows.repeatWhile (h.truth cond) (h.block hbody) hcheck rounds
  | forLoop line step init cond update hbody =>
    refine (hbegin line step).bind fun _ => Follows.inScope ?_
    refine (h.forInit init).bind fun _ => .get fun m => ?_
    exact Follows.repeatWhile (h.forCond m.line cond) (h.block hbody) (h.forNext m.line update)
      rounds
  | block line step hbody => exact (hbegin line step).bind fun _ => h.block hbody
  | breakLoop line step | continueLoop line step =>
    exact (hbegin line step).bind fun _ => .of_moves (.pure _)
  | ret line step value => exact (hbegin line step).bind fun _ => h.returning value

/-! ## Everything -/

theorem runEntry : Follows p K.distance (K.on fuel) (fun p => runEntry p env) (Exec.runEntry p' env') := by
  have hfunction := K.function env.config.entryPoint
  refine .get fun m => ?_
  have hentered : (m.shift K.distance).entered = m.entered := rfl
  rw [hentered]
  split
  · exact .of_moves (.pure ())
  · rw [K.config]
    cases hf : env.program.function? env.config.entryPoint <;>
      cases hg : env'.program.function? env.config.entryPoint <;>
      rw [hf, hg] at hfunction <;> cases hfunction
    case none.none => exact .of_moves (.pure ())
    case some.some f g hfg =>
      obtain ⟨hhead, -⟩ := hfg
      dsimp only
      rw [hhead.params_eq, hhead.name_eq, hhead.line_eq]
      split
      · exact (Follows.of_moves (moves_setLine f.line)).bind fun _ => (h.call f.name []).discard
      · exact .of_moves (.pure ())

theorem runProgram :
    Follows p K.distance (K.on fuel) (fun p => runProgram p env) (Exec.runProgram p' env') :=
  (h.sequence K.driver).discard.bind fun _ => h.runEntry

end Agrees

/-- A statement that is begun is done in lockstep, whatever the parts do if it never gets past its
beginning. -/
theorem Agrees.runWith_eq {p p' : Meaning} (h : K.Agrees fuel p p') {s s' : Stmt} (hs : K.Same s s')
    {m : Machine} (hon : K.on (fuel + 1) (.run s) m)
    (hpart : ∀ t n, (∀ x, Exec.runWith (p.stopAt t n x) env fuel s m = .error x n) → K.on fuel t n) :
    Exec.runWith p' env' fuel s' (m.shift K.distance) =
      shiftResult K.distance (Exec.runWith p env fuel s m) := by
  rcases K.same hs with hmoved | ⟨hline, hstep, hbegin⟩
  · exact (h.runWith hmoved fuel).eq m hpart
  · obtain ⟨e, n, he⟩ := hbegin fuel m hon
    have he' : begin env' s'.line s'.step (m.shift K.distance) =
        .error (e.shift K.distance) (n.shift K.distance) := by
      rw [hline, hstep, moves_begin K.config s.line s.step m, he]
      rfl
    unfold Exec.runWith
    rw [bind_of_error he, bind_of_error he']
    rfl

/-- Two meanings agree if everything that is `on` is done in lockstep. -/
theorem Agrees.of_on {p p' : Meaning}
    (heval : ∀ e m, K.on fuel (.eval e) m →
      p'.eval e (m.shift K.distance) = shiftResult K.distance (p.eval e m))
    (hresolve : ∀ e m, K.on fuel (.resolve e) m →
      p'.resolve e (m.shift K.distance) = shiftResult K.distance (p.resolve e m))
    (hcall : ∀ name args m, K.on fuel (.call name args) m →
      p'.call name args (m.shift K.distance) = shiftResult K.distance (p.call name args m))
    (hrun : ∀ s s' m, K.Same s s' → K.on fuel (.run s) m →
      p'.run s' (m.shift K.distance) = shiftResult K.distance (p.run s m)) : K.Agrees fuel p p' where
  eval e := .task (.eval e) (fun _ _ => if_pos ⟨rfl, rfl⟩) (heval e)
  resolve e := .task (.resolve e) (fun _ _ => if_pos ⟨rfl, rfl⟩) (hresolve e)
  call name args := .task (.call name args) (fun _ _ => if_pos ⟨rfl, rfl⟩) (hcall name args)
  run hs := .task (.run _) (fun _ _ => if_pos ⟨rfl, rfl⟩) fun m => hrun _ _ m hs

/-- All that is begun is done in lockstep. -/
theorem meaning (K : Rewriting env env') (fuel : Nat) :
    K.Agrees fuel (meaning env fuel) (Exec.meaning env' fuel) := by
  induction fuel with
  | zero =>
    exact .of_on (fun _ _ _ => rfl) (fun _ _ _ => rfl) (fun _ _ _ _ => rfl) fun _ _ _ _ _ => rfl
  | succ fuel ih =>
    refine .of_on (fun e m hon => ?_) (fun e m hon => ?_) (fun name args m hon => ?_)
      fun s s' m hs hon => ?_
    · exact (ih.evalWith e).eq m fun t n h => K.part hon fun x => bind_of_error (h x)
    · exact (ih.resolveWith e).eq m fun t n h => K.part hon fun x => bind_of_error (h x)
    · exact (ih.callWith name args).eq m fun t n h => K.part hon fun x => bind_of_error (h x)
    · exact ih.runWith_eq hs hon fun t n h => K.part hon fun x => bind_of_error (h x)

/-- A whole run is done in lockstep. -/
theorem runProgram (K : Rewriting env env') (fuel : Nat) :
    Exec.runProgram (Exec.meaning env' fuel) env' (Machine.initial.shift K.distance) =
      shiftResult K.distance (Exec.runProgram (Exec.meaning env fuel) env .initial) :=
  (K.meaning fuel).runProgram.eq .initial fun _ _ h => K.start h

/-- A program is rewritten into itself. -/
def identity (env : Env) : Rewriting env env where
  distance := 0
  on _ _ _ := True
  Same := Eq
  Body := Eq
  start _ := trivial
  part _ _ := trivial
  nil h := h.symm
  cons h := .inl ⟨_, _, h.symm, rfl, rfl⟩
  same h := .inl (h ▸ .self fun _ => rfl)
  config := rfl
  driver := rfl
  function name := by
    cases env.program.function? name with
    | none => exact .none
    | some f => exact .some ⟨⟨rfl, rfl, rfl, rfl⟩, rfl⟩

/-- Every meaning agrees with itself. -/
theorem agrees_self (env : Env) (fuel : Nat) (p : Meaning) : (identity env).Agrees fuel p p := by
  have hself {γ : Type} (c : Exec γ) (m : Machine) : c (m.shift 0) = shiftResult 0 (c m) := by
    rw [m.shift_zero, shiftResult_zero]
  refine .of_on (fun e m _ => hself _ m) (fun e m _ => hself _ m) (fun name args m _ => hself _ m) ?_
  rintro s _ m rfl _
  exact hself _ m

end Rewriting

/-! ## Every construct is stopped or does not change -/

theorem stops_attempt (env : Env) (rounds : Nat) (p : Meaning) (t : Task) :
    Stops p fun p => (p.next env rounds).attempt t := by
  have h := Rewriting.agrees_self env rounds p
  cases t with
  | eval e => exact (h.evalWith e).discard.stops
  | resolve e => exact (h.resolveWith e).discard.stops
  | call name args => exact (h.callWith name args).discard.stops
  | run s => exact (h.runWith (.self fun _ => rfl) rounds).discard.stops

theorem stops_runProgram (env : Env) (p : Meaning) : Stops p fun p => runProgram p env :=
  (Rewriting.agrees_self env 0 p).runProgram.stops

/-- What is stopped for every reason is stopped at the task. -/
theorem StopsAt.of_stopped {p : Meaning} {c : Meaning → Exec α} (h : Stops p c) {m n : Machine} {t : Task}
    (hx : ∀ line, c (p.stopAt t n (.failed ⟨.divisionByZero, line⟩)) m =
      .error (.failed ⟨.divisionByZero, line⟩) n) : StopsAt p c m t n := by
  rcases h m t n with hsame | hstop
  · -- One computation does not end with two errors.
    cases ((hx 0).symm.trans (hsame _)).trans ((hx 1).symm.trans (hsame _)).symm
  · exact hstop

end Exec

end CallTrace
