import CallTrace.Proofs.Evaluation.Budget
import CallTrace.Proofs.Evaluation.Loops

/-! # Where an expression records and fails

An expression keeps the current line, so what it records of its own call and the errors that it raises itself stand
at the line at which its evaluation begins. Calls inside it have lines of their own.

* `Event.SetsBelow k`: the event records a variable of an activation older than the `k`-th.
* `Machine.Located k m n`: from `m` to `n` variables of older activations are recorded at the line of `m` only, and
  only if they belong to the latest call.
* `Exec.Locates k c`: a computation leads to such states, and fails at the line at which it begins unless a call
  inside it fails.
* `Exec.Inward k c`: begun in an activation that is not older than the `k`-th, a computation that fails has recorded
  nothing for older ones, and leaves no call.
* `Exec.locates_meaning`: expressions are located, and what runs inside calls is inward.
-/

namespace CallTrace
set_option autoImplicit false

open Instrumented (Expr Place Action Stmt ContainerOp)

/-- The event records a variable of an activation with a number below `k`. -/
def Event.SetsBelow (k : Nat) (e : Event) : Prop := e.kind = .set ∧ ∃ id < k, e.frameId = some id

/-- What happens inside calls that are not older than the `k`-th records nothing for older ones. -/
theorem Nested.not_setsBelow {at' : Option FrameId} {j n : Nat} {es : List Event} (h : Nested at' j es n) {k : Nat} :
    (∀ id ∈ at', k ≤ id) → k ≤ j → ∀ e ∈ es, ¬ e.SetsBelow k := by
  induction h with
  | nil => exact fun _ _ _ he => nomatch he
  | @own at' j n e es he hes ih =>
    intro hat hj e' hmem
    rcases List.mem_cons.mp hmem with rfl | hmem
    · rintro ⟨-, id, hid, hframe⟩
      exact Nat.lt_irrefl k (Nat.lt_of_le_of_lt (hat id (he.1.symm.trans hframe)) hid)
    · exact ih hat hj e' hmem
  | @call at' j n l line c r inner es name args at'' value hc hinner hr hes ih ih' =>
    intro hat hj e hmem
    have hgrows : j + 1 ≤ n := by
      have hcount := hinner.countP_call
      omega
    rcases List.mem_cons.mp hmem with rfl | hmem
    · exact fun h => absurd (hc.kind.symm.trans h.1) (by decide)
    rcases List.mem_append.mp hmem with hmem | hmem
    · exact ih (fun id hid => Option.mem_some.mp hid ▸ hj) (by omega) e hmem
    rcases List.mem_cons.mp hmem with rfl | hmem
    · exact fun h => absurd (hr.kind.symm.trans h.1) (by decide)
    · exact ih' hat (by omega) e hmem

namespace Machine

/-- The events recorded from `m` to `n` all have a property. -/
def Adds (P : Event → Prop) (m n : Machine) : Prop :=
  ∃ es, n.recorder.events.toList = m.recorder.events.toList ++ es ∧ ∀ e ∈ es, P e

/-- If the event records a variable of an activation older than the `k`-th, then of the latest one and at the line of
the state. -/
def Marks (k : Nat) (m : Machine) (e : Event) : Prop :=
  e.SetsBelow k → e.frameId = m.recorder.active.head? ∧ e.line = some m.line

/-- The recording is sound, and the `k` oldest activations exist. -/
structure Opened (k : Nat) (m : Machine) : Prop where
  sound : m.recorder.Sound
  room : k ≤ m.recorder.frames.size

/-- The latest call is not one of the `k` oldest ones. -/
structure Inner (k : Nat) (m : Machine) : Prop extends m.Opened k where
  newer : ∀ id ∈ m.recorder.active.head?, k ≤ id

/-- From `m` to `n` an expression has been evaluated. -/
structure Located (k : Nat) (m n : Machine) : Prop extends n.Opened k where
  active : n.recorder.active = m.recorder.active
  depth : n.stack.depth = m.stack.depth
  line : n.line = m.line
  adds : m.Adds (m.Marks k) n

/-- From `m` on an expression has failed in `n`, and the reason has the line of `m` unless a call inside it failed. -/
structure Failed (k : Nat) (m : Machine) (halt : Halt) (n : Machine) : Prop where
  depth : m.stack.depth ≤ n.stack.depth
  line : ∀ e, halt = .failed e → n.stack.depth = m.stack.depth → e.line = m.line
  adds : m.Adds (m.Marks k) n

/-- From `m` to `n` no call was left, and nothing was recorded for the `k` oldest activations. -/
structure Outside (k : Nat) (m n : Machine) : Prop where
  depth : m.stack.depth ≤ n.stack.depth
  adds : m.Adds (fun e => ¬ e.SetsBelow k) n

variable {k : Nat} {m n o : Machine} {halt : Halt} {P Q : Event → Prop}

namespace Adds

theorem of_eq (h : n.recorder.events = m.recorder.events) : m.Adds P n :=
  ⟨[], by rw [h, List.append_nil], fun _ he => nomatch he⟩

theorem push {e : Event} (h : n.recorder.events = m.recorder.events.push e) (he : P e) : m.Adds P n :=
  ⟨[e], by rw [h, Array.toList_push], fun _ hx => List.mem_singleton.mp hx ▸ he⟩

theorem trans (h : m.Adds P n) (h' : n.Adds P o) : m.Adds P o := by
  obtain ⟨es, he, hes⟩ := h
  obtain ⟨fs, hf, hfs⟩ := h'
  exact ⟨es ++ fs, by rw [hf, he, List.append_assoc], fun e hm => (List.mem_append.mp hm).elim (hes e) (hfs e)⟩

theorem imp (h : m.Adds P n) (hPQ : ∀ e, P e → Q e) : m.Adds Q n := by
  obtain ⟨es, he, hes⟩ := h
  exact ⟨es, he, fun e hm => hPQ e (hes e hm)⟩

end Adds

theorem Located.marks (h : m.Located k n) : n.Marks k = m.Marks k := by
  funext e
  rw [Marks, Marks, h.active, h.line]

theorem Located.of_alike (hm : m.Opened k) (h : m.Alike n) (hline : n.line = m.line) : m.Located k n where
  sound := h.recorder ▸ hm.sound
  room := h.recorder ▸ hm.room
  active := congrArg _ h.recorder
  depth := h.depth
  line := hline
  adds := .of_eq (congrArg _ h.recorder)

theorem Located.trans (h : m.Located k n) (h' : n.Located k o) : m.Located k o where
  toOpened := h'.toOpened
  active := h'.active.trans h.active
  depth := h'.depth.trans h.depth
  line := h'.line.trans h.line
  adds := h.adds.trans (h.marks ▸ h'.adds)

theorem Located.failed (h : m.Located k n) (h' : n.Failed k halt o) : m.Failed k halt o where
  depth := h.depth ▸ h'.depth
  line e he ho := (h'.line e he (ho.trans h.depth.symm)).trans h.line
  adds := h.adds.trans (h.marks ▸ h'.adds)

theorem Outside.trans (h : m.Outside k n) (h' : n.Outside k o) : m.Outside k o :=
  ⟨Nat.le_trans h.depth h'.depth, h.adds.trans h'.adds⟩

/-- An expression in a later call is outside of older ones. -/
theorem Failed.outside (hm : m.Inner k) (h : m.Failed k halt n) : m.Outside k n := by
  refine ⟨h.depth, h.adds.imp fun e he hsets => ?_⟩
  obtain ⟨id, hid, hframe⟩ := hsets.2
  have hhead : m.recorder.active.head? = some id := (he hsets).1.symm.trans hframe
  exact Nat.lt_irrefl id (Nat.lt_of_lt_of_le hid (hm.newer id hhead))

end Machine

namespace Exec

variable {α β : Type} {k : Nat} {m n : Machine}

/-! ## Expressions -/

/-- A computation that keeps the line, records variables of its own call there, and fails there unless a call inside
it fails. -/
structure Locates (k : Nat) (c : Exec α) : Prop where
  ok : ∀ {m a n}, m.Opened k → c m = .ok a n → m.Located k n
  error : ∀ {m e n}, m.Opened k → c m = .error e n → m.Failed k e n

namespace Locates

theorem silent {c : Exec α} (h : Silent c) : Locates k c where
  ok hm hc := .of_alike hm (h.ok hc) (h.line hc)
  error {m e n} hm hc := by
    have hn := h.error hc
    exact ⟨Nat.le_of_eq hn.depth.symm, fun e he _ => h.raised (he ▸ hc), .of_eq (congrArg _ hn.recorder)⟩

theorem bind {c : Exec α} {f : α → Exec β} (h : Locates k c) (hf : ∀ a, Locates k (f a)) : Locates k (c >>= f) where
  ok {m b o} hm hc := by
    obtain ⟨a, n, ha, hb⟩ := ok_of_bind hc
    have hn := h.ok hm ha
    exact hn.trans ((hf a).ok hn.toOpened hb)
  error {m e o} hm hc := by
    rcases error_of_bind hc with ha | ⟨a, n, ha, hb⟩
    · exact h.error hm ha
    · have hn := h.ok hm ha
      exact hn.failed ((hf a).error hn.toOpened hb)

theorem bind_silent {c : Exec α} {f : α → Exec β} (h : Locates k c) (hf : ∀ a, Silent (f a)) :
    Locates k (c >>= f) := h.bind fun a => silent (hf a)

theorem silent_bind {c : Exec α} {f : α → Exec β} (h : Silent c) (hf : ∀ a, Locates k (f a)) :
    Locates k (c >>= f) := (silent h).bind hf

theorem mapM {f : Expr → Exec α} (hf : ∀ e, Locates k (f e)) (es : List Expr) : Locates k (es.mapM f) := by
  induction es with
  | nil => exact silent (.pure [])
  | cons e es ih =>
    rw [List.mapM_cons]
    exact (hf e).bind fun a => ih.bind_silent fun _ => .pure _

theorem modify {f : Machine → Machine} (hf : ∀ m : Machine, m.Opened k → m.Located k (f m)) :
    Locates k (modify f : Exec Unit) where
  error _ hc := nomatch hc
  ok hm hc := by
    cases hc
    exact hf _ hm

theorem recordSet (name : String) : Locates k (recordSet name) := by
  refine .modify fun m hm => ?_
  have hstay : m.Located k m := .of_alike hm (.refl m) rfl
  split
  · split
    · next v _ =>
      have hsound := hm.sound.of_step (hm.sound.step (.set name (m.heap.snapshot v) (some m.line)))
      rcases hm.sound.set_cases name (m.heap.snapshot v) (some m.line) with ⟨-, he⟩ | ⟨a, ha, he⟩
      · rw [he]
        exact hstay
      · obtain ⟨rest, hactive⟩ := ha.active
        have hhead : m.recorder.active.head? = some a.id := by rw [hactive]; rfl
        rw [Recorder.apply, he] at hsound
        rw [he]
        refine ⟨⟨hsound, ?_⟩, rfl, rfl, rfl, .push rfl fun _ => ⟨hhead.symm, rfl⟩⟩
        rw [Recorder.frames_assigned, Array.size_setIfInBounds]
        exact hm.room
    · exact hstay
  · exact hstay

theorem recordRoot (root : Option String) : Locates k (recordRoot root) := by
  cases root with
  | none => exact silent (.pure ())
  | some name => exact recordSet name

theorem recordLog (text : String) : Locates k (recordLog text) := by
  refine .modify fun m hm => ?_
  refine ⟨⟨hm.sound.of_step (hm.sound.step (.log text (some m.line))), hm.room⟩, rfl, rfl, rfl, .push rfl ?_⟩
  rintro ⟨hkind, -⟩
  cases hkind

end Locates

/-! ## Statements inside calls -/

/-- A computation in a call that is not one of the `k` oldest ones: where it fails it is outside of those. -/
structure Inward (k : Nat) (c : Exec α) : Prop where
  error : ∀ {m e n}, m.Inner k → c m = .error e n → m.Outside k n

/-- Calls and returns match between two states of a call that is not one of the `k` oldest ones. -/
theorem Ran.outside (h : Ran none m n) (hm : m.Inner k) (hn : n.recorder.Sound) : n.Inner k ∧ m.Outside k n := by
  have hinside : Recorder.Inside m.recorder n.recorder := h.2
  obtain ⟨hactive, es, he, hnested⟩ := hinside
  have hgrows := hnested.countP_call
  refine ⟨⟨⟨hn, ?_⟩, fun id hid => hm.newer id (hactive ▸ hid)⟩, Nat.le_of_eq h.1.depth_eq.symm, es, he,
    hnested.not_setsBelow hm.newer hm.room⟩
  have hroom := hm.room
  omega

namespace Inward

theorem of_locates {c : Exec α} (h : Locates k c) : Inward k c where
  error hm hc := (h.error hm.toOpened hc).outside hm

theorem pure (a : α) : Inward k (Pure.pure a) where
  error _ hc := nomatch hc

theorem bind {c : Exec α} {f : α → Exec β} (h : Inward k c) (hc : Balanced c) (hf : ∀ a, Inward k (f a)) :
    Inward k (c >>= f) where
  error {m e o} hm he := by
    rcases error_of_bind he with ha | ⟨a, n, ha, hb⟩
    · exact h.error hm ha
    · obtain ⟨hn, hran⟩ := hc hm.sound ha
      obtain ⟨hinner, houtside⟩ := hran.outside hm hn
      exact houtside.trans ((hf a).error hinner hb)

/-- Variables and the current line are of no matter. -/
theorem modify_bind {f : Machine → Machine} {c : Exec α} (hrecorder : ∀ m, (f m).recorder = m.recorder)
    (hdepth : ∀ m, (f m).stack.depth = m.stack.depth) (h : Inward k c) :
    Inward k ((modify f : Exec Unit) >>= fun _ => c) where
  error {m e n} hm he := by
    have hinner : (f m).Inner k :=
      ⟨⟨hrecorder m ▸ hm.sound, hrecorder m ▸ hm.room⟩, hrecorder m ▸ hm.newer⟩
    have hc : c (f m) = .error e n := (bind_of_ok (c := (modify f : Exec Unit)) rfl).symm.trans he
    obtain ⟨hn, es, hevents, hes⟩ := h.error hinner hc
    exact ⟨hdepth m ▸ hn, es, hrecorder m ▸ hevents, hes⟩

theorem setLine_bind {c : Exec α} (line : Nat) (h : Inward k c) : Inward k (setLine line >>= fun _ => c) :=
  modify_bind (f := fun m => { m with line }) (fun _ => rfl) (fun _ => rfl) h

end Inward

/-! ## Meanings -/

/-- Expressions are located, and statements are inward. -/
structure Meaning.Locates (k : Nat) (p : Meaning) : Prop where
  eval (e : Expr) : Exec.Locates k (p.eval e)
  resolve (e : Expr) : Exec.Locates k (p.resolve e)
  call (name : String) (args : List Value) : Exec.Locates k (p.call name args)
  run (s : Stmt) : Inward k (p.run s)

namespace Meaning.Locates

section

variable {p : Meaning} (h : p.Locates k)
include h

theorem evals (es : List Expr) : Exec.Locates k (es.mapM p.eval) := .mapM h.eval es

theorem truth (cond : Expr) : Exec.Locates k (truth p cond) := (h.eval cond).bind_silent fun _ => .pure _

theorem literal (items : List Expr) : Exec.Locates k (literal p items) :=
  (Exec.Locates.mapM (fun e => (h.eval e).bind_silent Silent.rules.copy) items).bind_silent fun _ =>
    Silent.rules.newList _

theorem filled (size fill : Expr) : Exec.Locates k (filled p size fill) := by
  refine (h.eval size).bind fun w => .silent_bind (.ofExcept _) fun n => ?_
  exact (h.eval fill).bind_silent fun v => (Silent.rules.onHeap _).bind fun _ =>
    Silent.rules.newList _

theorem binary (op : BinOp) (left right : Expr) : Exec.Locates k (binary p op left right) := by
  refine (h.eval left).bind fun l => ?_
  refine afterLeft_rule (Q := fun f => Exec.Locates k (f p)) op l right (fun b => .silent (.pure _)) ?_ ?_
  · exact (h.truth right).bind_silent fun _ => .pure _
  · exact (h.eval right).bind_silent fun r => Silent.rules.heap_ofExcept fun heap => supported_binaryOp heap op l r

theorem assignment (target : Place) (op : Option BinOp) (value : Expr) :
    Exec.Locates k (assignment p target op value) := by
  refine (h.resolve target.toExpr).bind fun slot => (h.eval value).bind fun v => ?_
  refine .silent_bind (Silent.rules.stored slot op v) fun new => ?_
  refine .silent_bind (Silent.rules.writeSlot slot new) fun _ => ?_
  exact (Exec.Locates.recordRoot target.root?).bind_silent fun _ => .pure _

theorem stepping (target : Place) (step : Instrumented.Step) (before : Bool) :
    Exec.Locates k (stepping p target step before) := by
  refine (h.resolve target.toExpr).bind fun slot => ?_
  refine .silent_bind (Silent.rules.updateSlot slot (supported_stepBy _)) fun both => ?_
  exact (Exec.Locates.recordRoot target.root?).bind_silent fun _ => .pure _

theorem indexing (base index : Expr) : Exec.Locates k (indexing p base index) := by
  refine (h.eval base).bind fun container => (h.eval index).bind_silent fun w => ?_
  exact (Silent.ofExcept _).bind fun i => Silent.get.bind fun m => .ofExcept _

theorem onString (op : ContainerOp) (target : Expr) (s : String) (args : List Value) :
    Exec.Locates k (onString p op target s args) := by
  refine .silent_bind (.ofExcept _) fun both => ?_
  obtain ⟨result, changed⟩ := both
  cases changed with
  | none => exact .silent ((Silent.pure ()).bind fun _ => .pure _)
  | some t =>
    exact (h.resolve target).bind_silent fun slot => (Silent.rules.writeSlot slot _).bind fun _ => .pure _

theorem operation (op : ContainerOp) (target : Expr) (args : List Expr) :
    Exec.Locates k (operation p op target args) := by
  refine (h.eval target).bind fun container => (h.evals args).bind fun values => ?_
  have hrecord (result : Value) : Exec.Locates k
      (Exec.recordRoot (Expr.container op target args).probe? >>= fun _ => pure result) :=
    (Exec.Locates.recordRoot _).bind_silent fun _ => .pure _
  cases container with
  | list c => exact .silent_bind (Silent.rules.listOp op c values) hrecord
  | str s => exact (h.onString op target s values).bind hrecord
  | _ => exact .silent_bind (.fail _) hrecord

theorem evalWith (e : Expr) : Exec.Locates k (evalWith p e) := by
  cases e with
  | int | float | bool | str | undefined => exact .silent (.pure _)
  | var name => exact .silent (Silent.rules.lookup name)
  | list items => exact h.literal items
  | fill size fill => exact h.filled size fill
  | binary op left right => exact h.binary op left right
  | neg operand => exact (h.eval operand).bind_silent fun _ => .ofExcept _
  | not operand => exact (h.truth operand).bind_silent fun _ => .pure _
  | ternary cond yes no =>
    refine (h.truth cond).bind fun b => ?_
    cases b with
    | true => exact h.eval yes
    | false => exact h.eval no
  | assign target op value => exact h.assignment target op value
  | update target step before => exact h.stepping target step before
  | index base index => exact h.indexing base index
  | call name args => exact (h.evals args).bind fun vs => h.call name vs
  | container op target args => exact h.operation op target args

theorem resolveWith (e : Expr) : Exec.Locates k (resolveWith p e) := by
  cases e with
  | var name => exact .silent (.pure _)
  | index base index =>
    refine (h.resolve base).bind fun owner => (h.eval index).bind_silent fun w => ?_
    exact (Silent.ofExcept _).bind fun i => Silent.rules.elementSlot owner i
  | _ => exact .silent (.fail _)

theorem declaration (name : String) (init : Expr) (byRef : Bool) :
    Exec.Locates k (declaration p name init byRef) := by
  have hdeclare (w : Value) : Exec.Locates k (modifyStack (·.declare name w) >>= fun _ => recordSet name) := by
    refine Exec.Locates.bind (.modify fun m hm => ?_) fun _ => .recordSet name
    exact ⟨⟨hm.sound, hm.room⟩, rfl, CallStack.depth_updateCurrent _ _, rfl, .of_eq rfl⟩
  refine (h.eval init).bind fun v => ?_
  cases byRef with
  | true => exact hdeclare v
  | false => exact .silent_bind (Silent.rules.copy v) hdeclare

theorem perform (action : Action) : Exec.Locates k (perform p action) := by
  cases action with
  | declare name init byRef => exact h.declaration name init byRef
  | eval e => exact (h.eval e).bind_silent fun _ => .pure _
  | log parts =>
    refine (Exec.Locates.mapM (fun e => ?_) parts).bind fun texts => .recordLog _
    exact (h.eval e).bind_silent fun v => Silent.get.bind fun m => .pure _
  | printf format args =>
    refine (h.eval format).bind fun v => ?_
    cases v with
    | str text =>
      exact (h.evals args).bind fun values => .silent_bind .get fun m => .silent_bind (.ofExcept _) fun _ =>
        .recordLog _
    | _ => exact .silent (.fail _)
  | unsupported text reason => exact .silent (.fail _)

end

end Meaning.Locates

/-! ## Statements -/

section

variable {env : Env} {fuel : Nat}

/-- Where a statement ends without a return, the call goes on. -/
theorem Inward.bind_flow {c : Exec Flow} {f : Flow → Exec α} (h : Inward k c)
    (hc : ∀ {m n : Machine} {flow : Flow}, m.recorder.Sound → c m = .ok flow n →
      n.recorder.Sound ∧ Ran flow.returned? m n)
    (hf : ∀ flow : Flow, flow.returned? = none → Inward k (f flow)) (hret : ∀ v m e n, f (.ret v) m ≠ .error e n) :
    Inward k (c >>= f) where
  error {m e o} hm he := by
    rcases error_of_bind he with ha | ⟨flow, n, ha, hlast⟩
    · exact h.error hm ha
    · cases hflow : flow.returned? with
      | some v =>
        cases flow <;> cases hflow
        exact absurd hlast (hret v n e o)
      | none =>
        obtain ⟨hn, hran⟩ := hc hm.sound ha
        rw [hflow] at hran
        obtain ⟨hinner, houtside⟩ := hran.outside hm hn
        exact houtside.trans ((hf flow hflow).error hinner hlast)

theorem Inward.inScope {c : Exec Flow} (h : Inward k c) : Inward k (inScope c) := by
  refine modify_bind (f := fun m => { m with stack := m.stack.pushScope }) (fun _ => rfl)
    (fun m => CallStack.depth_updateCurrent _ _) ⟨fun {m e n} hm he => ?_⟩
  rcases error_of_bind he with hc | ⟨flow, o, -, hpop⟩
  · exact h.error hm hc
  · cases hpop

theorem Inward.repeatWhile {cond : Exec Bool} {body : Exec Flow} {next : Exec Unit} (hcond : Inward k cond)
    (hcond' : Balanced cond) (hbody : Inward k body)
    (hbody' : ∀ {m n : Machine} {flow : Flow}, m.recorder.Sound → body m = .ok flow n →
      n.recorder.Sound ∧ Ran flow.returned? m n)
    (hnext : Inward k next) (hnext' : Balanced next) (rounds : Nat) :
    Inward k (repeatWhile cond body next rounds) := by
  induction rounds with
  | zero => exact .of_locates (.silent .outOfFuel)
  | succ rounds ih =>
    refine hcond.bind hcond' fun go => ?_
    cases go with
    | false => exact .pure _
    | true =>
      refine hbody.bind_flow hbody' (fun flow _ => ?_) fun _ _ _ _ h => (nomatch h)
      cases flow.loopExit? with
      | some last => exact .pure last
      | none => exact hnext.bind hnext' fun _ => ih

theorem inward_checkEvents : Inward k (checkEvents env) := .of_locates (.silent (silent_checkEvents env))

theorem inward_begin (line : Nat) (step : Bool) : Inward k (begin env line step) := by
  refine .setLine_bind line ?_
  cases step with
  | false => exact inward_checkEvents
  | true =>
    refine Inward.bind (f := fun _ => checkEvents env) ⟨fun _ hc => nomatch hc⟩ (fun {m n a} hm hc => ?_) fun _ =>
      inward_checkEvents
    cases hc
    exact ⟨hm.of_step (hm.step (.step _ _)), .refl _, hm.inside_step _ _⟩

namespace Meaning.Locates

variable (h : (meaning env fuel).Locates k)
include h

theorem sequence (body : List Stmt) : Inward k (sequence (meaning env fuel).run body) := by
  induction body with
  | nil => exact .pure _
  | cons s rest ih =>
    refine (h.run s).bind_flow (fun hm hc => ((bracketed env fuel).run s.refsOnlyIf_true hm).of_ok hc)
      (fun flow _ => ?_) fun _ _ _ _ h => (nomatch h)
    cases flow with
    | normal => exact ih
    | _ => exact .pure _

theorem block (body : List Stmt) : Inward k (block (meaning env fuel) body) := .inScope (h.sequence body)

theorem forInit (init : Option (Nat × Action)) : Inward k (forInit (meaning env fuel) env init) := by
  cases init with
  | none => exact .pure ()
  | some first =>
    exact (inward_begin first.1 false).bind (balanced_begin first.1 false) fun _ => .of_locates (h.perform first.2)

theorem forCond (header : Nat) (cond : Option Expr) : Inward k (forCond (meaning env fuel) header cond) := by
  refine .setLine_bind header ?_
  cases cond with
  | none => exact .pure true
  | some e => exact .of_locates (h.truth e)

theorem forNext (header : Nat) (update : Option Expr) :
    Inward k (forNext (meaning env fuel) env header update) := by
  refine .setLine_bind header (.of_locates ?_)
  cases update with
  | none => exact .silent (silent_checkEvents env)
  | some e => exact ((h.eval e).bind_silent fun _ => .pure ()).bind_silent fun _ => silent_checkEvents env

/-- What is recorded after a return is the return itself. -/
theorem returning (value : Option Expr) : Inward k (returning (meaning env fuel) env value) := by
  have hreturn (v : Value) : Inward k (get >>= fun m : Machine => recordReturn v m.line >>= fun _ =>
      checkEvents env >>= fun _ => Pure.pure (Flow.ret v)) := by
    refine ⟨fun {m e n} hm he => ?_⟩
    rw [get_bind] at he
    let returned : Machine := { m with recorder := m.recorder.ret (m.heap.snapshot v) (some m.line) }
    have hcheck : checkEvents env returned = .error e n := by
      rcases error_of_bind (c := checkEvents env) (m := returned) he with hc | ⟨_, o, -, hret⟩
      · exact hc
      · cases hret
    have hstay := (silent_checkEvents env).error hcheck
    refine ⟨Nat.le_of_eq hstay.depth.symm, ?_⟩
    have hevents : n.recorder.events = returned.recorder.events := congrArg _ hstay.recorder
    rcases (m.recorder.ret_adds (some m.line) (m.heap.snapshot v)).1 with hsame | ⟨ev, hkind, hev⟩
    · exact .of_eq (hevents.trans hsame)
    · exact .push (hevents.trans hev) fun hsets => absurd (hkind.symm.trans hsets.1) (by decide)
  cases value with
  | none => exact hreturn .undefined
  | some e =>
    have hbalanced : Balanced ((meaning env fuel).eval e) := fun hm hc =>
      have hduring := (((bracketed env fuel).eval e hm).of_ok hc).1
      ⟨hduring.inv, hduring.rel⟩
    exact (Inward.of_locates (h.eval e)).bind hbalanced hreturn

theorem runBegun (rounds : Nat) (s : Stmt) : Inward k (runBegun (meaning env fuel) env rounds s) := by
  have hloop (cond : Expr) (body : List Stmt) : Inward k (Exec.repeatWhile (Exec.truth (meaning env fuel) cond)
      (Exec.block (meaning env fuel) body) (checkEvents env) rounds) :=
    .repeatWhile (.of_locates (h.truth cond)) (balanced_truth cond) (h.block body) block_ran inward_checkEvents
      balanced_checkEvents rounds
  cases s with
  | act line step action =>
    exact (Inward.of_locates (h.perform action)).bind (balanced_perform action) fun _ => .pure _
  | ifElse line step cond yes no =>
    refine (Inward.of_locates (h.truth cond)).bind (balanced_truth cond) fun b => ?_
    cases b with
    | true => exact h.block yes
    | false => exact h.block no
  | whileLoop line step cond body => exact hloop cond body
  | doWhile line step body cond =>
    refine (h.block body).bind_flow block_ran (fun flow _ => ?_) fun _ _ _ _ h => (nomatch h)
    cases flow.loopExit? with
    | some last => exact .pure last
    | none => exact inward_checkEvents.bind balanced_checkEvents fun _ => hloop cond body
  | forLoop line step init cond update body =>
    refine .inScope ((h.forInit init).bind (balanced_forInit init) fun _ => ?_)
    refine (Inward.of_locates (.silent .get)).bind (fun hm hc => ?_) fun m => ?_
    · cases hc
      exact ⟨hm, .refl _, .refl _⟩
    · exact .repeatWhile (h.forCond m.line cond) (balanced_forCond m.line cond) (h.block body) block_ran
        (h.forNext m.line update) (balanced_forNext m.line update) rounds
  | block line step body => exact h.block body
  | breakLoop line step | continueLoop line step => exact .pure _
  | ret line step value => exact h.returning value

theorem runWith (rounds : Nat) (s : Stmt) : Inward k (runWith (meaning env fuel) env rounds s) :=
  (inward_begin s.line s.step).bind (balanced_begin s.line s.step) fun _ => h.runBegun rounds s

/-! ### Calls -/

/-- Once a call has begun, only its body fails. -/
theorem body (f : Instrumented.Function) : Inward k (body (meaning env fuel) f) := by
  refine ⟨fun {m e n} hm he => ?_⟩
  rcases error_of_bind he with hc | ⟨flow, o, -, hfinish⟩
  · exact (h.sequence f.body).error hm hc
  · cases flow <;> cases hfinish

omit h in
/-- The events are counted before the call begins, so a call that does not begin fails at the line of its caller. -/
theorem enter_failed {f : Instrumented.Function} {vars : List (String × Value)} {e : Halt}
    (he : enter env f vars m = .error e n) : m.Failed k e n := by
  let called : Machine := { m with recorder := (m.entering f vars).recorder }
  rcases error_of_bind (c := checkEvents env) (m := called) he with hcheck | ⟨_, o, -, hrest⟩
  · have hn := (silent_checkEvents env).error hcheck
    have hline (e' : RunError) (he' : e = .failed e') : e'.line = called.line :=
      (silent_checkEvents env).raised (he' ▸ hcheck)
    refine ⟨Nat.le_of_eq hn.depth.symm, fun e' he' _ => hline e' he', ?_⟩
    exact .push (congrArg _ hn.recorder) fun hsets => nomatch hsets.1
  · cases hrest

/-- What fails in the body of a call fails inside the call. -/
theorem body_failed {f : Instrumented.Function} {vars : List (String × Value)} {e : Halt} (hm : m.Opened k)
    (he : Exec.body (meaning env fuel) f (m.entering f vars) = .error e n) : m.Failed k e n := by
  have hdepth : (m.entering f vars).stack.depth = m.stack.depth + 1 :=
    (CallStack.SameShape.declares (m.stack.pushFrame f.name) vars).depth_eq
  have hinner : (m.entering f vars).Inner k := by
    refine ⟨⟨hm.sound.call f.name _ _, ?_⟩, fun id hid => ?_⟩
    · exact Nat.le_trans hm.room (Nat.le_of_lt (by simp [Machine.entering]))
    · cases hid
      exact hm.room
  obtain ⟨hdeeper, hadds⟩ := (h.body f).error hinner he
  refine ⟨by omega, fun e' _ hsame => by omega, ?_⟩
  have hcall : m.Adds (m.Marks k) (m.entering f vars) := .push rfl fun hsets => nomatch hsets.1
  exact hcall.trans (hadds.imp fun e hquiet hsets => absurd hsets hquiet)

theorem callWith (name : String) (args : List Value) :
    Exec.Locates k (callWith (meaning env fuel) env name args) := by
  cases hf : env.program.function? name with
  | none =>
    have hlibrary : Exec.callWith (meaning env fuel) env name args = callLibrary name args := by
      rw [Exec.callWith, hf]
    rw [hlibrary]
    exact .silent (Silent.rules.callLibrary name args)
  | some f =>
    constructor
    · intro m v n hm hc
      have hcall : (meaning env (fuel + 1)).call name args m = .ok v n := hc
      have hsound : n.recorder.Sound := (((bracketed env (fuel + 1)).call name args hm.sound).of_ok hcall).1.inv
      obtain ⟨-, hevents, hactive, hframes, -, hline⟩ := callRecord_of_ok hm.sound hf hcall
      obtain ⟨_, _, _, _, c, inner, r, _, -, hevents, hcall, hinner, hret, -⟩ := hevents
      have hgrows := hinner.countP_call
      have hroom := hm.room
      refine ⟨⟨hsound, by omega⟩, hactive, ?_, hline, _, hevents, fun e he hsets => absurd hsets ?_⟩
      · rw [CallStack.depth_eq, CallStack.depth_eq, hframes]
      · have hcalls : Nested none m.recorder.frames.size (c :: (inner ++ [r])) n.recorder.frames.size :=
          .call hcall hinner hret .nil
        exact hcalls.not_setsBelow (fun _ hid => absurd hid (Option.not_mem_none _)) hm.room e he
    · intro m e n hm he
      simp only [Exec.callWith, hf] at he
      rcases error_of_bind he with hcheck | ⟨_, o, hcheck, he⟩
      · exact (Exec.Locates.silent (Silent.rules.checkCall env f args)).error hm hcheck
      have hchecked := (Exec.Locates.silent (Silent.rules.checkCall env f args)).ok hm hcheck
      refine hchecked.failed ?_
      rcases error_of_bind he with hnote | ⟨_, q, hnote, he⟩
      · cases hnote
      have hnoted := (Exec.Locates.silent (silent_noteEntry env name)).ok hchecked.toOpened hnote
      refine hnoted.failed ?_
      rcases error_of_bind he with hargs | ⟨vars, r, hargs, he⟩
      · exact (Exec.Locates.silent (Silent.rules.bindArgs f.params args)).error hnoted.toOpened hargs
      have hbound := (Exec.Locates.silent (Silent.rules.bindArgs f.params args)).ok hnoted.toOpened hargs
      refine hbound.failed ?_
      rw [get_bind] at he
      rcases error_of_bind he with henter | ⟨_, t, henter, he⟩
      · exact enter_failed henter
      have hentering : Ends (fun _ => False) (fun _ t => t = r.entering f vars) (fun _ => enter env f vars) r :=
        enter_ends f vars
      obtain rfl := hentering.of_ok henter
      rcases error_of_bind he with hbody | ⟨v, u, -, hleave⟩
      · exact h.body_failed hbound.toOpened hbody
      · cases hleave

end Meaning.Locates

end

/-- Expressions are located, and statements are inward, by induction on the fuel. -/
theorem locates_meaning (env : Env) (fuel : Nat) : (meaning env fuel).Locates k := by
  induction fuel with
  | zero =>
    exact ⟨fun _ => .silent .outOfFuel, fun _ => .silent .outOfFuel, fun _ _ => .silent .outOfFuel,
      fun _ => .of_locates (.silent .outOfFuel)⟩
  | succ fuel h => exact ⟨h.evalWith, h.resolveWith, h.callWith, h.runWith fuel⟩

end Exec

end CallTrace
