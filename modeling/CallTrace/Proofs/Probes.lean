import CallTrace.Instrumented.Listing
import CallTrace.Proofs.Bracketing
import CallTrace.Proofs.Evaluation.Budget
import CallTrace.Proofs.Tidy

/-! # Listed and recorded variables

A listing shows which variables a statement records, and a run records them.

* `Expr.straight`: an expression without alternatives, in which what a container operation changes is named
  without writing to anything.
* `Exec.Logs id names c`: a computation in the call `id` records the variables `names` of that call, in order.
* `Exec.records_meaning`: evaluating a straight expression records the variables that a walk over it finds.
* `Exec.sets_of_run`: so does a statement, and a listing shows them all if the statement only evaluates an
  expression or writes to nothing on the way.
-/

namespace CallTrace
set_option autoImplicit false

open Instrumented (Expr Place Action Stmt ContainerOp)

/-! ## Straight expressions -/

namespace Instrumented

mutual

/-- Whether an expression has no alternatives in it. A string that is changed in place is named twice, so naming
it must not write to anything. -/
def Expr.straight : Expr → Bool
  | .list items => straightAll items
  | .fill size fill => size.straight && fill.straight
  | .binary op left right => (op != .and && op != .or) && (left.straight && right.straight)
  | .neg e => e.straight
  | .not e => e.straight
  | .ternary _ _ _ => false
  | .assign target _ value => target.straight && value.straight
  | .update target _ _ => target.straight
  | .index base index => base.straight && index.straight
  | .call _ args => straightAll args
  | .container op target args =>
    (!op.mutates || target.probes.isEmpty) && (target.straight && straightAll args)
  | .int _ | .float _ | .bool _ | .str _ | .undefined | .var _ => true

def Place.straight : Place → Bool
  | .var _ => true
  | .index base index => base.straight && index.straight

def straightAll : List Expr → Bool
  | [] => true
  | e :: es => e.straight && straightAll es

end

theorem Place.straight_toExpr (target : Place) : target.toExpr.straight = target.straight := by
  cases target <;> rfl

theorem Place.probes_toExpr (target : Place) : target.toExpr.probes = target.probes := by
  cases target <;> rfl

theorem straightAll_iff {es : List Expr} : straightAll es ↔ ∀ e ∈ es, e.straight := by
  induction es with
  | nil => simp [straightAll]
  | cons e es ih => simp [straightAll, ih]

/-! ## Statements and their listings -/

/-- The expressions of a statement without statements inside. -/
def Stmt.operands : Stmt → List Expr
  | .act _ _ action => action.operands
  | .ret _ _ value => value.toList
  | _ => []

/-- Declarations, expressions, output and returns. -/
def Stmt.isSimple : Stmt → Bool
  | .act .. | .ret .. => true
  | _ => false

/-- The variables that a statement writes to, in order: those that its expressions write to, and the one that
it declares. -/
def Stmt.written (s : Stmt) : List String := probesOf s.operands ++ s.declared

/-- The statement evaluates an expression for its effect. -/
def Stmt.isEval : Stmt → Bool
  | .act _ _ (.eval _) => true
  | _ => false

def Line.setName? (l : Line) : Option String :=
  match l.content with
  | .set name _ => some name
  | _ => none

/-- The variables whose recording some lines show. -/
def listedNames (lines : List Line) : List String := lines.filterMap Line.setName?

theorem listedNames_setLines (indent line : Nat) (e : Expr) :
    listedNames (setLines indent line e) = e.probes := by
  simp only [listedNames, setLines, List.filterMap_map]
  exact List.filterMap_some

theorem listedNames_stepLines (indent : Nat) (step : Bool) (line : Nat) :
    listedNames (stepLines indent step line) = [] := by
  cases step <;> rfl

theorem listedNames_append (ls ls' : List Line) : listedNames (ls ++ ls') = listedNames ls ++ listedNames ls' :=
  List.filterMap_append

/-- A listing shows the variables that an expression for its effect writes to, and of every other statement
the one that it declares. -/
theorem listedNames_listing {s : Stmt} (hs : s.isSimple) (h : s.isEval ∨ probesOf s.operands = [])
    (indent : Nat) : listedNames (s.listing indent) = s.written := by
  cases s with
  | act line step action =>
    have hlisting : listedNames ((Stmt.act line step action).listing indent) =
        listedNames (action.listing indent line) := by
      rw [Stmt.listing, listedNames_append, listedNames_stepLines, List.nil_append]
    rw [hlisting]
    cases action with
    | eval e =>
      have hwritten : (Stmt.act line step (.eval e)).written = e.probes := by
        simp [Stmt.written, Stmt.operands, Action.operands, Stmt.declared, Action.declared, probesOf]
      rw [hwritten]
      exact listedNames_setLines indent line e
    | declare | log | printf | unsupported =>
      have hnone : probesOf (Stmt.act line step _).operands = [] := h.resolve_left Bool.false_ne_true
      rw [Stmt.written, hnone]
      rfl
  | ret line step value =>
    have hnone : probesOf (Stmt.ret line step value).operands = [] := h.resolve_left Bool.false_ne_true
    rw [Stmt.written, hnone]
    cases value <;> rw [Stmt.listing, listedNames_append, listedNames_stepLines] <;> rfl
  | _ => cases hs

end Instrumented

theorem CallStack.exists_lookup_of_local {s : CallStack} {name : String} (h : s.isLocal name) :
    ∃ v, s.lookup name = some v := by
  rw [lookup_of_local h]
  unfold isLocal at h
  unfold current
  split at h
  · exact Option.isSome_iff_exists.mp h
  · cases h

theorem CallStack.isLocal_declare {s : CallStack} (h : s.frames ≠ []) (name : String) (v : Value) :
    (s.declare name v).isLocal name := by
  obtain ⟨globals, frames, depth, hdepth⟩ := s
  cases frames with
  | nil => exact absurd rfl h
  | cons f rest =>
    change ((f.declare name v).lookup name).isSome = true
    rw [Frame.declare, Frame.lookup, Assoc.lookup_put_self]
    rfl

/-! ## Recorded variables -/

/-- The variable of the activation `id` whose new value an event records. -/
def Event.setName? (id : FrameId) (e : Event) : Option String :=
  match e.payload with
  | .set name _ _ => if e.frameId = some id then some name else none
  | _ => none

/-- The variables of the activation `id` that some events record, in order. -/
def recordedNames (id : FrameId) (es : List Event) : List String := es.filterMap (Event.setName? id)

namespace Event

variable {id : FrameId} {e : Event}

theorem setName?_of_kind (h : e.kind ≠ .set) : e.setName? id = none := by
  obtain ⟨payload, message, line, frameId⟩ := e
  cases payload with
  | set name value locals => exact absurd rfl h
  | _ => rfl

theorem setName?_of_frameId (h : e.frameId ≠ some id) : e.setName? id = none := by
  obtain ⟨payload, message, line, frameId⟩ := e
  cases payload with
  | set name value locals => exact if_neg h
  | _ => rfl

end Event

theorem recordedNames_append (id : FrameId) (es fs : List Event) :
    recordedNames id (es ++ fs) = recordedNames id es ++ recordedNames id fs := List.filterMap_append

theorem recordedNames_cons_of_none {id : FrameId} {e : Event} (h : e.setName? id = none) (es : List Event) :
    recordedNames id (e :: es) = recordedNames id es := List.filterMap_cons_none h

/-- What happens inside a later call records nothing for an earlier one. -/
theorem Nested.recordedNames_eq_nil {at' : Option FrameId} {k n : Nat} {es : List Event}
    (h : Nested at' k es n) {id : FrameId} : at' ≠ some id → id < k → recordedNames id es = [] := by
  induction h with
  | nil => exact fun _ _ => rfl
  | own he _ ih =>
    intro hat hid
    rw [recordedNames_cons_of_none (Event.setName?_of_frameId (he.1 ▸ hat))]
    exact ih hat hid
  | @call at' k n l line c r inner es name args at'' value hc hinner hr hes ih ih' =>
    intro hat hid
    have hk : (some k : Option FrameId) ≠ some id := fun e => Nat.lt_irrefl k (Option.some.inj e ▸ hid)
    have hkn : k < n := by
      have hcount := hinner.countP_call
      omega
    rw [recordedNames_cons_of_none (Event.setName?_of_frameId (hc.1 ▸ hk)), recordedNames_append,
      recordedNames_cons_of_none (Event.setName?_of_frameId (hr.1 ▸ hk)), ih hk (Nat.lt_succ_of_lt hid),
      ih' hat (Nat.lt_trans hid hkn)]
    rfl

namespace Exec

/-- From `m` to `n`, in the call `id`, the variables `names` of that call have been recorded, in order. -/
structure Logged (id : FrameId) (names : List String) (m n : Machine) : Prop where
  sound : n.recorder.Sound
  active : n.recorder.active = m.recorder.active
  depth : n.stack.depth = m.stack.depth
  isLocal : ∀ name, m.stack.isLocal name → n.stack.isLocal name
  events : ∃ es, n.recorder.events.toList = m.recorder.events.toList ++ es ∧ recordedNames id es = names

section

variable {α β : Type} {id : FrameId} {names names' : List String} {m n o : Machine}

namespace Logged

theorem isEmpty (h : Logged id names m n) : n.stack.isEmpty = m.stack.isEmpty := by
  have hdepth := h.depth
  rw [CallStack.depth_eq, CallStack.depth_eq] at hdepth
  rw [CallStack.isEmpty, CallStack.isEmpty, Bool.eq_iff_iff, List.isEmpty_iff_length_eq_zero,
    List.isEmpty_iff_length_eq_zero, hdepth]

theorem of_alike (hm : m.recorder.Sound) (h : m.Alike n) : Logged id [] m n where
  sound := h.recorder ▸ hm
  active := congrArg _ h.recorder
  depth := h.depth
  isLocal name hname := (h.isLocal name).trans hname
  events := ⟨[], by rw [h.recorder, List.append_nil], rfl⟩

theorem trans (h : Logged id names m n) (h' : Logged id names' n o) : Logged id (names ++ names') m o where
  sound := h'.sound
  active := h'.active.trans h.active
  depth := h'.depth.trans h.depth
  isLocal name hname := h'.isLocal name (h.isLocal name hname)
  events := by
    obtain ⟨es, he, rfl⟩ := h.events
    obtain ⟨fs, hf, rfl⟩ := h'.events
    exact ⟨es ++ fs, by rw [hf, he, List.append_assoc], recordedNames_append id es fs⟩

end Logged

/-- A computation that records the variables `names` of the call `id`, in order, if they are local to it. -/
def Logs (id : FrameId) (names : List String) (c : Exec α) : Prop :=
  ∀ (m : Machine) (a : α) (n : Machine), m.recorder.Sound → m.recorder.active.head? = some id →
    (∀ name ∈ names, m.stack.isLocal name) → c m = .ok a n → Logged id names m n

namespace Logs

theorem silent {c : Exec α} (h : Silent c) : Logs id [] c := fun _ _ _ hm _ _ hc => .of_alike hm (h.ok hc)

theorem bind {c : Exec α} {f : α → Exec β} (h : Logs id names c) (hf : ∀ a, Logs id names' (f a)) :
    Logs id (names ++ names') (c >>= f) := by
  intro m b o hm hid hlocal hc
  obtain ⟨a, n, ha, hb⟩ := ok_of_bind hc
  have hfirst := h m a n hm hid (fun name hname => hlocal name (List.mem_append_left _ hname)) ha
  exact hfirst.trans (hf a n b o hfirst.sound (by rw [hfirst.active, hid])
    (fun name hname => hfirst.isLocal name (hlocal name (List.mem_append_right _ hname))) hb)

theorem bind_silent {c : Exec α} {f : α → Exec β} (h : Logs id names c) (hf : ∀ a, Silent (f a)) :
    Logs id names (c >>= f) := by
  have hboth := h.bind fun a => silent (hf a)
  rwa [List.append_nil] at hboth

theorem silent_bind {c : Exec α} {f : α → Exec β} (h : Silent c) (hf : ∀ a, Logs id names (f a)) :
    Logs id names (c >>= f) := (silent h).bind hf

theorem mapM {f : Expr → Exec α} {es : List Expr} (hf : ∀ e ∈ es, Logs id e.probes (f e)) :
    Logs id (Instrumented.probesOf es) (es.mapM f) := by
  induction es with
  | nil => exact silent (.pure [])
  | cons e es ih =>
    rw [List.mapM_cons]
    refine (hf e List.mem_cons_self).bind fun a => ?_
    exact (ih fun e' he' => hf e' (List.mem_cons_of_mem _ he')).bind_silent fun _ => .pure _

end Logs

/-- Writing to a variable of the call is recorded. -/
theorem logs_recordSet (name : String) : Logs id [name] (recordSet name) := by
  intro m a n hm hid hlocal hc
  have hname : m.stack.isLocal name := hlocal name (List.mem_singleton_self name)
  obtain ⟨v, hv⟩ := CallStack.exists_lookup_of_local hname
  have hset : recordSet name m =
      .ok () { m with recorder := m.recorder.set name (m.heap.snapshot v) (some m.line) } := by
    change EStateM.Result.ok () _ = _
    simp only [hname, hv, if_true]
  cases hset.symm.trans hc
  rcases hm.set_cases name (m.heap.snapshot v) (some m.line) with ⟨hnil, -⟩ | ⟨a, ha, he⟩
  · rw [hnil] at hid
    cases hid
  · obtain ⟨rest, hactive⟩ := ha.active
    rw [hactive] at hid
    cases hid
    have hactive' : (m.recorder.set name (m.heap.snapshot v) (some m.line)).active = m.recorder.active := by
      rw [he]
      rfl
    refine ⟨hm.of_step (hm.step (.set ..)), hactive', rfl, fun _ h => h, ?_⟩
    dsimp only
    rw [he, Recorder.events_assigned, Array.toList_push]
    exact ⟨_, rfl, by simp [recordedNames, Event.setName?]⟩

theorem logs_recordRoot (root : Option String) : Logs id root.toList (recordRoot root) := by
  cases root with
  | none => exact .silent (.pure ())
  | some name => exact logs_recordSet name

/-! ### Expressions -/

/-- Straight expressions record the variables that they write to, and calls record none of the call `id`. -/
structure Meaning.Records (id : FrameId) (p : Meaning) : Prop where
  eval (e : Expr) : e.straight → Logs id e.probes (p.eval e)
  resolve (e : Expr) : e.straight → Logs id e.probes (p.resolve e)
  call (name : String) (args : List Value) : Logs id [] (p.call name args)

namespace Meaning.Records

variable {p : Meaning} (h : p.Records id)
include h

theorem evals {es : List Expr} (hes : Instrumented.straightAll es) :
    Logs id (Instrumented.probesOf es) (es.mapM p.eval) :=
  .mapM fun e he => h.eval e (Instrumented.straightAll_iff.mp hes e he)

theorem truth {e : Expr} (he : e.straight) : Logs id e.probes (truth p e) :=
  (h.eval e he).bind_silent fun _ => .pure _

theorem literal {items : List Expr} (hitems : Instrumented.straightAll items) :
    Logs id (Instrumented.probesOf items) (literal p items) := by
  have hitem (e : Expr) (he : e ∈ items) : Logs id e.probes (p.eval e >>= fun v => copy v) :=
    (h.eval e (Instrumented.straightAll_iff.mp hitems e he)).bind_silent Silent.rules.copy
  exact (Logs.mapM hitem).bind_silent fun _ => Silent.rules.newList _

theorem filled {size fill : Expr} (hsize : size.straight) (hfill : fill.straight) :
    Logs id (size.probes ++ fill.probes) (filled p size fill) := by
  refine (h.eval size hsize).bind fun w => Logs.silent_bind (.ofExcept _) fun n => ?_
  exact (h.eval fill hfill).bind_silent fun v => (Silent.rules.onHeap _).bind fun _ =>
    Silent.rules.newList _

/-- Both operands of an operator that is neither `&&` nor `||` are evaluated. -/
theorem binary {op : BinOp} {left right : Expr} (hop : op != .and && op != .or) (hleft : left.straight)
    (hright : right.straight) : Logs id (left.probes ++ right.probes) (binary p op left right) := by
  refine (h.eval left hleft).bind fun l => ?_
  have hboth : Logs id right.probes
      (p.eval right >>= fun r => get >>= fun m : Machine => ofExcept (binaryOp m.heap op l r)) :=
    (h.eval right hright).bind_silent fun r => Silent.get.bind fun m => .ofExcept _
  cases op
  case and | or => cases hop
  all_goals exact hboth

theorem assignment {target : Place} (op : Option BinOp) {value : Expr} (htarget : target.straight)
    (hvalue : value.straight) :
    Logs id (target.probes ++ value.probes ++ target.root?.toList) (assignment p target op value) := by
  have hslot := h.resolve target.toExpr (target.straight_toExpr ▸ htarget)
  rw [Place.probes_toExpr] at hslot
  rw [List.append_assoc]
  refine hslot.bind fun slot => (h.eval value hvalue).bind fun v => ?_
  refine Logs.silent_bind (Silent.rules.stored slot op v) fun new => ?_
  refine Logs.silent_bind (Silent.rules.writeSlot slot new) fun _ => ?_
  exact (logs_recordRoot target.root?).bind_silent fun _ => .pure _

theorem stepping {target : Place} (step : Instrumented.Step) (before : Bool) (htarget : target.straight) :
    Logs id (target.probes ++ target.root?.toList) (stepping p target step before) := by
  have hslot := h.resolve target.toExpr (target.straight_toExpr ▸ htarget)
  rw [Place.probes_toExpr] at hslot
  refine hslot.bind fun slot => Logs.silent_bind (Silent.rules.updateSlot slot (supported_stepBy _)) fun both => ?_
  exact (logs_recordRoot target.root?).bind_silent fun _ => .pure _

theorem indexing {base index : Expr} (hbase : base.straight) (hindex : index.straight) :
    Logs id (base.probes ++ index.probes) (indexing p base index) := by
  refine (h.eval base hbase).bind fun container => (h.eval index hindex).bind_silent fun w => ?_
  exact (Silent.ofExcept _).bind fun k => Silent.get.bind fun m => .ofExcept _

/-- A string that is changed has its target named once more, which records nothing. -/
theorem onString (op : ContainerOp) {target : Expr} (htarget : target.straight)
    (hsteady : op.mutates → target.probes = []) (s : String) (args : List Value) :
    Logs id [] (onString p op target s args) := by
  refine onString_rule p op target s args (fun cause => .silent (.fail cause)) (fun result => .silent (.pure result))
    fun result t hop => ?_
  have hslot := h.resolve target htarget
  rw [hsteady hop] at hslot
  exact hslot.bind_silent fun slot => (Silent.rules.writeSlot slot _).bind fun _ => .pure _

theorem operation (op : ContainerOp) {target : Expr} {args : List Expr}
    (he : (Expr.container op target args).straight) :
    Logs id (Expr.container op target args).probes (operation p op target args) := by
  obtain ⟨hsteady, hparts⟩ := Bool.and_eq_true_iff.mp he
  obtain ⟨htarget, hargs⟩ := Bool.and_eq_true_iff.mp hparts
  have hnone (hop : op.mutates) : target.probes = [] := by simpa [hop] using hsteady
  have hroot : (Expr.container op target args).probe?.toList =
      if op.mutates then target.root?.toList else [] := by
    change (if op.mutates then target.root? else none).toList = _
    split <;> rfl
  have hrecord (result : Value) : Logs id (Expr.container op target args).probe?.toList
      (recordRoot (Expr.container op target args).probe? >>= fun _ => pure result) :=
    (logs_recordRoot _).bind_silent fun _ => .pure _
  rw [Expr.probes, List.append_assoc, ← hroot]
  refine (h.eval target htarget).bind fun container => (h.evals hargs).bind fun values => ?_
  cases container with
  | list c => exact Logs.silent_bind (Silent.rules.listOp op c values) hrecord
  | str s => exact (h.onString op htarget hnone s values).bind hrecord
  | _ => exact Logs.silent_bind (.fail _) hrecord

theorem evalWith {e : Expr} (he : e.straight) : Logs id e.probes (evalWith p e) := by
  cases e with
  | int | float | bool | str | undefined => exact .silent (.pure _)
  | var name => exact .silent (Silent.rules.lookup name)
  | list items => exact h.literal he
  | fill size fill =>
    obtain ⟨hsize, hfill⟩ := Bool.and_eq_true_iff.mp he
    exact h.filled hsize hfill
  | binary op left right =>
    obtain ⟨hop, hparts⟩ := Bool.and_eq_true_iff.mp he
    obtain ⟨hleft, hright⟩ := Bool.and_eq_true_iff.mp hparts
    exact h.binary hop hleft hright
  | neg operand => exact Logs.bind_silent (h.eval operand he) fun _ => .ofExcept _
  | not operand => exact Logs.bind_silent (h.truth (e := operand) he) fun _ => .pure _
  | ternary cond yes no => cases he
  | assign target op value =>
    obtain ⟨htarget, hvalue⟩ := Bool.and_eq_true_iff.mp he
    exact h.assignment op htarget hvalue
  | update target step before => exact h.stepping step before he
  | index base index =>
    obtain ⟨hbase, hindex⟩ := Bool.and_eq_true_iff.mp he
    exact h.indexing hbase hindex
  | call name args =>
    have hargs : Instrumented.straightAll args := he
    have hcall := (h.evals hargs).bind fun vs => h.call name vs
    rwa [List.append_nil] at hcall
  | container op target args => exact h.operation op he

theorem resolveWith {e : Expr} (he : e.straight) : Logs id e.probes (resolveWith p e) := by
  have hfail (cause : Cause) : Logs id e.probes (fail cause : Exec Slot) := fun _ _ _ _ _ _ hc => nomatch hc
  cases e with
  | var name => exact .silent (.pure _)
  | index base index =>
    obtain ⟨hbase, hindex⟩ := Bool.and_eq_true_iff.mp he
    refine (h.resolve base hbase).bind fun owner => (h.eval index hindex).bind_silent fun w => ?_
    exact (Silent.ofExcept _).bind fun k => Silent.rules.elementSlot owner k
  | _ => exact hfail _

end Meaning.Records

/-- What a call records belongs to the call or to calls inside it. -/
theorem logs_call (env : Env) (fuel : Nat) (name : String) (args : List Value) :
    Logs id [] ((meaning env fuel).call name args) := by
  intro m v n hm hid _ hc
  cases fuel with
  | zero => cases hc
  | succ fuel =>
    cases hf : env.program.function? name with
    | none =>
      have hlibrary : callWith (meaning env fuel) env name args = callLibrary name args := by
        rw [callWith, hf]
      exact .of_alike hm ((Silent.rules.callLibrary name args).ok ((congrFun hlibrary m).symm.trans hc))
    | some f =>
      obtain ⟨-, hevents, hactive, hframes, -, -⟩ := callRecord_of_ok hm hf hc
      obtain ⟨_, _, _, _, c, inner, r, _, -, hevents, hc', hinner, hr, -⟩ := hevents
      have hid' : id < m.recorder.frames.size := hm.active_lt id (List.mem_of_mem_head? hid)
      have hother : (some m.recorder.frames.size : Option FrameId) ≠ some id := fun e =>
        Nat.lt_irrefl _ (Option.some.inj e ▸ hid')
      have hsound : n.recorder.Sound := (((bracketed env (fuel + 1)).call name args hm).of_ok hc).1.inv
      refine ⟨hsound, hactive, ?_, fun x hx => ?_, _, hevents, ?_⟩
      · rw [CallStack.depth_eq, CallStack.depth_eq, hframes]
      · unfold CallStack.isLocal at hx ⊢
        rw [hframes]
        exact hx
      · rw [recordedNames_cons_of_none (Event.setName?_of_frameId (hc'.1 ▸ hother)), recordedNames_append,
          hinner.recordedNames_eq_nil hother (Nat.lt_succ_of_lt hid'),
          recordedNames_cons_of_none (Event.setName?_of_frameId (hr.1 ▸ hother))]
        rfl

/-- A straight expression records the variables that it writes to, by induction on the fuel. -/
theorem records_meaning (env : Env) (fuel : Nat) : (meaning env fuel).Records id := by
  induction fuel with
  | zero =>
    exact ⟨fun _ _ _ _ _ _ _ _ hc => (nomatch hc), fun _ _ _ _ _ _ _ _ hc => (nomatch hc), logs_call env 0⟩
  | succ fuel ih => exact ⟨fun e he => ih.evalWith he, fun e he => ih.resolveWith he, logs_call env _⟩

/-! ### Statements -/

theorem logs_begin (env : Env) (line : Nat) (step : Bool) : Logs id [] (begin env line step) := by
  have hline : Logs id [] (setLine line) := fun m _ n hm _ _ hc => by
    cases hc
    exact .of_alike hm (.of_eq rfl rfl)
  refine hline.bind fun _ => ?_
  cases step with
  | false => exact .silent (silent_checkEvents env)
  | true =>
    refine Logs.bind_silent (f := fun _ => checkEvents env) (fun m _ n hm hid _ hc => ?_) fun _ =>
      silent_checkEvents env
    cases hc
    have hsound := hm.of_step (hm.step (.step ("Executing line " ++ toString line) (some line)))
    rcases hm.step_cases ("Executing line " ++ toString line) (some line) with ⟨hnil, -⟩ | ⟨a, ha, he⟩
    · rw [hnil] at hid
      cases hid
    · have hactive : (m.recorder.step ("Executing line " ++ toString line) (some line)).active =
          m.recorder.active := by
        rw [he]
        rfl
      refine ⟨hsound, hactive, rfl, fun _ h => h, ?_⟩
      dsimp only
      rw [he, Recorder.events_push, Array.toList_push]
      exact ⟨_, rfl, rfl⟩

theorem logs_recordLog (text : String) : Logs id [] (recordLog text) := by
  intro m _ n hm _ _ hc
  cases hc
  exact ⟨hm.log text _, rfl, rfl, fun _ h => h, _, Array.toList_push, rfl⟩

/-- An action that declares nothing records the variables that its expressions write to. -/
theorem Meaning.Records.perform {p : Meaning} (h : p.Records id) {action : Action}
    (hdeclare : ∀ name init byRef, action ≠ .declare name init byRef)
    (hstraight : Instrumented.straightAll action.operands) :
    Logs id (Instrumented.probesOf action.operands) (perform p action) := by
  cases action with
  | declare name init byRef => exact absurd rfl (hdeclare name init byRef)
  | eval e =>
    obtain ⟨he, -⟩ := Bool.and_eq_true_iff.mp hstraight
    have hprobes : Instrumented.probesOf [e] = e.probes := List.append_nil _
    rw [Instrumented.Action.operands, hprobes]
    exact Logs.bind_silent (h.eval e he) fun _ => .pure _
  | log parts =>
    have hpart (e : Expr) (he : e ∈ parts) : Logs id e.probes
        (p.eval e >>= fun v => get >>= fun m : Machine => pure (m.heap.text v)) :=
      (h.eval e (Instrumented.straightAll_iff.mp hstraight e he)).bind_silent fun v =>
        Silent.get.bind fun m => .pure _
    have hall := (Logs.mapM hpart).bind fun texts => logs_recordLog (String.join texts)
    rwa [List.append_nil] at hall
  | printf format args =>
    obtain ⟨hformat, hargs⟩ := Bool.and_eq_true_iff.mp hstraight
    refine (h.eval format hformat).bind fun v => ?_
    cases v with
    | str text =>
      have hrest (values : List Value) : Logs id [] (get >>= fun m : Machine =>
          ofExcept (Printf.format m.heap text values) >>= fun out => recordLog (Printf.dropLineFeed out)) :=
        Logs.silent_bind .get fun m => Logs.silent_bind (.ofExcept _) fun out => logs_recordLog _
      have hall := (h.evals hargs).bind hrest
      rwa [List.append_nil] at hall
    | _ => exact fun _ _ _ _ _ _ hc => nomatch hc
  | unsupported text reason => exact fun _ _ _ _ _ _ hc => nomatch hc

/-- A declaration in a call records the variables that its expression writes to, and then the one declared. -/
theorem Meaning.Records.declaration {p : Meaning} (h : p.Records id) {name : String} {init : Expr}
    {byRef : Bool} (hstraight : init.straight) (hm : m.recorder.Sound) (hid : m.recorder.active.head? = some id)
    (hcall : m.stack.isEmpty = false) (hlocal : ∀ x ∈ init.probes, m.stack.isLocal x)
    (hc : declaration p name init byRef m = .ok () n) :
    ∃ es, n.recorder.events.toList = m.recorder.events.toList ++ es ∧
      recordedNames id es = init.probes ++ [name] := by
  have hstore (v : Value) {o : Machine} (ho : Logged id init.probes m o)
      (hc : (modifyStack (·.declare name v) >>= fun _ => recordSet name) o = .ok () n) :
      ∃ es, n.recorder.events.toList = m.recorder.events.toList ++ es ∧
        recordedNames id es = init.probes ++ [name] := by
    obtain ⟨_, q, hq, hset⟩ := ok_of_bind hc
    cases hq
    have hdeclared : (o.stack.declare name v).isLocal name := by
      refine CallStack.isLocal_declare (fun hnil => ?_) name v
      have hframe := ho.isEmpty.trans hcall
      rw [CallStack.isEmpty, hnil] at hframe
      cases hframe
    obtain ⟨-, -, -, -, fs, hf, hnames⟩ := logs_recordSet name { o with stack := o.stack.declare name v } () n
      ho.sound (by rw [ho.active, hid]) (fun x hx => List.mem_singleton.mp hx ▸ hdeclared) hset
    obtain ⟨es, he, hes⟩ := ho.events
    exact ⟨es ++ fs, by rw [hf, he, List.append_assoc], by rw [recordedNames_append, hes, hnames]⟩
  obtain ⟨v, o, ho, hc⟩ := ok_of_bind hc
  have hlogged := h.eval init hstraight m v o hm hid hlocal ho
  cases byRef with
  | true => exact hstore v hlogged hc
  | false =>
    obtain ⟨w, q, hq, hc⟩ := ok_of_bind hc
    have hcopied := hlogged.trans (.of_alike hlogged.sound ((Silent.rules.copy v).ok hq))
    rw [List.append_nil] at hcopied
    exact hstore w hcopied hc

/-- An action records the variables that its expressions write to, and then the one that it declares. -/
theorem Meaning.Records.act {p : Meaning} (h : p.Records id) {action : Action}
    (hstraight : Instrumented.straightAll action.operands) (hm : m.recorder.Sound)
    (hid : m.recorder.active.head? = some id) (hcall : m.stack.isEmpty = false)
    (hlocal : ∀ x ∈ Instrumented.probesOf action.operands, m.stack.isLocal x)
    (hc : Exec.perform p action m = .ok () n) :
    ∃ es, n.recorder.events.toList = m.recorder.events.toList ++ es ∧
      recordedNames id es = Instrumented.probesOf action.operands ++ action.declared := by
  by_cases hdeclare : ∃ name init byRef, action = .declare name init byRef
  · obtain ⟨name, init, byRef, rfl⟩ := hdeclare
    have hprobes : Instrumented.probesOf [init] = init.probes := List.append_nil _
    have hinit : init.straight := (Bool.and_eq_true_iff.mp hstraight).1
    rw [Action.operands, hprobes] at hlocal ⊢
    exact h.declaration hinit hm hid hcall hlocal hc
  · have hother (name : String) (init : Expr) (byRef : Bool) : action ≠ .declare name init byRef :=
      fun h => hdeclare ⟨name, init, byRef, h⟩
    have hnone : action.declared = [] := by
      cases action with
      | declare name init byRef => exact absurd rfl (hother name init byRef)
      | _ => rfl
    rw [hnone, List.append_nil]
    exact (h.perform hother hstraight m () n hm hid hlocal hc).events

/-- A return statement records the variables that its expression writes to, before its return. -/
theorem Meaning.Records.returning {env : Env} {p : Meaning} (h : p.Records id) {value : Option Expr}
    {flow : Flow} (hstraight : Instrumented.straightAll value.toList) (hm : m.recorder.Sound)
    (hid : m.recorder.active.head? = some id)
    (hlocal : ∀ x ∈ Instrumented.probesOf value.toList, m.stack.isLocal x)
    (hc : returning p env value m = .ok flow n) :
    ∃ es, n.recorder.events.toList = m.recorder.events.toList ++ es ∧
      recordedNames id es = Instrumented.probesOf value.toList := by
  have hrecord (v : Value) {o : Machine} (ho : Logged id (Instrumented.probesOf value.toList) m o)
      (hc : (get >>= fun s : Machine => recordReturn v s.line >>= fun _ => checkEvents env >>= fun _ =>
        pure (.ret v)) o = .ok flow n) :
      ∃ es, n.recorder.events.toList = m.recorder.events.toList ++ es ∧
        recordedNames id es = Instrumented.probesOf value.toList := by
    rw [get_bind] at hc
    obtain ⟨_, q, hq, hc⟩ := ok_of_bind hc
    cases hq
    obtain ⟨_, r, hr, hc⟩ := ok_of_bind hc
    obtain ⟨rfl, -⟩ := checkEvents_ok hr
    cases hc
    obtain ⟨es, he, hes⟩ := ho.events
    rcases (o.recorder.ret_adds (some o.line) (o.heap.snapshot v)).1 with hsame | ⟨e, hkind, hevents⟩
    · exact ⟨es, by rw [hsame, he], hes⟩
    · refine ⟨es ++ [e], by rw [hevents, Array.toList_push, he, List.append_assoc], ?_⟩
      have hnone : e.setName? id = none := Event.setName?_of_kind (by rw [hkind]; decide)
      rw [recordedNames_append, recordedNames_cons_of_none hnone, hes]
      exact List.append_nil _
  cases value with
  | none => exact hrecord .undefined (.of_alike hm (.refl m)) hc
  | some e =>
    obtain ⟨he, -⟩ := Bool.and_eq_true_iff.mp hstraight
    have hprobes : Instrumented.probesOf (some e).toList = e.probes := List.append_nil _
    rw [hprobes] at hlocal hrecord ⊢
    obtain ⟨v, o, ho, hc⟩ := ok_of_bind hc
    exact hrecord v (h.eval e he m v o hm hid hlocal ho) hc

/-- A straight statement that comes to its end in a call, from any state that a run reaches, records the
variables that its expressions write to, in order of evaluation, and then the one that it declares. Its listing
shows them all, in the same order, if it evaluates an expression for its effect or its expressions write to
nothing. -/
theorem sets_of_run {env : Env} {k fuel : Nat} {s : Stmt} {flow : Flow} (hreached : Reached env k (.run s) m)
    (hsimple : s.isSimple) (hstraight : Instrumented.straightAll s.operands)
    (hid : m.recorder.active.head? = some id) (hcall : m.stack.isEmpty = false)
    (hlocal : ∀ x ∈ Instrumented.probesOf s.operands, m.stack.isLocal x)
    (hc : (meaning env fuel).run s m = .ok flow n) :
    ∃ es, n.recorder.events.toList = m.recorder.events.toList ++ es ∧ recordedNames id es = s.written ∧
      (s.isEval ∨ Instrumented.probesOf s.operands = [] →
        ∀ indent, Instrumented.listedNames (s.listing indent) = recordedNames id es) := by
  have hm : m.recorder.Sound := bracketing.inv_of_reached (Instrumented.Program.refsOnlyIf_true _)
    bracketing_inv_initial hreached
  suffices hsets : ∃ es, n.recorder.events.toList = m.recorder.events.toList ++ es ∧
      recordedNames id es = s.written by
    obtain ⟨es, he, hes⟩ := hsets
    exact ⟨es, he, hes, fun hshown indent =>
      (Instrumented.listedNames_listing hsimple hshown indent).trans hes.symm⟩
  cases fuel with
  | zero => cases hc
  | succ fuel =>
    have hrecords : (meaning env fuel).Records id := records_meaning env fuel
    obtain ⟨_, o, hbegin, hc⟩ := ok_of_bind hc
    have hbegun := logs_begin env s.line s.step m () o hm hid (fun x hx => nomatch hx) hbegin
    have hactive : o.recorder.active.head? = some id := by rw [hbegun.active, hid]
    have hlocals (x : String) (hx : x ∈ Instrumented.probesOf s.operands) : o.stack.isLocal x :=
      hbegun.isLocal x (hlocal x hx)
    suffices hdone : ∃ es, n.recorder.events.toList = o.recorder.events.toList ++ es ∧
        recordedNames id es = s.written by
      obtain ⟨fs, hf, hnone⟩ := hbegun.events
      obtain ⟨es, he, hes⟩ := hdone
      exact ⟨fs ++ es, by rw [he, hf, List.append_assoc], by rw [recordedNames_append, hnone, hes]; rfl⟩
    cases s with
    | ret line step value =>
      have hwritten : (Stmt.ret line step value).written = Instrumented.probesOf value.toList :=
        List.append_nil _
      rw [hwritten]
      exact hrecords.returning hstraight hbegun.sound hactive hlocals hc
    | act line step action =>
      obtain ⟨_, q, hperform, hpure⟩ := ok_of_bind hc
      cases hpure
      exact hrecords.act hstraight hbegun.sound hactive (hbegun.isEmpty.trans hcall) hlocals hperform
    | _ => cases hsimple

end

/-! ### An example -/

/-- The statement `int x = 1;`. -/
def declareOne : Stmt := .act 2 true (.declare "x" (.int 1) false)

/-- An entry function that declares a variable and goes on with the statement `s`. -/
def declaringMain (s : Stmt) : Instrumented.Function where
  name := "main"
  params := []
  body := [declareOne, s]
  line := 1
  endLine := 4

def declaringEnv (s : Stmt) : Env where
  program := { functions := [declaringMain s], driver := [], degradations := [] }
  config := .default

/-- The state in which the body of `declaringMain` starts. -/
def declaringStart (s : Stmt) : Machine :=
  (Machine.noting { Machine.initial with line := 1 } (declaringEnv s) "main").entering (declaringMain s) []

/-- The state in which the variable has been declared. -/
def declaringState (s : Stmt) : Machine :=
  match (meaning (declaringEnv s) 8).run declareOne (declaringStart s) with
  | .ok _ m | .error _ m => m

theorem reached_declaringState (s : Stmt) (hs : declareOne ≠ s) :
    Reached (declaringEnv s) 8 (.run s) (declaringState s) := by
  have hne : s ∉ [declareOne] := fun hm => hs (List.mem_singleton.mp hm).symm
  have hlimits : 0 < Config.default.maxCallDepth ∧ 0 < Config.default.maxEvents := by decide
  exact reached_statement [declareOne] rfl rfl rfl hlimits.1 hlimits.2 rfl hne (by with_unfolding_all rfl)

/-- The statement `x += x++;`. -/
def addStepped : Stmt := .act 3 true (.eval (.assign (.var "x") (some .add) (.update (.var "x") .up false)))

theorem sets_of_run_addStepped :
    ∃ flow n es, (meaning (declaringEnv addStepped) 8).run addStepped (declaringState addStepped) = .ok flow n ∧
      n.recorder.events.toList = (declaringState addStepped).recorder.events.toList ++ es ∧
      recordedNames 0 es = ["x", "x"] ∧ Instrumented.listedNames (addStepped.listing 0) = ["x", "x"] := by
  have hreached : Reached (declaringEnv addStepped) 8 (.run addStepped) (declaringState addStepped) :=
    reached_declaringState addStepped (by rintro ⟨⟩)
  obtain ⟨flow, n, hc⟩ : ∃ flow n, (meaning (declaringEnv addStepped) 8).run addStepped
      (declaringState addStepped) = .ok flow n := by
    with_unfolding_all exact ⟨_, _, rfl⟩
  have hlocal : (declaringState addStepped).stack.isLocal "x" := by with_unfolding_all rfl
  have hid : (declaringState addStepped).recorder.active.head? = some 0 := by with_unfolding_all rfl
  obtain ⟨es, he, hnames, hlisted⟩ := sets_of_run hreached rfl rfl hid (by with_unfolding_all rfl)
    (fun x hx => by
      have hx' : x ∈ ["x", "x"] := hx
      have hxx : x = "x" := by simpa using hx'
      exact hxx ▸ hlocal) hc
  exact ⟨flow, n, es, hc, he, hnames, (hlisted (.inl rfl) 0).trans hnames⟩

/-- The statement `int y = x++;`. -/
def declareStepped : Stmt := .act 3 true (.declare "y" (.update (.var "x") .up false) false)

/-- What a declaration writes to on the way is recorded and not shown. -/
theorem not_listedNames_eq_recordedNames :
    ¬ ∀ (env : Env) (k fuel : Nat) (s : Stmt) (m n : Machine) (flow : Flow) (id : FrameId) (es : List Event),
      Reached env k (.run s) m → s.isSimple → Instrumented.straightAll s.operands →
      m.recorder.active.head? = some id → m.stack.isEmpty = false →
      (∀ x ∈ Instrumented.probesOf s.operands, m.stack.isLocal x) →
      (meaning env fuel).run s m = .ok flow n →
      n.recorder.events.toList = m.recorder.events.toList ++ es →
      Instrumented.listedNames (s.listing 0) = recordedNames id es := by
  intro hall
  have hreached : Reached (declaringEnv declareStepped) 8 (.run declareStepped)
      (declaringState declareStepped) :=
    reached_declaringState declareStepped (by rintro ⟨⟩)
  obtain ⟨flow, n, es, hc, he, hnames⟩ : ∃ flow n es,
      (meaning (declaringEnv declareStepped) 8).run declareStepped (declaringState declareStepped) =
        .ok flow n ∧
      n.recorder.events.toList = (declaringState declareStepped).recorder.events.toList ++ es ∧
      recordedNames 0 es = ["x", "y"] := by
    with_unfolding_all exact ⟨_, _, _, rfl, rfl, rfl⟩
  have hlocal : (declaringState declareStepped).stack.isLocal "x" := by with_unfolding_all rfl
  have hsame := hall _ 8 8 declareStepped _ n flow 0 es hreached rfl rfl (by with_unfolding_all rfl)
    (by with_unfolding_all rfl) (fun x hx => by
      have hx' : x ∈ ["x"] := hx
      exact List.mem_singleton.mp hx' ▸ hlocal) hc he
  have hlisted : Instrumented.listedNames (declareStepped.listing 0) = ["y"] := rfl
  rw [hlisted, hnames] at hsame
  exact absurd hsame (by decide)

end Exec

end CallTrace
