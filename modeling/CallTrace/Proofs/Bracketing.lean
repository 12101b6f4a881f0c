import CallTrace.Proofs.Evaluation.Returns
import CallTrace.Proofs.Nesting
import CallTrace.Proofs.Stack

/-! # Calls and returns match

The recorder keeps the calls that are active, and the machine keeps their frames. The two go together: a
statement leaves both as they were, or it returns and ends the latest call of the recorder, and then the
call that it belongs to removes the frame.

* `Exec.Ran`: what a statement does to the recording and to the shape of the variables.
* `Exec.bracketing`: the contract that it does.
* `Exec.CallRecord`: what a call has recorded, from its first event to its last.
* `Exec.call_record`: this is so for every call that a run makes, and then calls and returns match in the
  whole run.
-/

namespace CallTrace
set_option autoImplicit false

open Instrumented (Expr Stmt)

namespace Exec

open CallStack (SameShape)
open Recorder (Inside Finished)

/-! ## Statements -/

/-- What a statement does that ends by returning a value or, with `none`, without a return: it adds events
inside the latest active call, and its return. Without a call a return is not recorded. -/
def Ran (v : Option Value) (m n : Machine) : Prop :=
  SameShape m.stack n.stack ∧
    match v with
    | none => Inside m.recorder n.recorder
    | some v => (m.recorder.active = [] ∧ Inside m.recorder n.recorder) ∨
      ∃ id, Finished m.recorder n.recorder id (n.heap.snapshot v) n.line

variable {m n o : Machine} {v : Option Value}

theorem Ran.trans (h : Ran none m n) (h' : Ran v n o) : Ran v m o := by
  obtain ⟨hshape, hinside⟩ := h
  obtain ⟨hshape', hran⟩ := h'
  refine ⟨hshape.trans hshape', ?_⟩
  cases v with
  | none => exact Inside.trans hinside hran
  | some v =>
    rcases hran with ⟨hactive, hran⟩ | ⟨id, hran⟩
    · exact .inl ⟨hinside.active.symm.trans hactive, hinside.trans hran⟩
    · exact .inr ⟨id, hinside.finished hran⟩

theorem ran_ret (h : n.recorder.Sound) (hrel : Ran none m n) (v : Value) :
    Ran (some v) m
      { n with recorder := n.recorder.ret (n.heap.snapshot v) (some n.line) } := by
  obtain ⟨hshape, hinside⟩ := hrel
  refine ⟨hshape, ?_⟩
  cases hactive : n.recorder.active with
  | nil =>
    refine .inl ⟨hinside.active.symm.trans hactive, ?_⟩
    rw [Recorder.ret_of_active_nil hactive]
    exact hinside
  | cons id rest => exact .inr ⟨id, hinside.finished (h.finished_ret hactive _ _)⟩

/-! ## Calls -/

/-- The line at which a call returns: the current one, or the end of the function if no statement has
returned. -/
def returnLine (f : Instrumented.Function) (o : Machine) (v : Option Value) : Nat :=
  v.elim f.endLine fun _ => o.line

variable {f : Instrumented.Function} {vars : List (String × Value)}

/-- When a call is over its return has been recorded, whether a statement has done it or not. -/
theorem finished_leaving (ho : o.recorder.Sound) (h : Ran v (n.entering f vars) o) (line : Nat) :
    Finished (n.entering f vars).recorder (o.leaving f line v).recorder n.recorder.frames.size
      (o.heap.snapshot (v.getD .undefined)) (returnLine f o v) := by
  have hactive : (n.entering f vars).recorder.active =
      n.recorder.frames.size :: n.recorder.active := rfl
  obtain ⟨-, hran⟩ := h
  cases v with
  | none =>
    have hinside : Inside (n.entering f vars).recorder o.recorder := hran
    rw [Option.getD_none, Heap.snapshot_undefined]
    exact hinside.finished (ho.finished_ret (hinside.active.trans hactive) _ _)
  | some v =>
    rcases hran with ⟨hnil, -⟩ | ⟨id, hfinished⟩
    · cases hnil.symm.trans hactive
    · obtain ⟨rfl, -⟩ := List.cons.inj (hactive.symm.trans hfinished.active)
      exact hfinished

theorem sound_leaving (ho : o.recorder.Sound) (line : Nat) :
    (o.leaving f line v).recorder.Sound := by
  cases v with
  | none => exact ho.of_step (ho.step (.ret .undefined (some f.endLine)))
  | some v => exact ho

/-! ## The contract -/

/-- The contract that calls and returns match. -/
def bracketing : Contract true where
  Inv m := m.recorder.Sound
  Rel := Ran none
  Runs := Ran
  Hand _ _ := True
  Pending _ _ _ := True
  refl m := ⟨.refl m.stack, .refl m.recorder⟩
  trans := Ran.trans
  hand_scalar _ := trivial
  hand_of_rel _ _ := trivial
  pending_scalar _ := trivial
  pending_of_rel _ _ := trivial
  pending_rel _ _ _ := trivial
  hand_of_pending _ := trivial
  lookup _ _ _ := trivial
  item _ _ _ _ := trivial
  copy {m} _ h := ⟨h, ⟨.refl m.stack, .refl m.recorder⟩, trivial⟩
  newList h hrel _ := ⟨h, hrel, trivial⟩
  store h hrel _ _ := ⟨h, hrel⟩
  assign h hrel _ hs := ⟨h, hrel.trans ⟨.assign hs, .refl _⟩⟩
  set {m} name v h :=
    ⟨h.of_step (h.step (.set name v (some m.line))), .refl m.stack, h.inside_set name v _⟩
  log {m} text h := ⟨h.log text _, .refl m.stack, .push _ _ (.inr (.inr rfl))⟩
  entered {m} _ h := ⟨h, .refl m.stack, .refl m.recorder⟩
  runs_of_rel h := h
  runs_trans := Ran.trans
  setLine {m} _ h := ⟨h, .refl m.stack, .refl m.recorder⟩
  step {m} text line h :=
    ⟨h.of_step (h.step (.step text (some line))), .refl m.stack, h.inside_step text _⟩
  declare name h hrel _ := ⟨h, hrel.trans ⟨.declare _ name _, .refl _⟩⟩
  pushScope h := h
  popScope _ h hrun := ⟨h, hrun.1.scope, hrun.2⟩
  ret h hrel _ := ⟨h.of_step (h.step (.ret _ _)), ran_ret h hrel _⟩
  enter f _ h _ _ _ := h.call f.name _ _
  leave _ hrel _ ho hrun := ⟨sound_leaving ho _,
    hrel.trans ⟨hrun.1.popFrame, (finished_leaving ho hrun _).inside⟩, trivial⟩

/-- What is known of the states before and after everything that a run does. -/
theorem bracketed (env : Env) (fuel : Nat) :
    bracketing.Means (fun _ => False) fun _ => meaning env fuel :=
  bracketing.means (Instrumented.Program.refsOnlyIf_true _) fuel

/-- The run of a program begins with a sound recording. -/
theorem bracketing_inv_initial : bracketing.Inv .initial := Recorder.Sound.empty

/-! ## Complete calls -/

/-- The course of a call of `f` that begins in the state `m`: the arguments are bound to `vars`, which gives
the state `o`, and then the body ends in the state `b`. -/
structure Course (env : Env) (f : Instrumented.Function) (args : List Value)
    (vars : List (String × Value)) (flow : Flow) (m o b : Machine) : Prop where
  args : bindArgs f.params args (m.noting env f.name) = .ok vars o
  names : vars.map (·.1) = f.params.map (·.name)
  body : ∃ fuel, sequence (meaning env fuel).run f.body (o.entering f vars) = .ok flow b

/-- A call whose body has ended in the state `b` gives `v` and returns at a line: nothing, at the end of the
function, or the value of a return statement in the body, at its line. -/
def ReturnsAt (env : Env) (f : Instrumented.Function) (v : Value) (line : Nat) (b : Machine) :
    Option Value → Prop
  | none => v = .undefined ∧ line = f.endLine
  | some w => v = w ∧ ∃ s ∈ f.body, Returned env s line w b

/-- What a call of `f` with some arguments records that begins in the state `m` and ends in the state `n` with
the value `v`: a call with a new number and the values bound to the parameters, what happens inside it, and
its return. But for the heap and the variables at top level, the state is as the call has found it. The flow
with which the body has ended is gone: a call has a value only. -/
structure CallRecord (env : Env) (f : Instrumented.Function) (args : List Value) (m n : Machine)
    (v : Value) : Prop where
  fresh : ∀ e ∈ m.recorder.events, e.frameId ≠ some m.recorder.frames.size
  events : ∃ vars flow o b c inner r line, Course env f args vars flow m o b ∧
    n.recorder.events.toList = m.recorder.events.toList ++ c :: (inner ++ [r]) ∧
    c.IsCall m.recorder.frames.size f.name
      (.ofList (vars.map fun (name, w) => (name, o.heap.snapshot w))) (some f.line) ∧
    Nested (some m.recorder.frames.size) (m.recorder.frames.size + 1) inner
      n.recorder.frames.size ∧
    r.IsReturn m.recorder.frames.size (n.heap.snapshot v) line ∧
    ReturnsAt env f v line b flow.returned?
  active : n.recorder.active = m.recorder.active
  frames : n.stack.frames = m.stack.frames
  depths : n.stack.depths = m.stack.depths
  line : n.line = m.line

/-- What a call of a function records that gives a value. -/
theorem callRecord_of_ok {env : Env} {fuel : Nat} {name : String} {args : List Value} {v : Value}
    (hm : m.recorder.Sound) (hf : env.program.function? name = some f)
    (hc : (meaning env fuel).call name args m = .ok v n) : CallRecord env f args m n v := by
  cases fuel with
  | zero => cases hc
  | succ fuel =>
    obtain rfl : f.name = name := by simpa using List.find?_some hf
    obtain ⟨vars, o, flow, b, hlength, hargs, hbody, rfl, rfl⟩ := callWith_ok hf hc
    obtain ⟨⟨heap, -, rfl⟩, hnames⟩ := bindArgs_ok hargs
    have hzip : (f.params.zip args).map (·.1.name) = f.params.map (·.name) :=
      calc (f.params.zip args).map (·.1.name)
        _ = ((f.params.zip args).map Prod.fst).map (·.name) := List.map_map.symm
        _ = f.params.map (·.name) := by rw [List.map_fst_zip (Nat.le_of_eq hlength.symm)]
    have hstart : bracketing.Inv (Machine.entering { m.noting env f.name with heap } f vars) :=
      hm.call f.name _ _
    obtain ⟨hb, hran⟩ := bracketing.sequence_of_ok (Instrumented.Program.refsOnlyIf_true _)
      (Stmt.allRefsOnlyIf_true f.body) hstart hbody
    have hfinished := finished_leaving hb hran m.line
    obtain ⟨c, es, e, he, hcall, hnested, hreturn⟩ := hfinished.call_events
    obtain ⟨hframes, hglobals⟩ := SameShape.call hran.1
    refine ⟨fun e he hid => Nat.lt_irrefl _ (hm.event_lt e he _ (.inl hid)), ?_,
      hfinished.active_of_call, hframes, Prod.ext hglobals (congrArg (List.map _) hframes), rfl⟩
    refine ⟨vars, flow, _, b, c, es, e, _, ⟨hargs, hnames.trans hzip, fuel, hbody⟩, he, hcall, hnested,
      hreturn, ?_⟩
    cases flow with
    | ret w =>
      obtain ⟨s, hs, a, hrun⟩ := ret_of_sequence hbody
      obtain ⟨line, hreturned⟩ := returned_of_run hrun
      obtain rfl := hreturned.line_eq
      exact ⟨rfl, s, hs, hreturned⟩
    | normal | breakLoop | continueLoop => exact ⟨rfl, rfl⟩

/-! ## Runs -/

theorem inside_runProgram {env : Env} {fuel : Nat}
    (h : runProgram (meaning env fuel) env .initial = .ok () n) :
    Inside .empty n.recorder := by
  have hends : Ends (fun _ => False) (fun _ n => ∃ v o, Ran v .initial o ∧ Ran none o n)
      (fun _ => runProgram (meaning env fuel) env) .initial :=
    (bracketing.means (Instrumented.Program.refsOnlyIf_true _) fuel).runProgram_ends
      (Instrumented.Program.refsOnlyIf_true _) bracketing_inv_initial
  obtain ⟨v, o, ⟨-, hran⟩, ⟨-, hrest⟩⟩ := hends.of_ok h
  cases v with
  | none => exact Inside.trans hran hrest
  | some v =>
    rcases hran with ⟨-, hran⟩ | ⟨id, hfinished⟩
    · exact hran.trans hrest
    · cases hfinished.active

/-- Calls and returns match: from every state that a run reaches, a call of a function that gives a value
records itself, what happens inside it, and its return, and gives the variables and the line back. So a run
that succeeds has recorded as many returns as calls, and no call is active at its end. -/
theorem call_record (env : Env) :
    (∀ k task m, Reached env k task m → ∀ fuel name args f v n,
      env.program.function? name = some f →
      (meaning env fuel).call name args m = .ok v n → CallRecord env f args m n v) ∧
    (∀ fuel n, runProgram (meaning env fuel) env .initial = .ok () n →
      Nested none 0 n.recorder.events.toList n.recorder.frames.size ∧
        n.recorder.events.count .call = n.recorder.events.count .ret ∧
        n.recorder.active = []) := by
  refine ⟨fun k task m hreached fuel name args f v n hf hc => ?_, fun fuel n h => ?_⟩
  · have hsound : m.recorder.Sound := bracketing.inv_of_reached
      (Instrumented.Program.refsOnlyIf_true _) bracketing_inv_initial hreached
    exact callRecord_of_ok hsound hf hc
  · obtain ⟨hactive, es, he, hnested⟩ := inside_runProgram h
    obtain rfl : n.recorder.events.toList = es := he
    refine ⟨hnested, ?_, hactive⟩
    rw [Timeline.count, Timeline.count, ← Array.countP_toList, ← Array.countP_toList]
    exact hnested.countP_ret.symm

/-- An entry function that calls another one and ends without a return. -/
def nestedMain : Instrumented.Function where
  name := "main"
  params := []
  body := [.act 5 true (.eval (.call "same" [.int 7]))]
  line := 4
  endLine := 6

/-- The program with `nestedMain` and the function that it calls, which returns its argument. -/
def nestedEnv : Env where
  program :=
    { functions := [⟨"same", [⟨"x", false⟩], [.ret 2 true (some (.var "x"))], 1, 3⟩, nestedMain]
      driver := []
      degradations := [] }
  config := .default

/-- The call of `nestedMain`, and the run of its program. -/
theorem call_record_nestedMain :
    (∃ v n, (meaning nestedEnv 8).call "main" [] { Machine.initial with line := 4 } = .ok v n ∧
      CallRecord nestedEnv nestedMain [] { Machine.initial with line := 4 } n v) ∧
    ∃ n, runProgram (meaning nestedEnv 8) nestedEnv .initial = .ok () n ∧
      n.recorder.events.count .call = n.recorder.events.count .ret := by
  have hreached : Reached nestedEnv 8 (.call "main" []) { Machine.initial with line := 4 } :=
    reached_entry (f := nestedMain) rfl rfl rfl 8
  exact ⟨⟨_, _, rfl, (call_record nestedEnv).1 8 _ _ hreached 8 "main" [] _ _ _ rfl rfl⟩,
    _, rfl, ((call_record nestedEnv).2 8 _ rfl).2.1⟩

end Exec

end CallTrace
