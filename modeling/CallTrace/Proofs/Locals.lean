import CallTrace.Proofs.Evaluation.Tracks
import CallTrace.Proofs.Probes

/-! # Recorded variables are those of the call

When a variable gets a value, the recording shows all variables of the call that have got one so far.

* `Machine.ShowsCurrent`: what the latest event shows of the variables of the innermost call is what they hold.
* `Exec.showsCurrent_of_reached`: in a tidy program without references this is so whenever something begins or
  ends, and so when a variable has just been recorded: that is the last thing that an expression or a declaration
  does.
* `Exec.not_all_showsCurrent`: it is not so where a block hides a variable, because a recorded value does not come
  back when the block ends.
-/

namespace CallTrace
set_option autoImplicit false

open Instrumented (Expr Action Stmt Layout)

/-- If the latest event is that a variable got a value, then every variable that it shows, and that the innermost
call has, holds the value that is shown. -/
def Machine.ShowsCurrent (m : Machine) : Prop :=
  ∀ e name value locals, m.recorder.events.back? = some e → e.payload = .set name value locals →
    ∀ x v w, (x, v) ∈ locals.entries → m.stack.local? x = some w → v = m.heap.snapshot w

theorem Machine.Traced.showsCurrent {L : Layout} {m : Machine} (h : m.Traced L) : m.ShowsCurrent := by
  intro e name value locals he hp x v w hv hw
  obtain ⟨a, ha, -, rfl⟩ := h.unshared.shown.latest e name value locals he hp
  have hget : a.locals.get? x = some v :=
    Assoc.lookup_of_mem (h.unshared.shown.listed a.id a ha.stored) hv
  exact h.tracked.current a ha x v w hget hw nofun

namespace Exec

variable {m n : Machine}

/-- The latest event after a return is not that a variable got a value. -/
theorem showsCurrent_of_ret {v : Value} (hn : n.recorder.Shown) (h : Ran (some v) m n) : n.ShowsCurrent := by
  intro e name value locals he hp
  obtain ⟨-, ⟨hnil, hinside⟩ | ⟨id, hfinished⟩⟩ := h
  · obtain ⟨a, ha, -⟩ := hn.latest e name value locals he hp
    obtain ⟨rest, hactive⟩ := ha.active
    cases hactive.symm.trans (hinside.active.trans hnil)
  · obtain ⟨es, r, hevents, -, hreturn⟩ := hfinished.events
    have hlast : n.recorder.events.back? = some r := by
      rw [← Array.getLast?_toList, hevents, ← List.append_assoc, List.getLast?_concat]
    obtain rfl := Option.some.inj (he.symm.trans hlast)
    have hkind := hreturn.kind
    rw [Event.kind, hp] at hkind
    cases hkind

/-- In a tidy program without references, whenever something begins or has come to its end, what the latest event
shows of the variables of the innermost call is what they hold. -/
theorem showsCurrent_of_reached {env : Env} (hrefs : env.program.RefsOnlyIf false) (htidy : env.program.tidy)
    {fuel : Nat} {t : Task} {m : Machine} (h : Reached env fuel t m) :
    m.ShowsCurrent ∧ ∀ n, (meaning env fuel).attempt t m = .ok () n → n.ShowsCurrent := by
  obtain ⟨L, hm, ht⟩ := traced_of_reached hrefs htidy h
  refine ⟨hm.showsCurrent, fun n hn => ?_⟩
  have htracks : Tracks (fun _ => False) fun _ => meaning env fuel := tracks hrefs htidy fuel
  cases t with
  | eval e =>
    obtain ⟨v, o, hv, hpure⟩ := ok_of_bind hn
    cases hpure
    exact ((htracks.eval_traced hm ht).of_ok hv).1.showsCurrent
  | resolve e =>
    obtain ⟨slot, o, hs, hpure⟩ := ok_of_bind hn
    cases hpure
    exact ((htracks.resolve_traced hm ht).of_ok hs).1.showsCurrent
  | call name args =>
    obtain ⟨v, o, hv, hpure⟩ := ok_of_bind hn
    cases hpure
    exact ((htracks.call_traced name args hm).of_ok hv).showsCurrent
  | run s =>
    obtain ⟨flow, o, hflow, hpure⟩ := ok_of_bind hn
    cases hpure
    obtain ⟨ho, htracked⟩ := (htracks.run_traced ht hm).of_ok hflow
    cases flow with
    | ret v =>
      have hran := ((bracketed env fuel).run s.refsOnlyIf_true hm.unshared.sound).of_ok hflow
      exact showsCurrent_of_ret ho.shown hran.2
    | normal | breakLoop | continueLoop => exact Machine.Traced.showsCurrent ⟨ho, htracked rfl⟩

/-- After `x += x++;`. -/
theorem showsCurrent_of_reached_addStepped :
    ∃ n e value locals v w, (meaning (declaringEnv addStepped) 8).attempt (.run addStepped)
        (declaringState addStepped) = .ok () n ∧
      n.recorder.events.back? = some e ∧ e.payload = .set "x" value locals ∧ ("x", v) ∈ locals.entries ∧
      n.stack.local? "x" = some w ∧ v = n.heap.snapshot w := by
  have hrefs : (declaringEnv addStepped).program.RefsOnlyIf false := by
    simp [declaringEnv, declaringMain, declareOne, addStepped, Instrumented.Program.RefsOnlyIf,
      Instrumented.Function.RefsOnlyIf, Stmt.AllRefsOnlyIf, Stmt.RefsOnlyIf, Instrumented.Action.RefsOnlyIf]
  have hreached : Reached (declaringEnv addStepped) 8 (.run addStepped) (declaringState addStepped) :=
    reached_declaringState addStepped (by rintro ⟨⟩)
  obtain ⟨n, e, value, locals, v, w, hn, he, hp, hv, hw⟩ : ∃ n e value locals v w,
      (meaning (declaringEnv addStepped) 8).attempt (.run addStepped) (declaringState addStepped) = .ok () n ∧
      n.recorder.events.back? = some e ∧ e.payload = .set "x" value locals ∧ ("x", v) ∈ locals.entries ∧
      n.stack.local? "x" = some w := by
    with_unfolding_all exact ⟨_, _, _, _, _, _, rfl, rfl, rfl, List.mem_singleton.mpr rfl, rfl⟩
  have hcurrent := (showsCurrent_of_reached hrefs (by decide) hreached).2 n hn
  exact ⟨n, e, value, locals, v, w, hn, he, hp, hv, hw, hcurrent e "x" value locals he hp "x" v w hv hw⟩

/-! ## Hidden variables -/

/-- The statement `int y = 3;`. -/
def declareThree : Stmt := .act 6 true (.declare "y" (.int 3) false)

/-- A block that hides the variable of `declareOne`. -/
def hideOne : Stmt := .block 3 true [.act 4 true (.declare "x" (.int 2) false)]

/-- An entry function with a variable, a block that hides it, and another variable. -/
def hidingMain : Instrumented.Function where
  name := "main"
  params := []
  body := [declareOne, hideOne, declareThree]
  line := 1
  endLine := 7

def hidingEnv : Env where
  program := { functions := [hidingMain], driver := [], degradations := [] }
  config := .default

/-- The state in which the block has come to its end. -/
def hidingState : Machine :=
  match sequence (meaning hidingEnv 8).run [declareOne, hideOne] (.starting hidingEnv hidingMain) with
  | .ok _ m | .error _ m => m

/-- The value that the hidden variable had in the block is shown after it. -/
theorem not_all_showsCurrent :
    ¬ ∀ (env : Env) (fuel : Nat) (t : Task) (m n : Machine), env.program.RefsOnlyIf false →
      Reached env fuel t m → (meaning env fuel).attempt t m = .ok () n → n.ShowsCurrent := by
  intro hall
  have hrefs : hidingEnv.program.RefsOnlyIf false := by
    simp [hidingEnv, hidingMain, declareOne, hideOne, declareThree, Instrumented.Program.RefsOnlyIf,
      Instrumented.Function.RefsOnlyIf, Stmt.AllRefsOnlyIf, Stmt.RefsOnlyIf, Instrumented.Action.RefsOnlyIf]
  have hne : declareThree ∉ [declareOne, hideOne] := by
    simp [declareThree, declareOne, hideOne]
  have hreached : Reached hidingEnv 8 (.run declareThree) hidingState :=
    reached_statement [declareOne, hideOne] rfl rfl rfl (by decide) (by decide) rfl hne (by with_unfolding_all rfl)
  obtain ⟨n, e, value, locals, hn, he, hp, hv, hw⟩ : ∃ n e value locals,
      (meaning hidingEnv 8).attempt (.run declareThree) hidingState = .ok () n ∧
      n.recorder.events.back? = some e ∧ e.payload = .set "y" value locals ∧ ("x", .int 2) ∈ locals.entries ∧
      n.stack.local? "x" = some (.int 1) := by
    with_unfolding_all exact ⟨_, _, _, _, rfl, rfl, rfl, List.mem_cons_self, rfl⟩
  have hsame := hall hidingEnv 8 _ _ n hrefs hreached hn e "y" value locals he hp "x" (.int 2) (.int 1) hv hw
  simp [Heap.snapshot, Heap.snapshotWith] at hsame

end Exec

end CallTrace
