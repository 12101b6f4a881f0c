import CallTrace.Proofs.Evaluation.Ends
import CallTrace.Run

/-! # What a run reaches

* `Exec.Task`: something to do that a meaning has an answer for.
* `Meaning.stopAt`: a meaning that stops, with a reason of one's choice, where a task is begun in a given
  state, and is the same everywhere else.
* `Exec.Reached`: the tasks that a run begins, with the states that it begins them in. A task is reached
  when stopping there would stop the run, whatever the reason.
* `Exec.reached_entry`: the call of the entry function is reached.
-/

namespace CallTrace
set_option autoImplicit false

open Instrumented (Expr Stmt)

namespace Exec

/-- Something to do. -/
inductive Task where
  | eval (e : Expr)
  | resolve (e : Expr)
  | call (name : String) (args : List Value)
  | run (s : Stmt)

namespace Meaning

/-- Does a task without regard to its result. -/
def attempt (p : Meaning) : Task → Exec Unit
  | .eval e => discard (p.eval e)
  | .resolve e => discard (p.resolve e)
  | .call name args => discard (p.call name args)
  | .run s => discard (p.run s)

open Classical in
/-- Stops where the task `t` is begun in the state `m`. -/
noncomputable def stopAt (p : Meaning) (t : Task) (m : Machine) (reason : Halt) : Meaning where
  eval e n := if t = .eval e ∧ n = m then .error reason m else p.eval e n
  resolve e n := if t = .resolve e ∧ n = m then .error reason m else p.resolve e n
  call name args n := if t = .call name args ∧ n = m then .error reason m else p.call name args n
  run s n := if t = .run s ∧ n = m then .error reason m else p.run s n

end Meaning

/-- The tasks that a run begins with `fuel` left, and the states that it begins them in. -/
inductive Reached (env : Env) : Nat → Task → Machine → Prop where
  | start {fuel : Nat} {t : Task} {m : Machine}
      (h : ∀ x, runProgram ((meaning env fuel).stopAt t m x) env .initial = .error x m) :
      Reached env fuel t m
  | part {fuel : Nat} {s t : Task} {m n : Machine} (hs : Reached env (fuel + 1) s m)
      (h : ∀ x, (((meaning env fuel).stopAt t n x).next env fuel).attempt s m = .error x n) :
      Reached env fuel t n

/-- The entry function is called if there is one, it has no parameters, and it was not called before. -/
theorem runEntry_cases (env : Env) (m : Machine) :
    (∀ p, runEntry p env m = (pure () : Exec Unit) m) ∨
      ∃ f, env.program.function? env.config.entryPoint = some f ∧ f.params = [] ∧
        ∀ p, runEntry p env m = (setLine f.line >>= fun _ => discard (p.call f.name [])) m := by
  cases hentered : m.entered with
  | true => exact .inl fun _ => by simp only [runEntry, get_bind, hentered, if_true]
  | false =>
    cases hf : env.program.function? env.config.entryPoint with
    | none => exact .inl fun _ => by simp [runEntry, get_bind, hf]
    | some f =>
      cases hparams : f.params with
      | cons param params => exact .inl fun _ => by simp [runEntry, get_bind, hf, hparams]
      | nil =>
        refine .inr ⟨f, rfl, hparams, fun _ => ?_⟩
        simp only [runEntry, get_bind, hentered, hf, hparams, List.isEmpty_nil, if_true,
          Bool.false_eq_true, if_false]

/-- The entry function of a program without statements at top level is called. -/
theorem reached_entry {env : Env} {f : Instrumented.Function} (hdriver : env.program.driver = [])
    (hf : env.program.function? env.config.entryPoint = some f) (hparams : f.params = [])
    (fuel : Nat) : Reached env fuel (.call f.name []) { Machine.initial with line := f.line } := by
  refine .start fun x => ?_
  generalize hp : (meaning env fuel).stopAt (.call f.name []) { Machine.initial with line := f.line } x = p
  have hsequence : discard (sequence p.run env.program.driver) .initial = .ok () .initial := by
    rw [hdriver]
    rfl
  have hentry : runEntry p env .initial =
      discard (p.call f.name []) { Machine.initial with line := f.line } := by
    simp only [runEntry, hf, hparams]
    rfl
  refine (bind_of_ok hsequence).trans (hentry.trans (bind_of_error ?_))
  subst hp
  exact if_pos ⟨rfl, rfl⟩

end Exec

end CallTrace
