import CallTrace.Proofs.Evaluation.Ends
import CallTrace.Proofs.Evaluation.Rules

/-! # Computations that never run out of fuel

* `Exec.Total c`: a computation that never runs out of fuel.
* `Total.rules`: what a run does with storage is total, and so are its other steps that do not depend on the program.
-/

namespace CallTrace
set_option autoImplicit false

namespace Exec

variable {α β : Type}

/-- A computation that never runs out of fuel. -/
def Total (c : Exec α) : Prop := ∀ m n, c m ≠ .error .outOfFuel n

namespace Total

theorem pure (a : α) : Total (Pure.pure a) := fun _ _ => nofun

theorem fail (cause : Cause) : Total (Exec.fail cause : Exec α) := fun _ _ => nofun

theorem ofExcept (r : Except Cause α) : Total (Exec.ofExcept r) := by
  cases r with
  | ok a => exact pure a
  | error cause => exact fail cause

theorem get : Total (get : Exec Machine) := fun _ _ => nofun

theorem modify (f : Machine → Machine) : Total (modify f : Exec Unit) := fun _ _ => nofun

theorem bind {c : Exec α} {f : α → Exec β} (h : Total c) (hf : ∀ a, Total (f a)) : Total (c >>= f) := by
  intro m n he
  cases hc : c m with
  | ok a o => exact hf a o n ((bind_of_ok hc).symm.trans he)
  | error e o =>
    cases (bind_of_error hc).symm.trans he
    exact h m n hc

theorem rules : WriteRules @Total where
  pure := pure
  fail _ := fail _
  get h _ := get.bind h
  bind := bind
  onHeap _ := fun _ _ => nofun
  assign name v := by
    intro m n h
    unfold assign at h
    split at h <;> cases h

end Total

theorem total_recordRoot (root : Option String) : Total (recordRoot root) := by
  cases root with
  | none => exact .pure ()
  | some name => exact .modify _

theorem total_checkEvents (env : Env) : Total (checkEvents env) := by
  intro m n h
  unfold checkEvents at h
  split at h <;> cases h

theorem total_begin (env : Env) (line : Nat) (step : Bool) : Total (begin env line step) := by
  refine (Total.modify _).bind fun _ => ?_
  cases step with
  | false => exact total_checkEvents env
  | true => exact (Total.modify _).bind fun _ => total_checkEvents env

theorem total_enter (env : Env) (f : Instrumented.Function) (vars : List (String × Value)) :
    Total (enter env f vars) :=
  (Total.modify _).bind fun _ => (total_checkEvents env).bind fun _ => (Total.modify _).bind fun _ =>
    (Total.modify _).bind fun _ => .modify _

theorem total_finish (f : Instrumented.Function) (flow : Flow) : Total (finish f flow) := by
  unfold finish
  split
  · exact .pure _
  · exact (Total.modify _).bind fun _ => .pure _

end Exec

end CallTrace
