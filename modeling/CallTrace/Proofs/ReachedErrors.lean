import CallTrace.Proofs.Evaluation.Lockstep
import CallTrace.Proofs.Limits

/-! # What a run reaches decides how it ends

* `Exec.Reached.of_le`: with more fuel a run reaches what it reached with less.
* `Exec.Reached.error`: a run ends with the error of a task that it reaches.
* `Program.not_reached_of_success`: a run without an error reaches no task that has one.
-/

namespace CallTrace
set_option autoImplicit false

open Instrumented (Expr Stmt)

namespace Exec

variable {env : Env} {fuel fuel' : Nat} {t : Task} {m : Machine}

/-! ## More fuel -/

/-- A run may only be stopped earlier than one with more fuel. -/
abbrev refueled (env : Env) : Comparison env env := raised ⟨rfl, rfl, Nat.le_refl _, Nat.le_refl _⟩

theorem Extends.stopIf {α : Type} {c d : Exec α} {earlier : Halt → Prop} (h : Extends earlier c d)
    (here : Prop) (m : Machine) (x : Halt) [∀ n : Machine, Decidable (here ∧ n = m)] :
    Extends earlier (fun n => if here ∧ n = m then .error x m else c n)
      (fun n => if here ∧ n = m then .error x m else d n) := by
  let stopped (c : Exec α) : Exec α := fun n => if here ∧ n = m then .error x m else c n
  have hhere (c : Exec α) (n : Machine) (hn : here ∧ n = m) : stopped c n = .error x n := by
    rw [hn.2]
    exact if_pos ⟨hn.1, rfl⟩
  have hother (c : Exec α) (n : Machine) (hn : ¬ (here ∧ n = m)) : stopped c n = c n := if_neg hn
  show Extends earlier (stopped c) (stopped d)
  refine ⟨fun n => ?_, fun n => ?_⟩ <;> by_cases hn : here ∧ n = m
  · rw [hhere d n hn]
    exact List.prefix_rfl
  · rw [hother d n hn]
    exact h.adds n
  · exact .inl ((hhere c n hn).trans (hhere d n hn).symm)
  · rw [hother c n hn, hother d n hn]
    exact h.cases n

open Classical in
/-- Two meanings that are compared are still compared when both are stopped at one task. -/
theorem alike_stopAt {p p' : Meaning} (h : (refueled env).Alike p p') (t : Task) (m : Machine) (x : Halt) :
    (refueled env).Alike (p.stopAt t m x) (p'.stopAt t m x) where
  eval e := (h.eval e).stopIf (t = .eval e) m x
  resolve e := (h.resolve e).stopIf (t = .resolve e) m x
  call name args := (h.call name args).stopIf (t = .call name args) m x
  run := by
    rintro s _ rfl
    exact Extends.stopIf (h.run rfl) (t = .run s) m x

theorem alike_attempt {p p' : Meaning} (h : (refueled env).Alike p p') (t : Task) :
    Extends (Earlier env env) (p.attempt t) (p'.attempt t) := by
  cases t with
  | eval e => exact (refueled env).discard (h.eval e)
  | resolve e => exact (refueled env).discard (h.resolve e)
  | call name args => exact (refueled env).discard (h.call name args)
  | run s => exact (refueled env).discard (h.run rfl)

/-- An error that is no want of fuel stays with more fuel. -/
theorem Extends.error_of_failed {α : Type} {c d : Exec α} (h : Extends (Earlier env env) c d) {n : Machine}
    {e : RunError} (hc : c m = .error (.failed e) n) : d m = .error (.failed e) n := by
  rcases h.cases m with heq | ⟨reason, o, he, hearlier, -⟩
  · exact heq.symm.trans hc
  · cases hc.symm.trans he
    exact absurd rfl hearlier.1

/-- With more fuel a run reaches what it reached with less. -/
theorem Reached.of_le (h : Reached env fuel t m) (hf : fuel ≤ fuel') : Reached env fuel' t m := by
  induction h generalizing fuel' with
  | @start fuel t m h =>
    refine .start (StopsAt.of_stopped (stops_runProgram env _) fun line => ?_).stopped
    have halike := alike_stopAt ((refueled env).meaning hf) t m (.failed ⟨.divisionByZero, line⟩)
    exact Extends.error_of_failed halike.runProgram (h _)
  | @part fuel s t m n hs h ih =>
    refine .part (ih (Nat.succ_le_succ hf)) (StopsAt.of_stopped (stops_attempt env _ _ _) fun line => ?_).stopped
    have halike := alike_stopAt ((refueled env).meaning hf) t n (.failed ⟨.divisionByZero, line⟩)
    exact (alike_attempt (halike.next hf) _).error_of_failed (h _)

/-! ## Errors -/

/-- A run with no less fuel ends with the error of a task that it reaches. -/
theorem Reached.error (h : Reached env fuel t m) {e : Halt} {n : Machine}
    (he : (meaning env fuel).attempt t m = .error e n) :
    ∃ fuel', runProgram (meaning env fuel') env .initial = .error e n := by
  induction h with
  | @start fuel t m h =>
    exact ⟨fuel, (StopsAt.of_stopped (stops_runProgram env _) fun line => h _).error e n he⟩
  | part hs h ih =>
    exact ih ((StopsAt.of_stopped (stops_attempt env _ _ _) fun line => h _).error e n he)

end Exec

namespace Instrumented.Program

variable {p : Program} {config : Config} {fuel : Nat}

/-- A run that ends without an error reaches no task that fails. -/
theorem not_reached_of_success (h : (p.run config fuel).halt = none) {t : Exec.Task} {m n : Machine}
    {e : RunError} {fuel' : Nat}
    (he : (Exec.meaning ⟨p, config⟩ fuel').attempt t m = .error (.failed e) n) :
    ¬ Exec.Reached ⟨p, config⟩ fuel' t m := by
  intro hreached
  obtain ⟨fuel'', hrun⟩ := hreached.error he
  have hfailed : (p.run config fuel'').halt = some (.failed e) :=
    congrArg (fun r => (Outcome.ofResult r).halt) hrun
  -- Both runs are the run with the greater fuel.
  have hleft := run_of_le (Nat.le_max_left fuel fuel'') (by rw [h]; nofun)
  have hright := run_of_le (Nat.le_max_right fuel fuel'') (by rw [hfailed]; nofun)
  have hhalt := congrArg Outcome.halt (hleft.symm.trans hright)
  rw [h, hfailed] at hhalt
  cases hhalt

end Instrumented.Program

end CallTrace
