import CallTrace.Proofs.Evaluation.Comparison

/-! # The limits of a run

A limit that is raised lets a run go on where it was stopped, and changes nothing else. Fuel is a limit too,
which is no part of the settings.

* `RunError.isLimit`: a run was stopped at a limit of its settings.
* `Exec.Extends earlier c d`: the computation `d` does what `c` does, except that `c` may be stopped earlier
  for some reasons. The timeline of `c` is then the beginning of that of `d`.
* `Exec.raised`: so it is for everything that two runs do whose settings differ in limits that are raised.
* `Instrumented.Program.run_raise`: whole runs.
-/

namespace CallTrace
set_option autoImplicit false

open Instrumented (Expr Stmt)

/-- A run was stopped at one of the limits of its settings. -/
def RunError.isLimit (e : RunError) : Bool :=
  match e.cause with
  | .callDepth _ | .eventLimit _ => true
  | _ => false

namespace Exec

/-- The events recorded when a computation has ended. -/
def recorded {α : Type} (r : EStateM.Result Halt Machine α) : List Event :=
  (Outcome.ofResult r).timeline.toList

/-- The computations `c` and `d` do the same, except that `c` may be stopped earlier for certain reasons.
Both only add to the timeline. -/
structure Extends (earlier : Halt → Prop) {α : Type} (c d : Exec α) : Prop where
  adds (m : Machine) : m.recorder.events.toList <+: recorded (d m)
  cases (m : Machine) : c m = d m ∨ ∃ reason n, c m = .error reason n ∧ earlier reason ∧
    n.recorder.events.toList <+: recorded (d m)

namespace Extends

variable {earlier : Halt → Prop} {α β : Type} {c d : Exec α}

/-- A computation that only adds to the timeline. -/
theorem refl (h : ∀ m, m.recorder.events.toList <+: recorded (c m)) : Extends earlier c c :=
  ⟨h, fun _ => .inl rfl⟩

theorem plain (h : Plain c) : Extends earlier c c := by
  refine refl fun m => ?_
  cases hc : c m with
  | ok a n => exact h.ok m a n hc
  | error x n => exact (h.error m x n hc).1

theorem fail {cause : Cause} : Extends earlier (Exec.fail cause : Exec α) (Exec.fail cause) :=
  refl fun _ => List.prefix_rfl

/-- What is done after a computation adds to the timeline that the computation has left. -/
theorem recorded_bind {f : α → Exec β} (hf : ∀ a m, m.recorder.events.toList <+: recorded (f a m))
    (m : Machine) : recorded (c m) <+: recorded ((c >>= f) m) := by
  cases hc : c m with
  | ok a n =>
    rw [bind_of_ok hc]
    exact hf a n
  | error x n =>
    rw [bind_of_error hc]
    exact List.prefix_rfl

theorem bind {f g : α → Exec β} (h : Extends earlier c d) (hf : ∀ a, Extends earlier (f a) (g a)) :
    Extends earlier (c >>= f) (d >>= g) := by
  have hadds (m : Machine) : recorded (d m) <+: recorded ((d >>= g) m) :=
    recorded_bind (fun a => (hf a).adds) m
  refine ⟨fun m => (h.adds m).trans (hadds m), fun m => ?_⟩
  rcases h.cases m with heq | ⟨reason, n, hc, hreason, hn⟩
  · cases hd : d m with
    | ok a n =>
      rw [bind_of_ok (heq.trans hd), bind_of_ok hd]
      exact (hf a).cases n
    | error x n =>
      rw [bind_of_error (heq.trans hd), bind_of_error hd]
      exact .inl rfl
  · exact .inr ⟨reason, n, bind_of_error hc, hreason, hn.trans (hadds m)⟩

/-- A computation that is stopped where it begins. -/
theorem stopped (hd : ∀ m, m.recorder.events.toList <+: recorded (d m))
    (hc : ∀ m, c m = d m ∨ ∃ reason, c m = .error reason m ∧ earlier reason) :
    Extends earlier c d := by
  refine ⟨hd, fun m => (hc m).imp_right fun ⟨reason, he, hreason⟩ => ?_⟩
  exact ⟨reason, m, he, hreason, hd m⟩

end Extends

/-! ## Raised limits -/

/-- Why a run in `env` may be stopped earlier than one in `env'` with more fuel. -/
def Earlier (env env' : Env) : Halt → Prop
  | .outOfFuel => True
  | .failed e => env ≠ env' ∧ e.isLimit

variable {env env' : Env}

/-- A check of a limit: the run is stopped if `env` says so. -/
theorem Extends.check {c d : Exec Unit} {exceeds exceeds' : Machine → Prop} [DecidablePred exceeds]
    [DecidablePred exceeds'] {cause cause' : Cause}
    (hc : ∀ m, c m = if exceeds m then .error (.failed ⟨cause, m.line⟩) m else .ok () m)
    (hd : ∀ m, d m = if exceeds' m then .error (.failed ⟨cause', m.line⟩) m else .ok () m)
    (hover : ∀ m, exceeds' m → exceeds m) (hsame : env = env' → c = d)
    (hlimit : ∀ line, RunError.isLimit ⟨cause, line⟩) : Extends (Earlier env env') c d := by
  refine .stopped (fun m => ?_) fun m => ?_
  · rw [hd m]
    split <;> exact List.prefix_rfl
  · by_cases henv : env = env'
    · exact .inl (congrFun (hsame henv) m)
    · rw [hc m, hd m]
      by_cases hm : exceeds m
      · rw [if_pos hm]
        exact .inr ⟨_, rfl, henv, hlimit m.line⟩
      · rw [if_neg hm, if_neg fun h => hm (hover m h)]
        exact .inl rfl

/-- Settings whose limits are no lower, and that are otherwise the same as far as they matter. -/
structure Raises (env env' : Env) : Prop where
  program_eq : env.program = env'.program
  entryPoint_eq : env.config.entryPoint = env'.config.entryPoint
  maxEvents_le : env.config.maxEvents ≤ env'.config.maxEvents
  maxCallDepth_le : env.config.maxCallDepth ≤ env'.config.maxCallDepth

/-- A run may only be stopped earlier than one with raised limits. -/
def raised (h : Raises env env') : Comparison env env' where
  Rel := Extends (Earlier env env')
  Same := Eq
  plain := .plain
  bind := .bind
  outOfFuel hc := .stopped hc.adds fun _ => .inr ⟨_, rfl, trivial⟩
  checkEvents := .check (fun _ => rfl) (fun _ => rfl)
    (fun _ hm => Nat.lt_of_le_of_lt h.maxEvents_le hm) (fun he => he ▸ rfl) fun _ => rfl
  checkDepth := .check (checkDepth_apply env) (checkDepth_apply env')
    (fun _ hm => Nat.le_trans h.maxCallDepth_le hm) (fun he => he ▸ rfl) fun _ => rfl
  unsupported _ hbegin := hbegin.bind fun _ => .fail
  parallel hs := hs ▸ .self _ fun _ _ => rfl
  driver := h.program_eq ▸ List.forall₂_same.mpr fun _ _ => rfl
  function name := h.program_eq ▸ env.program.parallel_function? (fun _ _ _ _ => rfl) name
  entryPoint := h.entryPoint_eq

end Exec

/-! ## Runs -/

namespace Instrumented.Program

variable {p : Program} {config config' : Config}

/-- With raised limits and no less fuel a run gives the same, unless it was stopped earlier before. -/
theorem run_cases (h : Exec.Raises ⟨p, config⟩ ⟨p, config'⟩) {fuel fuel' : Nat} (hf : fuel ≤ fuel') :
    p.run config fuel = p.run config' fuel' ∨
      ∃ reason, (p.run config fuel).halt = some reason ∧
        Exec.Earlier ⟨p, config⟩ ⟨p, config'⟩ reason ∧
        (p.run config fuel).timeline.toList <+: (p.run config' fuel').timeline.toList := by
  rcases ((Exec.raised h).runProgram hf).cases .initial with heq | ⟨reason, n, hc, hreason, hn⟩
  · exact .inl (congrArg Outcome.ofResult heq)
  · have hrun : p.run config fuel = ⟨n.recorder.events, some reason⟩ := congrArg Outcome.ofResult hc
    exact .inr ⟨reason, congrArg Outcome.halt hrun, hreason, hrun ▸ hn⟩

/-- More fuel changes nothing for a run that has come to an end. -/
theorem run_of_le {fuel fuel' : Nat} (hf : fuel ≤ fuel')
    (h : (p.run config fuel).halt ≠ some .outOfFuel) : p.run config fuel' = p.run config fuel := by
  have hraises : Exec.Raises ⟨p, config⟩ ⟨p, config⟩ := ⟨rfl, rfl, Nat.le_refl _, Nat.le_refl _⟩
  rcases run_cases hraises hf with heq | ⟨reason, hhalt, hreason, -⟩
  · exact heq.symm
  · cases reason with
    | outOfFuel => exact absurd hhalt h
    | failed e => exact absurd rfl hreason.1

/-- A raised limit only extends the timeline. Two runs have come to an end, the second one with limits that
are no lower. If the first one was not stopped at a limit, the second one has the same outcome and the same
timeline; and in any case the timeline of the first one is the beginning of that of the second. -/
theorem run_raise {events depth : Nat} (hevents : config.maxEvents ≤ events)
    (hdepth : config.maxCallDepth ≤ depth) {fuel fuel' : Nat}
    (hfuel : (p.run config fuel).halt ≠ some .outOfFuel)
    (hfuel' : (p.run { config with maxEvents := events, maxCallDepth := depth } fuel').halt ≠
      some .outOfFuel) :
    ((∀ e, (p.run config fuel).error? = some e → e.isLimit = false) →
      p.run { config with maxEvents := events, maxCallDepth := depth } fuel' = p.run config fuel) ∧
    (p.run config fuel).timeline.toList <+:
      (p.run { config with maxEvents := events, maxCallDepth := depth } fuel').timeline.toList := by
  rw [← run_of_le (Nat.le_max_right fuel fuel') hfuel']
  have hraises : Exec.Raises ⟨p, config⟩
      ⟨p, { config with maxEvents := events, maxCallDepth := depth }⟩ := ⟨rfl, rfl, hevents, hdepth⟩
  rcases run_cases hraises (Nat.le_max_left fuel fuel') with heq | ⟨reason, hhalt, hreason, hprefix⟩
  · exact ⟨fun _ => heq.symm, heq ▸ List.prefix_rfl⟩
  · refine ⟨fun hlimit => ?_, hprefix⟩
    cases reason with
    | outOfFuel => exact absurd hhalt hfuel
    | failed e =>
      have herror : (p.run config fuel).error? = some e := by rw [Outcome.error?, hhalt]
      exact absurd hreason.2 (Bool.eq_false_iff.mp (hlimit e herror))

/-- A program that writes two texts. -/
def twoLogs : Program where
  functions := []
  driver := [.act 1 false (.log [.str "a"]), .act 2 false (.log [.str "b"])]
  degradations := []

/-- With room for no event the program is stopped before its second statement, with the beginning of its
timeline. With room for five it ends, and with more room it does the same. -/
theorem run_raise_twoLogs :
    (twoLogs.run { Config.default with maxEvents := 0 } 8).error? = some ⟨.eventLimit 0, 2⟩ ∧
    (twoLogs.run { Config.default with maxEvents := 0 } 8).timeline.toList <+:
      (twoLogs.run { Config.default with maxEvents := 5, maxCallDepth := 10000 } 9).timeline.toList ∧
    twoLogs.run { Config.default with maxEvents := 7, maxCallDepth := 20000 } 9 =
      twoLogs.run { Config.default with maxEvents := 5, maxCallDepth := 10000 } 9 := by
  have hstopped : (twoLogs.run { Config.default with maxEvents := 0 } 8).halt =
    some (.failed ⟨.eventLimit 0, 2⟩) := by rfl
  have hended : (twoLogs.run { Config.default with maxEvents := 5, maxCallDepth := 10000 } 9).halt =
    none := by rfl
  have hroom : (twoLogs.run { Config.default with maxEvents := 7, maxCallDepth := 20000 } 9).halt =
    none := by rfl
  have hlow : ({ Config.default with maxEvents := 0 } : Config).maxEvents ≤ 5 := by decide
  have hhigh : ({ Config.default with maxEvents := 5, maxCallDepth := 10000 } : Config).maxEvents ≤ 7 := by
    decide
  have hdepth : ({ Config.default with maxEvents := 5, maxCallDepth := 10000 } : Config).maxCallDepth ≤
    20000 := by decide
  refine ⟨by rw [Outcome.error?, hstopped], ?_, ?_⟩
  · exact (run_raise hlow (Nat.le_refl 10000) (by rw [hstopped]; decide) (by rw [hended]; decide)).2
  · refine (run_raise hhigh hdepth (by rw [hended]; decide) (by rw [hroom]; decide)).1 fun e he => ?_
    rw [Outcome.error?, hended] at he
    cases he

end Instrumented.Program

end CallTrace
