import CallTrace.Proofs.Pacing

/-! # Runs that end

The depth of calls is limited, and so is the number of events, so a run can go on only in a loop that records
nothing.

* `Exec.calm`: a run that comes to no silent round runs out of fuel nowhere, if there is enough of it.
* `Program.fuelFor`: enough fuel, for the size of a program and the limits.
* `Program.run_ends`: a run that comes to no silent round ends.
* `Program.ends_of_paced`: so does the run of every program whose loops record something.
* `Program.not_all_runs_end`: a run that comes to silent rounds need not end.
-/

namespace CallTrace
set_option autoImplicit false

open Instrumented (Expr Action Stmt)
open Relation (ReflTransGen)

namespace Exec

variable {env : Env} {fuel : Nat} {m n : Machine}

/-! ## Calls -/

/-- In the body of a call there is room for the statements of the function, whatever room the call had. -/
theorem room_entering {f : Instrumented.Function} {vars : List (String × Value)}
    (hm : m.recorder.Sound) (hdepth : m.stack.depth < env.config.maxCallDepth)
    (hfits : Room env (fuel + 1) 1 m) : Room env fuel (sizeOf env.program) (m.entering f vars) := by
  refine ⟨hm.call f.name _ _, ?_⟩
  have hentering : (m.entering f vars).stack.depth = m.stack.depth + 1 :=
    (CallStack.SameShape.declares (m.stack.pushFrame f.name) vars).depth_eq
  have hsplit : (env.config.maxCallDepth - m.stack.depth) * (sizeOf env.program + 1) =
      (env.config.maxCallDepth - (m.stack.depth + 1)) * (sizeOf env.program + 1) +
        (sizeOf env.program + 1) := by
    rw [← Nat.succ_mul]
    congr 1
    omega
  have := hfits.fits
  rw [hentering]
  omega

theorem sizeOf_lt_program {p : Instrumented.Program} {f : Instrumented.Function} {s : Stmt}
    (hf : f ∈ p.functions) (hs : s ∈ f.body) : sizeOf s < sizeOf p := by
  have hbody := List.sizeOf_lt_of_mem hs
  have hfunctions := List.sizeOf_lt_of_mem hf
  obtain ⟨name, params, body, line, endLine⟩ := f
  obtain ⟨functions, driver, degradations⟩ := p
  rw [Instrumented.Function.mk.sizeOf_spec] at hfunctions
  rw [Instrumented.Program.mk.sizeOf_spec]
  dsimp only at hbody hfunctions
  omega

/-- A call settles. -/
theorem Calm.callWith (h : Calm env fuel) (name : String) (args : List Value) (hroom : Room env (fuel + 1) 1 m) :
    Settles env fuel (fun p => callWith p env name args) m := by
  unfold Exec.callWith
  cases hf : env.program.function? name with
  | none => exact .of_total (Total.rules.callLibrary name args)
  | some f =>
    have hmem : f ∈ env.program.functions := List.mem_of_find?_eq_some hf
    refine .total_bind (Total.rules.checkCall env f args) fun _ o ho => ?_
    obtain ⟨rfl, hdepth⟩ := checkCall_ok ho
    refine .total_bind (.modify _) fun _ q hq => ?_
    obtain rfl : o.noting env name = q := by
      cases hq
      rfl
    refine .total_bind (Total.rules.bindArgs f.params args) fun vars q hq => ?_
    obtain ⟨⟨heap, -, hheap⟩, -⟩ := bindArgs_ok hq
    refine .total_bind .get fun r r' hr => ?_
    cases hr
    refine .total_bind (total_enter env f vars) fun _ r hr => ?_
    have henter : Ends (fun _ => False) (fun _ r => r = q.entering f vars) (fun _ => enter env f vars) q :=
      enter_ends f vars
    obtain rfl := henter.of_ok hr
    have hentering : Room env fuel (sizeOf env.program) (q.entering f vars) := by
      subst hheap
      exact room_entering hroom.sound hdepth (hroom.of_eq rfl rfl)
    have hbody := h.sequence (fun s hs => sizeOf_lt_program hmem hs)
      (fun s hs => .inl ⟨f, hmem, .mem hs, List.cons_ne_nil _ _⟩) hentering
    refine Settles.bind_total ((Stops.sequence f.body).bind fun _ => .const)
      (hbody.bind_total (.sequence f.body) (total_finish f)) fun _ => ?_
    exact (Total.modify _).bind fun _ => (Total.modify _).bind fun _ => .pure _

/-! ## Everything -/

/-- A run that comes to no silent round runs out of fuel nowhere, by induction on the fuel. -/
theorem calm (hno : ¬ SilentRound env) (fuel : Nat) : Calm env fuel := by
  induction fuel with
  | zero => exact fun t m n _ hroom => absurd hroom.fits (Nat.not_lt_zero _)
  | succ fuel ih =>
    intro t m n hreached hroom hplaced he
    have hsmaller : Room env fuel t.size m := ⟨hroom.sound, by have := hroom.fits; omega⟩
    have hpart (t' : Task) (n' : Machine)
        (hstop : ∀ x, (((meaning env fuel).stopAt t' n' x).next env fuel).attempt t m = .error x n') :
        Reached env fuel t' n' := .part hreached hstop
    cases t with
    | eval e =>
      exact ih.evalWith hsmaller (fun t' n' hstop => hpart t' n' fun x => bind_of_error (hstop x)) n
        (error_of_discard he)
    | resolve e =>
      exact ih.resolveWith hsmaller (fun t' n' hstop => hpart t' n' fun x => bind_of_error (hstop x)) n
        (error_of_discard he)
    | call name args =>
      exact ih.callWith name args hroom (fun t' n' hstop => hpart t' n' fun x => bind_of_error (hstop x)) n
        (error_of_discard he)
    | run s =>
      exact ih.runWith hno hreached (hplaced s rfl) hsmaller
        (fun t' n' hstop => hpart t' n' fun x => bind_of_error (hstop x)) n (error_of_discard he)

/-- The statements at top level settle, and the call of the entry function does. -/
theorem Calm.runProgram (h : Calm env fuel) (hroom : Room env fuel (sizeOf env.program) .initial) :
    Settles env fuel (fun p => runProgram p env) .initial := by
  have hdriver : ∀ s ∈ env.program.driver, sizeOf s < sizeOf env.program := fun s hs => by
    have hsize := List.sizeOf_lt_of_mem hs
    generalize env.program = p at hsize ⊢
    obtain ⟨functions, driver, degradations⟩ := p
    rw [Instrumented.Program.mk.sizeOf_spec]
    dsimp only at hsize
    omega
  have hsequence := h.sequence hdriver (fun s hs => .inr (.mem hs)) hroom
  have hstops := Stops.sequence (p := meaning env fuel) env.program.driver
  refine (hsequence.bind_total hstops fun _ => .pure _).bind (hstops.bind fun _ => .const) fun _ n hn => ?_
  obtain ⟨flow, o, ho, hpure⟩ := ok_of_bind hn
  cases hpure
  obtain ⟨hsound, hran⟩ := ((bracketed env fuel).sequence_ends (Stmt.allRefsOnlyIf_true _)
    hroom.sound).of_ok ho
  have hroom' : Room env fuel (sizeOf env.program) n := ⟨hsound, hran.1.depth_eq ▸ hroom.fits⟩
  rcases runEntry_cases env n with hstay | ⟨f, -, -, hentry⟩
  · exact Settles.of_eq (.of_total (.pure ())) hstay
  · refine Settles.of_eq ?_ hentry
    have hpos : 0 < sizeOf env.program := by
      generalize env.program = p
      obtain ⟨functions, driver, degradations⟩ := p
      rw [Instrumented.Program.mk.sizeOf_spec]
      omega
    have hcall := h.call f.name [] hpos (hroom'.of_eq (n := { n with line := f.line }) rfl rfl)
    exact .total_bind (.modify _) fun _ q hq => by
      cases hq
      exact hcall.bind_total (.call f.name []) fun _ => .pure _

end Exec

namespace Instrumented.Program

variable {p : Program} {config : Config}

/-- Enough fuel for every run that ends: for the recursion down the program text in as many calls as may be
active, and for as many rounds of a loop as there may be events. -/
noncomputable def fuelFor (p : Program) (config : Config) : Nat :=
  config.maxEvents + (config.maxCallDepth + 1) * (sizeOf p + 1)

/-- A run that runs out of fuel nowhere, if there is enough of it, ends. -/
theorem halt_of_calm {fuel : Nat} (h : Exec.Calm ⟨p, config⟩ fuel) (hfuel : p.fuelFor config ≤ fuel) :
    (p.run config fuel).halt ≠ some .outOfFuel := by
  intro hhalt
  have hroom : Exec.Room ⟨p, config⟩ fuel (sizeOf p) .initial := by
    refine ⟨Recorder.Sound.empty, ?_⟩
    have hsplit : (config.maxCallDepth + 1) * (sizeOf p + 1) =
        config.maxCallDepth * (sizeOf p + 1) + (sizeOf p + 1) := Nat.succ_mul _ _
    have hdepth : config.maxCallDepth - Machine.initial.stack.depth = config.maxCallDepth := rfl
    dsimp only
    rw [fuelFor] at hfuel
    rw [hdepth]
    omega
  have hsettles := h.runProgram hroom fun t n hstop => .start hstop
  cases hrun : Exec.runProgram (Exec.meaning ⟨p, config⟩ fuel) ⟨p, config⟩ .initial with
  | ok a n =>
    rw [run, hrun] at hhalt
    cases hhalt
  | error e n =>
    rw [run, hrun] at hhalt
    cases hhalt
    exact hsettles n hrun

/-- The run of a program whose loops record something ends, whatever it calls. -/
theorem ends_of_paced (h : p.paced) : ∀ fuel, p.fuelFor config ≤ fuel →
    (p.run config fuel).halt ≠ some .outOfFuel := fun fuel =>
  halt_of_calm (Exec.calm (Exec.not_silentRound_of_paced ⟨p, config⟩ h) fuel)

/-- A run that comes to no silent round ends: it succeeds, or it fails with an error. It takes no more fuel
than its size and the limits ask for. -/
theorem run_ends (h : ¬ Exec.SilentRound ⟨p, config⟩) :
    ∀ fuel, p.fuelFor config ≤ fuel → (p.run config fuel).halt ≠ some .outOfFuel := fun fuel =>
  halt_of_calm (Exec.calm h fuel)

/-- A program with a loop in a function that has no end and counts. -/
def spin : Program where
  functions := [⟨"spin", [], [.act 2 true (.declare "i" (.int 0) false),
    .whileLoop 3 true (.bool true) [.act 4 true (.eval (.update (.var "i") .up false))]], 1, 6⟩]
  driver := [.act 7 true (.eval (.call "spin" []))]
  degradations := []

/-- The loop of `spin` is stopped when there are too many events. -/
theorem run_ends_spin : ¬ Exec.SilentRound ⟨spin, { Config.default with maxEvents := 6 }⟩ ∧
    (∀ fuel, spin.fuelFor { Config.default with maxEvents := 6 } ≤ fuel →
      (spin.run { Config.default with maxEvents := 6 } fuel).halt ≠ some .outOfFuel) ∧
    (spin.run { Config.default with maxEvents := 6 } 30).halt = some (.failed ⟨.eventLimit 6, 4⟩) :=
  have hspin := Exec.not_silentRound_of_paced ⟨spin, { Config.default with maxEvents := 6 }⟩ rfl
  ⟨hspin, run_ends hspin, rfl⟩

/-! ## A loop that goes on -/

/-- A program with a loop at top level that has no end and does nothing. -/
def idle : Program := ⟨[], [.whileLoop 1 true (.bool true) []], []⟩

section

variable (config : Config)

theorem checkEvents_idle : Exec.checkEvents ⟨idle, config⟩ .initial = .ok () .initial :=
  if_neg (Nat.not_lt_zero _)

/-- Every round of the loop leaves the state as it is, so all rounds are used up. -/
theorem rounds_idle (fuel rounds : Nat) :
    let p := Exec.meaning ⟨idle, config⟩ (fuel + 1)
    Exec.repeatWhile (Exec.truth p (.bool true)) (Exec.block p []) (Exec.checkEvents ⟨idle, config⟩) rounds
      .initial = .error .outOfFuel .initial := by
  intro p
  induction rounds with
  | zero => rfl
  | succ rounds ih =>
    let rest := Exec.repeatWhile (Exec.truth p (.bool true)) (Exec.block p [])
      (Exec.checkEvents ⟨idle, config⟩) rounds
    have hround : (Exec.checkEvents ⟨idle, config⟩ >>= fun _ => rest) .initial = .error .outOfFuel .initial :=
      (Exec.bind_of_ok (checkEvents_idle config)).trans ih
    exact hround

theorem halt_idle (fuel : Nat) : (idle.run config fuel).halt = some .outOfFuel := by
  cases fuel with
  | zero => rfl
  | succ fuel =>
    have hbegin : Exec.begin ⟨idle, config⟩ 1 true .initial = .ok () .initial := checkEvents_idle config
    have hloop : Exec.runBegun (Exec.meaning ⟨idle, config⟩ fuel) ⟨idle, config⟩ fuel
        (.whileLoop 1 true (.bool true) []) .initial = .error .outOfFuel .initial := by
      cases fuel with
      | zero => rfl
      | succ fuel => exact rounds_idle config fuel (fuel + 1)
    have hrun : (Exec.meaning ⟨idle, config⟩ (fuel + 1)).run (.whileLoop 1 true (.bool true) []) .initial =
        .error .outOfFuel .initial := (Exec.bind_of_ok hbegin).trans hloop
    have hprogram : Exec.runProgram (Exec.meaning ⟨idle, config⟩ (fuel + 1)) ⟨idle, config⟩ .initial =
        .error .outOfFuel .initial := Exec.bind_of_error (Exec.bind_of_error (Exec.bind_of_error hrun))
    rw [run, hprogram]
    rfl

end

/-- A run need not end, whatever the limits are: a loop that records nothing goes on. -/
theorem not_all_runs_end : ¬ ∀ (p : Program) (config : Config), ∃ fuel,
    (p.run config fuel).halt ≠ some .outOfFuel := by
  intro hall
  obtain ⟨fuel, hfuel⟩ := hall idle .default
  exact hfuel (halt_idle .default fuel)

end Instrumented.Program

end CallTrace
