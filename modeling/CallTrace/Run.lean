import CallTrace.Evaluation
import CallTrace.Instrumented.Lower

/-! # Runs

A run executes the statements at top level, and then the entry function unless one of them has called
it. What was recorded before an error is part of the result.

* `Outcome`: the timeline of a run, and why it stopped if it did not succeed.
* `Instrumented.Program.run`: the run of a program with some fuel.
* `runSource`: the run of a program text.
-/

namespace CallTrace
set_option autoImplicit false

structure Outcome where
  timeline : Timeline
  halt : Option Halt

def Outcome.error? (o : Outcome) : Option RunError :=
  match o.halt with
  | some (.failed e) => some e
  | _ => none

namespace Exec

/-- Calls the entry function, if it has no parameters and was not called before. -/
def runEntry (p : Meaning) (env : Env) : Exec Unit := do
  if (← get).entered then return
  match env.program.function? env.config.entryPoint with
  | some f =>
    if f.params.isEmpty then
      setLine f.line
      discard (p.call f.name [])
  | none => return

def runProgram (p : Meaning) (env : Env) : Exec Unit := do
  discard (sequence p.run env.program.driver)
  runEntry p env

end Exec

def Outcome.ofResult {α : Type} : EStateM.Result Halt Machine α → Outcome
  | .ok _ m => ⟨m.recorder.events, none⟩
  | .error h m => ⟨m.recorder.events, some h⟩

def Instrumented.Program.run (p : Instrumented.Program) (config : Config) (fuel : Nat) : Outcome :=
  let env : Env := ⟨p, config⟩
  .ofResult (Exec.runProgram (Exec.meaning env fuel) env .initial)

/-- Fuel for every program whose run ends on a machine. -/
def ampleFuel : Nat := 4611686018427387904

def runSource (source : String) (config : Config) : Outcome :=
  (Instrumented.translate source).run config ampleFuel

end CallTrace
