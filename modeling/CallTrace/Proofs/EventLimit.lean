import CallTrace.Proofs.Evaluation.Thrift
import CallTrace.Proofs.Termination

/-! # The limits of a run

* `Program.run_guarded`: calls are less deep than the limit; calls and steps stay within the limit of events,
  but for one, at which the run fails; and without loops every run ends.
* `Program.timelineBound`: how long a timeline can become, since some events are recorded without a check.
* `Program.size_run_le`: a run that succeeds records so many events at most, and one that fails one more.
* `Program.not_size_run_le_maxEvents`: the limit itself is no such bound.
-/

namespace CallTrace
set_option autoImplicit false

open Instrumented (Expr Action Stmt)

/-! ## Counting calls and steps -/

/-- A list has as many elements of a kind as positions where they may stand, and perhaps one at its end. -/
theorem List.countP_le_of_lt {α : Type} {p : α → Bool} {l : List α} {k : Nat}
    (h : ∀ j a, l[j]? = some a → p a → j < k ∨ j + 1 = l.length) : l.countP p ≤ k + 1 := by
  rw [← List.take_append_drop k l, List.countP_append]
  have htake : (l.take k).countP p ≤ k :=
    Nat.le_trans List.countP_le_length (List.length_take_le k l)
  have hdrop : (l.drop k).countP p ≤ 1 := by
    -- beyond position `k` only the last element is of the kind
    rcases List.eq_nil_or_concat (l.drop k) with hnil | ⟨init, last, hsplit⟩
    · rw [hnil]
      exact Nat.zero_le 1
    · have hinit : init.countP p = 0 := by
        refine List.countP_eq_zero.mpr fun a ha hp => ?_
        obtain ⟨j, hj, rfl⟩ := List.getElem_of_mem ha
        have hlength : (l.drop k).length = init.length + 1 := by rw [hsplit]; simp
        rw [List.length_drop] at hlength
        have hget : l[k + j]? = some init[j] := by
          rw [← List.getElem?_drop, hsplit, List.concat_eq_append, List.getElem?_append_left hj]
          exact List.getElem?_eq_getElem hj
        rcases h (k + j) init[j] hget hp with hlt | hlast <;> omega
      rw [hsplit, List.concat_eq_append, List.countP_append, hinit, Nat.zero_add]
      exact List.countP_le_length
  omega

/-- The calls and the steps of a timeline. -/
theorem Timeline.count_call_add_count_line (t : Timeline) :
    t.count .call + t.count .line = t.toList.countP Event.isChecked := by
  simp only [Timeline.count, ← Array.countP_toList]
  induction t.toList with
  | nil => rfl
  | cons e es ih =>
    have hone : (if e.kind == .call then 1 else 0) + (if e.kind == .line then 1 else 0) =
        if e.isChecked then 1 else 0 := by
      rw [Event.isChecked]
      generalize e.kind = kind
      cases kind <;> rfl
    rw [List.countP_cons, List.countP_cons, List.countP_cons]
    omega

namespace Instrumented

/-! ## Programs without loops -/

mutual

def Stmt.loopFree : Stmt → Bool
  | .ifElse _ _ _ yes no => bodyLoopFree yes && bodyLoopFree no
  | .block _ _ body => bodyLoopFree body
  | .whileLoop .. | .doWhile .. | .forLoop .. => false
  | .act .. | .breakLoop .. | .continueLoop .. | .ret .. => true

def bodyLoopFree : List Stmt → Bool
  | [] => true
  | s :: rest => s.loopFree && bodyLoopFree rest

end

def Program.loopFree (p : Program) : Bool :=
  p.functions.all (fun f => bodyLoopFree f.body) && bodyLoopFree p.driver

mutual

theorem Stmt.paced_of_loopFree {inCall : Bool} {s : Stmt} (h : s.loopFree) : s.paced inCall := by
  cases s with
  | ifElse line step cond yes no =>
    obtain ⟨hyes, hno⟩ := Bool.and_eq_true_iff.mp h
    exact Bool.and_eq_true_iff.mpr ⟨Stmt.allPaced_of_loopFree hyes, Stmt.allPaced_of_loopFree hno⟩
  | block line step body =>
    have hbody : bodyLoopFree body := h
    exact Stmt.allPaced_of_loopFree hbody
  | whileLoop | doWhile | forLoop => cases h
  | act | breakLoop | continueLoop | ret => rfl

theorem Stmt.allPaced_of_loopFree {inCall : Bool} {body : List Stmt} (h : bodyLoopFree body) :
    Stmt.allPaced inCall body := by
  cases body with
  | nil => rfl
  | cons s rest =>
    obtain ⟨hs, hrest⟩ := Bool.and_eq_true_iff.mp h
    exact Bool.and_eq_true_iff.mpr ⟨Stmt.paced_of_loopFree hs, Stmt.allPaced_of_loopFree hrest⟩

end

namespace Program

theorem paced_of_loopFree {p : Program} (h : p.loopFree) : p.paced := by
  obtain ⟨hfunctions, hdriver⟩ := Bool.and_eq_true_iff.mp h
  refine Bool.and_eq_true_iff.mpr ⟨List.all_eq_true.mpr fun f hf => ?_, Stmt.allPaced_of_loopFree hdriver⟩
  exact Stmt.allPaced_of_loopFree (List.all_eq_true.mp hfunctions f hf)

/-! ## Whole runs -/

/-- How a run can end: within the budget, or stopped within the budget. -/
theorem run_meets (p : Program) (config : Config) (fuel : Nat) :
    (∃ m : Machine, p.run config fuel = ⟨m.recorder.events, none⟩ ∧
      m.Budgeted ⟨p, config⟩ 0 0 p.burst) ∨
    ∃ (halt : Halt) (m : Machine), p.run config fuel = ⟨m.recorder.events, some halt⟩ ∧
      m.Overrun ⟨p, config⟩ 0 p.burst halt := by
  have h := Exec.meets_runProgram ⟨p, config⟩ fuel
  cases hrun : Exec.runProgram (Exec.meaning ⟨p, config⟩ fuel) ⟨p, config⟩ .initial with
  | ok a m =>
    rw [Exec.Meets, hrun] at h
    exact .inl ⟨m, by rw [run, hrun]; rfl, h⟩
  | error halt m =>
    rw [Exec.Meets, hrun] at h
    exact .inr ⟨halt, m, by rw [run, hrun]; rfl, h⟩

/-- The guards of a run. Every call is less deep than the limit. There is at most one call or step more than the
limit of events, and a call or a step beyond the limit is the last event of a run that fails because of the
limit. The run of a program without loops ends, whatever it calls. -/
theorem run_guarded (p : Program) (config : Config) (fuel : Nat) :
    let o := p.run config fuel
    (∀ e ∈ o.timeline, ∀ frame depth, e.payload = .call frame depth → frame.depth < config.maxCallDepth) ∧
    o.timeline.count .call + o.timeline.count .line ≤ config.maxEvents + 1 ∧
    (∀ j e, o.timeline[j]? = some e → e.kind = .call ∨ e.kind = .line → config.maxEvents < j + 1 →
      j + 1 = o.timeline.size ∧ ∃ line, o.halt = some (.failed ⟨.eventLimit config.maxEvents, line⟩)) ∧
    (p.loopFree → p.fuelFor config ≤ fuel → o.halt ≠ some .outOfFuel) := by
  intro o
  have hshallow : o.timeline.Shallow ⟨p, config⟩ := by
    rcases p.run_meets config fuel with ⟨m, ho, hm⟩ | ⟨halt, m, ho, hm⟩
    · exact congrArg Outcome.timeline ho ▸ hm.shallow
    · exact congrArg Outcome.timeline ho ▸ hm.shallow
  have hguarded : o.timeline.Guarded ⟨p, config⟩ fun j => j + 1 = o.timeline.size ∧
      ∃ line, o.halt = some (.failed ⟨.eventLimit config.maxEvents, line⟩) := by
    rcases p.run_meets config fuel with ⟨m, ho, hm⟩ | ⟨halt, m, ho, hm⟩
    · simp only [o, ho]
      exact fun j e hj he => (hm.guarded j e hj he).imp_right False.elim
    · simp only [o, ho]
      exact fun j e hj he => (hm.guarded j e hj he).imp_right fun ⟨hlast, line, hline⟩ =>
        ⟨hlast, line, congrArg some hline⟩
  refine ⟨hshallow, ?_, fun j e hj hkind hbeyond => ?_,
    fun hfree => ends_of_paced (paced_of_loopFree hfree) fuel⟩
  · rw [Timeline.count_call_add_count_line]
    refine List.countP_le_of_lt fun j e hj he => ?_
    rw [Array.getElem?_toList] at hj
    exact (hguarded j e hj he).imp_right And.left
  · have hchecked : e.isChecked := by
      rcases hkind with h | h <;> rw [Event.isChecked, h] <;> rfl
    exact (hguarded j e hj hchecked).resolve_left (by dsimp only; omega)

/-- A function that calls itself for ever, and room for two calls. -/
def recurring : Program where
  functions := [⟨"recurring", [], [.act 2 true (.eval (.call "recurring" []))], 1, 3⟩]
  driver := [.act 4 true (.eval (.call "recurring" []))]
  degradations := []

def twoCalls : Config := { Config.default with maxCallDepth := 2 }

theorem run_guarded_recurring :
    recurring.loopFree = true ∧
    (∀ fuel, recurring.fuelFor twoCalls ≤ fuel →
      (recurring.run twoCalls fuel).halt ≠ some .outOfFuel) ∧
    (recurring.run twoCalls 12).halt = some (.failed ⟨.callDepth 2, 2⟩) ∧
    (recurring.run twoCalls 12).timeline.count .call = 2 :=
  ⟨rfl, fun fuel => (run_guarded recurring twoCalls fuel).2.2.2 rfl, rfl, rfl⟩

/-! ## The length of a timeline -/

/-- The longest timeline that a run may record and succeed: up to the limit, and then a burst in every call
that is active and the return of the call, without a check in between. -/
def timelineBound (p : Program) (config : Config) : Nat :=
  config.maxEvents + config.maxCallDepth * (p.burst + 1) + p.burst

/-- A run that succeeds has recorded as many events as the bound says at most, and a run that fails one more. -/
theorem size_run_le (p : Program) (config : Config) (fuel : Nat) :
    let o := p.run config fuel
    (o.halt = none → o.timeline.size ≤ p.timelineBound config) ∧
      o.timeline.size ≤ p.timelineBound config + 1 := by
  intro o
  have hbound : Env.ceiling ⟨p, config⟩ 0 + p.burst = p.timelineBound config := rfl
  rcases p.run_meets config fuel with ⟨m, ho, hm⟩ | ⟨halt, m, ho, hm⟩
  · simp only [o, ho]
    have hsize := hm.size
    rw [hbound] at hsize
    exact ⟨fun _ => hsize, Nat.le_succ_of_le hsize⟩
  · simp only [o, ho]
    have hsize := hm.size
    rw [hbound] at hsize
    exact ⟨fun hnone => (nomatch hnone), hsize⟩

/-- One function, which does nothing, and room for one call and for one event. -/
def idleCall : Program where
  functions := [⟨"f", [], [], 1, 1⟩]
  driver := [.act 2 true (.eval (.call "f" []))]
  degradations := []

def one : Config := { Config.default with maxCallDepth := 1, maxEvents := 1 }

/-- The return at the end of a body is recorded without a check, so the bound is reached with one call. -/
theorem size_run_le_idleCall :
    (idleCall.run one 5).halt = none ∧
    (idleCall.run one 5).timeline.size ≤ idleCall.timelineBound one ∧
    (idleCall.run one 5).timeline.size = idleCall.timelineBound one :=
  ⟨rfl, (size_run_le idleCall one 5).1 rfl, rfl⟩

/-- The limit of events is not the length of the longest timeline. -/
theorem not_size_run_le_maxEvents : ¬ ∀ (p : Program) (config : Config) (fuel : Nat),
    let o := p.run config fuel
    (o.halt = none → o.timeline.size ≤ config.maxEvents) ∧ o.timeline.size ≤ config.maxEvents + 1 := by
  intro hall
  have hsize := (hall idleCall one 5).1 rfl
  have htwo : (idleCall.run one 5).timeline.size = 2 := rfl
  rw [htwo] at hsize
  cases hsize with
  | step h => cases h

end Program

end Instrumented

end CallTrace
