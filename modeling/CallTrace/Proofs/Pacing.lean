import CallTrace.Proofs.Evaluation.Loops

/-! # Loops that record something in every round

* `Stmt.records`, `Instrumented.bodyRecords`: the text of a statement or of a body shows that it records
  something whenever it runs to its end.
* `Program.paced`: the body of every loop does.
* `Exec.not_silentRound_of_paced`: then a run comes to no silent round.
-/

namespace CallTrace
set_option autoImplicit false

open Instrumented (Expr Action Stmt)
open Relation (ReflTransGen)

namespace Instrumented

def Action.isOutput : Action → Bool
  | .log _ | .printf _ _ => true
  | _ => false

def Stmt.isAct : Stmt → Bool
  | .act .. => true
  | _ => false

/-- Whether a statement records something in every run to its end: output, or its step. A step is recorded
only in a call. -/
def Stmt.records (inCall : Bool) : Stmt → Bool
  | .act _ step action => action.isOutput || (inCall && step)
  | s => inCall && s.step

/-- Whether a body comes to a statement that records something before it can turn aside. -/
def bodyRecords (inCall : Bool) : List Stmt → Bool
  | [] => false
  | s :: rest => s.records inCall || (s.isAct && bodyRecords inCall rest)

def Stmt.loopBody? : Stmt → Option (List Stmt)
  | .whileLoop _ _ _ body | .doWhile _ _ body _ | .forLoop _ _ _ _ _ body => some body
  | _ => none

mutual

/-- Whether the body of every loop in a statement records something. -/
def Stmt.paced (inCall : Bool) : Stmt → Bool
  | .ifElse _ _ _ yes no => Stmt.allPaced inCall yes && Stmt.allPaced inCall no
  | .whileLoop _ _ _ body | .doWhile _ _ body _ | .forLoop _ _ _ _ _ body =>
    bodyRecords inCall body && Stmt.allPaced inCall body
  | .block _ _ body => Stmt.allPaced inCall body
  | .act .. | .breakLoop .. | .continueLoop .. | .ret .. => true

/-- Whether the body of every loop in some statements records something. -/
def Stmt.allPaced (inCall : Bool) : List Stmt → Bool
  | [] => true
  | s :: rest => s.paced inCall && Stmt.allPaced inCall rest

end

/-- Whether the body of every loop records something, in the functions and at top level. -/
def Program.paced (p : Program) : Bool :=
  p.functions.all (fun f => Stmt.allPaced true f.body) && Stmt.allPaced false p.driver

theorem Stmt.paced_of_mem {inCall : Bool} {body : List Stmt} (h : Stmt.allPaced inCall body) {s : Stmt}
    (hs : s ∈ body) : s.paced inCall := by
  induction body with
  | nil => cases hs
  | cons t rest ih =>
    obtain ⟨ht, hrest⟩ := Bool.and_eq_true_iff.mp h
    rcases List.mem_cons.mp hs with rfl | hs
    · exact ht
    · exact ih hrest hs

theorem Stmt.paced_of_inner {inCall : Bool} {s t : Stmt} (h : s.paced inCall) (ht : t ∈ s.inner) :
    t.paced inCall := by
  cases s with
  | ifElse line step cond yes no =>
    obtain ⟨hyes, hno⟩ := Bool.and_eq_true_iff.mp h
    rcases List.mem_append.mp ht with ht | ht
    · exact paced_of_mem hyes ht
    · exact paced_of_mem hno ht
  | whileLoop line step cond body | doWhile line step body cond =>
    exact paced_of_mem (Bool.and_eq_true_iff.mp h).2 ht
  | forLoop line step init cond update body =>
    rcases List.mem_append.mp ht with ht | ht
    · rcases init with _ | init <;> simp at ht
      rw [ht]
      rfl
    · exact paced_of_mem (Bool.and_eq_true_iff.mp h).2 ht
  | block line step body => exact paced_of_mem h ht
  | act | breakLoop | continueLoop | ret => cases ht

theorem Stmt.paced_of_inBody {inCall : Bool} {body : List Stmt} (h : Stmt.allPaced inCall body) {s : Stmt}
    (hs : InBody body s) : s.paced inCall := by
  induction hs with
  | mem hs => exact paced_of_mem h hs
  | inner _ ht ih => exact paced_of_inner ih ht

theorem Stmt.bodyRecords_of_paced {inCall : Bool} {s : Stmt} {body : List Stmt} (h : s.paced inCall)
    (hs : s.loopBody? = some body) : bodyRecords inCall body := by
  cases s <;> cases hs <;> exact (Bool.and_eq_true_iff.mp h).1

end Instrumented

namespace Exec

variable {env : Env} {fuel : Nat} {m n : Machine} {inCall : Bool}

/-! ## What is recorded -/

theorem Ran.size_le {v : Option Value} (h : Ran v m n) :
    m.recorder.events.size ≤ n.recorder.events.size := by
  have of_append {es : List Event} (he : n.recorder.events.toList = m.recorder.events.toList ++ es) :
      m.recorder.events.size ≤ n.recorder.events.size := by
    have hlength := congrArg List.length he
    simp only [Array.length_toList, List.length_append] at hlength
    omega
  cases v with
  | none =>
    have hinside : Recorder.Inside m.recorder n.recorder := h.2
    obtain ⟨-, es, he, -⟩ := hinside
    exact of_append he
  | some v =>
    rcases h.2 with ⟨-, -, es, he, -⟩ | ⟨id, hfinished⟩
    · exact of_append he
    · obtain ⟨es, e, he, -⟩ := hfinished.events
      exact of_append he

theorem size_lt_begin {line : Nat} (hactive : m.recorder.active ≠ [])
    (h : begin env line true m = .ok () n) : m.recorder.events.size < n.recorder.events.size := by
  obtain ⟨rfl, -⟩ := checkEvents_ok h
  dsimp only
  unfold Recorder.step
  split
  · next hnil => exact absurd hnil hactive
  · simp [Recorder.push]

theorem size_recordLog {text : String} (h : recordLog text m = .ok () n) :
    n.recorder.events.size = m.recorder.events.size + 1 := by
  cases h
  simp [Recorder.log]

theorem size_lt_output {action : Action} (ha : action.isOutput) (hm : m.recorder.Sound)
    (h : perform (meaning env fuel) action m = .ok () n) :
    m.recorder.events.size < n.recorder.events.size := by
  cases action with
  | log parts =>
    obtain ⟨texts, o, ho, hlog⟩ := ok_of_bind h
    have hduring := ((bracketed env fuel).texts_during (.refl hm) parts).of_ok ho
    have hle : m.recorder.events.size ≤ o.recorder.events.size := Ran.size_le (v := none) hduring.rel
    rw [size_recordLog hlog]
    omega
  | printf format args =>
    obtain ⟨v, o, ho, h⟩ := ok_of_bind h
    obtain ⟨hduring, -⟩ := ((bracketed env fuel).eval_during (.refl hm) format).of_ok ho
    cases v
    case str text =>
      obtain ⟨values, q, hq, h⟩ := ok_of_bind h
      obtain ⟨hduring', -⟩ := ((bracketed env fuel).evals_during hduring args).of_ok hq
      rw [get_bind] at h
      obtain ⟨out, r, hr, hlog⟩ := ok_of_bind h
      have hle : m.recorder.events.size ≤ q.recorder.events.size := Ran.size_le (v := none) hduring'.rel
      obtain rfl : r = q := by
        cases hformat : Printf.format q.heap text values <;> rw [hformat] at hr <;> cases hr
        rfl
      rw [size_recordLog hlog]
      omega
    all_goals cases h
  | declare | eval | unsupported => cases ha

/-- A statement that records something adds to the timeline. -/
theorem size_lt_run {s : Stmt} (hs : s.records inCall) (hactive : inCall → m.recorder.active ≠ [])
    (hm : m.recorder.Sound) {flow : Flow} (h : (meaning env fuel).run s m = .ok flow n) :
    m.recorder.events.size < n.recorder.events.size := by
  cases fuel with
  | zero => cases h
  | succ fuel =>
    obtain ⟨_, o, ho, hbegun⟩ := ok_of_bind h
    obtain ⟨hsound, hran⟩ := balanced_begin s.line s.step hm ho
    obtain ⟨-, hran'⟩ := ((bracketed env fuel).runBegun_ends fuel s.refsOnlyIf_true hsound).of_ok hbegun
    have hle := hran'.size_le
    have hstep (hs : inCall && s.step) : m.recorder.events.size < n.recorder.events.size := by
      obtain ⟨hcall, hstep⟩ := Bool.and_eq_true_iff.mp hs
      rw [hstep] at ho
      have hlt := size_lt_begin (hactive hcall) ho
      omega
    cases s
    case act line step action =>
      rcases Bool.or_eq_true_iff.mp hs with houtput | hs
      · obtain ⟨_, q, hq, hpure⟩ := ok_of_bind hbegun
        cases hpure
        have hlt := size_lt_output houtput hsound hq
        have hbegin := hran.size_le
        omega
      · exact hstep hs
    all_goals exact hstep hs

/-- A body that records something adds to the timeline. -/
theorem size_lt_sequence {body : List Stmt} (hbody : Instrumented.bodyRecords inCall body)
    (hactive : inCall → m.recorder.active ≠ []) (hm : m.recorder.Sound) {flow : Flow}
    (h : sequence (meaning env fuel).run body m = .ok flow n) :
    m.recorder.events.size < n.recorder.events.size := by
  induction body generalizing m with
  | nil => cases hbody
  | cons s rest ih =>
    obtain ⟨first, o, ho, h⟩ := ok_of_bind h
    obtain ⟨hsound, hran⟩ := ((bracketed env fuel).run s.refsOnlyIf_true hm).of_ok ho
    have hle : o.recorder.events.size ≤ n.recorder.events.size := by
      cases first with
      | normal =>
        obtain ⟨-, hrest⟩ := ((bracketed env fuel).sequence_ends (Stmt.allRefsOnlyIf_true rest)
          hsound).of_ok h
        exact hrest.size_le
      | breakLoop | continueLoop | ret =>
        cases h
        exact Nat.le_refl _
    rcases Bool.or_eq_true_iff.mp hbody with hs | hbody
    · exact Nat.lt_of_lt_of_le (size_lt_run hs hactive hm ho) hle
    · obtain ⟨hact, hrest⟩ := Bool.and_eq_true_iff.mp hbody
      -- An action ends normally, so the rest of the body runs.
      obtain rfl : first = .normal := by
        cases s <;> cases hact
        cases fuel with
        | zero => cases ho
        | succ fuel =>
          obtain ⟨_, _, -, hbegun⟩ := ok_of_bind ho
          obtain ⟨_, _, -, hpure⟩ := ok_of_bind hbegun
          cases hpure
          rfl
      have hlt := ih hrest (fun hcall => hran.active ▸ hactive hcall) hsound h
      have hfirst := Ran.size_le (v := none) hran
      omega

/-! ## Rounds -/

/-- A loop that a statement comes to has the body of the statement, and its other parts keep calls and returns
matched. -/
theorem EntersLoop.loop {s : Stmt} {l : Loop} (h : EntersLoop env (meaning env fuel) s m l n)
    (hm : m.recorder.Sound) : ∃ body, s.loopBody? = some body ∧ l.body = block (meaning env fuel) body ∧
      Balanced l.cond ∧ Balanced l.next ∧ n.recorder.Sound ∧ n.recorder.active = m.recorder.active := by
  cases h with
  | whileLoop hbegin =>
    obtain ⟨hsound, hran⟩ := balanced_begin _ _ hm hbegin
    exact ⟨_, rfl, rfl, balanced_truth _, balanced_checkEvents, hsound, hran.active⟩
  | doWhile hbegin hfirst hexit hcheck =>
    obtain ⟨hsound, hran⟩ := balanced_begin _ _ hm hbegin
    obtain ⟨hsound', hran'⟩ := block_ran hsound hfirst
    rw [returned_of_loopExit hexit] at hran'
    obtain ⟨rfl, -⟩ := checkEvents_ok hcheck
    exact ⟨_, rfl, rfl, balanced_truth _, balanced_checkEvents, hsound', (hran.trans hran').active⟩
  | @forLoop _ _ _ _ _ _ _ o _ hbegin hinit =>
    obtain ⟨hsound, hran⟩ := balanced_begin _ _ hm hbegin
    obtain ⟨hsound', hran'⟩ := balanced_forInit (m := { o with stack := o.stack.pushScope }) _ hsound hinit
    exact ⟨_, rfl, rfl, balanced_forCond _ _, balanced_forNext _ _, hsound', hran'.active.trans hran.active⟩

/-- A round adds to the timeline if the body of the loop records something. -/
theorem Loop.GoesOn.size_lt {l : Loop} {body : List Stmt} (h : l.GoesOn m n) (hcond : Balanced l.cond)
    (hnext : Balanced l.next) (hblock : l.body = block (meaning env fuel) body)
    (hbody : Instrumented.bodyRecords inCall body) (hactive : inCall → m.recorder.active ≠ [])
    (hm : m.recorder.Sound) : m.recorder.events.size < n.recorder.events.size := by
  obtain ⟨o, flow, q, ho, hq, hexit, hn⟩ := h
  obtain ⟨hsound, hran⟩ := hcond hm ho
  rw [hblock] at hq
  obtain ⟨hsound', -⟩ := block_ran hsound hq
  obtain ⟨-, hran'⟩ := hnext hsound' hn
  obtain ⟨_, _, hscope, hq⟩ := ok_of_bind hq
  cases hscope
  obtain ⟨_, r, hr, hpop⟩ := ok_of_bind hq
  cases hpop
  have hlt := size_lt_sequence (m := { o with stack := o.stack.pushScope }) hbody
    (fun hcall => hran.active ▸ hactive hcall) hsound hr
  have hfirst := hran.size_le
  have hlast := hran'.size_le
  exact Nat.lt_of_le_of_lt hfirst (Nat.lt_of_lt_of_le hlt hlast)

end Exec

/-- The run of a program whose loops record something comes to no silent round. -/
theorem Exec.not_silentRound_of_paced (env : Env) (h : env.program.paced) : ¬ Exec.SilentRound env := by
  obtain ⟨hfunctions, hdriver⟩ := Bool.and_eq_true_iff.mp h
  rintro ⟨fuel, s, m, l, start, n, o, hreached, hplaced, henters, hpath, hround, heq⟩
  have hm : m.recorder.Sound := Exec.bracketing.inv_of_reached (Instrumented.Program.refsOnlyIf_true _)
    Exec.bracketing_inv_initial hreached
  obtain ⟨body, hbody, hblock, hcond, hnext, hstart, hactive⟩ := henters.loop hm
  -- The recording stays sound and the same calls stay active from round to round.
  have hn : n.recorder.Sound ∧ n.recorder.active = start.recorder.active := by
    clear hround heq
    induction hpath with
    | refl => exact ⟨hstart, rfl⟩
    | tail _ hstep ih =>
      obtain ⟨hsound, hran⟩ := hstep.ran hcond hnext hblock ih.1
      exact ⟨hsound, hran.active.trans ih.2⟩
  have hlt : n.recorder.events.size < o.recorder.events.size := by
    rcases hplaced with ⟨f, hf, hin, hcall⟩ | hin
    · have hcall' : n.recorder.active ≠ [] := by rwa [hn.2, hactive]
      exact hround.size_lt hcond hnext hblock (Stmt.bodyRecords_of_paced
        (Stmt.paced_of_inBody (List.all_eq_true.mp hfunctions f hf) hin) hbody) (fun _ => hcall') hn.1
    · exact hround.size_lt hcond hnext hblock (Stmt.bodyRecords_of_paced
        (Stmt.paced_of_inBody hdriver hin) hbody) (fun hfalse => nomatch hfalse) hn.1
  rw [heq] at hlt
  exact Nat.lt_irrefl _ hlt

end CallTrace
