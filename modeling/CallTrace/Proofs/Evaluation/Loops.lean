import CallTrace.Proofs.Evaluation.Settles
import Mathlib.Logic.Relation

/-! # Loops in a run

Each round of a loop ends with a look at the number of events, so a loop in which every round records
something has not many rounds.

* `Exec.EntersLoop`: a statement comes to a loop.
* `Exec.SilentRound`: a run comes to a round of a loop that goes on and has recorded nothing.
* `Exec.Balanced`: a computation after which calls and returns match as before.
* `Exec.Part`: one that settles, too, where there is room.
* `Calm.loop`, `Calm.doWhile`, `Calm.forLoop`: loops without silent rounds settle.
* `Calm.runWith`: so does every statement that comes to no silent round.
-/

namespace CallTrace
set_option autoImplicit false

open Instrumented (Expr Action Stmt)
open Relation (ReflTransGen)

namespace Exec

/-- The statement, begun in the state `m`, comes to a loop: the first round begins in the state `n`. -/
inductive EntersLoop (env : Env) (p : Meaning) : Stmt → Machine → Loop → Machine → Prop where
  | whileLoop {line : Nat} {step : Bool} {cond : Expr} {body : List Stmt} {m n : Machine}
      (hbegin : begin env line step m = .ok () n) :
      EntersLoop env p (.whileLoop line step cond body) m
        ⟨truth p cond, block p body, checkEvents env⟩ n
  | doWhile {line : Nat} {step : Bool} {body : List Stmt} {cond : Expr} {flow : Flow}
      {m n o q : Machine} (hbegin : begin env line step m = .ok () n)
      (hfirst : block p body n = .ok flow o) (hexit : flow.loopExit? = none)
      (hcheck : checkEvents env o = .ok () q) :
      EntersLoop env p (.doWhile line step body cond) m
        ⟨truth p cond, block p body, checkEvents env⟩ q
  | forLoop {line : Nat} {step : Bool} {init : Option (Nat × Action)} {cond update : Option Expr}
      {body : List Stmt} {m n o : Machine} (hbegin : begin env line step m = .ok () n)
      (hinit : forInit p env init { n with stack := n.stack.pushScope } = .ok () o) :
      EntersLoop env p (.forLoop line step init cond update body) m
        ⟨forCond p o.line cond, block p body, forNext p env o.line update⟩ o

/-- A run comes to a round of a loop after which the loop goes on, and nothing has been recorded in it. -/
def SilentRound (env : Env) : Prop := ∃ fuel s m l start n o,
  Reached env (fuel + 1) (.run s) m ∧ Placed env s m ∧ EntersLoop env (meaning env fuel) s m l start ∧
    ReflTransGen l.GoesOn start n ∧ l.GoesOn n o ∧ o.recorder.events = n.recorder.events

variable {env : Env} {fuel size : Nat} {m n o : Machine} {s : Stmt} {α : Type}

/-! ## What loops are made of -/

/-- After the computation the recording is sound, and calls and returns match as before. -/
def Balanced (c : Exec α) : Prop := ∀ {m n : Machine} {a : α}, m.recorder.Sound → c m = .ok a n →
  n.recorder.Sound ∧ Ran none m n

theorem balanced_truth (cond : Expr) : Balanced (truth (meaning env fuel) cond) := fun hm hc =>
  have hduring := ((bracketed env fuel).truth_during (.refl hm) cond).of_ok hc
  ⟨hduring.inv, hduring.rel⟩

theorem balanced_checkEvents : Balanced (checkEvents env) := fun hm hc => by
  obtain ⟨rfl, -⟩ := checkEvents_ok hc
  exact ⟨hm, .refl _, .refl _⟩

theorem balanced_begin (line : Nat) (step : Bool) : Balanced (begin env line step) := fun hm hc =>
  have hends : Ends (fun _ => False) _ (fun _ => begin env line step) _ :=
    Contract.Means.begin_ends (C := bracketing) hm line step
  hends.of_ok hc

theorem balanced_perform (action : Action) : Balanced (perform (meaning env fuel) action) := fun hm hc =>
  ((bracketed env fuel).perform_ends hm action.refsOnlyIf_true).of_ok hc

theorem balanced_forInit (init : Option (Nat × Action)) : Balanced (forInit (meaning env fuel) env init) :=
  fun hm hc => ((bracketed env fuel).forInit_ends hm fun i _ => i.2.refsOnlyIf_true).of_ok hc

theorem balanced_forCond (header : Nat) (cond : Option Expr) :
    Balanced (forCond (meaning env fuel) header cond) := fun hm hc =>
  ((bracketed env fuel).forCond_ends hm header cond).of_ok hc

theorem balanced_forNext (header : Nat) (update : Option Expr) :
    Balanced (forNext (meaning env fuel) env header update) := fun hm hc =>
  ((bracketed env fuel).forNext_ends hm header update).of_ok hc

/-- A part of a statement: it settles where there is room, and keeps calls and returns matched. -/
structure Part (env : Env) (fuel size : Nat) (c : Meaning → Exec α) : Prop where
  stops : Stops (meaning env fuel) c
  settles (m : Machine) : Room env fuel size m → Settles env fuel c m
  ran : Balanced (c (meaning env fuel))

theorem Part.room {c : Meaning → Exec α} (h : Part env fuel size c) {a : α} (hm : Room env fuel size m)
    (hc : c (meaning env fuel) m = .ok a n) : Room env fuel size n := by
  obtain ⟨hn, hran⟩ := h.ran hm.sound hc
  exact hm.of_ran hn hran

theorem part_checkEvents : Part env fuel size fun _ => checkEvents env where
  stops := .const
  settles _ _ := .of_total (total_checkEvents env)
  ran := balanced_checkEvents

theorem part_begin (line : Nat) (step : Bool) : Part env fuel size fun _ => begin env line step where
  stops := .const
  settles _ _ := .of_total (total_begin env line step)
  ran := balanced_begin line step

theorem Placed.of_active (h : Placed env s m) (hactive : n.recorder.active = m.recorder.active) :
    Placed env s n := by
  unfold Placed
  rwa [hactive]

theorem Placed.inner (h : Placed env s m) {t : Stmt} (ht : t ∈ s.inner) : Placed env t m := by
  rcases h with ⟨f, hf, hin, hactive⟩ | hin
  · exact .inl ⟨f, hf, .inner hin ht, hactive⟩
  · exact .inr (.inner hin ht)

theorem Ran.active (h : Ran none m n) : n.recorder.active = m.recorder.active :=
  have hinside : Recorder.Inside m.recorder n.recorder := h.2
  hinside.active

/-- What is recorded only grows. -/
theorem Ran.size_lt (h : Ran none m n) (hne : n.recorder.events ≠ m.recorder.events) :
    m.recorder.events.size < n.recorder.events.size := by
  have hinside : Recorder.Inside m.recorder n.recorder := h.2
  obtain ⟨-, es, he, -⟩ := hinside
  cases es with
  | nil => exact absurd (Array.toList_inj.mp (he.trans (List.append_nil _))) hne
  | cons e es =>
    have hlength := congrArg List.length he
    simp only [Array.length_toList, List.length_append, List.length_cons] at hlength
    omega

namespace Calm

variable (h : Calm env fuel)
include h

theorem part_truth {cond : Expr} (hcond : sizeOf cond < size) :
    Part env fuel size fun p => Exec.truth p cond where
  stops := (Stops.eval cond).bind fun _ => .const
  settles _ hroom := h.truth hcond hroom
  ran := balanced_truth cond

theorem part_forCond (header : Nat) {cond : Option Expr} (hcond : ∀ e ∈ cond, sizeOf e < size) :
    Part env fuel size fun p => forCond p header cond where
  stops := ((Rewriting.agrees_self env fuel _).forCond header cond).stops
  settles m hroom := by
    refine .total_bind (.modify _) fun _ n hn => ?_
    cases hn
    cases cond with
    | none => exact .of_total (.pure _)
    | some e => exact h.truth (hcond e rfl) (hroom.of_eq rfl rfl)
  ran := balanced_forCond header cond

theorem part_forNext (header : Nat) {update : Option Expr} (hupdate : ∀ e ∈ update, sizeOf e < size) :
    Part env fuel size fun p => forNext p env header update where
  stops := ((Rewriting.agrees_self env fuel _).forNext header update).stops
  settles m hroom := by
    refine .total_bind (.modify _) fun _ n hn => ?_
    cases hn
    cases update with
    | none => exact .total_bind (.pure ()) fun _ _ _ => .of_total (total_checkEvents env)
    | some e =>
      have hdiscard : Stops (meaning env fuel) fun p => discard (p.eval e) :=
        (Stops.eval e).bind fun _ => .const
      refine Settles.bind_total hdiscard ?_ fun _ => total_checkEvents env
      have hheader : Room env fuel size { m with line := header } := hroom.of_eq rfl rfl
      exact (h.eval (hupdate e rfl) hheader).bind_total (.eval e) fun _ => .pure _
  ran := balanced_forNext header update

theorem part_perform {action : Action} (haction : sizeOf action ≤ size) :
    Part env fuel size fun p => perform p action where
  stops := ((Rewriting.agrees_self env fuel _).perform action).stops
  settles m hroom := by
    have hdeclare (name : String) (w : Value) :
        Total (modifyStack (·.declare name w) >>= fun _ => recordSet name) :=
      (Total.modify _).bind fun _ => .modify _
    cases action with
    | declare name init byRef =>
      rw [Action.declare.sizeOf_spec] at haction
      refine (h.eval (by omega) hroom).bind_total (.eval init) fun v => ?_
      cases byRef with
      | true => exact hdeclare name v
      | false => exact (Total.rules.copy v).bind (hdeclare name)
    | eval e =>
      rw [Action.eval.sizeOf_spec] at haction
      exact (h.eval (by omega) hroom).bind_total (.eval e) fun _ => .pure _
    | log parts =>
      rw [Action.log.sizeOf_spec] at haction
      have htext (e : Expr) : Stops (meaning env fuel) fun p => do
          let v ← p.eval e
          return (← get).heap.text v := (Stops.eval e).bind fun _ => .const
      refine (Settles.mapM (Room env fuel size) htext (fun e he n hn => ?_)
        (fun e n w o hn hc => ?_) hroom).bind_total (.mapM htext parts) fun _ => .modify _
      · have hsize : sizeOf e < size := by
          have := List.sizeOf_lt_of_mem he
          omega
        exact (h.eval hsize hn).bind_total (.eval e) fun _ => Total.get.bind fun _ => .pure _
      · obtain ⟨v, q, hq, htext⟩ := ok_of_bind hc
        cases htext
        exact hn.eval hq
    | printf format args =>
      rw [Action.printf.sizeOf_spec] at haction
      refine (h.eval (by omega) hroom).bind (.eval format) fun v n hn => ?_
      cases v
      case str text =>
        exact (h.evals (by omega) (hroom.eval hn)).bind_total (.mapM .eval args) fun values =>
          Total.get.bind fun _ => (Total.ofExcept _).bind fun _ => .modify _
      all_goals exact .of_total (.fail _)
    | unsupported text reason => exact .of_total (.fail _)
  ran := balanced_perform action

theorem part_forInit {init : Option (Nat × Action)} (hinit : ∀ i ∈ init, sizeOf i.2 ≤ size) :
    Part env fuel size fun p => forInit p env init where
  stops := by
    have hstops := ((Rewriting.agrees_self env fuel (meaning env fuel)).forInit init).stops
    exact hstops
  settles m hroom := by
    cases init with
    | none => exact .of_total (.pure ())
    | some i =>
      have hbegin : Part env fuel size fun _ => begin env i.1 false := part_begin i.1 false
      refine .total_bind (total_begin env i.1 false) fun _ n hn => ?_
      exact (h.part_perform (hinit i rfl)).settles n (hbegin.room hroom hn)
  ran := balanced_forInit init

theorem returning {value : Option Expr} (hvalue : ∀ e ∈ value, sizeOf e < size)
    (hroom : Room env fuel size m) : Settles env fuel (fun p => returning p env value) m := by
  have hrecord (v : Value) : Total (get >>= fun m : Machine => recordReturn v m.line >>= fun _ =>
      checkEvents env >>= fun _ => Pure.pure (Flow.ret v)) :=
    Total.get.bind fun _ => (Total.modify _).bind fun _ => (total_checkEvents env).bind fun _ => .pure _
  cases value with
  | none => exact .of_total ((Total.pure _).bind hrecord)
  | some e => exact (h.eval (hvalue e rfl) hroom).bind_total (.eval e) hrecord

/-! ## Bodies -/

theorem sequence {body : List Stmt} (hsize : ∀ s ∈ body, sizeOf s < size)
    (hplaced : ∀ s ∈ body, Placed env s m) (hroom : Room env fuel size m) :
    Settles env fuel (fun p => sequence p.run body) m := by
  induction body generalizing m with
  | nil => exact .of_total (.pure _)
  | cons s rest ih =>
    have hs := h.run (hsize s List.mem_cons_self) hroom (hplaced s List.mem_cons_self)
    refine hs.bind (.run s) fun flow n hn => ?_
    obtain ⟨hsound, hran⟩ := ((bracketed env fuel).run s.refsOnlyIf_true hroom.sound).of_ok hn
    cases flow with
    | normal =>
      exact ih (fun t ht => hsize t (List.mem_cons_of_mem s ht))
        (fun t ht => (hplaced t (List.mem_cons_of_mem s ht)).of_active hran.active)
        (hroom.of_ran hsound hran)
    | _ => exact .of_total (.pure _)

theorem block {body : List Stmt} (hsize : ∀ s ∈ body, sizeOf s < size)
    (hplaced : ∀ s ∈ body, Placed env s m) (hroom : Room env fuel size m) :
    Settles env fuel (fun p => block p body) m :=
  .inScope (.sequence body) (h.sequence hsize hplaced (hroom.of_eq rfl (CallStack.depth_updateCurrent _ _)))

end Calm

theorem block_ran {body : List Stmt} {flow : Flow} (hm : m.recorder.Sound)
    (hc : block (meaning env fuel) body m = .ok flow n) :
    n.recorder.Sound ∧ Ran flow.returned? m n :=
  ((bracketed env fuel).block_ends (Stmt.allRefsOnlyIf_true body) hm).of_ok hc

theorem returned_of_loopExit {flow : Flow} (h : flow.loopExit? = none) : flow.returned? = none := by
  cases flow <;> cases h <;> rfl

/-! ## Loops -/

/-- A round that goes on keeps calls and returns matched. -/
theorem Loop.GoesOn.ran {l : Loop} {body : List Stmt} (hcond : Balanced l.cond) (hnext : Balanced l.next)
    (hbody : l.body = block (meaning env fuel) body) (hm : m.recorder.Sound) (h : l.GoesOn m n) :
    n.recorder.Sound ∧ Ran none m n := by
  obtain ⟨o, flow, q, ho, hq, hexit, hn⟩ := h
  obtain ⟨hsound, hran⟩ := hcond hm ho
  obtain ⟨hsound', hran'⟩ := block_ran hsound (hbody ▸ hq)
  rw [returned_of_loopExit hexit] at hran'
  obtain ⟨hsound'', hran''⟩ := hnext hsound' hn
  exact ⟨hsound'', hran.trans (hran'.trans hran'')⟩

/-- A loop settles if every round of it that goes on records something. -/
theorem Calm.loop (h : Calm env fuel) {cond : Meaning → Exec Bool} {body : List Stmt}
    {next : Meaning → Exec Unit} (hcond : Part env fuel size cond) (hnext : Part env fuel size next)
    (hlimit : ∀ n o, next (meaning env fuel) n = .ok () o →
      o.recorder.events.size ≤ env.config.maxEvents)
    (hsize : ∀ s ∈ body, sizeOf s < size) (hplaced : ∀ s ∈ body, Placed env s m)
    (hroom : Room env fuel size m) (hpos : 0 < size)
    (hsilent : ∀ n o,
      let l : Loop := ⟨cond (meaning env fuel), Exec.block (meaning env fuel) body, next (meaning env fuel)⟩
      ReflTransGen l.GoesOn m n → l.GoesOn n o → o.recorder.events ≠ n.recorder.events) :
    Settles env fuel (fun p => repeatWhile (cond p) (Exec.block p body) (next p) fuel) m := by
  let l (p : Meaning) : Loop := ⟨cond p, Exec.block p body, next p⟩
  let good (n : Machine) : Prop := Room env fuel size n ∧ (∀ s ∈ body, Placed env s n) ∧
    ReflTransGen (l (meaning env fuel)).GoesOn m n
  have hblock : Stops (meaning env fuel) fun p => Exec.block p body :=
    Stops.bind .const fun _ => (Stops.sequence body).bind fun _ => .const
  refine Settles.repeatWhile (l := l) good hcond.stops hblock hnext.stops ?_ ?_ ?_ ?_ ?_
    ⟨hroom, hplaced, .refl⟩
  · exact fun n hn => hcond.settles n hn.1
  · intro n o hn ho
    have hactive := (hcond.ran hn.1.sound ho).2.active
    exact h.block hsize (fun s hs => (hn.2.1 s hs).of_active hactive) (hcond.room hn.1 ho)
  · intro n o flow q hn ho hq hexit
    obtain ⟨hsound, hran⟩ := block_ran (hcond.ran hn.1.sound ho).1 hq
    rw [returned_of_loopExit hexit] at hran
    exact hnext.settles q ((hcond.room hn.1 ho).of_ran hsound hran)
  · intro n o hn hround
    obtain ⟨hsound, hran⟩ := hround.ran hcond.ran hnext.ran rfl hn.1.sound
    refine ⟨⟨hn.1.of_ran hsound hran, fun s hs => (hn.2.1 s hs).of_active hran.active,
      hn.2.2.tail hround⟩, hran.size_lt (hsilent n o hn.2.2 hround), ?_⟩
    obtain ⟨_, _, _, -, -, -, hnext⟩ := hround
    exact hlimit _ o hnext
  · have := hroom.fits
    omega

/-! ## Statements -/

theorem forNext_limit {header : Nat} {update : Option Expr} {p : Meaning}
    (h : forNext p env header update m = .ok () n) : n.recorder.events.size ≤ env.config.maxEvents := by
  obtain ⟨_, _, -, h⟩ := ok_of_bind h
  cases update with
  | none => exact (checkEvents_ok h).2
  | some e =>
    obtain ⟨_, _, -, h⟩ := ok_of_bind h
    exact (checkEvents_ok h).2

/-- A `do` statement settles if every round of it that goes on records something, the first one apart. -/
theorem Calm.doWhile (h : Calm env fuel) {body : List Stmt} {cond : Expr} (hsize : ∀ t ∈ body, sizeOf t < size)
    (hcond : sizeOf cond < size) (hplaced : ∀ t ∈ body, Placed env t n) (hroom : Room env fuel size n)
    (hsilent : ∀ flow o q, Exec.block (meaning env fuel) body n = .ok flow o → flow.loopExit? = none →
      checkEvents env o = .ok () q → ∀ r r',
      let l : Loop := ⟨Exec.truth (meaning env fuel) cond, Exec.block (meaning env fuel) body, checkEvents env⟩
      ReflTransGen l.GoesOn q r → l.GoesOn r r' → r'.recorder.events ≠ r.recorder.events) :
    Settles env fuel (fun p => do
      match (← Exec.block p body).loopExit? with
      | some flow => return flow
      | none => do
        checkEvents env
        repeatWhile (Exec.truth p cond) (Exec.block p body) (checkEvents env) fuel) n := by
  have hagrees := Rewriting.agrees_self env fuel (meaning env fuel)
  refine (h.block hsize hplaced hroom).bind (hagrees.block rfl).stops fun flow o ho => ?_
  cases hexit : flow.loopExit? with
  | some flow => exact .of_total (.pure _)
  | none =>
    obtain ⟨hsound, hran⟩ := block_ran hroom.sound ho
    rw [returned_of_loopExit hexit] at hran
    refine .total_bind (total_checkEvents env) fun _ q hq => ?_
    obtain ⟨rfl, -⟩ := checkEvents_ok hq
    exact h.loop (h.part_truth hcond) part_checkEvents (fun _ _ hc => (checkEvents_ok hc).2) hsize
      (fun t ht => (hplaced t ht).of_active hran.active) (hroom.of_ran hsound hran) (Nat.zero_lt_of_lt hcond)
      (hsilent flow _ _ ho hexit hq)

/-- A `for` statement settles if every round of it that goes on records something. -/
theorem Calm.forLoop (h : Calm env fuel) {init : Option (Nat × Action)} {cond update : Option Expr}
    {body : List Stmt} (hinit : ∀ i ∈ init, sizeOf i.2 ≤ size) (hcond : ∀ e ∈ cond, sizeOf e < size)
    (hupdate : ∀ e ∈ update, sizeOf e < size) (hsize : ∀ t ∈ body, sizeOf t < size) (hpos : 0 < size)
    (hplaced : ∀ t ∈ body, Placed env t n) (hroom : Room env fuel size n)
    (hsilent : ∀ o, Exec.forInit (meaning env fuel) env init { n with stack := n.stack.pushScope } = .ok () o →
      ∀ q r,
      let l : Loop := ⟨Exec.forCond (meaning env fuel) o.line cond, Exec.block (meaning env fuel) body,
        Exec.forNext (meaning env fuel) env o.line update⟩
      ReflTransGen l.GoesOn o q → l.GoesOn q r → r.recorder.events ≠ q.recorder.events) :
    Settles env fuel (fun p => Exec.inScope do
      Exec.forInit p env init
      let header := (← get).line
      repeatWhile (Exec.forCond p header cond) (Exec.block p body) (Exec.forNext p env header update) fuel) n := by
  have hagrees := Rewriting.agrees_self env fuel (meaning env fuel)
  have hfirst : Part env fuel size fun p => Exec.forInit p env init := h.part_forInit hinit
  have hscope : Room env fuel size { n with stack := n.stack.pushScope } :=
    hroom.of_eq rfl (CallStack.depth_updateCurrent _ _)
  have hrounds (k : Nat) : Stops (meaning env fuel) fun p =>
      repeatWhile (Exec.forCond p k cond) (Exec.block p body) (Exec.forNext p env k update) fuel :=
    (Follows.repeatWhile (hagrees.forCond k cond) (hagrees.block rfl) (hagrees.forNext k update) fuel).stops
  refine .inScope (hfirst.stops.bind fun _ => Stops.bind .const fun q => hrounds q.line) ?_
  refine (hfirst.settles _ hscope).bind hfirst.stops fun _ o ho => ?_
  exact h.loop (m := o) (h.part_forCond o.line hcond) (h.part_forNext o.line hupdate) (fun _ _ => forNext_limit) hsize
    (fun t ht => (hplaced t ht).of_active (hfirst.ran hscope.sound ho).2.active) (hfirst.room hscope ho) hpos
    (hsilent o ho)

/-- A statement that a run reaches settles, unless the run comes to a silent round. -/
theorem Calm.runWith (h : Calm env fuel) (hno : ¬ SilentRound env)
    (hreached : Reached env (fuel + 1) (.run s) m) (hplaced : Placed env s m)
    (hroom : Room env fuel (sizeOf s) m) : Settles env fuel (fun p => runWith p env fuel s) m := by
  have hrecords {l : Loop} {start : Machine} (hl : EntersLoop env (meaning env fuel) s m l start) (q r : Machine)
      (hpath : ReflTransGen l.GoesOn start q) (hround : l.GoesOn q r) : r.recorder.events ≠ q.recorder.events :=
    fun heq => hno ⟨fuel, s, m, l, start, q, r, hreached, hplaced, hl, hpath, hround, heq⟩
  have hpart : Part env fuel (sizeOf s) fun _ => begin env s.line s.step := part_begin s.line s.step
  refine .total_bind (total_begin env s.line s.step) fun _ n hn => ?_
  have hsize : ∀ t ∈ s.inner, sizeOf t < sizeOf s := fun _ => s.sizeOf_lt_of_mem_inner
  have hinner : ∀ t ∈ s.inner, Placed env t n := fun t ht =>
    (hplaced.inner ht).of_active (hpart.ran hroom.sound hn).2.active
  replace hroom := hpart.room hroom hn
  cases s with
  | act line step action =>
    have hperform : Part env fuel (sizeOf (Stmt.act line step action)) fun p => perform p action :=
      h.part_perform (by rw [Stmt.act.sizeOf_spec]; omega)
    exact (hperform.settles n hroom).bind_total hperform.stops fun _ => .pure _
  | ifElse line step cond yes no =>
    have hcond : Part env fuel (sizeOf (Stmt.ifElse line step cond yes no)) fun p => Exec.truth p cond :=
      h.part_truth (by rw [Stmt.ifElse.sizeOf_spec]; omega)
    refine (hcond.settles n hroom).bind hcond.stops fun b o ho => ?_
    replace hinner : ∀ t ∈ yes ++ no, Placed env t o := fun t ht =>
      (hinner t ht).of_active (hcond.ran hroom.sound ho).2.active
    have hyes (t : Stmt) (ht : t ∈ yes) : t ∈ yes ++ no := List.mem_append_left no ht
    have hno (t : Stmt) (ht : t ∈ no) : t ∈ yes ++ no := List.mem_append_right yes ht
    cases b with
    | true =>
      exact h.block (fun t ht => hsize t (hyes t ht)) (fun t ht => hinner t (hyes t ht))
        (hcond.room hroom ho)
    | false =>
      exact h.block (fun t ht => hsize t (hno t ht)) (fun t ht => hinner t (hno t ht))
        (hcond.room hroom ho)
  | whileLoop line step cond body =>
    have hcond : sizeOf cond < sizeOf (Stmt.whileLoop line step cond body) := by
      rw [Stmt.whileLoop.sizeOf_spec]
      omega
    exact h.loop (h.part_truth hcond) part_checkEvents (fun _ _ hc => (checkEvents_ok hc).2)
      hsize hinner hroom (Nat.zero_lt_of_lt hcond) (hrecords (.whileLoop hn))
  | doWhile line step body cond =>
    have hcond : sizeOf cond < sizeOf (Stmt.doWhile line step body cond) := by
      rw [Stmt.doWhile.sizeOf_spec]
      omega
    exact h.doWhile hsize hcond hinner hroom fun flow o q ho hexit hq => hrecords (.doWhile hn ho hexit hq)
  | forLoop line step init cond update body =>
    have hbody (t : Stmt) (ht : t ∈ body) :
        t ∈ (Stmt.forLoop line step init cond update body).inner := List.mem_append_right _ ht
    refine h.forLoop ?_ ?_ ?_ (fun t ht => hsize t (hbody t ht)) (by rw [Stmt.forLoop.sizeOf_spec]; omega)
      (fun t ht => hinner t (hbody t ht)) hroom fun o ho => hrecords (.forLoop hn ho)
    · intro i hi
      cases hi
      obtain ⟨first, action⟩ := i
      rw [Stmt.forLoop.sizeOf_spec, Option.some.sizeOf_spec, Prod.mk.sizeOf_spec]
      dsimp only
      omega
    · intro e he
      cases he
      rw [Stmt.forLoop.sizeOf_spec, Option.some.sizeOf_spec]
      omega
    · intro e he
      cases he
      rw [Stmt.forLoop.sizeOf_spec, Option.some.sizeOf_spec]
      omega
  | block line step body => exact h.block hsize hinner hroom
  | breakLoop line step | continueLoop line step => exact .of_total (.pure _)
  | ret line step value =>
    refine h.returning (fun e he => ?_) hroom
    cases he
    rw [Stmt.ret.sizeOf_spec, Option.some.sizeOf_spec]
    omega

end Exec

end CallTrace
