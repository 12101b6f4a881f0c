import CallTrace.Proofs.ReachedErrors

/-! # Gaps that a run never begins

A statement outside the language fails when it runs, and does nothing else. A program whose run never begins
one can have anything in its place.

* `Program.Fills p p'`: the program `p'` is `p` with some of these statements replaced, wherever they stand.
* `Exec.BeginsGap`: a run begins a statement that is outside the language.
* `Exec.filling`: the two runs are in lockstep if the first one begins none.
* `Program.not_beginsGap_of_success`: a run that ends without an error begins none.
* `Program.run_fills`: then the whole run is the same.
-/

namespace CallTrace
set_option autoImplicit false

open Instrumented (Expr Action Stmt)

namespace Instrumented

/-! ## Filled programs -/

mutual

/-- The second statement is the first one with some unsupported statements inside it replaced. The first
clause of a `for` statement is one if it is unsupported. -/
inductive Stmt.Fills : Stmt → Stmt → Prop where
  | same (s : Stmt) : Stmt.Fills s s
  | ifElse (line : Nat) (step : Bool) (cond : Expr) {yes no yes' no' : List Stmt}
      (hyes : BodyFills yes yes') (hno : BodyFills no no') :
      Stmt.Fills (.ifElse line step cond yes no) (.ifElse line step cond yes' no')
  | whileLoop (line : Nat) (step : Bool) (cond : Expr) {body body' : List Stmt}
      (hbody : BodyFills body body') :
      Stmt.Fills (.whileLoop line step cond body) (.whileLoop line step cond body')
  | doWhile (line : Nat) (step : Bool) {body body' : List Stmt} (cond : Expr)
      (hbody : BodyFills body body') :
      Stmt.Fills (.doWhile line step body cond) (.doWhile line step body' cond)
  | forLoop (line : Nat) (step : Bool) (init : Option (Nat × Action)) (cond update : Option Expr)
      {body body' : List Stmt} (hbody : BodyFills body body') :
      Stmt.Fills (.forLoop line step init cond update body) (.forLoop line step init cond update body')
  | forGap (line : Nat) (step : Bool) (gapLine : Nat) (text reason : String)
      (init : Option (Nat × Action)) (cond update : Option Expr) {body body' : List Stmt}
      (hbody : BodyFills body body') :
      Stmt.Fills (.forLoop line step (some (gapLine, .unsupported text reason)) cond update body)
        (.forLoop line step init cond update body')
  | block (line : Nat) (step : Bool) {body body' : List Stmt} (hbody : BodyFills body body') :
      Stmt.Fills (.block line step body) (.block line step body')

/-- The second body is the first one with some unsupported statements in it replaced, each by any number of
statements. -/
inductive BodyFills : List Stmt → List Stmt → Prop where
  | nil : BodyFills [] []
  | cons {s s' : Stmt} {rest rest' : List Stmt} (hs : Stmt.Fills s s') (h : BodyFills rest rest') :
      BodyFills (s :: rest) (s' :: rest')
  | gap (line : Nat) (step : Bool) (text reason : String) (new : List Stmt) {rest rest' : List Stmt}
      (h : BodyFills rest rest') :
      BodyFills (.act line step (.unsupported text reason) :: rest) (new ++ rest')

end

/-- The second function has the head of the first one, and its body with some unsupported statements
replaced. -/
structure Function.Fills (f f' : Function) : Prop where
  name_eq : f'.name = f.name
  params_eq : f'.params = f.params
  line_eq : f'.line = f.line
  endLine_eq : f'.endLine = f.endLine
  body : BodyFills f.body f'.body

/-- The second program is the first one with some unsupported statements replaced. What is listed as outside
the language may change. -/
structure Program.Fills (p p' : Program) : Prop where
  functions : List.Forall₂ Function.Fills p.functions p'.functions
  driver : BodyFills p.driver p'.driver

theorem BodyFills.self (body : List Stmt) : BodyFills body body := by
  induction body with
  | nil => exact .nil
  | cons s rest ih => exact .cons (.same s) ih

/-- A function is filled by the function of the same name. -/
theorem find?_fills {fs fs' : List Function} (h : List.Forall₂ Function.Fills fs fs') (name : String) :
    Option.Rel Function.Fills (fs.find? (·.name == name)) (fs'.find? (·.name == name)) := by
  induction h with
  | nil => exact .none
  | @cons f f' fs fs' hf _ ih =>
    rw [List.find?_cons, List.find?_cons, hf.name_eq]
    split
    · exact .some hf
    · exact ih

end Instrumented

namespace Exec

/-! ## What is begun -/

/-- A run begins a statement that is outside the language, or the first clause of a `for` statement that is.
Beginning it counts before its line and its step are recorded. -/
inductive BeginsGap (env : Env) : Prop where
  | act {fuel line : Nat} {step : Bool} {text reason : String} {m : Machine}
      (h : Reached env fuel (.run (.act line step (.unsupported text reason))) m)
  | init {fuel line gapLine : Nat} {step : Bool} {text reason : String} {cond update : Option Expr}
      {body : List Stmt} {m n : Machine}
      (h : Reached env fuel
        (.run (.forLoop line step (some (gapLine, .unsupported text reason)) cond update body)) m)
      (hbegin : begin env line step m = .ok () n)

variable {p p' : Instrumented.Program} {config : Config}

/-- A run that begins no gap goes on in lockstep when gaps are filled. -/
def filling (h : p.Fills p') (hnever : ¬ BeginsGap ⟨p, config⟩) : Rewriting ⟨p, config⟩ ⟨p', config⟩ where
  distance := 0
  on := Reached ⟨p, config⟩
  Same := Stmt.Fills
  Body := Instrumented.BodyFills
  start := .start
  part := .part
  nil h := by
    cases h
    rfl
  cons hbody := by
    cases hbody with
    | cons hs hrest => exact .inl ⟨_, _, rfl, hs, hrest⟩
    | gap line step text reason new hrest => exact .inr fun fuel m hon => hnever (.act hon)
  same hs := by
    cases hs with
    | same s => exact .inl (.self Instrumented.BodyFills.self)
    | ifElse line step cond hyes hno => exact .inl (.ifElse line step cond hyes hno)
    | whileLoop line step cond hbody => exact .inl (.whileLoop line step cond hbody)
    | doWhile line step cond hbody => exact .inl (.doWhile line step cond hbody)
    | forLoop line step init cond update hbody =>
      have hmoved := Stmt.Moved.forLoop (k := 0) line step init cond update hbody
      rw [Instrumented.shiftInit_zero] at hmoved
      exact .inl hmoved
    | forGap line step gapLine text reason init cond update hbody =>
      refine .inr ⟨rfl, rfl, fun fuel m hon => ?_⟩
      cases hbegin : begin ⟨p, config⟩ line step m with
      | ok a n => exact absurd (.init hon hbegin) hnever
      | error e n => exact ⟨e, n, hbegin⟩
    | block line step hbody => exact .inl (.block line step hbody)
  config := rfl
  driver := h.driver
  function name := by
    have hfunction : Option.Rel Instrumented.Function.Fills (p.function? name) (p'.function? name) :=
      Instrumented.find?_fills h.functions name
    dsimp only
    generalize p.function? name = f, p'.function? name = f' at hfunction ⊢
    cases hfunction with
    | none => exact .none
    | some hf => exact .some ⟨⟨hf.name_eq, hf.params_eq, hf.line_eq, hf.endLine_eq⟩, hf.body⟩

/-! ## Gaps fail -/

variable {env : Env}

theorem begin_cases (env : Env) (line : Nat) (step : Bool) (m : Machine) :
    (∃ n, begin env line step m = .ok () n) ∨ ∃ e n, begin env line step m = .error (.failed e) n := by
  have hcheck (n : Machine) : (∃ o, checkEvents env n = .ok () o) ∨
      ∃ e o, checkEvents env n = .error (.failed e) o := by
    unfold checkEvents
    split
    · exact .inr ⟨_, _, rfl⟩
    · exact .inl ⟨_, rfl⟩
  cases step with
  | false => exact hcheck _
  | true => exact hcheck _

theorem gap_fails (env : Env) (p : Meaning) (line : Nat) (step : Bool) (text reason : String) (m : Machine) :
    ∃ e n, (begin env line step >>= fun _ => perform p (.unsupported text reason)) m =
      .error (.failed e) n := by
  rcases begin_cases env line step m with ⟨n, hbegin⟩ | ⟨e, n, hbegin⟩
  · exact ⟨_, n, bind_of_ok hbegin⟩
  · exact ⟨e, n, bind_of_error hbegin⟩

/-- Whatever begins a gap fails. -/
theorem BeginsGap.fails (h : BeginsGap env) : ∃ fuel t m e n, Reached env fuel t m ∧
    (meaning env fuel).attempt t m = .error (.failed e) n := by
  cases h with
  | @act fuel line step text reason m h =>
    obtain ⟨e, o, he⟩ := gap_fails env (meaning env fuel) line step text reason m
    have hrun : (meaning env (fuel + 1)).run (.act line step (.unsupported text reason)) m =
        .error (.failed e) o := by
      have hbegun := bind_of_error (f := fun _ => Pure.pure Flow.normal) he
      rwa [bind_assoc] at hbegun
    exact ⟨fuel + 1, _, m, e, o, h.of_le (Nat.le_succ fuel), bind_of_error hrun⟩
  | @init fuel line gapLine step text reason cond update body m n h hbegin =>
    obtain ⟨e, o, he⟩ := gap_fails env (meaning env fuel) gapLine false text reason
      { n with stack := n.stack.pushScope }
    have hrun : (meaning env (fuel + 1)).run
        (.forLoop line step (some (gapLine, .unsupported text reason)) cond update body) m =
        .error (.failed e) o :=
      -- The scope of the loop is opened before its first clause begins.
      have hscope : inScope (forInit (meaning env fuel) env (some (gapLine, .unsupported text reason)) >>=
          fun _ => get >>= fun m : Machine => repeatWhile (forCond (meaning env fuel) m.line cond)
            (block (meaning env fuel) body) (forNext (meaning env fuel) env m.line update) fuel) n =
          .error (.failed e) o := (bind_of_ok rfl).trans (bind_of_error (bind_of_error he))
      (bind_of_ok hbegin).trans hscope
    exact ⟨fuel + 1, _, m, e, o, h.of_le (Nat.le_succ fuel), bind_of_error hrun⟩

end Exec

namespace Instrumented.Program

variable {p p' : Program} {config : Config}

/-- A run that ends without an error begins no gap. -/
theorem not_beginsGap_of_success {fuel : Nat} (h : (p.run config fuel).halt = none) :
    ¬ Exec.BeginsGap ⟨p, config⟩ := by
  intro hbegins
  obtain ⟨fuel', t, m, e, n, hreached, he⟩ := hbegins.fails
  exact not_reached_of_success h he hreached

/-- Statements outside the language are inert until they are begun. If a run comes to an end and begins none of
them, it has the same outcome and the same timeline after some of them have been replaced by anything. -/
theorem run_fills (h : p.Fills p') {fuel : Nat} (hend : (p.run config fuel).halt ≠ some .outOfFuel)
    (hnever : ¬ Exec.BeginsGap ⟨p, config⟩) {fuel' : Nat} (hf : fuel ≤ fuel') :
    p'.run config fuel' = p.run config fuel := by
  have hrun : Exec.runProgram (Exec.meaning ⟨p', config⟩ fuel') ⟨p', config⟩ (Machine.initial.shift 0) =
      Exec.shiftResult 0 (Exec.runProgram (Exec.meaning ⟨p, config⟩ fuel') ⟨p, config⟩ .initial) :=
    (Exec.filling h hnever).runProgram fuel'
  rw [Machine.shift_zero, Exec.shiftResult_zero] at hrun
  rw [← run_of_le hf hend]
  exact congrArg Outcome.ofResult hrun

/-- A function with a branch that is not taken, for which its body is given, and a call of it. -/
def branching (skipped : List Stmt) : Program where
  functions :=
    [{ name := "g"
       params := [⟨"n", false⟩]
       body :=
        [.ifElse 2 true (.binary .gt (.var "n") (.int 100)) skipped [], .ret 5 true (some (.var "n"))]
       line := 1
       endLine := 6 }]
  driver := [.act 7 true (.eval (.call "g" [.int 1]))]
  degradations := []

/-- A declaration that is outside the language. -/
def pointerGap : Stmt := .act 3 true (.unsupported "int *p = &n;" "Expected identifier, found '*'")

/-- An endless loop. -/
def endless : Stmt := .whileLoop 3 true (.bool true) []

/-- The branch that is not taken holds a declaration of a pointer, and could as well hold an endless loop. -/
theorem run_fills_branching :
    ((branching [pointerGap]).run .default 12).halt = none ∧
    ((branching [endless]).run .default 15).timeline.rootResult = some (.int 1) ∧
    (branching [endless]).run .default 15 = (branching [pointerGap]).run .default 12 := by
  have hend : ((branching [pointerGap]).run .default 12).halt = none := by rfl
  have hfills : (branching [pointerGap]).Fills (branching [endless]) := by
    refine ⟨.cons ⟨rfl, rfl, rfl, rfl, ?_⟩ .nil, .self _⟩
    exact .cons (.ifElse _ _ _ (.gap _ _ _ _ [endless] .nil) .nil) (.self _)
  refine ⟨hend, by rfl, ?_⟩
  exact run_fills hfills (by rw [hend]; nofun) (not_beginsGap_of_success hend) (by decide)

end Instrumented.Program

end CallTrace
