import CallTrace.Proofs.Evaluation.Covered

/-! # Where a function returns

* `Stmt.Within s t`: the statement `s` is `t` or stands inside `t`.
* `Exec.Returned`: a return statement has been run and has given a value; nothing but scopes that were
  closed has changed since.
* `Exec.returned_of_run`: a statement that ends with a return has run a return statement inside it.
-/

namespace CallTrace
set_option autoImplicit false

open Instrumented (Expr Stmt)

namespace Instrumented.Stmt

/-- The statements directly inside a statement. -/
def parts : Stmt → List Stmt
  | .ifElse _ _ _ yes no => yes ++ no
  | .whileLoop _ _ _ body | .doWhile _ _ body _ | .forLoop _ _ _ _ _ body | .block _ _ body => body
  | .act .. | .breakLoop .. | .continueLoop .. | .ret .. => []

/-- The statement `s` is another one or stands inside it. -/
inductive Within (s : Stmt) : Stmt → Prop where
  | self : Within s s
  | part {t u : Stmt} (ht : t ∈ u.parts) (h : Within s t) : Within s u

end Instrumented.Stmt

namespace Exec

variable {env : Env} {m n : Machine} {v : Value}

/-! ## Lines -/

/-- The contract that an expression keeps the current line. -/
def lines : Contract true where
  Inv _ := True
  Rel m n := n.line = m.line
  Runs _ _ _ := True
  Hand _ _ := True
  Pending _ _ _ := True
  refl _ := rfl
  trans h h' := h'.trans h
  hand_scalar _ := trivial
  hand_of_rel _ _ := trivial
  pending_scalar _ := trivial
  pending_of_rel _ _ := trivial
  pending_rel _ _ _ := trivial
  hand_of_pending _ := trivial
  lookup _ _ _ := trivial
  item _ _ _ _ := trivial
  copy _ _ := ⟨trivial, rfl, trivial⟩
  newList _ h _ := ⟨trivial, h, trivial⟩
  store _ h _ _ := ⟨trivial, h⟩
  assign _ h _ _ := ⟨trivial, h⟩
  set _ _ _ := ⟨trivial, rfl⟩
  log _ _ := ⟨trivial, rfl⟩
  entered _ _ := ⟨trivial, rfl⟩
  runs_of_rel _ := trivial
  runs_trans _ _ := trivial
  setLine _ _ := ⟨trivial, trivial⟩
  step _ _ _ := ⟨trivial, trivial⟩
  declare _ _ _ _ := ⟨trivial, trivial⟩
  pushScope _ := trivial
  popScope _ _ _ := ⟨trivial, trivial⟩
  ret _ _ _ := ⟨trivial, trivial⟩
  enter _ _ _ _ _ _ := trivial
  leave _ h _ _ _ := ⟨trivial, h, trivial⟩

theorem eval_line {fuel : Nat} {e : Expr} (h : (meaning env fuel).eval e m = .ok v n) :
    n.line = m.line :=
  (lines.eval_of_ok (Instrumented.Program.refsOnlyIf_true _) trivial h).1.rel

theorem begin_line {line : Nat} {step : Bool} (h : begin env line step m = .ok () n) :
    n.line = line := by
  have hcheck (o : Machine) (ho : o.line = line) :
      Ends (fun _ => False) (fun _ p => p.line = line) (fun _ => checkEvents env) o :=
    checkEvents_ends.mono fun _ _ hp => hp ▸ ho
  cases step with
  | false => exact (hcheck { m with line } rfl).of_ok h
  | true =>
    refine (hcheck { m with line, recorder := _ } rfl).of_ok h

theorem ret_line {fuel line : Nat} {step : Bool} {value : Option Expr} {flow : Flow}
    (h : (meaning env fuel).run (.ret line step value) m = .ok flow n) : n.line = line := by
  cases fuel with
  | zero => cases h
  | succ fuel =>
    obtain ⟨_, o, hbegin, h⟩ := ok_of_bind h
    have hline : o.line = line := begin_line hbegin
    have hreturn {w : Value} {p : Machine} (hp : p.line = line)
        (h : (get >>= fun s : Machine => recordReturn w s.line >>= fun _ =>
          checkEvents env >>= fun _ => pure (Flow.ret w)) p = .ok flow n) : n.line = line := by
      have hends : Ends (fun _ => False) (fun _ q => q.line = line) (fun _ => checkEvents env)
          { p with recorder := p.recorder.ret (p.heap.snapshot w) (some p.line) } :=
        checkEvents_ends.mono fun _ _ hq => hq ▸ hp
      obtain ⟨_, q, hcheck, h⟩ := ok_of_bind (c := checkEvents env)
        (m := { p with recorder := p.recorder.ret (p.heap.snapshot w) (some p.line) }) h
      cases h
      exact hends.of_ok hcheck
    cases value with
    | none => exact hreturn hline h
    | some e =>
      obtain ⟨w, p, heval, h⟩ := ok_of_bind h
      exact hreturn ((eval_line heval).trans hline) h

/-! ## Return statements -/

theorem ret_of_sequence {run : Stmt → Exec Flow} {body : List Stmt}
    (h : sequence run body m = .ok (.ret v) n) : ∃ s ∈ body, ∃ a, run s a = .ok (.ret v) n := by
  induction body generalizing m with
  | nil => cases h
  | cons s rest ih =>
    obtain ⟨flow, o, hs, h⟩ := ok_of_bind h
    cases flow with
    | normal =>
      obtain ⟨t, ht, a, ha⟩ := ih h
      exact ⟨t, List.mem_cons_of_mem s ht, a, ha⟩
    | ret w =>
      cases h
      exact ⟨s, List.mem_cons_self, m, hs⟩
    | breakLoop | continueLoop => cases h

theorem ret_of_inScope {run : Exec Flow} {flow : Flow} (h : inScope run m = .ok flow n) :
    ∃ a b, run a = .ok flow b ∧ n = { b with stack := b.stack.popScope } := by
  obtain ⟨_, a, -, h⟩ := ok_of_bind h
  obtain ⟨w, b, hrun, h⟩ := ok_of_bind h
  cases h
  exact ⟨a, b, hrun, rfl⟩

theorem ret_of_repeatWhile {cond : Exec Bool} {body : Exec Flow} {next : Exec Unit} {rounds : Nat}
    (h : repeatWhile cond body next rounds m = .ok (.ret v) n) : ∃ a, body a = .ok (.ret v) n := by
  induction rounds generalizing m with
  | zero => cases h
  | succ rounds ih =>
    obtain ⟨b, o, -, h⟩ := ok_of_bind h
    cases b with
    | false => cases h
    | true =>
      obtain ⟨flow, p, hbody, h⟩ := ok_of_bind h
      cases flow with
      | normal | continueLoop =>
        obtain ⟨_, q, -, h⟩ := ok_of_bind h
        exact ih h
      | breakLoop => cases h
      | ret w =>
        cases h
        exact ⟨o, hbody⟩

/-- A return statement inside `s`, at a line, has been run and has returned `v`. The state `n` is the one
after it but for its variables. -/
def Returned (env : Env) (s : Stmt) (line : Nat) (v : Value) (n : Machine) : Prop :=
  ∃ step value fuel a b, (Stmt.ret line step value).Within s ∧
    (meaning env fuel).run (.ret line step value) a = .ok (.ret v) b ∧
    n.recorder = b.recorder ∧ n.heap = b.heap ∧ n.line = line

theorem Returned.line_eq {s : Stmt} {line : Nat} (h : Returned env s line v n) : line = n.line := by
  obtain ⟨-, -, -, -, -, -, -, -, -, hline⟩ := h
  exact hline.symm

theorem Returned.part {s t : Stmt} (ht : t ∈ s.parts) {line : Nat}
    (h : Returned env t line v n) (stack : CallStack) :
    Returned env s line v { n with stack } := by
  obtain ⟨step, value, fuel, a, b, hwithin, hrun, hn⟩ := h
  exact ⟨step, value, fuel, a, b, .part ht hwithin, hrun, hn⟩

/-- A statement that ends with a return has run a return statement inside it. By induction on the fuel:
blocks and loops end with a return only if a statement of theirs does. -/
theorem returned_of_run {fuel : Nat} {s : Stmt} (h : (meaning env fuel).run s m = .ok (.ret v) n) :
    ∃ line, Returned env s line v n := by
  induction fuel generalizing s m n with
  | zero => cases h
  | succ fuel ih =>
    have hblock {body : List Stmt} {a b : Machine} (hbody : ∀ t ∈ body, t ∈ s.parts)
        (hb : block (meaning env fuel) body a = .ok (.ret v) b) :
        ∃ line, Returned env s line v b := by
      obtain ⟨_, c, hsequence, rfl⟩ := ret_of_inScope hb
      obtain ⟨t, ht, _, hrun⟩ := ret_of_sequence hsequence
      obtain ⟨line, hline⟩ := ih hrun
      exact ⟨line, hline.part (hbody t ht) _⟩
    have hself := h
    obtain ⟨_, o, -, h⟩ := ok_of_bind h
    cases s with
    | act line step action =>
      obtain ⟨_, _, -, h⟩ := ok_of_bind h
      cases h
    | ifElse line step cond yes no =>
      obtain ⟨b, _, -, h⟩ := ok_of_bind h
      cases b with
      | true => exact hblock (fun t ht => List.mem_append_left no ht) h
      | false => exact hblock (fun t ht => List.mem_append_right yes ht) h
    | whileLoop line step cond body =>
      obtain ⟨_, hbody⟩ := ret_of_repeatWhile h
      exact hblock (fun _ => id) hbody
    | doWhile line step body cond =>
      obtain ⟨flow, p, hbody, h⟩ := ok_of_bind h
      cases flow with
      | normal | continueLoop =>
        obtain ⟨_, _, -, h⟩ := ok_of_bind h
        obtain ⟨_, hbody⟩ := ret_of_repeatWhile h
        exact hblock (fun _ => id) hbody
      | breakLoop => cases h
      | ret w =>
        cases h
        exact hblock (fun _ => id) hbody
    | forLoop line step init cond update body =>
      obtain ⟨_, b, hrounds, rfl⟩ := ret_of_inScope h
      obtain ⟨_, _, -, hrounds⟩ := ok_of_bind hrounds
      obtain ⟨header, _, -, hrounds⟩ := ok_of_bind hrounds
      obtain ⟨_, hbody⟩ := ret_of_repeatWhile hrounds
      obtain ⟨l, step, value, k, a, c, hwithin, hrun, hn⟩ := hblock (fun _ => id) hbody
      exact ⟨l, step, value, k, a, c, hwithin, hrun, hn⟩
    | block line step body => exact hblock (fun _ => id) h
    | breakLoop line step | continueLoop line step => cases h
    | ret line step value =>
      exact ⟨line, step, value, fuel + 1, m, n, .self, hself, rfl, rfl, ret_line hself⟩

end Exec

end CallTrace
