import CallTrace.Proofs.Evaluation.Spared
import CallTrace.Proofs.Heap.Reach

/-! # Parameters that are references

A parameter that is a reference gets the value of its argument without a copy. So it shares a list with the variable
that has been passed, and no other value.

* `CallStack.Sees.entering`: the last parameter of a name has its argument when the body begins.
* `Exec.Refers`: a call passes a variable to a parameter that is a reference.
* `Exec.HandsBack`: when a call is over, a variable holds what a parameter held when the body ended.
* `Exec.reference_call`: a call hands lists back unless the function assigns to the parameter as a whole.
* `Exec.not_reference_call`: it does not hand back other values, nor lists that have been assigned.
-/

namespace CallTrace
set_option autoImplicit false

open Instrumented (Expr Param Stmt)

namespace CallStack

/-- Variables that the innermost call has, and those at top level that have not changed, are looked up as before. -/
theorem lookup_of_frames {s t : CallStack} {x : String} (hframes : t.frames = s.frames)
    (hx : s.isLocal x ∨ t.globals.lookup x = s.globals.lookup x) : t.lookup x = s.lookup x := by
  unfold isLocal at hx
  unfold lookup
  rw [hframes]
  cases hs : s.frames with
  | nil =>
    rw [hs] at hx
    exact hx.resolve_left Bool.false_ne_true
  | cons f rest =>
    rw [hs] at hx
    show (f.lookup x).or (t.globals.lookup x) = (f.lookup x).or (s.globals.lookup x)
    rcases hx with hlocal | hglobal
    · rw [Option.or_of_isSome hlocal, Option.or_of_isSome hlocal]
    · rw [hglobal]

/-- No scope is open in the innermost call. -/
def Flat (s : CallStack) : Prop := ∃ f rest table, s.frames = f :: rest ∧ f.Represents (.base table)

variable {s : CallStack} {x : String} {w : Value}

theorem flat_pushFrame (s : CallStack) (name : String) : (s.pushFrame name).Flat :=
  ⟨.new name, s.frames, [], rfl, .new name⟩

theorem Flat.declares (h : s.Flat) (vars : List (String × Value)) :
    Flat (vars.foldl (fun s (name, v) => s.declare name v) s) := by
  induction vars generalizing s with
  | nil => exact h
  | cons b vars ih =>
    refine ih ?_
    obtain ⟨globals, frames, n, hn⟩ := s
    obtain ⟨f, rest, table, rfl, hf⟩ := h
    exact ⟨_, rest, _, rfl, hf.declare b.1 b.2⟩

theorem Flat.sees_declare (h : s.Flat) (x : String) (w : Value) : (s.declare x w).Sees x w (.clear 0) := by
  obtain ⟨globals, frames, n, hn⟩ := s
  obtain ⟨f, rest, table, rfl, hf⟩ := h
  exact ⟨_, rest, rfl, _, hf.declare x w, .base (Assoc.lookup_put_self x w table)⟩

theorem Sees.declares {σ : Sight} (h : s.Sees x w σ) {vars : List (String × Value)} (hvars : ∀ b ∈ vars, b.1 ≠ x) :
    Sees x w σ (vars.foldl (fun s (name, v) => s.declare name v) s) := by
  induction vars generalizing s with
  | nil => exact h
  | cons b vars ih =>
    refine ih (h.updateCurrent fun _ hf => hf.declare (fun he => absurd he ?_) b.2) fun c hc =>
      hvars c (List.mem_cons_of_mem b hc)
    exact hvars b List.mem_cons_self

/-- Of the variables with which the body of a call begins, the last one of a name is visible. -/
theorem Sees.entering {m : Machine} {f : Instrumented.Function} {before after : List (String × Value)}
    (hafter : ∀ b ∈ after, b.1 ≠ x) : (m.entering f (before ++ (x, w) :: after)).stack.Sees x w (.clear 0) := by
  show Sees x w (.clear 0) ((before ++ (x, w) :: after).foldl _ (m.stack.pushFrame f.name))
  rw [List.foldl_append, List.foldl_cons]
  exact (((flat_pushFrame m.stack f.name).declares before).sees_declare x w).declares hafter

end CallStack

namespace Exec

/-- A parameter that is a reference gets its argument. -/
theorem bindArgs_reference {before after : List Param} {x : String} {args : List Value} {w : Value} {m n : Machine}
    {vars : List (String × Value)} (h : bindArgs (before ++ ⟨x, true⟩ :: after) args m = .ok vars n)
    (hw : args[before.length]? = some w) :
    ∃ vs ws, vars = vs ++ (x, w) :: ws ∧ ∀ b ∈ ws, ∃ q ∈ after, b.1 = q.name := by
  induction before generalizing args m vars with
  | nil =>
    obtain ⟨args, rfl⟩ : ∃ rest, args = w :: rest := List.head?_eq_some_iff.mp (List.head?_eq_getElem? ▸ hw)
    obtain ⟨v, ws, o, rfl, hws, ⟨-, rfl, -⟩ | ⟨hr, -⟩⟩ := bindArgs_cons h
    case inr => cases hr
    refine ⟨[], ws, rfl, fun b hb => ?_⟩
    have hnames : ws.map (·.1) = (after.zip args).map (·.1.name) := (bindArgs_ok hws).2
    obtain ⟨pair, hpair, he⟩ := List.mem_map.mp (hnames ▸ List.mem_map_of_mem hb)
    exact ⟨pair.1, (List.of_mem_zip hpair).1, he.symm⟩
  | cons q before ih =>
    cases args with
    | nil => cases hw
    | cons a args =>
      obtain ⟨v, rest, o, rfl, hrest, -⟩ := bindArgs_cons h
      obtain ⟨vs, ws, rfl, hws⟩ := ih hrest hw
      exact ⟨(q.name, v) :: vs, ws, rfl, hws⟩

/-- A call in the state `m` passes the variable `x`, which has the value `w`, to the parameter `p` of a function, and
the parameter is a reference. If there are more parameters of this name, it is the last one. -/
structure Refers (env : Env) (name : String) (args : List Value) (f : Instrumented.Function) (p x : String) (w : Value)
    (m : Machine) : Prop where
  function : env.program.function? name = some f
  param : ∃ before after, f.params = before ++ ⟨p, true⟩ :: after ∧ (∀ q ∈ after, q.name ≠ p) ∧
    args[before.length]? = some w
  argument : m.stack.lookup x = some w

/-- When a call that begins in the state `m` is over, in the state `n`, the variable `x` of the caller holds the value
that the parameter `p` held when the body ended. -/
def HandsBack (env : Env) (fuel : Nat) (f : Instrumented.Function) (args : List Value) (p x : String) (m n : Machine) :
    Prop :=
  ∃ vars o flow b v w, bindArgs f.params args (m.noting env f.name) = .ok vars o ∧
    sequence (meaning env fuel).run f.body (o.entering f vars) = .ok flow b ∧
    b.stack.lookup p = some v ∧ n.stack.lookup x = some w ∧ n.heap.snapshot w = b.heap.snapshot v

/-- After a call the variable that it has passed to a reference has the value that it had. If this is a list, and the
function does not assign to the parameter as a whole, then it holds what the parameter held last; and if it is no list,
it holds what it held before, whatever the function does to the parameter. A variable at top level must not have been
assigned to by its own name. -/
theorem reference_call {env : Env} {fuel : Nat} {name : String} {args : List Value} {f : Instrumented.Function}
    {p x : String} {v w : Value} {m n : Machine} (href : Refers env name args f p x w m)
    (hc : (meaning env (fuel + 1)).call name args m = .ok v n)
    (hx : m.stack.isLocal x ∨ n.stack.globals.lookup x = m.stack.globals.lookup x) :
    n.stack.lookup x = some w ∧ (w.isList = true → f.spares p → HandsBack env fuel f args p x m n) ∧
      (w.isList = false → n.heap.snapshot w = m.heap.snapshot w) := by
  have hlookup : n.stack.lookup x = some w :=
    (CallStack.lookup_of_frames (frames_of_call hc) hx).trans href.argument
  refine ⟨hlookup, fun hlist hspares => ?_, fun hscalar => Heap.snapshotWith_of_scalar hscalar _ _⟩
  obtain ⟨l, rfl⟩ : ∃ l, w = .list l := by
    cases w with
    | list l => exact ⟨l, rfl⟩
    | _ => cases hlist
  obtain rfl : f.name = name := by simpa using List.find?_some href.function
  obtain ⟨vars, o, flow, b, -, hargs, hbody, -, rfl⟩ := callWith_ok href.function hc
  obtain ⟨before, after, hparams, hafter, harg⟩ := href.param
  obtain ⟨vs, ws, rfl, hws⟩ := bindArgs_reference (hparams ▸ hargs) harg
  have hstart : (o.entering f (vs ++ (p, .list l) :: ws)).stack.Sees p (.list l) (.clear 0) :=
    .entering fun b hb hp => by
      obtain ⟨q, hq, hname⟩ := hws b hb
      exact hafter q hq (hname.symm.trans hp)
  obtain ⟨hdeclared, hspares⟩ := Bool.and_eq_true_iff.mp hspares
  have hretains : Retains p l (.clear 0) (sequence (meaning env fuel).run f.body) := .sequence fun s hs =>
    (retains_meaning env fuel).run s (fun _ => List.all_eq_true.mp hspares s hs) fun hp =>
      absurd (List.mem_flatMap.mpr ⟨s, hs, hp⟩) (of_decide_eq_true hdeclared)
  exact ⟨_, o, flow, b, _, _, hargs, hbody, (hretains hstart hbody).lookup, hlookup, rfl⟩

/-! ### Functions that change their parameter -/

/-- The declaration of a variable. -/
def declaresArgument (init : Expr) : Stmt := .act 8 true (.declare "a" init false)

/-- The statement that passes the variable to a function. -/
def passesArgument (f : Instrumented.Function) (rest : List Expr) : Stmt :=
  .act 9 true (.eval (.call f.name (.var "a" :: rest)))

/-- An entry function that declares a variable and passes it to a function. -/
def referringMain (f : Instrumented.Function) (init : Expr) (rest : List Expr) : Instrumented.Function where
  name := "main"
  params := []
  body := [declaresArgument init, passesArgument f rest]
  line := 7
  endLine := 10

def referringEnv (f : Instrumented.Function) (init : Expr) (rest : List Expr) : Env where
  program := { functions := [f, referringMain f init rest], driver := [], degradations := [] }
  config := .default

/-- The state in which the function is called. -/
def referringState (f : Instrumented.Function) (init : Expr) (rest : List Expr) : Machine :=
  ((meaning (referringEnv f init rest) 14).run (declaresArgument init) >>= fun _ =>
    begin (referringEnv f init rest) 9 true).after
      (Machine.starting (referringEnv f init rest) (referringMain f init rest))

/-- A function that adds the numbers from `n` down to one to a list, by calls of itself. -/
def fillFunction : Instrumented.Function where
  name := "fill"
  params := [⟨"xs", true⟩, ⟨"n", false⟩]
  body :=
    [.ifElse 2 true (.binary .eq (.var "n") (.int 0)) [.ret 2 false none] [],
      .act 3 true (.eval (.container .append (.var "xs") [.var "n"])),
      .act 4 true (.eval (.call "fill" [.var "xs", .binary .sub (.var "n") (.int 1)]))]
  line := 1
  endLine := 5

theorem reference_call_fillFunction :
    ∃ v n, (meaning (referringEnv fillFunction (.list []) [.int 2]) 12).call "fill" [.list 1, .int 2]
        (referringState fillFunction (.list []) [.int 2]) = .ok v n ∧
      n.heap.snapshot (.list 1) = .list [.int 2, .int 1] ∧
      HandsBack (referringEnv fillFunction (.list []) [.int 2]) 11 fillFunction [.list 1, .int 2] "xs" "a"
        (referringState fillFunction (.list []) [.int 2]) n := by
  obtain ⟨v, n, hc, hsnapshot⟩ : ∃ v n,
      (meaning (referringEnv fillFunction (.list []) [.int 2]) 12).call "fill" [.list 1, .int 2]
        (referringState fillFunction (.list []) [.int 2]) = .ok v n ∧
        n.heap.snapshot (.list 1) = .list [.int 2, .int 1] := by
    with_unfolding_all exact ⟨_, _, rfl, rfl⟩
  have href : Refers (referringEnv fillFunction (.list []) [.int 2]) "fill" [.list 1, .int 2] fillFunction "xs" "a"
      (.list 1) (referringState fillFunction (.list []) [.int 2]) :=
    ⟨rfl, ⟨[], [⟨"n", false⟩], rfl, by simp, rfl⟩, by with_unfolding_all rfl⟩
  have hlocal : (referringState fillFunction (.list []) [.int 2]).stack.isLocal "a" := by with_unfolding_all rfl
  exact ⟨v, n, hc, hsnapshot, (reference_call href hc (.inl hlocal)).2.1 rfl (by decide)⟩

/-! ### What is not handed back -/

/-- A call that a run makes, and that passes a variable of the caller to a parameter that is a reference, hands it back
if the function, the parameter and the value are of some kind. -/
def AlwaysHandsBack (kind : Instrumented.Function → String → Value → Prop) : Prop :=
  ∀ (env : Env) (fuel : Nat) (name : String) (args : List Value) (f : Instrumented.Function) (p x : String)
    (v w : Value) (m n : Machine), Reached env (fuel + 1) (.call name args) m → Refers env name args f p x w m →
    m.stack.isLocal x → (meaning env (fuel + 1)).call name args m = .ok v n → kind f p w →
    HandsBack env fuel f args p x m n

/-- The run that calls `f` with a variable of the value `w`: when the body has ended the parameter `p` shows as `s`, and
after the call the variable shows as `t`. -/
def ShowsAfter (f : Instrumented.Function) (init : Expr) (p : String) (w : Value) (s t : Snapshot) : Prop :=
  ∃ (m o b n : Machine) (vars : List (String × Value)) (flow : Flow) (u v a : Value),
    (meaning (referringEnv f init []) 14).run (declaresArgument init)
      (Machine.starting (referringEnv f init []) (referringMain f init [])) = .ok .normal m ∧
    begin (referringEnv f init []) 9 true m = .ok () (referringState f init []) ∧
    (referringState f init []).stack.lookup "a" = some w ∧
    (referringState f init []).stack.isLocal "a" = true ∧
    bindArgs f.params [w] ((referringState f init []).noting (referringEnv f init []) f.name) = .ok vars o ∧
    sequence (meaning (referringEnv f init []) 11).run f.body (o.entering f vars) = .ok flow b ∧
    (meaning (referringEnv f init []) 12).call f.name [w] (referringState f init []) = .ok v n ∧
    b.stack.lookup p = some u ∧ n.stack.lookup "a" = some a ∧ b.heap.snapshot u = s ∧ n.heap.snapshot a = t

theorem not_alwaysHandsBack {kind : Instrumented.Function → String → Value → Prop} {f : Instrumented.Function}
    {init : Expr} {p : String} {w : Value} {s t : Snapshot} (hname : f.name ≠ "main") (hparams : f.params = [⟨p, true⟩])
    (hkind : kind f p w) (h : ShowsAfter f init p w s t) (hne : t ≠ s) : ¬ AlwaysHandsBack kind := by
  intro hback
  obtain ⟨m, o, b, n, vars, flow, u, v, a, hdeclared, hbegin, hvar, hlocal, hargs, hbody, hc, hp, hx, rfl, rfl⟩ := h
  have hmain : (referringEnv f init []).program.function? "main" = some (referringMain f init []) := by
    simp [referringEnv, referringMain, Instrumented.Program.function?, hname]
  have hstatement : Reached (referringEnv f init []) 14 (.run (passesArgument f [])) m :=
    reached_statement [declaresArgument init] rfl hmain rfl (by simp [referringEnv, Config.default])
      (by simp [referringEnv, Config.default]) rfl (by simp [declaresArgument, passesArgument]) (bind_of_ok hdeclared)
  have heval : (meaning (referringEnv f init []) 12).eval (.var "a") (referringState f init []) =
      .ok w (referringState f init []) := lookup_of_some hvar
  have hreached : Reached (referringEnv f init []) 12 (.call f.name [w]) (referringState f init []) :=
    reached_call hstatement hbegin (bind_of_ok heval)
  have href : Refers (referringEnv f init []) f.name [w] f p "a" w (referringState f init []) :=
    ⟨by simp [referringEnv, Instrumented.Program.function?], ⟨[], [], hparams, by simp, rfl⟩, hvar⟩
  obtain ⟨vars', o', flow', b', u', a', hargs', hbody', hp', hx', hsame⟩ :=
    hback _ _ _ _ _ _ _ _ _ _ _ hreached href hlocal hc hkind
  cases hargs.symm.trans hargs'
  cases hbody.symm.trans hbody'
  cases hp.symm.trans hp'
  cases hx.symm.trans hx'
  exact hne hsame

/-- A function that makes a number one greater. -/
def incrementFunction : Instrumented.Function where
  name := "increment"
  params := [⟨"x", true⟩]
  body := [.act 2 true (.eval (.update (.var "x") .up false))]
  line := 1
  endLine := 3

/-- A function that assigns a list to its parameter. -/
def resetFunction : Instrumented.Function where
  name := "reset"
  params := [⟨"xs", true⟩]
  body := [.act 2 true (.eval (.assign (.var "xs") none (.list [.int 1])))]
  line := 1
  endLine := 3

/-- Neither is a number handed back, though nothing is assigned to the parameter as a whole, nor a list that something
is assigned to. -/
theorem not_reference_call :
    ¬ AlwaysHandsBack (fun f p _ => f.spares p) ∧ ¬ AlwaysHandsBack fun _ _ w => w.isList := by
  constructor
  · have hshows : ShowsAfter incrementFunction (.int 1) "x" (.int 1) (.int 2) (.int 1) := by
      with_unfolding_all exact ⟨_, _, _, _, _, _, _, _, _, rfl, rfl, rfl, rfl, rfl, rfl, rfl, rfl, rfl, rfl, rfl⟩
    exact not_alwaysHandsBack (by decide) rfl (by decide) hshows (by simp)
  · have hshows : ShowsAfter resetFunction (.list []) "xs" (.list 1) (.list [.int 1]) (.list []) := by
      with_unfolding_all exact ⟨_, _, _, _, _, _, _, _, _, rfl, rfl, rfl, rfl, rfl, rfl, rfl, rfl, rfl, rfl, rfl⟩
    exact not_alwaysHandsBack (by decide) rfl rfl hshows (by simp)

end Exec

end CallTrace
