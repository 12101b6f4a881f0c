import CallTrace.Proofs.Evaluation.Idle

/-! # Targets of operations

An operation on a container evaluates its target once, to a place or to a value that has none, and changes
what is there when it is applied. The evaluator takes the value of the target first, and to change a string it
resolves the target again; this comes to the same unless something is changed on the way.

* `Designated`, `Exec.designate`: what a target stands for, each of its index expressions having been
  evaluated once.
* `Exec.once`: an operation that evaluates its target once.
* `Exec.Steadfast`, `Exec.Undisturbed`: index expressions and arguments leave alone what the operation is
  applied to. So it is when they change nothing (`Exec.undisturbed_of_idle`).
* `Exec.once_of_operation`: an undisturbed operation evaluates its target once.
-/

namespace CallTrace
set_option autoImplicit false

open Instrumented (Expr ContainerOp)

/-- What an expression stands for once it has been evaluated: a place, or a value that has none. -/
inductive Designated where
  | place (slot : Slot)
  | value (v : Value)

namespace Exec

section

variable (p : Meaning)

def designate (e : Expr) : Exec Designated := do
  if e.root?.isSome then return .place (← p.resolve e) else return .value (← p.eval e)

def readFrom : Designated → Exec Value
  | .place slot => readSlot slot
  | .value v => pure v

def storeIn (v : Value) : Designated → Exec Unit
  | .place slot => writeSlot slot v
  | .value _ => fail (.typeMismatch "assignable expression" "temporary value")

/-- An operation on a string that is in a place, or on one that has none. -/
def onStringIn (op : ContainerOp) (d : Designated) (s : String) (args : List Value) : Exec Value := do
  let (result, changed) ← ofExcept (stringOp op s args)
  match changed with
  | some s => storeIn (.str s) d
  | none => pure ()
  return result

/-- An operation that evaluates its target once, then its arguments, and changes what is in the place then. -/
def once (op : ContainerOp) (target : Expr) (args : List Expr) : Exec Value := do
  let d ← designate p target
  let values ← args.mapM p.eval
  let result ← match ← readFrom d with
    | .list c => listOp op c values
    | .str s => onStringIn op d s values
    | v => fail (unsupportedOp op v)
  recordRoot (Expr.container op target args).probe?
  return result

end

/-! ## Nothing changed on the way -/

/-- Each index expression of a place leaves alone what it is an index of. -/
def Steadfast (env : Env) (m : Machine) : Nat → Expr → Prop
  | fuel + 1, .index base index =>
    Steadfast env m fuel base ∧ ∀ slot o i o', (meaning env fuel).resolve base m = .ok slot o →
      (meaning env fuel).eval index o = .ok i o' → slot.content o' = slot.content o
  | _, _ => True

/-- Nothing is changed between the evaluation of a target and the change of what is there: the index
expressions of the target leave alone what they are indices of, and the arguments what the target names; and
where a string is changed, the target names the same place again, and changes nothing. -/
structure Undisturbed (env : Env) (fuel : Nat) (op : ContainerOp) (target : Expr) (args : List Expr)
    (m : Machine) : Prop where
  indices : Steadfast env m fuel target
  operands : ∀ slot o values o', (meaning env fuel).resolve target m = .ok slot o →
    args.mapM (meaning env fuel).eval o = .ok values o' → slot.content o' = slot.content o
  again : op.mutates → ∀ slot o s values o', (meaning env fuel).resolve target m = .ok slot o →
    slot.content o = .ok (.str s) → args.mapM (meaning env fuel).eval o = .ok values o' →
    (meaning env fuel).resolve target o' = .ok slot o'

variable {env : Env} {fuel : Nat} {op : ContainerOp} {target : Expr} {args : List Expr} {m n : Machine}
  {v : Value}

theorem steadfast_of_idle (htarget : target.idleIndices) : Steadfast env m fuel target := by
  induction fuel generalizing target with
  | zero => exact trivial
  | succ fuel ih =>
    cases target with
    | index base index =>
      obtain ⟨hbase, hindex⟩ := Bool.and_eq_true_iff.mp htarget
      exact ⟨ih hbase, fun slot o i o' _ hi => by rw [unmoving_eval env fuel hindex hi]⟩
    | _ => exact trivial

/-- Nothing is changed on the way when the indices of the target and the arguments write to nothing, call nothing and
make no list. -/
theorem undisturbed_of_idle (htarget : target.idleIndices) (hargs : ∀ e ∈ args, e.idle) :
    Undisturbed env fuel op target args m where
  indices := steadfast_of_idle htarget
  operands slot o values o' _ hvalues := by
    rw [Unmoving.rules.mapM (fun e he => unmoving_eval env fuel (hargs e he)) hvalues]
  again _ slot o s values o' hslot _ hvalues := by
    obtain rfl := unmoving_resolve env fuel htarget hslot
    rw [Unmoving.rules.mapM (fun e he => unmoving_eval env fuel (hargs e he)) hvalues]
    exact hslot

/-- Resolving a place leads to a slot with the value that evaluating it gives, through the same states. -/
theorem resolve_of_eval (h : Steadfast env m fuel target) (hplace : target.root?.isSome) {w : Value}
    (he : (meaning env fuel).eval target m = .ok w n) :
    ∃ slot, (meaning env fuel).resolve target m = .ok slot n ∧ slot.content n = .ok w := by
  induction fuel generalizing target w n with
  | zero => cases he
  | succ fuel ih =>
    cases target with
    | var name =>
      have he : readSlot (.var name) m = .ok w n := he
      obtain ⟨hc, rfl⟩ := readSlot_ok he
      exact ⟨.var name, rfl, hc⟩
    | index base index =>
      obtain ⟨container, m₁, hbase, h₁⟩ := ok_of_bind he
      obtain ⟨i, m₂, hindex, h₂⟩ := ok_of_bind h₁
      obtain ⟨k, m₃, hk, h₃⟩ := ok_of_bind h₂
      obtain ⟨hk, h₃₂⟩ := ok_of_ofExcept hk
      obtain ⟨hitem, hn⟩ := ok_of_ofExcept h₃
      obtain ⟨owner, howner, hcontent⟩ := ih h.1 hplace hbase
      have hkept : owner.content m₂ = .ok container := (h.2 owner m₁ i m₂ howner hindex).trans hcontent
      have hresolve : (meaning env (fuel + 1)).resolve (.index base index) m = elementSlot owner k m₂ := by
        refine (bind_of_ok howner).trans ((bind_of_ok hindex).trans (bind_of_ok ?_))
        rw [hk]
        rfl
      rw [hn, h₃₂, hresolve, elementSlot_of_ok k (readSlot_of_ok hkept)]
      rw [h₃₂] at hitem
      cases container with
      | list c => exact ⟨.item c k, rfl, hitem⟩
      | str s => exact ⟨.char owner k, rfl, by simp only [Slot.content, hkept]; exact hitem⟩
      | _ => cases hitem
    | _ => cases hplace

/-- What names no place does not resolve. -/
theorem root?_of_resolve {slot : Slot} (h : (meaning env fuel).resolve target m = .ok slot n) :
    target.root?.isSome := by
  induction fuel generalizing target slot n with
  | zero => cases h
  | succ fuel ih =>
    cases target with
    | var name => rfl
    | index base index =>
      obtain ⟨owner, o, hbase, -⟩ := ok_of_bind h
      show base.root?.isSome
      exact ih hbase
    | _ => cases h

theorem onStringIn_place {slot : Slot} {s : String} {values : List Value}
    (hagain : op.mutates → (meaning env fuel).resolve target m = .ok slot m)
    (h : onString (meaning env fuel) op target s values m = .ok v n) :
    onStringIn op (.place slot) s values m = .ok v n := by
  obtain ⟨⟨result, changed⟩, o, hop, hrest⟩ := ok_of_bind h
  obtain ⟨hop', ho⟩ := ok_of_ofExcept hop
  refine (bind_of_ok hop).trans ?_
  cases changed with
  | none => exact hrest
  | some s' =>
    have hslot := hagain (mutates_of_stringOp hop')
    rw [← ho] at hslot
    dsimp only at hrest ⊢
    obtain ⟨slot', o', hslot', hwrite⟩ := ok_of_bind hrest
    cases hslot.symm.trans hslot'
    exact hwrite

theorem onStringIn_value {w : Value} {s : String} {values : List Value} (htarget : target.root? = none)
    (h : onString (meaning env fuel) op target s values m = .ok v n) :
    onStringIn op (.value w) s values m = .ok v n := by
  obtain ⟨⟨result, changed⟩, o, hop, hrest⟩ := ok_of_bind h
  refine (bind_of_ok hop).trans ?_
  cases changed with
  | none => exact hrest
  | some s' =>
    dsimp only at hrest ⊢
    obtain ⟨slot, o', hslot, -⟩ := ok_of_bind hrest
    have hroot := root?_of_resolve hslot
    rw [htarget] at hroot
    cases hroot

/-- An operation that is not disturbed evaluates its target once. -/
theorem once_of_operation (h : Undisturbed env fuel op target args m)
    (hop : operation (meaning env fuel) op target args m = .ok v n) :
    once (meaning env fuel) op target args m = .ok v n := by
  obtain ⟨w, m₁, hw, h₁⟩ := ok_of_bind hop
  obtain ⟨values, m₂, hvalues, h₂⟩ := ok_of_bind h₁
  cases hroot : target.root? with
  | some name =>
    have hplace : target.root?.isSome := by rw [hroot]; rfl
    obtain ⟨slot, hslot, hcontent⟩ := resolve_of_eval h.indices hplace hw
    have hread : readSlot slot m₂ = .ok w m₂ :=
      readSlot_of_ok ((h.operands slot m₁ values m₂ hslot hvalues).trans hcontent)
    have hdesignate : designate (meaning env fuel) target m = .ok (.place slot) m₁ := by
      rw [designate, if_pos hplace]
      exact (bind_of_ok hslot).trans rfl
    refine (bind_of_ok hdesignate).trans ((bind_of_ok hvalues).trans ((bind_of_ok hread).trans ?_))
    cases w with
    | list c => exact h₂
    | str s =>
      obtain ⟨result, m₃, hresult, h₃⟩ := ok_of_bind h₂
      refine (bind_of_ok (onStringIn_place (fun hop => ?_) hresult)).trans h₃
      exact h.again hop slot m₁ s values m₂ hslot hcontent hvalues
    | _ => cases h₂
  | none =>
    have hdesignate : designate (meaning env fuel) target m = .ok (.value w) m₁ := by
      rw [designate, if_neg (by rw [hroot]; exact Bool.false_ne_true)]
      exact (bind_of_ok hw).trans rfl
    refine (bind_of_ok hdesignate).trans ((bind_of_ok hvalues).trans ?_)
    cases w with
    | list c => exact h₂
    | str s =>
      obtain ⟨result, m₃, hresult, h₃⟩ := ok_of_bind h₂
      exact (bind_of_ok (onStringIn_value hroot hresult)).trans h₃
    | _ => cases h₂

/-! ## A list of strings and a counter -/

/-- The statement `vector<vector<string>> a = {{"x", "y"}};`. -/
def declareNested : Instrumented.Stmt :=
  .act 2 true (.declare "a" (.list [.list [.str "x", .str "y"]]) false)

/-- The statement `int i = 0;`. -/
def declareZero : Instrumented.Stmt := .act 3 true (.declare "i" (.int 0) false)

/-- The expression `i++`. -/
def counted : Expr := .update (.var "i") .up false

/-- The expression `a[i++]`. -/
def listTarget : Expr := .index (.var "a") counted

/-- The expression `a[0][i++]`. -/
def stringTarget : Expr := .index (.index (.var "a") (.int 0)) counted

def countingMain : Instrumented.Function where
  name := "main"
  params := []
  body := [declareNested, declareZero, .ret 4 true none]
  line := 1
  endLine := 5

def countingEnv : Env where
  program := { functions := [countingMain], driver := [], degradations := [] }
  config := .default

/-- The state after a statement of `countingMain`. -/
def afterCounting (s : Instrumented.Stmt) (m : Machine) : Machine :=
  match (meaning countingEnv 8).run s m with
  | .ok _ n | .error _ n => n

/-- The state in which `a` has been declared. -/
def nestedState : Machine := afterCounting declareNested (Machine.starting countingEnv countingMain)

/-- The state in which both variables have been declared. -/
def countingState : Machine := afterCounting declareZero nestedState

theorem reached_countingState : Reached countingEnv 8 (.run (.ret 4 true none)) countingState := by
  have hfirst : (meaning countingEnv 8).run declareNested (Machine.starting countingEnv countingMain) =
      .ok .normal nestedState := by with_unfolding_all rfl
  have hsecond : (meaning countingEnv 8).run declareZero nestedState = .ok .normal countingState := by
    with_unfolding_all rfl
  exact reached_statement [declareNested, declareZero] rfl rfl rfl (by decide) (by decide) rfl
    (by simp [declareNested, declareZero]) ((bind_of_ok hfirst).trans ((bind_of_ok hsecond).trans rfl))

/-- The statement `a[i++].push_back("w")`, which changes a list, is not disturbed. -/
theorem once_of_operation_listTarget :
    ∃ v n, Undisturbed countingEnv 8 .append listTarget [.str "w"] countingState ∧
      operation (meaning countingEnv 8) .append listTarget [.str "w"] countingState = .ok v n ∧
      once (meaning countingEnv 8) .append listTarget [.str "w"] countingState = .ok v n := by
  obtain ⟨v, n, hop⟩ : ∃ v n,
      operation (meaning countingEnv 8) .append listTarget [.str "w"] countingState = .ok v n := by
    with_unfolding_all exact ⟨_, _, rfl⟩
  obtain ⟨i₀, o₀, hindex, hkept⟩ : ∃ i o,
      (meaning countingEnv 7).eval counted countingState = .ok i o ∧
        (Slot.var "a").content o = (Slot.var "a").content countingState := by
    with_unfolding_all exact ⟨_, _, rfl, rfl⟩
  obtain ⟨slot₀, o₁, c, hslot, hlist⟩ : ∃ slot o c,
      (meaning countingEnv 8).resolve listTarget countingState = .ok slot o ∧
        slot.content o = .ok (.list c) := by
    with_unfolding_all exact ⟨_, _, _, rfl, rfl⟩
  have harg (o : Machine) : [Expr.str "w"].mapM (meaning countingEnv 8).eval o = .ok [.str "w"] o := rfl
  have h : Undisturbed countingEnv 8 .append listTarget [.str "w"] countingState := by
    refine ⟨⟨trivial, fun slot o i o' hr he => ?_⟩, fun slot o values o' _ hv => ?_,
      fun _ slot o s values o' hr hs _ => ?_⟩
    · cases hr
      cases hindex.symm.trans he
      exact hkept
    · cases (harg o).symm.trans hv
      rfl
    · cases hslot.symm.trans hr
      cases hlist.symm.trans hs
  exact ⟨v, n, h, hop, once_of_operation h hop⟩

/-- A string is changed where its target leads the second time: `a[0][i++].push_back('z')` counts twice. -/
theorem not_once_of_operation :
    ¬ ∀ (env : Env) (k fuel : Nat) (t : Task) (op : ContainerOp) (target : Expr) (args : List Expr)
      (m n : Machine) (v : Value), Reached env k t m →
      operation (meaning env fuel) op target args m = .ok v n →
      once (meaning env fuel) op target args m = .ok v n := by
  intro h
  obtain ⟨v, n, hop, hn⟩ : ∃ v n,
      operation (meaning countingEnv 8) .append stringTarget [.str "z"] countingState = .ok v n ∧
        n.stack.lookup "i" = some (.int 2) := by
    with_unfolding_all exact ⟨_, _, rfl, rfl⟩
  obtain ⟨w, o, honce, ho⟩ : ∃ w o,
      once (meaning countingEnv 8) .append stringTarget [.str "z"] countingState = .ok w o ∧
        o.stack.lookup "i" = some (.int 1) := by
    with_unfolding_all exact ⟨_, _, rfl, rfl⟩
  have hsame := h countingEnv 8 8 _ .append stringTarget [.str "z"] _ n v reached_countingState hop
  cases honce.symm.trans hsame
  cases ho.symm.trans hn

end Exec

end CallTrace
