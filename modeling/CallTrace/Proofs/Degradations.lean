import CallTrace.Proofs.Evaluation.Comparison
import CallTrace.Proofs.Evaluation.Returns

/-! # What is outside the language is listed

A construct that cannot be expressed becomes an action that fails when it runs, and is listed among the
degradations of the program. The list is kept apart from the statements.

* `Gap`: the text of such a construct, the reason, and its line; `Program.HasGap` says that one stands
  somewhere in a program.
* `Accounts before c has`: lowering by `c` lists the gaps of its result, if the gaps `before` are listed
  already.
* `hasGap_translate`: every gap of a translated program is listed.
* `Exec.Reports`, `Program.hasGap_of_run`: a run that fails at a gap fails at one that the program has.
-/

namespace CallTrace
set_option autoImplicit false

namespace Instrumented

/-! ## Gaps -/

/-- A construct outside the language: its text, the reason, and the line it stands in. -/
structure Gap where
  text : String
  reason : String
  line : Nat
  deriving DecidableEq, Repr

def Degradation.gap (d : Degradation) : Gap := ⟨d.text, d.reason, d.pos.line⟩

/-- A gap is the statement itself or stands inside it. -/
inductive Stmt.HasGap (g : Gap) : Stmt → Prop where
  | act {step : Bool} : HasGap g (.act g.line step (.unsupported g.text g.reason))
  | inner {s t : Stmt} (ht : t ∈ s.inner) (h : HasGap g t) : HasGap g s

/-- A gap stands in a function or among the statements at top level. -/
def Program.HasGap (p : Program) (g : Gap) : Prop :=
  (∃ f ∈ p.functions, ∃ s ∈ f.body, s.HasGap g) ∨ ∃ s ∈ p.driver, s.HasGap g

theorem Stmt.hasGap_act {g : Gap} {line : Nat} {step : Bool} {action : Action} :
    (Stmt.act line step action).HasGap g ↔
      line = g.line ∧ action = .unsupported g.text g.reason := by
  constructor
  · intro h
    cases h with
    | act => exact ⟨rfl, rfl⟩
    | inner ht => cases ht
  · rintro ⟨rfl, rfl⟩
    exact .act

/-- A statement that is no action has the gaps of the statements inside it. -/
theorem Stmt.hasGap_iff_inner {g : Gap} {s : Stmt} (hs : ∀ line step action, s ≠ .act line step action) :
    s.HasGap g ↔ ∃ t ∈ s.inner, t.HasGap g := by
  constructor
  · intro h
    cases h with
    | act => exact absurd rfl (hs _ _ _)
    | inner ht h => exact ⟨_, ht, h⟩
  · rintro ⟨t, ht, h⟩
    exact .inner ht h

/-! ## Lowering -/

/-- Lowering keeps the list of degradations, and adds to it so that the gaps `has` of its result are listed,
if the gaps `before` were listed already. -/
def Accounts {α : Type} (before : Gap → Prop) (c : Lower α) (has : α → Gap → Prop) : Prop :=
  ∀ s : Lowering, (∀ g, before g → g ∈ s.degradations.map Degradation.gap) →
    s.degradations ⊆ (c s).2.degradations ∧
      ∀ g, has (c s).1 g → g ∈ (c s).2.degradations.map Degradation.gap

namespace Accounts

variable {α β : Type} {before : Gap → Prop} {has : α → Gap → Prop} {other : β → Gap → Prop}
  {c : Lower α}

theorem pure {a : α} (h : ∀ g, has a g → before g) : Accounts before (Pure.pure a) has :=
  fun _ hs => ⟨List.Subset.refl _, fun g hg => hs g (h g hg)⟩

theorem bind {f : α → Lower β} (h : Accounts before c has)
    (hf : ∀ a, Accounts (fun g => before g ∨ has a g) (f a) other) :
    Accounts before (c >>= f) other := by
  intro s hs
  obtain ⟨hkeep, hlisted⟩ := h s hs
  have hbefore (g : Gap) (hg : before g ∨ has (c s).1 g) :
      g ∈ (c s).2.degradations.map Degradation.gap :=
    hg.elim (fun hg => List.map_subset _ hkeep (hs g hg)) (hlisted g)
  obtain ⟨hkeep', hlisted'⟩ := hf (c s).1 (c s).2 hbefore
  exact ⟨List.Subset.trans hkeep hkeep', hlisted'⟩

/-- Lowering that lists nothing new. -/
theorem of_degradations_eq (h : ∀ s, (c s).2.degradations = s.degradations) :
    Accounts before c fun _ _ => False :=
  fun s _ => ⟨(h s) ▸ List.Subset.refl _, fun _ hg => hg.elim⟩

theorem stepAt (line : Nat) : Accounts before (stepAt line) fun _ _ => False := by
  refine of_degradations_eq fun s => ?_
  unfold Instrumented.stepAt
  split <;> rfl

/-- What is degraded is listed. -/
theorem degrade (text reason : String) (pos : Pos) :
    Accounts before (degrade text reason pos) fun _ g => g = ⟨text, reason, pos.line⟩ := by
  refine fun s _ => ⟨List.subset_cons_self _ _, ?_⟩
  rintro _ rfl
  exact List.mem_cons_self

end Accounts

/-- The gap that an action at a line is, if it is one. -/
def Action.IsGap (line : Nat) (action : Action) (g : Gap) : Prop :=
  line = g.line ∧ action = .unsupported g.text g.reason

variable {before : Gap → Prop} (lines : List String)

theorem accounts_refuse (pos : Pos) (r : Refusal) :
    Accounts before (refuse lines pos r) (Action.IsGap pos.line) := by
  refine (Accounts.degrade _ _ pos).bind fun _ => .pure fun g hg => ?_
  obtain ⟨hline, haction⟩ := hg
  obtain ⟨text, reason, line⟩ := g
  cases haction
  cases hline
  exact .inr rfl

/-- An action that can be expressed is no gap: `lowerDecl`, `lowerAction` and `lowerOutput` give none. -/
theorem accounts_orRefuse (pos : Pos) {r : Except Refusal Action}
    (hr : ∀ text reason, r ≠ .ok (.unsupported text reason)) :
    Accounts before (orRefuse lines pos r) (Action.IsGap pos.line) := by
  cases r with
  | ok action => exact .pure fun g hg => absurd (congrArg Except.ok hg.2) (hr _ _)
  | error r => exact accounts_refuse lines pos r

theorem bind_ne_ok {ε α β : Type} {r : Except ε α} {f : α → Except ε β} {b : β}
    (h : ∀ a, f a ≠ .ok b) : (r >>= f) ≠ .ok b := by
  cases r with
  | ok a => exact h a
  | error e => exact (nomatch ·)

theorem lowerDecl_ne (d : Surface.VarDecl) (text reason : String) :
    lowerDecl d ≠ .ok (.unsupported text reason) := by
  unfold lowerDecl
  dsimp only
  split <;> exact bind_ne_ok fun _ => (nomatch ·)

theorem lowerAction_ne (e : Surface.Expr) (text reason : String) :
    lowerAction e ≠ .ok (.unsupported text reason) := by
  unfold lowerAction
  split
  · exact (nomatch ·)
  · exact bind_ne_ok fun _ => bind_ne_ok fun _ => (nomatch ·)
  · exact bind_ne_ok fun _ => (nomatch ·)

theorem lowerOutput_ne (items : List Surface.Expr) (text reason : String) :
    lowerOutput items ≠ .ok (.unsupported text reason) := bind_ne_ok fun _ => (nomatch ·)

/-- The gap that the first clause of a `for` statement is, if it is one. -/
def InitIsGap (init : Option (Nat × Action)) (g : Gap) : Prop := ∃ i ∈ init, i.2.IsGap i.1 g

theorem accounts_lowerInit (init : Surface.ForInit) :
    Accounts before (lowerInit lines init) InitIsGap := by
  cases init with
  | none => exact .pure fun g ⟨_, hi, _⟩ => nomatch hi
  | decl d =>
    refine (Accounts.stepAt _).bind fun _ =>
      (accounts_orRefuse lines d.pos (lowerDecl_ne d)).bind fun action => .pure fun g ⟨i, hi, hg⟩ => ?_
    cases hi
    exact .inr hg
  | expr e pos =>
    refine (Accounts.stepAt _).bind fun _ =>
      (accounts_orRefuse lines pos (lowerAction_ne e)).bind fun action => .pure fun g ⟨i, hi, hg⟩ => ?_
    cases hi
    exact .inr hg

/-- The gaps of the statement that another one is lowered to, if there is one. -/
def OptionHasGap (s : Option Stmt) (g : Gap) : Prop := ∃ t ∈ s, t.HasGap g

/-- The gaps of some statements. -/
def BodyHasGap (body : List Stmt) (g : Gap) : Prop := ∃ t ∈ body, t.HasGap g

theorem accounts_act {pos : Pos} {step : Bool} {c : Lower Action}
    (h : Accounts before c (Action.IsGap pos.line)) :
    Accounts before (c >>= fun action => pure (some (.act pos.line step action))) OptionHasGap := by
  refine h.bind fun action => .pure fun g ⟨t, ht, hg⟩ => ?_
  cases ht
  exact .inr (Stmt.hasGap_act.mp hg)

/-- A statement that is no action has the gaps of what it is built from. -/
theorem accounts_built {s : Stmt} (hs : ∀ line step action, s ≠ .act line step action)
    (h : ∀ t ∈ s.inner, ∀ g, t.HasGap g → before g) :
    Accounts before (pure (some s) : Lower (Option Stmt)) OptionHasGap := by
  refine .pure fun g ⟨t, ht, hg⟩ => ?_
  cases ht
  obtain ⟨u, hu, hg⟩ := (Stmt.hasGap_iff_inner hs).mp hg
  exact h u hu g hg

mutual

theorem accounts_lowerStmt : (s : Surface.Stmt) → {before : Gap → Prop} →
    Accounts before (lowerStmt lines s) OptionHasGap
  | .decl d, _ =>
    (Accounts.stepAt _).bind fun _ => accounts_act (accounts_orRefuse lines d.pos (lowerDecl_ne d))
  | .expr e pos, _ =>
    (Accounts.stepAt _).bind fun _ => accounts_act (accounts_orRefuse lines pos (lowerAction_ne e))
  | .output items pos, _ =>
    (Accounts.stepAt _).bind fun _ => accounts_act (accounts_orRefuse lines pos (lowerOutput_ne items))
  | .ret value pos, _ => by
    refine (Accounts.stepAt _).bind fun _ => ?_
    split
    · exact accounts_built (fun _ _ _ => (nomatch ·)) fun t ht => nomatch ht
    · exact accounts_act (accounts_refuse lines pos _)
  | .ifThen cond yes pos, _ => by
    refine (Accounts.stepAt _).bind fun _ => ?_
    split
    · refine (accounts_lowerBody yes).bind fun body => ?_
      refine accounts_built (fun _ _ _ => (nomatch ·)) fun t ht g hg => ?_
      rw [Stmt.inner, List.append_nil] at ht
      exact .inr ⟨t, ht, hg⟩
    · exact accounts_act (accounts_refuse lines pos _)
  | .ifElse cond yes no pos, _ => by
    refine (Accounts.stepAt _).bind fun _ => ?_
    split
    · refine (accounts_lowerBody yes).bind fun body => (accounts_lowerBody no).bind fun body' => ?_
      refine accounts_built (fun _ _ _ => (nomatch ·)) fun t ht g hg => ?_
      rcases List.mem_append.mp ht with ht | ht
      · exact .inl (.inr ⟨t, ht, hg⟩)
      · exact .inr ⟨t, ht, hg⟩
    · exact accounts_act (accounts_refuse lines pos _)
  | .whileLoop cond body pos, _ => by
    refine (Accounts.stepAt _).bind fun _ => ?_
    split
    · refine (accounts_lowerBody body).bind fun b => ?_
      exact accounts_built (fun _ _ _ => (nomatch ·)) fun t ht g hg => .inr ⟨t, ht, hg⟩
    · exact accounts_act (accounts_refuse lines pos _)
  | .doWhile body cond pos, _ => by
    refine (Accounts.stepAt _).bind fun _ => (accounts_lowerBody body).bind fun b => ?_
    split
    · exact accounts_built (fun _ _ _ => (nomatch ·)) fun t ht g hg => .inr ⟨t, ht, hg⟩
    · exact accounts_act (accounts_refuse lines pos _)
  | .forLoop init cond update body pos, _ => by
    refine (Accounts.stepAt _).bind fun _ => (accounts_lowerInit lines init).bind fun i => ?_
    split
    · refine (accounts_lowerBody body).bind fun b => ?_
      refine accounts_built (fun _ _ _ => (nomatch ·)) fun t ht g hg => ?_
      rcases List.mem_append.mp ht with ht | ht
      · obtain ⟨c, hc, rfl⟩ := Option.map_eq_some_iff.mp (Option.mem_toList.mp ht)
        exact .inl (.inr ⟨c, hc, Stmt.hasGap_act.mp hg⟩)
      · exact .inr ⟨t, ht, hg⟩
    · exact accounts_act (accounts_refuse lines pos _)
    · exact accounts_act (accounts_refuse lines pos _)
  | .block body pos, _ => by
    refine (accounts_lowerBody body).bind fun b => ?_
    exact accounts_built (fun _ _ _ => (nomatch ·)) fun t ht g hg => .inr ⟨t, ht, hg⟩
  | .breakLoop pos, _ => by
    refine (Accounts.stepAt _).bind fun _ => ?_
    exact accounts_built (fun _ _ _ => (nomatch ·)) fun t ht => nomatch ht
  | .continueLoop pos, _ => by
    refine (Accounts.stepAt _).bind fun _ => ?_
    exact accounts_built (fun _ _ _ => (nomatch ·)) fun t ht => nomatch ht
  | .usingDirective _, _ => .pure fun g ⟨t, ht, _⟩ => nomatch ht
  | .unsupported text reason pos, _ => by
    refine (Accounts.degrade text reason pos).bind fun _ => (Accounts.stepAt _).bind fun step => ?_
    refine .pure fun g ⟨t, ht, hg⟩ => ?_
    cases ht
    obtain ⟨hline, haction⟩ := Stmt.hasGap_act.mp hg
    obtain ⟨text, reason, line⟩ := g
    cases hline
    cases haction
    exact .inl (.inr rfl)

theorem accounts_lowerBody : (body : List Surface.Stmt) → {before : Gap → Prop} →
    Accounts before (lowerBody lines body) BodyHasGap
  | [], _ => .pure fun g ⟨t, ht, _⟩ => nomatch ht
  | s :: rest, _ => by
    refine (accounts_lowerStmt s).bind fun lowered => ?_
    cases lowered with
    | none => exact accounts_lowerBody rest
    | some t =>
      refine (accounts_lowerBody rest).bind fun body => .pure fun g ⟨u, hu, hg⟩ => ?_
      rcases List.mem_cons.mp hu with rfl | hu
      · exact .inl (.inr ⟨u, rfl, hg⟩)
      · exact .inr ⟨u, hu, hg⟩

end

/-! ## Programs -/

/-- The gaps of some functions, and of statements at top level. -/
def ItemsHaveGap (items : List Function × List Stmt) (g : Gap) : Prop :=
  (∃ f ∈ items.1, BodyHasGap f.body g) ∨ BodyHasGap items.2 g

theorem accounts_lowerFunction (f : Surface.Function) :
    Accounts before (lowerFunction lines f) fun f' => BodyHasGap f'.body := by
  have hline : Accounts before (modify fun s => { s with stepped := some f.pos.line } : Lower PUnit)
      fun _ _ => False := .of_degradations_eq fun _ => rfl
  exact hline.bind fun _ => (accounts_lowerBody lines f.body).bind fun body =>
    .pure fun g hg => .inr hg

theorem mem_addFunction {f g : Function} {fs : List Function} (h : g ∈ addFunction f fs) :
    g = f ∨ g ∈ fs := by
  induction fs with
  | nil => exact .inl (List.mem_singleton.mp h)
  | cons k fs ih =>
    unfold addFunction at h
    split at h
    · exact (List.mem_cons.mp h).imp_right (List.mem_cons_of_mem k)
    · rcases List.mem_cons.mp h with rfl | h
      · exact .inr List.mem_cons_self
      · exact (ih h).imp_right (List.mem_cons_of_mem k)

/-- A gap of a statement that is put before others is one of the statement or of the others. -/
theorem itemsHaveGap_cons {functions : List Function} {driver : List Stmt} {s : Stmt} {g : Gap}
    (h : ItemsHaveGap (functions, s :: driver) g) :
    ItemsHaveGap (functions, driver) g ∨ s.HasGap g := by
  rcases h with h | ⟨t, ht, hg⟩
  · exact .inl (.inl h)
  · rcases List.mem_cons.mp ht with rfl | ht
    · exact .inr hg
    · exact .inl (.inr ⟨t, ht, hg⟩)

theorem accounts_lowered {functions : List Function} {driver : List Stmt}
    (h : ∀ g, ItemsHaveGap (functions, driver) g → before g) (s : Surface.Stmt) :
    Accounts before (lowerStmt lines s >>= fun lowered => match lowered with
      | some t => pure (functions, t :: driver)
      | none => pure (functions, driver)) ItemsHaveGap := by
  refine (accounts_lowerStmt lines s).bind fun lowered => ?_
  cases lowered with
  | none => exact .pure fun g hg => .inl (h g hg)
  | some t =>
    refine .pure fun g hg => ?_
    exact (itemsHaveGap_cons hg).imp (h g) fun hg => ⟨t, rfl, hg⟩

theorem accounts_lowerItem {functions : List Function} {driver : List Stmt}
    (h : ∀ g, ItemsHaveGap (functions, driver) g → before g) (item : Surface.Item) :
    Accounts before (lowerItem lines functions driver item) ItemsHaveGap := by
  cases item with
  | declared name ty params pos => exact .pure h
  | function f =>
    refine (accounts_lowerFunction lines f).bind fun f' => .pure fun g hg => ?_
    rcases hg with ⟨k, hk, hg⟩ | hg
    · rcases mem_addFunction hk with rfl | hk
      · exact .inr hg
      · exact .inl (h g (.inl ⟨k, hk, hg⟩))
    · exact .inl (h g (.inr hg))
  | stmt s =>
    cases s with
    | unsupported text reason pos =>
      refine (Accounts.degrade text reason pos).bind fun _ => ?_
      split
      · exact .pure fun g hg => .inl (h g hg)
      · refine .pure fun g hg => (itemsHaveGap_cons hg).imp (h g) fun hg => ?_
        obtain ⟨hline, haction⟩ := Stmt.hasGap_act.mp hg
        obtain ⟨text, reason, line⟩ := g
        cases hline
        cases haction
        rfl
    | _ => exact accounts_lowered lines h _

theorem accounts_lowerItems (items : List Surface.Item) {before : Gap → Prop}
    {functions : List Function} {driver : List Stmt}
    (h : ∀ g, ItemsHaveGap (functions, driver) g → before g) :
    Accounts before (lowerItems lines functions driver items) ItemsHaveGap := by
  induction items generalizing before functions driver with
  | nil => exact .pure h
  | cons item items ih =>
    exact (accounts_lowerItem lines h item).bind fun _ => ih fun _ hg => .inr hg

/-- Every gap of a translated program is listed. -/
theorem hasGap_translate {source : String} {g : Gap} (h : (translate source).HasGap g) :
    g ∈ (translate source).degradations.map Degradation.gap := by
  have hnone (g : Gap) (hg : ItemsHaveGap ([], []) g) : False := by
    rcases hg with ⟨f, hf, _⟩ | ⟨s, hs, _⟩
    · cases hf
    · cases hs
  have haccounts := accounts_lowerItems (Text.lines source) (Surface.parse source) hnone ⟨none, []⟩
    fun _ hg => hg.elim
  have hlisted := haccounts.2 g (h.imp_right fun ⟨s, hs, hg⟩ => ⟨s, List.mem_reverse.mp hs, hg⟩)
  show g ∈ List.map Degradation.gap (List.reverse _)
  rw [List.map_reverse, List.mem_reverse]
  exact hlisted

end Instrumented

/-! ## Runs -/

open Instrumented (Gap Stmt)

namespace Exec

/-- Where the computation fails because something is outside the language, it is one of some gaps. -/
def Reports (gaps : Gap → Prop) {α : Type} (c : Exec α) : Prop :=
  ∀ m n e text reason, c m = .error (.failed e) n → e.cause = .unsupported text reason →
    gaps ⟨text, reason, e.line⟩

namespace Reports

variable {gaps : Gap → Prop} {α β : Type} {c : Exec α}

theorem plain (h : Plain c) : Reports gaps c := by
  intro m n e text reason hc hcause
  have hnot := (h.error m _ n hc).2 e rfl
  unfold RunError.isDegradation at hnot
  rw [hcause] at hnot
  cases hnot

theorem bind {f : α → Exec β} (h : Reports gaps c) (hf : ∀ a, Reports gaps (f a)) :
    Reports gaps (c >>= f) := by
  intro m n e text reason he hcause
  cases hc : c m with
  | ok a o =>
    rw [bind_of_ok hc] at he
    exact hf a o n e text reason he hcause
  | error x o =>
    rw [bind_of_error hc] at he
    cases he
    exact h m _ e text reason hc hcause

/-- A failure that points at something else than what is outside the language. -/
theorem of_cause (cause : Cause)
    (hc : ∀ m n h, c m = .error h n → ∃ line, h = .failed ⟨cause, line⟩)
    (hcause : ∀ text reason, cause ≠ .unsupported text reason) : Reports gaps c := by
  intro m n e text reason he hu
  obtain ⟨line, hl⟩ := hc m n _ he
  cases hl
  exact absurd hu (hcause text reason)

theorem checkEvents {env : Env} : Reports gaps (Exec.checkEvents env) := by
  refine of_cause (.eventLimit env.config.maxEvents) (fun m n h he => ?_) fun _ _ => (nomatch ·)
  unfold Exec.checkEvents at he
  split at he
  · cases he
    exact ⟨m.line, rfl⟩
  · cases he

theorem checkDepth {env : Env} : Reports gaps (Exec.checkDepth env) := by
  refine of_cause (.callDepth env.config.maxCallDepth) (fun m n h he => ?_) fun _ _ => (nomatch ·)
  rw [checkDepth_apply] at he
  split at he
  · cases he
    exact ⟨m.line, rfl⟩
  · cases he

/-- A statement outside the language fails at its line. -/
theorem unsupported {env : Env} {line : Nat} {step : Bool} {text reason : String}
    (hbegin : Reports gaps (begin env line step)) (hgap : gaps ⟨text, reason, line⟩) :
    Reports gaps (begin env line step >>= fun _ => fail (.unsupported text reason) : Exec α) := by
  intro m n e text' reason' he hcause
  cases hc : begin env line step m with
  | ok a o =>
    rw [bind_of_ok hc] at he
    cases he
    cases hcause
    rw [begin_line hc]
    exact hgap
  | error x o =>
    rw [bind_of_error hc] at he
    cases he
    exact hbegin m _ e text' reason' hc hcause

end Reports

/-- A run fails because something is outside the language only at a gap of its program. -/
def reporting (env : Env) : Comparison env env where
  Rel c _ := Reports env.program.HasGap c
  Same s s' := s = s' ∧ ∀ g, s.HasGap g → env.program.HasGap g
  plain := .plain
  bind := .bind
  outOfFuel _ := .plain .outOfFuel
  checkEvents := .checkEvents
  checkDepth := .checkDepth
  unsupported hs hbegin := .unsupported hbegin (hs.2 _ .act)
  parallel {s s'} hs := by
    obtain ⟨rfl, hgaps⟩ := hs
    exact .self s fun t ht => ⟨rfl, fun g hg => hgaps g (.inner ht hg)⟩
  driver := List.forall₂_same.mpr fun s hs => ⟨rfl, fun _ hg => .inr ⟨s, hs, hg⟩⟩
  function := env.program.parallel_function? fun f hf s hs =>
    ⟨rfl, fun _ hg => .inl ⟨f, hf, s, hs, hg⟩⟩
  entryPoint := rfl

end Exec

namespace Instrumented

/-- A run that fails because something is outside the language has reached a gap of the program. -/
theorem Program.hasGap_of_run {p : Program} {config : Config} {fuel : Nat} {e : RunError}
    {text reason : String} (h : (p.run config fuel).error? = some e)
    (hcause : e.cause = .unsupported text reason) : p.HasGap ⟨text, reason, e.line⟩ := by
  have hreports : Exec.Reports p.HasGap (Exec.runProgram (Exec.meaning ⟨p, config⟩ fuel) ⟨p, config⟩) :=
    (Exec.reporting ⟨p, config⟩).runProgram (Nat.le_refl fuel)
  change (Outcome.ofResult (Exec.runProgram (Exec.meaning ⟨p, config⟩ fuel) ⟨p, config⟩
    .initial)).error? = some e at h
  cases hrun : Exec.runProgram (Exec.meaning ⟨p, config⟩ fuel) ⟨p, config⟩ .initial with
  | ok a n =>
    rw [hrun] at h
    cases h
  | error x n =>
    rw [hrun] at h
    cases x with
    | outOfFuel => cases h
    | failed e' =>
      cases h
      exact hreports _ _ e text reason hrun hcause

/-- Degradations account for what is outside the language: every such construct of a translated program is
listed with its text, its reason and its line. So a run that fails at one fails at one that is listed, and
no run of a complete program does, with any settings. -/
theorem unsupported_listed (source : String) :
    (∀ g, (translate source).HasGap g →
      g ∈ (translate source).degradations.map Degradation.gap) ∧
    (∀ config fuel e text reason, ((translate source).run config fuel).error? = some e →
      e.cause = .unsupported text reason →
      ⟨text, reason, e.line⟩ ∈ (translate source).degradations.map Degradation.gap) ∧
    ((translate source).isComplete → ∀ config fuel e text reason,
      ((translate source).run config fuel).error? = some e → e.cause ≠ .unsupported text reason) := by
  have hlisted (config : Config) (fuel : Nat) (e : RunError) (text reason : String)
      (h : ((translate source).run config fuel).error? = some e)
      (hcause : e.cause = .unsupported text reason) :
      ⟨text, reason, e.line⟩ ∈ (translate source).degradations.map Degradation.gap :=
    hasGap_translate (Program.hasGap_of_run h hcause)
  refine ⟨fun g => hasGap_translate, hlisted, fun hcomplete config fuel e text reason h hcause => ?_⟩
  have hmem := hlisted config fuel e text reason h hcause
  rw [List.isEmpty_iff.mp hcomplete] at hmem
  cases hmem

end Instrumented

end CallTrace
