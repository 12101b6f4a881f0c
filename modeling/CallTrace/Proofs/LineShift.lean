import CallTrace.Proofs.Evaluation.Lockstep
import CallTrace.Proofs.LineShift.Statements

/-! # Lines above a program

Blank lines, comments and directives above a program move it down, and change nothing else.

* `Program.shift`: a program, some lines further down. What its statements say stays as it is, and so does
  which of them record a step.
* `translate_header`: a text with a header is translated into the program of the text, moved down.
* `Program.run_shift`: the run of a program that is moved down is the run of the program, moved down.
* `translate_run_header`: both at once.
-/

namespace CallTrace
set_option autoImplicit false

open Surface (MovedInit MovedStmt MovedBody MovedItem downAll)

namespace Instrumented

/-! ## Programs that are moved down -/

def Degradation.shift (k : Nat) (d : Degradation) : Degradation := { d with pos := d.pos.down k }

mutual

/-- A statement, `k` lines further down. -/
def Stmt.shift (k : Nat) : Stmt → Stmt
  | .act line step action => .act (line + k) step action
  | .ifElse line step cond yes no => .ifElse (line + k) step cond (shiftBody k yes) (shiftBody k no)
  | .whileLoop line step cond body => .whileLoop (line + k) step cond (shiftBody k body)
  | .doWhile line step body cond => .doWhile (line + k) step (shiftBody k body) cond
  | .forLoop line step init cond update body =>
    .forLoop (line + k) step (shiftInit k init) cond update (shiftBody k body)
  | .block line step body => .block (line + k) step (shiftBody k body)
  | .breakLoop line step => .breakLoop (line + k) step
  | .continueLoop line step => .continueLoop (line + k) step
  | .ret line step value => .ret (line + k) step value

def shiftBody (k : Nat) : List Stmt → List Stmt
  | [] => []
  | s :: ss => s.shift k :: shiftBody k ss

end

theorem shiftBody_eq_map (k : Nat) (body : List Stmt) : shiftBody k body = body.map (Stmt.shift k) := by
  induction body with
  | nil => rfl
  | cons s ss ih => exact congrArg (s.shift k :: ·) ih

def Function.shift (k : Nat) (f : Function) : Function :=
  { f with body := shiftBody k f.body, line := f.line + k, endLine := f.endLine + k }

/-- A program, `k` lines further down. -/
def Program.shift (k : Nat) (p : Program) : Program :=
  ⟨p.functions.map (Function.shift k), shiftBody k p.driver, p.degradations.map (Degradation.shift k)⟩

/-! ## Expressions have no lines -/

variable {k : Nat}

theorem length_downAll (es : List Surface.Expr) : (downAll k es).length = es.length := by
  induction es with
  | nil => rfl
  | cons e es ih => exact congrArg (· + 1) ih

mutual

theorem lowerExpr_down : ∀ e : Surface.Expr, lowerExpr (e.down k) = lowerExpr e
  | .int .. | .float .. | .bool .. | .char .. | .str .. | .var .. => rfl
  | .list items _ => by simp only [Surface.Expr.down, lowerExpr, lowerExprs_down items]
  | .sized size _ _ => by simp only [Surface.Expr.down, lowerExpr, lowerExpr_down size]
  | .filled size fill _ _ => by
    simp only [Surface.Expr.down, lowerExpr, lowerExpr_down size, lowerExpr_down fill]
  | .binary _ left right _ => by
    simp only [Surface.Expr.down, lowerExpr, lowerExpr_down left, lowerExpr_down right]
  | .unary op operand _ => by
    cases op <;> simp only [Surface.Expr.down, lowerExpr, lowerExpr_down operand, lowerPlace_down operand]
  | .ternary cond yes no _ => by
    simp only [Surface.Expr.down, lowerExpr, lowerExpr_down cond, lowerExpr_down yes, lowerExpr_down no]
  | .assign target value _ => by
    simp only [Surface.Expr.down, lowerExpr, lowerPlace_down target, lowerExpr_down value]
  | .compound target _ value _ => by
    simp only [Surface.Expr.down, lowerExpr, lowerPlace_down target, lowerExpr_down value]
  | .call _ args _ => by simp only [Surface.Expr.down, lowerExpr, lowerExprs_down args]
  | .method object _ args _ => by
    simp only [Surface.Expr.down, lowerExpr, length_downAll, lowerExpr_down object, lowerExprs_down args]
  | .index base index _ => by
    simp only [Surface.Expr.down, lowerExpr, lowerExpr_down base, lowerExpr_down index]

theorem lowerExprs_down : ∀ es : List Surface.Expr, lowerExprs (downAll k es) = lowerExprs es
  | [] => rfl
  | e :: es => by simp only [downAll, lowerExprs, lowerExpr_down e, lowerExprs_down es]

theorem lowerPlace_down : ∀ e : Surface.Expr, lowerPlace (e.down k) = lowerPlace e
  | .index base index _ => by
    simp only [Surface.Expr.down, lowerPlace, lowerExpr_down base, lowerExpr_down index]
  | .int .. | .float .. | .bool .. | .char .. | .str .. | .var .. | .list .. | .sized .. | .filled ..
  | .binary .. | .unary .. | .ternary .. | .assign .. | .compound .. | .call .. | .method .. => rfl

end

theorem lowerOption_down (o : Option Surface.Expr) : lowerOption (o.map (Surface.Expr.down k)) = lowerOption o := by
  cases o with
  | none => rfl
  | some e => simp only [Option.map_some, lowerOption, lowerExpr_down e]

theorem lowerDecl_down (d : Surface.VarDecl) : lowerDecl (d.down k) = lowerDecl d := by
  obtain ⟨name, ty, init, pos⟩ := d
  cases init with
  | none => rfl
  | some e => simp only [Surface.VarDecl.down, lowerDecl, Option.map_some, lowerExpr_down e]

theorem lowerAction_call {name : String} (h : name ≠ "printf") (args : List Surface.Expr) (pos : Pos) :
    lowerAction (.call name args pos) = (lowerExpr (.call name args pos) >>= fun x => pure (.eval x)) := by
  unfold lowerAction
  split
  · next heq => cases heq; exact absurd rfl h
  · next heq => cases heq; exact absurd rfl h
  · rfl

theorem lowerAction_down (e : Surface.Expr) : lowerAction (e.down k) = lowerAction e := by
  have heval (e : Surface.Expr) : (lowerExpr (e.down k) >>= fun x => pure (Action.eval x) : Except Refusal Action) =
      (lowerExpr e >>= fun x => pure (Action.eval x)) := by rw [lowerExpr_down e]
  cases e
  case call name args pos =>
    by_cases hname : name = "printf"
    · subst hname
      cases args with
      | nil => rfl
      | cons format args =>
        simp only [Surface.Expr.down, downAll, lowerAction, lowerExpr_down format, lowerExprs_down args]
    · rw [lowerAction_call hname, ← heval]
      exact lowerAction_call hname _ _
  all_goals exact heval _

theorem endsLine_down (e : Surface.Expr) : endsLine (e.down k) = endsLine e := by
  have hvar (name : String) (pos : Pos) : endsLine (.var name pos) = decide (name = "endl") := by
    unfold endsLine
    split
    · next heq => cases heq; rfl
    · next hne => exact (decide_eq_false fun h => hne pos (congrArg (Surface.Expr.var · pos) h)).symm
  cases e
  case var name pos => exact (hvar name _).trans (hvar name pos).symm
  all_goals rfl

theorem lowerOutput_down (items : List Surface.Expr) : lowerOutput (downAll k items) = lowerOutput items := by
  have hfilter : (downAll k items).filter (fun e => !endsLine e) =
      downAll k (items.filter fun e => !endsLine e) := by
    induction items with
    | nil => rfl
    | cons e es ih =>
      rw [downAll, List.filter_cons, List.filter_cons, endsLine_down, ih]
      split <;> rfl
  rw [lowerOutput, hfilter, lowerExprs_down]
  rfl

/-! ## Statements keep their text -/

/-- What lowering remembers, `k` lines further down. -/
def Lowering.shift (k : Nat) (s : Lowering) : Lowering :=
  ⟨s.stepped.map (· + k), s.degradations.map (Degradation.shift k)⟩

variable {α β : Type} {f : α → α} {g : β → β}

/-- From what is remembered further down, `d` does what `c` does; `f` moves what it gives. -/
def Lower.Moves (k : Nat) (f : α → α) (c d : Lower α) : Prop :=
  ∀ s, d.run (s.shift k) = (f (c.run s).1, (c.run s).2.shift k)

namespace Lower.Moves

theorem pure (a : α) : Moves k f (Pure.pure a) (Pure.pure (f a)) := fun _ => rfl

theorem bind {c d : Lower α} {r t : α → Lower β} (h : Moves k f c d) (hr : ∀ a, Moves k g (r a) (t (f a))) :
    Moves k g (c >>= r) (d >>= t) := by
  intro s
  have hd := h s
  show (t (d.run (s.shift k)).1).run (d.run (s.shift k)).2 = _
  rw [hd]
  exact hr _ _

/-- What is given has no lines. -/
theorem bind_id {c d : Lower α} {r t : α → Lower β} (h : Moves k id c d) (hr : ∀ a, Moves k g (r a) (t a)) :
    Moves k g (c >>= r) (d >>= t) := h.bind hr

end Lower.Moves

open Lower (Moves)

theorem moves_stepAt (line : Nat) : Moves k id (stepAt line) (stepAt (line + k)) := by
  intro s
  have hstepped : (s.shift k).stepped = some (line + k) ↔ s.stepped = some line := by
    obtain ⟨stepped, degradations⟩ := s
    cases stepped with
    | none => exact ⟨nofun, nofun⟩
    | some n => simp [Lowering.shift]
  show stepAt (line + k) (s.shift k) = (id (stepAt line s).1, (stepAt line s).2.shift k)
  unfold stepAt
  by_cases h : s.stepped = some line
  · rw [if_pos h, if_pos (hstepped.2 h)]
    rfl
  · rw [if_neg h, if_neg fun hs => h (hstepped.1 hs)]
    rfl

theorem moves_degrade (text reason : String) (pos : Pos) :
    Moves k id (degrade text reason pos) (degrade text reason (pos.down k)) := fun _ => rfl

variable {above lines : List String}

theorem lineText_append {line : Nat} (h : 1 ≤ line) :
    lineText (above ++ lines) (line + above.length) = lineText lines line := by
  have hindex : line + above.length - 1 - above.length = line - 1 := by omega
  unfold lineText
  rw [List.getElem?_append_right (by omega), hindex]

theorem moves_refuse {pos : Pos} (h : 1 ≤ pos.line) (r : Refusal) :
    Moves above.length id (refuse lines pos r) (refuse (above ++ lines) (pos.down above.length) r) := by
  unfold refuse
  rw [show (pos.down above.length).line = pos.line + above.length from rfl, lineText_append h]
  exact (moves_degrade (lineText lines pos.line) r.message pos).bind_id fun _ => .pure _

theorem moves_orRefuse {pos : Pos} (h : 1 ≤ pos.line) (a : Except Refusal Action) :
    Moves above.length id (orRefuse lines pos a) (orRefuse (above ++ lines) (pos.down above.length) a) := by
  cases a with
  | ok a => exact .pure a
  | error r => exact moves_refuse h r

theorem moves_lowerInit {init init' : Surface.ForInit} (h : MovedInit above.length init init') :
    Moves above.length (shiftInit above.length) (lowerInit lines init) (lowerInit (above ++ lines) init') := by
  cases h with
  | none => exact .pure _
  | decl d h =>
    rw [lowerInit, lowerInit, lowerDecl_down]
    exact (moves_stepAt _).bind_id fun _ => (moves_orRefuse h _).bind_id fun a => .pure (some (d.pos.line, a))
  | @expr e pos h =>
    rw [lowerInit, lowerInit, lowerAction_down]
    exact (moves_stepAt _).bind_id fun _ => (moves_orRefuse h _).bind_id fun a => .pure (some (pos.line, a))

mutual

theorem moves_lowerStmt {s s' : Surface.Stmt} (h : MovedStmt above.length s s') :
    Moves above.length (Option.map (Stmt.shift above.length)) (lowerStmt lines s)
      (lowerStmt (above ++ lines) s') :=
  have hrefuse {pos : Pos} (hpos : 1 ≤ pos.line) (step : Bool) (r : Refusal) :
      Moves above.length (Option.map (Stmt.shift above.length))
        (refuse lines pos r >>= fun a => pure (some (.act pos.line step a)))
        (refuse (above ++ lines) (pos.down above.length) r >>= fun a =>
          pure (some (.act (pos.line + above.length) step a))) :=
    (moves_refuse hpos r).bind_id fun a => .pure (some (Stmt.act pos.line step a))
  match h with
  | .decl d hd => by
    rw [lowerStmt, lowerStmt, lowerDecl_down]
    exact (moves_stepAt _).bind_id fun step => (moves_orRefuse hd _).bind_id fun a =>
      .pure (some (Stmt.act d.pos.line step a))
  | @MovedStmt.expr _ e pos hpos => by
    rw [lowerStmt, lowerStmt, lowerAction_down]
    exact (moves_stepAt _).bind_id fun step => (moves_orRefuse hpos _).bind_id fun a =>
      .pure (some (Stmt.act pos.line step a))
  | @MovedStmt.output _ items pos hpos => by
    rw [lowerStmt, lowerStmt, lowerOutput_down]
    exact (moves_stepAt _).bind_id fun step => (moves_orRefuse hpos _).bind_id fun a =>
      .pure (some (Stmt.act pos.line step a))
  | @MovedStmt.ret _ value pos hpos => by
    rw [lowerStmt, lowerStmt, lowerOption_down]
    refine (moves_stepAt _).bind_id fun step => ?_
    cases lowerOption value with
    | ok v => exact .pure (some (Stmt.ret pos.line step v))
    | error r => exact hrefuse hpos step r
  | @MovedStmt.ifThen _ cond _ _ pos hpos hyes => by
    rw [lowerStmt, lowerStmt, lowerExpr_down]
    refine (moves_stepAt _).bind_id fun step => ?_
    cases lowerExpr cond with
    | ok c => exact (moves_lowerBody hyes).bind fun y => .pure (some (Stmt.ifElse pos.line step c y []))
    | error r => exact hrefuse hpos step r
  | @MovedStmt.ifElse _ cond _ _ _ _ pos hpos hyes hno => by
    rw [lowerStmt, lowerStmt, lowerExpr_down]
    refine (moves_stepAt _).bind_id fun step => ?_
    cases lowerExpr cond with
    | ok c =>
      exact (moves_lowerBody hyes).bind fun y => (moves_lowerBody hno).bind fun n =>
        .pure (some (Stmt.ifElse pos.line step c y n))
    | error r => exact hrefuse hpos step r
  | @MovedStmt.whileLoop _ cond _ _ pos hpos hbody => by
    rw [lowerStmt, lowerStmt, lowerExpr_down]
    refine (moves_stepAt _).bind_id fun step => ?_
    cases lowerExpr cond with
    | ok c => exact (moves_lowerBody hbody).bind fun b => .pure (some (Stmt.whileLoop pos.line step c b))
    | error r => exact hrefuse hpos step r
  | @MovedStmt.doWhile _ cond _ _ pos hpos hbody => by
    rw [lowerStmt, lowerStmt, lowerExpr_down]
    refine (moves_stepAt _).bind_id fun step => (moves_lowerBody hbody).bind fun b => ?_
    cases lowerExpr cond with
    | ok c => exact .pure (some (Stmt.doWhile pos.line step b c))
    | error r => exact hrefuse hpos step r
  | @MovedStmt.forLoop _ _ _ cond update _ _ pos hpos hinit hbody => by
    rw [lowerStmt, lowerStmt, lowerOption_down, lowerOption_down]
    refine (moves_stepAt _).bind_id fun step => (moves_lowerInit hinit).bind fun i => ?_
    cases lowerOption cond with
    | error r => exact hrefuse hpos step r
    | ok c =>
      cases lowerOption update with
      | error r => exact hrefuse hpos step r
      | ok u => exact (moves_lowerBody hbody).bind fun b => .pure (some (Stmt.forLoop pos.line step i c u b))
  | .block pos hbody => by
    rw [lowerStmt, lowerStmt]
    exact (moves_lowerBody hbody).bind fun b => .pure (some (Stmt.block pos.line false b))
  | .breakLoop pos => by
    rw [lowerStmt, lowerStmt]
    exact (moves_stepAt _).bind_id fun step => .pure (some (Stmt.breakLoop pos.line step))
  | .continueLoop pos => by
    rw [lowerStmt, lowerStmt]
    exact (moves_stepAt _).bind_id fun step => .pure (some (Stmt.continueLoop pos.line step))
  | .usingDirective pos => .pure none
  | .unsupported text reason pos => by
    rw [lowerStmt, lowerStmt]
    exact (moves_degrade text reason pos).bind_id fun _ => (moves_stepAt _).bind_id fun step =>
      .pure (some (Stmt.act pos.line step (.unsupported text reason)))

theorem moves_lowerBody {body body' : List Surface.Stmt} (h : MovedBody above.length body body') :
    Moves above.length (shiftBody above.length) (lowerBody lines body) (lowerBody (above ++ lines) body') :=
  match h with
  | .nil => .pure []
  | .cons hs hrest => by
    rw [lowerBody, lowerBody]
    refine (moves_lowerStmt hs).bind fun o => ?_
    cases o with
    | none => exact moves_lowerBody hrest
    | some x => exact (moves_lowerBody hrest).bind fun xs => .pure (x :: xs)

end

/-! ## Whole programs -/

theorem moves_lowerFunction {name : String} {ty : Surface.Ty} {params : List Surface.Param}
    {body body' : List Surface.Stmt} (pos finish : Pos) (h : MovedBody above.length body body') :
    Moves above.length (Function.shift above.length)
      (lowerFunction lines ⟨name, ty, params, body, pos, finish⟩)
      (lowerFunction (above ++ lines)
        ⟨name, ty, params, body', pos.down above.length, finish.down above.length⟩) := by
  have hhead : Moves above.length id
      (modify fun s : Lowering => { s with stepped := some pos.line } : Lower PUnit)
      (modify fun s : Lowering => { s with stepped := some (pos.line + above.length) }) := fun _ => rfl
  exact hhead.bind_id fun _ => (moves_lowerBody h).bind fun b =>
    .pure (Function.mk name (lowerParams 0 params) b pos.line finish.line)

theorem addFunction_shift (f : Function) (fs : List Function) :
    addFunction (f.shift k) (fs.map (Function.shift k)) = (addFunction f fs).map (Function.shift k) := by
  induction fs with
  | nil => rfl
  | cons g gs ih =>
    rw [List.map_cons, addFunction, addFunction, ih]
    show (if g.name = f.name then _ else _) = _
    split <;> rfl

/-- The functions and statements of a program, `k` lines further down. -/
def shiftParts (k : Nat) (parts : List Function × List Stmt) : List Function × List Stmt :=
  (parts.1.map (Function.shift k), shiftBody k parts.2)

/-- A statement outside any function goes to the driver. -/
theorem moves_lowerDriver {s s' : Surface.Stmt} (h : MovedStmt above.length s s') (fs : List Function)
    (ds : List Stmt) : Moves above.length (shiftParts above.length)
      (lowerStmt lines s >>= fun o => match o with
        | some x => pure (fs, x :: ds)
        | none => pure (fs, ds))
      (lowerStmt (above ++ lines) s' >>= fun o => match o with
        | some x => pure (fs.map (Function.shift above.length), x :: shiftBody above.length ds)
        | none => pure (fs.map (Function.shift above.length), shiftBody above.length ds)) := by
  refine (moves_lowerStmt h).bind fun o => ?_
  cases o with
  | some x => exact .pure (fs, x :: ds)
  | none => exact .pure (fs, ds)

theorem moves_lowerItem {i i' : Surface.Item} (h : MovedItem above.length i i') (fs : List Function)
    (ds : List Stmt) : Moves above.length (shiftParts above.length) (lowerItem lines fs ds i)
      (lowerItem (above ++ lines) (fs.map (Function.shift above.length)) (shiftBody above.length ds) i') := by
  cases h with
  | function name ty params pos finish hbody =>
    refine (moves_lowerFunction pos finish hbody).bind fun f => ?_
    rw [addFunction_shift]
    exact .pure (addFunction f fs, ds)
  | declared name ty params pos => exact .pure (fs, ds)
  | @stmt s s' h =>
    have hother := @moves_lowerDriver above lines _ _ h fs ds
    cases h with
    | unsupported text reason pos =>
      refine (moves_degrade text reason pos).bind_id fun _ => ?_
      split
      · exact .pure (fs, ds)
      · exact .pure (fs, Stmt.act pos.line false (.unsupported text reason) :: ds)
    | _ => exact hother

theorem moves_lowerItems {is is' : List Surface.Item} (h : List.Forall₂ (MovedItem above.length) is is')
    (fs : List Function) (ds : List Stmt) :
    Moves above.length (shiftParts above.length) (lowerItems lines fs ds is)
      (lowerItems (above ++ lines) (fs.map (Function.shift above.length)) (shiftBody above.length ds) is') := by
  induction h generalizing fs ds with
  | nil => exact .pure (fs, ds)
  | cons hi _ ih => exact (moves_lowerItem hi fs ds).bind fun parts => ih parts.1 parts.2

/-- A text with a header is translated into the program of the text, moved down. -/
theorem translate_header {header : List (List Char)} (h : ∀ line ∈ header, Scan.SkippedLine line)
    (source : String) : translate (String.ofList (Scan.header header) ++ source) =
      (translate source).shift header.length := by
  obtain ⟨above, hlength, hlines⟩ := Scan.lines_header h source
  have hparse := Surface.parse_header h source
  rw [← hlength] at hparse ⊢
  have hitems : (lowerItems (above ++ Text.lines source) [] []
      (Surface.parse (String.ofList (Scan.header header) ++ source))).run ⟨none, []⟩ = _ :=
    moves_lowerItems hparse [] [] ⟨none, []⟩
  unfold translate
  rw [hlines, hitems]
  generalize (lowerItems (Text.lines source) [] [] (Surface.parse source)).run ⟨none, []⟩ = r
  obtain ⟨⟨functions, driver⟩, s⟩ := r
  have hdriver : (shiftBody above.length driver).reverse = shiftBody above.length driver.reverse := by
    rw [shiftBody_eq_map, shiftBody_eq_map, List.map_reverse]
  exact congr (congrArg (Program.mk _) hdriver) List.map_reverse.symm

end Instrumented

/-! ## Runs -/

namespace Exec

variable {k : Nat}

theorem moved_shift (k : Nat) (s : Instrumented.Stmt) :
    s.Moved k (fun body body' => body' = Instrumented.shiftBody k body) (s.shift k) := by
  cases s with
  | act line step action => exact .act line step action
  | ifElse line step cond yes no => exact .ifElse line step cond rfl rfl
  | whileLoop line step cond body => exact .whileLoop line step cond rfl
  | doWhile line step body cond => exact .doWhile line step cond rfl
  | forLoop line step init cond update body => exact .forLoop line step init cond update rfl
  | block line step body => exact .block line step rfl
  | breakLoop line step => exact .breakLoop line step
  | continueLoop line step => exact .continueLoop line step
  | ret line step value => exact .ret line step value

/-- A program goes on in lockstep with itself, moved down. -/
def shifting (k : Nat) (p : Instrumented.Program) (config : Config) :
    Rewriting ⟨p, config⟩ ⟨p.shift k, config⟩ where
  distance := k
  on _ _ _ := True
  Same s s' := s' = s.shift k
  Body body body' := body' = Instrumented.shiftBody k body
  start _ := trivial
  part _ _ := trivial
  nil h := h
  cons h := .inl ⟨_, _, h, rfl, rfl⟩
  same h := .inl (h ▸ moved_shift k _)
  config := rfl
  driver := rfl
  function name := by
    show Option.Rel _ (p.function? name) ((p.functions.map (Instrumented.Function.shift k)).find? (·.name == name))
    rw [List.find?_map]
    show Option.Rel _ (p.functions.find? (·.name == name)) ((p.functions.find? (·.name == name)).map _)
    cases p.functions.find? (·.name == name) with
    | none => exact .none
    | some f => exact .some ⟨⟨rfl, rfl, rfl, rfl⟩, rfl⟩

/-- The state before a run, with a line. -/
def startAt (line : Nat) : Machine := ⟨.empty, .empty, .empty, line, false⟩

theorem shift_initial (k : Nat) : Machine.initial.shift k = startAt (1 + k) := by
  have hrecorder : Recorder.empty.shift k = Recorder.empty := by simp [Recorder.shift, Timeline.shift, Recorder.empty]
  exact congrArg (Machine.mk .empty .empty · (1 + k) false) hrecorder

/-- The line of the state before a run is not looked at. -/
theorem runProgram_startAt (env : Env) (fuel line : Nat) :
    Outcome.ofResult (runProgram (meaning env fuel) env (startAt line)) =
      Outcome.ofResult (runProgram (meaning env fuel) env .initial) := by
  unfold runProgram
  cases env.program.driver with
  | nil =>
    -- Nothing runs at top level: the entry function sets the line, or nothing reads it.
    show Outcome.ofResult (runEntry _ env (startAt line)) = Outcome.ofResult (runEntry _ env (startAt 1))
    unfold runEntry
    cases env.program.function? env.config.entryPoint with
    | none => rfl
    | some f =>
      dsimp only
      cases f.params.isEmpty <;> rfl
  | cons s rest =>
    cases fuel with
    | zero => rfl
    | succ fuel => rfl

end Exec

namespace Instrumented

/-- A program that is moved down runs as before, with every line moved down. -/
theorem Program.run_shift (k : Nat) (p : Program) (config : Config) (fuel : Nat) :
    (p.shift k).run config fuel = (p.run config fuel).shift k := by
  have hrun : Exec.runProgram (Exec.meaning ⟨p.shift k, config⟩ fuel) ⟨p.shift k, config⟩
      (Machine.initial.shift k) = Exec.shiftResult k (Exec.runProgram (Exec.meaning ⟨p, config⟩ fuel)
        ⟨p, config⟩ .initial) := (Exec.shifting k p config).runProgram fuel
  have hline := Exec.runProgram_startAt ⟨p.shift k, config⟩ fuel (1 + k)
  rw [← Exec.shift_initial, hrun, Exec.ofResult_shiftResult] at hline
  exact hline.symm

/-- Lines above a program that hold no token. A text with such a header is translated into the program of the
text with every statement, function and gap as many lines further down, and nothing else changed; and under
every configuration that program runs to the same outcome and the same timeline, with the lines of the error
and of the events, and the line that a step names, moved down by as much. -/
theorem translate_run_header {header : List (List Char)} (h : ∀ line ∈ header, Scan.SkippedLine line)
    (source : String) :
    translate (String.ofList (Scan.header header) ++ source) = (translate source).shift header.length ∧
    ∀ config fuel, (translate (String.ofList (Scan.header header) ++ source)).run config fuel =
      ((translate source).run config fuel).shift header.length := by
  have htranslate := translate_header h source
  exact ⟨htranslate, fun config fuel => htranslate ▸ (translate source).run_shift _ config fuel⟩

/-- A directive, a comment after a blank, and an empty line above a program. -/
theorem translate_run_header_three :
    (∀ line ∈ ["#x".toList, " // y".toList, []], Scan.SkippedLine line) ∧
    translate ("#x\n // y\n\n" ++ "int f() { return 1; } f();") =
      (translate "int f() { return 1; } f();").shift 3 ∧
    ∀ config fuel, (translate ("#x\n // y\n\n" ++ "int f() { return 1; } f();")).run config fuel =
      ((translate "int f() { return 1; } f();").run config fuel).shift 3 := by
  have h : ∀ line ∈ ["#x".toList, " // y".toList, []], Scan.SkippedLine line := by
    intro line hline
    rcases List.mem_cons.1 hline with rfl | hline
    · exact @Scan.SkippedLine.directive [] ['x'] nofun (by decide)
    rcases List.mem_cons.1 hline with rfl | hline
    · exact @Scan.SkippedLine.comment [' '] [' ', 'y'] (fun c hc => .inl (List.mem_singleton.1 hc)) (by decide)
    · cases List.mem_singleton.1 hline
      exact .blank nofun
  exact ⟨h, translate_run_header h "int f() { return 1; } f();"⟩

end Instrumented

end CallTrace
