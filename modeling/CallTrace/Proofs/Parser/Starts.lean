import CallTrace.Instrumented.Lower
import CallTrace.Proofs.Parser.Coverage
import CallTrace.Proofs.Parser.Passing

/-! # Lines where statements start

Lowering goes through the statements of a function in the order in which they are written.

* `Instrumented.starts`: the lines where statements start, and the first clauses of `for` statements, in the order
  in which lowering comes to them. A start is kept when a statement of the lowered function stands there. The
  first clause of a `for` statement is not, nor is the body of a `do` statement whose condition cannot be
  expressed. Blocks, `using` directives and what is inside of other statements that cannot be expressed do not
  occur at all.
* `Tokens.Lined xs ts`: the lines `xs`, and those of the tokens `ts` behind them, never fall.
* `Parser.Marks xs f p`: reading with `p` behind the lines `xs` makes the lines of what it reads out of them.
* `parse_starts_ascend`: so the starts of every function that is read never fall, from the line of its head on.
-/

namespace CallTrace
set_option autoImplicit false

/-! ## Starts -/

namespace Instrumented

/-- A line where something starts, and whether a statement of the lowered function does. -/
structure Start where
  line : Nat
  kept : Bool

def Start.drop (x : Start) : Start := { x with kept := false }

def initStarts : Surface.ForInit → List Start
  | .none => []
  | .decl d => [⟨d.pos.line, false⟩]
  | .expr _ pos => [⟨pos.line, false⟩]

mutual

def starts : Surface.Stmt → List Start
  | .decl d => [⟨d.pos.line, true⟩]
  | .expr _ pos | .output _ pos | .ret _ pos | .breakLoop pos | .continueLoop pos | .unsupported _ _ pos =>
    [⟨pos.line, true⟩]
  | .ifThen cond yes pos => ⟨pos.line, true⟩ :: if (lowerExpr cond).isOk then startsAll yes else []
  | .ifElse cond yes no pos =>
    ⟨pos.line, true⟩ :: if (lowerExpr cond).isOk then startsAll yes ++ startsAll no else []
  | .whileLoop cond body pos => ⟨pos.line, true⟩ :: if (lowerExpr cond).isOk then startsAll body else []
  | .doWhile body cond pos =>
    ⟨pos.line, true⟩ :: if (lowerExpr cond).isOk then startsAll body else (startsAll body).map Start.drop
  | .forLoop init cond update body pos =>
    ⟨pos.line, true⟩ :: (initStarts init ++
      if (lowerOption cond).isOk && (lowerOption update).isOk then startsAll body else [])
  | .block body _ => startsAll body
  | .usingDirective _ => []

def startsAll : List Surface.Stmt → List Start
  | [] => []
  | s :: ss => starts s ++ startsAll ss

end

/-- The lines of some starts. -/
def startLines (xs : List Start) : List Nat := xs.map (·.line)

@[simp] theorem startLines_append (xs ys : List Start) :
    startLines (xs ++ ys) = startLines xs ++ startLines ys := List.map_append

theorem startLines_drop (xs : List Start) : startLines (xs.map Start.drop) = startLines xs := List.map_map

end Instrumented

open Instrumented (starts startsAll startLines initStarts)

/-! ## Lines and tokens -/

/-- The lines, and those of the tokens behind them, never fall; and the end of the file is ahead. -/
structure Tokens.Lined (xs : List Nat) (ts : List Token) : Prop where
  ascending : (xs ++ ts.map (·.pos.line)).Pairwise (· ≤ ·)
  ends : ∃ t ∈ ts, t.kind = .eof

namespace Tokens.Lined

variable {xs ys : List Nat} {t : Token} {ts us : List Token}

theorem passed (h : Lined xs ts) (hp : Surface.Passed ts us) : Lined xs us :=
  ⟨h.ascending.sublist ((List.Sublist.refl xs).append hp.lines_sublist), hp.ends h.ends⟩

/-- Some of the lines are left out. -/
theorem sublist (h : Lined xs ts) (hys : ys.Sublist xs) : Lined ys ts :=
  ⟨h.ascending.sublist (hys.append_right _), h.ends⟩

/-- Something starts at the next token. -/
theorem mark (h : Lined xs (t :: ts)) : Lined (xs ++ [t.pos.line]) (t :: ts) := by
  refine ⟨?_, h.ends⟩
  have hall := h.ascending
  rw [List.map_cons] at hall ⊢
  obtain ⟨hxs, hts, hcross⟩ := List.pairwise_append.mp hall
  rw [List.append_assoc, List.singleton_append]
  refine List.pairwise_append.mpr ⟨hxs, List.pairwise_cons.mpr ⟨fun y hy => ?_, hts⟩, fun x hx y hy => ?_⟩
  · exact (List.mem_cons.mp hy).elim (fun he => Nat.le_of_eq he.symm) ((List.pairwise_cons.mp hts).1 y)
  · exact (List.mem_cons.mp hy).elim (fun he => he ▸ hcross x hx _ List.mem_cons_self) (hcross x hx y)

end Tokens.Lined

namespace Surface.Parser

variable {α β : Type} {xs ys : List Nat} {f : α → List Nat} {g : β → List Nat}

/-- Behind the lines `xs`, what `p` reads brings them to `f`. -/
def Marks (xs : List Nat) (f : α → List Nat) (p : Parser α) : Prop :=
  ∀ ⦃ts : List Token⦄ ⦃a : α⦄ ⦃us : List Token⦄, Tokens.Lined xs ts → p ts = .ok (a, us) → Tokens.Lined (f a) us

/-- As `Marks`, when the token `t` comes next. -/
def MarksAt (t : Token) (xs : List Nat) (f : α → List Nat) (p : Parser α) : Prop :=
  ∀ ⦃ts : List Token⦄ ⦃a : α⦄ ⦃us : List Token⦄, Tokens.Lined xs (t :: ts) → p (t :: ts) = .ok (a, us) →
    Tokens.Lined (f a) us

/-! ## Rules -/

namespace Marks

theorem pure {a : α} (h : (f a).Sublist xs) : Marks xs f (Pure.pure a) := by
  rintro ts _ _ hts ⟨⟩
  exact hts.sublist h

theorem fail {e : ParseError} : Marks xs f (throw e : Parser α) := by
  rintro ts _ _ - ⟨⟩

theorem bind {p : Parser α} {q : α → Parser β} (h : Marks xs f p) (hq : ∀ a, Marks (f a) g (q a)) :
    Marks xs g (p >>= q) := by
  intro ts b us hts hb
  obtain ⟨a, vs, ha, hb⟩ := ok_of_bind hb
  exact hq a (h hts ha) hb

/-- What is read does not matter to the lines. -/
theorem passing {p : Parser α} {q : α → Parser β} (h : Passes p) (hq : ∀ a, Marks xs g (q a)) :
    Marks xs g (p >>= q) := by
  intro ts b us hts hb
  obtain ⟨a, vs, ha, hb⟩ := ok_of_bind hb
  exact hq a (hts.passed (h ha)) hb

/-- The last of the lines are left out. -/
theorem left {p : Parser α} (h : Marks xs f p) (ys : List Nat) : Marks (xs ++ ys) f p :=
  fun _ _ _ hts hp => h (hts.sublist (List.sublist_append_left xs ys)) hp

/-- A token that is looked at. Something may start there. -/
theorem peek {q : Token → Parser β} (hq : ∀ t, MarksAt t (xs ++ [t.pos.line]) g (q t)) :
    Marks xs g (Parser.peek >>= q) := by
  intro ts b us hts hb
  cases ts with
  | nil =>
    obtain ⟨t, ht, -⟩ := hts.ends
    cases ht
  | cons t ts => exact hq t hts.mark hb

end Marks

theorem MarksAt.of {t : Token} {p : Parser α} (h : Marks xs f p) : MarksAt t xs f p := fun _ _ _ hts hp => h hts hp

theorem MarksAt.advance {t : Token} {q : Unit → Parser β} (hq : Marks xs g (q ())) (heof : t.kind ≠ .eof := by simp) :
    MarksAt t xs g (advance >>= q) := by
  intro ts b us hts hb
  have hrest : q () (rest (t :: ts)) = .ok (b, us) := hb
  rw [rest_cons heof] at hrest
  exact hq (hts.passed (.one heof ts)) hrest

theorem passes_get : Passes (get : Parser (List Token)) := by
  rintro ts _ _ ⟨⟩
  exact .refl ts

theorem passes_toSemicolon : Passes (modify toSemicolon : Parser Unit) := by
  rintro ts _ _ ⟨⟩
  fun_induction toSemicolon ts with
  | case1 | case2 | case3 => exact .refl _
  | case4 t ts hsemicolon heof ih => exact (Passed.one heof ts).trans ih

/-- What cannot be read starts at the next token, and tokens behind it are skipped. -/
theorem lined_recover (lines : List String) (e : ParseError) {t : Token} (ht : t.kind ≠ .eof) {ts : List Token}
    (h : Tokens.Lined xs (t :: ts)) :
    Tokens.Lined (xs ++ startLines (starts (recover lines e (t :: ts)).1)) (recover lines e (t :: ts)).2 := by
  obtain ⟨ws, -, hws, hne⟩ := recover_takes lines e ht ts
  have htakes := Takes.all ws (recover lines e (t :: ts)).2
  rw [← hws] at htakes
  exact h.mark.passed ⟨ws, htakes, hne⟩

/-! ## Declarations -/

theorem marks_expectName : Marks xs (fun r => xs ++ [r.2.line]) expectName := by
  intro ts a us hts h
  unfold expectName at h
  split at h
  · next s p us =>
    have hne : Token.Kind.name s ≠ .eof := nofun
    cases h
    exact hts.mark.passed (.one hne us)
  · cases h

theorem passes_soleArgument (es : List Expr) : Passes (soleArgument es) := by
  match es with
  | [e] => exact .pure e
  | [] | _ :: _ :: _ => exact .fail

theorem passes_exprUnless (m : Mark) (n : Nat) : Passes (exprUnless m n) := by
  refine .at? fun b => ?_
  cases b with
  | true => exact .pure none
  | false => exact (passesExpr n).expr.bind fun e => .pure (some e)

theorem passes_arraySize (n : Nat) : Passes (arraySize n) := by
  refine .at? fun b => ?_
  cases b with
  | true => exact (Passes.pure none).bind fun _ => (Passes.expect ..).bind fun _ => .pure _
  | false => exact (Passes.map (passesExpr n).expr).bind fun _ => (Passes.expect ..).bind fun _ => .pure _

theorem passes_initializer (n : Nat) (t : Ty) : Passes (initializer n t) := by
  refine (Passes.accept .eq).bind fun o => ?_
  cases o with
  | some p => exact (passesExpr n).expr.bind fun e => .pure _
  | none =>
    refine (Passes.accept .lparen).bind fun o => ?_
    cases o with
    | none => exact .pure none
    | some p =>
      cases t with
      | vector element _ _ => exact ((passesExpr n).vectorArguments element p).bind fun e => .pure _
      | scalar s _ _ =>
        exact (passesExpr n).arguments.bind fun args => (Passes.expect ..).bind fun _ =>
          (passes_soleArgument args).bind fun e => .pure _

/-- A declaration starts where its name is. -/
theorem marks_declaration (n : Nat) : Marks xs (fun d => xs ++ [d.pos.line]) (declaration n) := by
  refine .passing (walks_ty n 0).passes fun base => marks_expectName.bind ?_
  rintro ⟨name, pos⟩
  have hclose (d : VarDecl) : Marks (xs ++ [d.pos.line]) (fun d => xs ++ [d.pos.line])
      (pure d >>= fun d => expect .semicolon "after variable declaration" >>= fun _ => pure d) :=
    (Marks.pure (f := fun d : VarDecl => xs ++ [d.pos.line]) (.refl _)).bind fun d => .passing (.expect ..) fun _ =>
      .pure (.refl _)
  refine .passing (.accept .lbracket) fun o => ?_
  cases o with
  | some p =>
    exact .passing (passes_arraySize n) fun size => .passing (passes_initializer n _) fun init =>
      hclose ⟨name, .plainVector base, _, pos⟩
  | none => exact .passing (passes_initializer n base) fun init => hclose ⟨name, base, init, pos⟩

theorem marks_forInit (n : Nat) : Marks xs (fun i => xs ++ startLines (initStarts i)) (forInit n) := by
  refine .passing (.accept .semicolon) fun o => ?_
  cases o with
  | some p => exact .pure ((List.append_nil xs).symm ▸ .refl xs)
  | none =>
    refine .passing passes_get fun ts => ?_
    split
    · exact (marks_declaration n).bind fun d => .pure (.refl _)
    · exact .peek fun t => .of (.passing (passesExpr n).expr fun e => .passing (.expect ..) fun _ => .pure (.refl _))

/-! ## Statements -/

theorem passes_outputItems (n : Nat) : Passes (outputItems n) := by
  induction n with
  | zero => exact .fail
  | succ n ih =>
    unfold outputItems
    refine (Passes.accept .ltLt).bind fun o => ?_
    cases o with
    | some p => exact ((passesExpr n).binary 4).bind fun e => ih.bind fun es => .pure _
    | none => exact .pure []

theorem passes_condition (n : Nat) (place close : String) : Passes (condition n place close) :=
  (Passes.expect ..).bind fun _ => (passesExpr n).expr.bind fun e => (Passes.expect ..).bind fun _ => .pure e

theorem marks_output (n : Nat) (pos : Pos) :
    Marks (xs ++ [pos.line]) (fun s => xs ++ startLines (starts s)) (output n pos) := by
  refine .passing (passes_outputItems n) fun items => ?_
  cases items with
  | nil => exact .bind (f := fun _ => xs ++ [pos.line]) .fail fun _ => .passing (.expect ..) fun _ => .pure (.refl _)
  | cons e es => exact .passing (.expect ..) fun _ => .pure (.refl _)

theorem marks_exprStatement (n : Nat) (pos : Pos) :
    Marks (xs ++ [pos.line]) (fun s => xs ++ startLines (starts s)) (exprStatement n pos) :=
  .passing (passesExpr n).expr fun _ => .passing (.expect ..) fun _ => .pure (.refl _)

/-- What starts inside of a statement goes behind its own line. -/
theorem sublist_inner {l : Nat} {zs : List Nat} (h : ys.Sublist zs) :
    (xs ++ l :: ys).Sublist (xs ++ [l] ++ zs) := by
  rw [List.append_assoc]
  exact (List.Sublist.refl xs).append (h.cons_cons l)

/-- What is inside may be left out. -/
theorem startLines_ite_sublist (c : Bool) (ss : List Instrumented.Start) :
    (startLines (if c then ss else [])).Sublist (startLines ss) := by
  cases c with
  | true => exact .refl _
  | false => exact List.nil_sublist _

/-- All readers of statements, with `n` units of fuel. -/
structure MarksStmt (lines : List String) (n : Nat) : Prop where
  statement (xs : List Nat) : Marks xs (fun s => xs ++ startLines (starts s)) (statement lines n)
  branch (xs : List Nat) : Marks xs (fun ss => xs ++ startLines (startsAll ss)) (branch lines n)
  statements (xs : List Nat) : Marks xs (fun ss => xs ++ startLines (startsAll ss)) (statements lines n)

namespace MarksStmt

variable {lines : List String} {n : Nat} (h : MarksStmt lines n)
include h

theorem branch_succ (xs : List Nat) :
    Marks xs (fun ss => xs ++ startLines (startsAll ss)) (Parser.branch lines (n + 1)) := by
  unfold Parser.branch
  refine .passing (.accept .lbrace) fun o => ?_
  cases o with
  | some p => exact (h.statements xs).bind fun body => .passing (.expect ..) fun _ => .pure (.refl _)
  | none =>
    refine (h.statement xs).bind fun s => .pure ?_
    show (xs ++ startLines (starts s ++ [])).Sublist _
    rw [List.append_nil]

/-- A statement that is read, or one that cannot be read and is skipped. -/
theorem next {t : Token} (ht : t.kind ≠ .eof) {ts : List Token} (hts : Tokens.Lined xs (t :: ts)) :
    Tokens.Lined (xs ++ startLines (starts (nextStmt lines n (t :: ts)).1)) (nextStmt lines n (t :: ts)).2 := by
  unfold nextStmt
  split
  · next r hr => exact h.statement xs hts hr
  · next e he => exact lined_recover lines e ht hts

theorem statements_succ (xs : List Nat) :
    Marks xs (fun ss => xs ++ startLines (startsAll ss)) (Parser.statements lines (n + 1)) := by
  intro ts ss us hts hread
  obtain ⟨t, ts, rfl⟩ : ∃ t ts', ts = t :: ts' := by
    obtain ⟨t, ht, -⟩ := hts.ends
    exact List.exists_cons_of_ne_nil (List.ne_nil_of_mem ht)
  by_cases hstop : t.kind = .eof ∨ t.kind = .mark .rbrace
  · rw [statements_stop hstop] at hread
    cases hread
    refine hts.sublist ?_
    show (xs ++ []).Sublist xs
    rw [List.append_nil]
  · obtain ⟨heof, hbrace⟩ := not_or.mp hstop
    rw [statements_cons heof hbrace] at hread
    have hnext := h.next heof hts
    generalize nextStmt lines n (t :: ts) = r at hread hnext
    cases hrest : Parser.statements lines n r.2 with
    | error e => rw [hrest] at hread; cases hread
    | ok rs =>
      rw [hrest] at hread
      cases hread
      refine (h.statements _ hnext hrest).sublist ?_
      show (xs ++ startLines (starts r.1 ++ startsAll rs.1)).Sublist _
      rw [Instrumented.startLines_append, ← List.append_assoc]

theorem statement_succ (xs : List Nat) :
    Marks xs (fun s => xs ++ startLines (starts s)) (Parser.statement lines (n + 1)) := by
  unfold Parser.statement
  refine .peek fun t => ?_
  obtain ⟨kind, p⟩ := t
  have hexpr : MarksAt ⟨kind, p⟩ (xs ++ [p.line]) (fun s => xs ++ startLines (starts s)) (exprStatement n p) :=
    .of (marks_exprStatement n p)
  have hinner {ys zs : List Nat} (h : ys.Sublist zs) : (xs ++ p.line :: ys).Sublist (xs ++ [p.line] ++ zs) :=
    sublist_inner h
  have hdecl : Marks xs (fun s => xs ++ startLines (starts s)) (declaration n >>= fun d => pure (.decl d)) :=
    (marks_declaration n).bind fun d => .pure (.refl _)
  cases kind
  case word k =>
    cases k
    case returnWord =>
      exact .advance (.passing (passes_exprUnless ..) fun value => .passing (.expect ..) fun _ => .pure (.refl _))
    case ifWord =>
      refine .advance (.passing (passes_condition ..) fun cond => (h.branch _).bind fun yes =>
        .passing (.acceptWord .elseWord) fun o => ?_)
      cases o with
      | some q =>
        refine (h.branch _).bind fun no => .pure ?_
        show (xs ++ p.line :: startLines (if _ then startsAll yes ++ startsAll no else [])).Sublist _
        rw [List.append_assoc, ← Instrumented.startLines_append]
        exact hinner (startLines_ite_sublist ..)
      | none => exact .pure (hinner (startLines_ite_sublist ..))
    case whileWord =>
      exact .advance (.passing (passes_condition ..) fun cond => (h.branch _).bind fun body =>
        .pure (hinner (startLines_ite_sublist ..)))
    case doWord =>
      refine .advance ((h.branch _).bind fun body => .passing (passes_expectWord ..) fun _ =>
        .passing (passes_condition ..) fun cond => .passing (.expect ..) fun _ => .pure (hinner ?_))
      show (startLines (if _ then startsAll body else (startsAll body).map _)).Sublist _
      split
      · exact .refl _
      · rw [Instrumented.startLines_drop]
    case forWord =>
      refine .advance (.passing (.expect ..) fun _ => (marks_forInit n).bind fun init =>
        .passing (passes_exprUnless ..) fun cond => .passing (.expect ..) fun _ =>
        .passing (passes_exprUnless ..) fun update => .passing (.expect ..) fun _ => (h.branch _).bind fun body =>
        .pure ?_)
      show (xs ++ p.line :: startLines (initStarts init ++ if _ then startsAll body else [])).Sublist _
      rw [Instrumented.startLines_append, List.append_assoc (xs ++ [p.line])]
      exact hinner ((List.Sublist.refl _).append (startLines_ite_sublist ..))
    case breakWord | continueWord => exact .advance (.passing (.expect ..) fun _ => .pure (.refl _))
    case usingWord =>
      exact .advance (.passing passes_toSemicolon fun _ => .passing (.expect ..) fun _ =>
        .pure ((List.Sublist.refl xs).append (List.nil_sublist _)))
    all_goals first
      | exact hexpr
      | refine .of (.passing passes_get fun ts => ?_)
        split
        · exact .bind (f := fun _ => xs) .fail fun _ => hdecl
        · exact hdecl.left _
  case mark m =>
    cases m
    case lbrace =>
      have hblock : Marks xs (fun s => xs ++ startLines (starts s)) (Parser.statements lines n >>= fun body =>
          expect .rbrace "after block" >>= fun _ => pure (.block body p)) :=
        (h.statements xs).bind fun body => .passing (.expect ..) fun _ => .pure (.refl _)
      exact .advance (hblock.left _)
    case semicolon => exact .advance (.pure ((List.Sublist.refl xs).append (List.nil_sublist _)))
    all_goals exact hexpr
  case name s =>
    dsimp only
    split
    all_goals first
      | contradiction
      | exact .advance (marks_output n p)
      | exact hexpr
  all_goals exact hexpr

end MarksStmt

theorem marksStmt (lines : List String) (n : Nat) : MarksStmt lines n := by
  induction n with
  | zero =>
    refine ⟨fun _ => .fail, fun _ => .fail, fun xs => ?_⟩
    rw [statements.eq_def]
    refine .pure ?_
    show (xs ++ []).Sublist xs
    rw [List.append_nil]
  | succ n h => exact ⟨h.statement_succ, h.branch_succ, h.statements_succ⟩

/-! ## Programs -/

/-- The lines of a function: that of its head, and those where something starts in its body. -/
def functionLines (f : Function) : List Nat := f.pos.line :: startLines (startsAll f.body)

def itemLines : Item → List Nat
  | .function f => functionLines f
  | .declared .. | .stmt _ => []

theorem marks_function (lines : List String) (n : Nat) : Marks [] itemLines (function lines n) := by
  refine .passing (walks_ty n 0).passes fun t => marks_expectName.bind ?_
  rintro ⟨name, pos⟩
  refine .passing (.expect ..) fun _ => .passing (walks_parameters n).passes fun params => .passing (.expect ..)
    fun _ => .passing (.accept .semicolon) fun o => ?_
  cases o with
  | some p => exact .pure (List.nil_sublist _)
  | none =>
    exact .passing (.expect ..) fun _ => ((marksStmt lines n).statements _).bind fun body =>
      .passing (.expect ..) fun finish => .pure (.refl _)

theorem marks_item (lines : List String) (n : Nat) : Marks [] itemLines (item lines n) := by
  refine .passing passes_get fun ts => ?_
  split
  · exact marks_function lines n
  · exact ((marksStmt lines n).statement []).bind fun s => .pure (List.nil_sublist _)

/-- An item that is read, or one that cannot be read and is skipped. -/
theorem lined_nextItem (lines : List String) (n : Nat) {t : Token} (ht : t.kind ≠ .eof) {ts : List Token}
    (hts : Tokens.Lined [] (t :: ts)) :
    Tokens.Lined (itemLines (nextItem lines n (t :: ts)).1) (nextItem lines n (t :: ts)).2 := by
  unfold nextItem
  split
  · next r hr => exact marks_item lines n hts hr
  · next e he => exact (lined_recover lines e ht hts).sublist (List.nil_sublist _)

theorem items_ascend (lines : List String) (n k : Nat) {ts : List Token} (hts : Tokens.Lined [] ts) :
    ∀ i ∈ items lines n k ts, (itemLines i).Pairwise (· ≤ ·) := by
  induction k generalizing ts with
  | zero => exact nofun
  | succ k ih =>
    obtain ⟨t, ts, rfl⟩ : ∃ t ts', ts = t :: ts' := by
      obtain ⟨t, ht, -⟩ := hts.ends
      exact List.exists_cons_of_ne_nil (List.ne_nil_of_mem ht)
    by_cases heof : t.kind = .eof
    · rw [items_eof heof]
      exact nofun
    · have hnext := lined_nextItem lines n heof hts
      rw [items_cons heof]
      refine List.forall_mem_cons.mpr ⟨(List.pairwise_append.mp hnext.ascending).1, ih ?_⟩
      exact hnext.sublist (List.nil_sublist _)

end Parser

/-- The tokens of a text never go back to a line. -/
theorem lined_scan (source : String) : Tokens.Lined [] (Scan.scan source) := by
  obtain ⟨ts, p, hts, -⟩ := Scan.scan_ends source
  refine ⟨List.pairwise_map.mpr ((Scan.scan_places source).imp fun h => ?_), ⟨.eof, p⟩, ?_, rfl⟩
  · exact (Pos.lt_iff.mp h).elim Nat.le_of_lt fun h => Nat.le_of_eq h.1
  · rw [hts]
    exact List.mem_concat_self

/-- In every function of a text the lines where something starts never fall, and none is before the head. -/
theorem parse_starts_ascend {source : String} {f : Function} (hf : .function f ∈ parse source) :
    (Parser.functionLines f).Pairwise (· ≤ ·) :=
  Parser.items_ascend _ _ _ (lined_scan source) _ hf

end Surface

end CallTrace
