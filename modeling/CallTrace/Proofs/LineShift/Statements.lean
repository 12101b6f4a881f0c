import CallTrace.Proofs.LineShift.Trees
import CallTrace.Surface.Parser.Statement
import Mathlib.Data.List.Forall2

/-! # Programs that start further down

What cannot be read is kept as the text of its lines, which are found by their number. A header adds as many
lines before them as their numbers grow by.

* `MovedStmt`, `MovedItem`: the same statement and the same item at top level, some lines further down.
* `Parser.moved_recover`: what cannot be read has the same text.
* `parse_header`: the items of a text with a header are those of the text, as many lines further down as the
  header has.
-/

namespace CallTrace
set_option autoImplicit false

/-! ## The lines of a text -/

namespace Text

theorem linesFrom_line {cs : List Char} (h : '\n' ∉ cs) (line rest : List Char) :
    linesFrom line (cs ++ '\n' :: rest) = closeLine (cs.reverse ++ line) :: linesFrom [] rest := by
  induction cs generalizing line with
  | nil => rw [List.nil_append, linesFrom]; rfl
  | cons c cs ih =>
    have hc : c ≠ '\n' := fun hc => h (hc ▸ List.mem_cons_self ..)
    rw [List.cons_append, linesFrom, ih (fun hmem => h (List.mem_cons_of_mem _ hmem)), List.reverse_cons,
      List.append_assoc, List.singleton_append]
    exact hc

end Text

namespace Scan

theorem SkippedLine.not_mem {line : List Char} (h : SkippedLine line) : '\n' ∉ line := by
  have hblank {cs : List Char} (h : ∀ c ∈ cs, c = ' ' ∨ c = '\t' ∨ c = '\r') : '\n' ∉ cs :=
    fun hmem => absurd (h _ hmem) (by decide)
  cases h with
  | blank h => exact hblank h
  | comment h htext | directive h htext => simp [hblank h, htext]

/-- A header adds its lines before those of a text. -/
theorem lines_header {lines : List (List Char)} (h : ∀ line ∈ lines, SkippedLine line) (source : String) :
    ∃ above : List String, above.length = lines.length ∧
      Text.lines (String.ofList (header lines) ++ source) = above ++ Text.lines source := by
  unfold Text.lines
  rw [String.toList_append, String.toList_ofList]
  induction lines with
  | nil => exact ⟨[], rfl, rfl⟩
  | cons line lines ih =>
    obtain ⟨above, hlength, hlines⟩ := ih fun l hl => h l (List.mem_cons_of_mem _ hl)
    refine ⟨String.ofList (Text.closeLine (line.reverse ++ [])) :: above, congrArg (· + 1) hlength, ?_⟩
    rw [header, List.flatMap_cons, List.append_assoc, List.append_assoc, List.singleton_append,
      Text.linesFrom_line (h line (List.mem_cons_self ..)).not_mem, List.map_cons, List.cons_append]
    exact congrArg _ hlines

end Scan

namespace Surface

/-! ## Trees -/

def VarDecl.down (k : Nat) (d : VarDecl) : VarDecl := ⟨d.name, d.ty, d.init.map (Expr.down k), d.pos.down k⟩

/-- The same first clause of a `for` statement, `k` lines further down. -/
inductive MovedInit (k : Nat) : ForInit → ForInit → Prop where
  | none : MovedInit k .none .none
  | decl (d : VarDecl) (h : 1 ≤ d.pos.line) : MovedInit k (.decl d) (.decl (d.down k))
  | expr (e : Expr) {pos : Pos} (h : 1 ≤ pos.line) : MovedInit k (.expr e pos) (.expr (e.down k) (pos.down k))

mutual

/-- The same statement, `k` lines further down. -/
inductive MovedStmt (k : Nat) : Stmt → Stmt → Prop where
  | decl (d : VarDecl) (h : 1 ≤ d.pos.line) : MovedStmt k (.decl d) (.decl (d.down k))
  | expr (e : Expr) {pos : Pos} (h : 1 ≤ pos.line) : MovedStmt k (.expr e pos) (.expr (e.down k) (pos.down k))
  | output (items : List Expr) {pos : Pos} (h : 1 ≤ pos.line) :
      MovedStmt k (.output items pos) (.output (downAll k items) (pos.down k))
  | ret (value : Option Expr) {pos : Pos} (h : 1 ≤ pos.line) :
      MovedStmt k (.ret value pos) (.ret (value.map (Expr.down k)) (pos.down k))
  | ifThen (cond : Expr) {yes yes' : List Stmt} {pos : Pos} (h : 1 ≤ pos.line) (hyes : MovedBody k yes yes') :
      MovedStmt k (.ifThen cond yes pos) (.ifThen (cond.down k) yes' (pos.down k))
  | ifElse (cond : Expr) {yes yes' no no' : List Stmt} {pos : Pos} (h : 1 ≤ pos.line)
      (hyes : MovedBody k yes yes') (hno : MovedBody k no no') :
      MovedStmt k (.ifElse cond yes no pos) (.ifElse (cond.down k) yes' no' (pos.down k))
  | whileLoop (cond : Expr) {body body' : List Stmt} {pos : Pos} (h : 1 ≤ pos.line)
      (hbody : MovedBody k body body') :
      MovedStmt k (.whileLoop cond body pos) (.whileLoop (cond.down k) body' (pos.down k))
  | doWhile (cond : Expr) {body body' : List Stmt} {pos : Pos} (h : 1 ≤ pos.line)
      (hbody : MovedBody k body body') :
      MovedStmt k (.doWhile body cond pos) (.doWhile body' (cond.down k) (pos.down k))
  | forLoop {init init' : ForInit} (cond update : Option Expr) {body body' : List Stmt} {pos : Pos}
      (h : 1 ≤ pos.line) (hinit : MovedInit k init init') (hbody : MovedBody k body body') :
      MovedStmt k (.forLoop init cond update body pos)
        (.forLoop init' (cond.map (Expr.down k)) (update.map (Expr.down k)) body' (pos.down k))
  | block {body body' : List Stmt} (pos : Pos) (hbody : MovedBody k body body') :
      MovedStmt k (.block body pos) (.block body' (pos.down k))
  | breakLoop (pos : Pos) : MovedStmt k (.breakLoop pos) (.breakLoop (pos.down k))
  | continueLoop (pos : Pos) : MovedStmt k (.continueLoop pos) (.continueLoop (pos.down k))
  | usingDirective (pos : Pos) : MovedStmt k (.usingDirective pos) (.usingDirective (pos.down k))
  | unsupported (text reason : String) (pos : Pos) :
      MovedStmt k (.unsupported text reason pos) (.unsupported text reason (pos.down k))

/-- The same statements, `k` lines further down. -/
inductive MovedBody (k : Nat) : List Stmt → List Stmt → Prop where
  | nil : MovedBody k [] []
  | cons {s s' : Stmt} {ss ss' : List Stmt} (hs : MovedStmt k s s') (h : MovedBody k ss ss') :
      MovedBody k (s :: ss) (s' :: ss')

end

/-- The same item at top level, `k` lines further down. -/
inductive MovedItem (k : Nat) : Item → Item → Prop where
  | function (name : String) (ty : Ty) (params : List Param) {body body' : List Stmt} (pos finish : Pos)
      (h : MovedBody k body body') : MovedItem k (.function ⟨name, ty, params, body, pos, finish⟩)
        (.function ⟨name, ty, params, body', pos.down k, finish.down k⟩)
  | declared (name : String) (ty : Ty) (params : List Param) (pos : Pos) :
      MovedItem k (.declared name ty params pos) (.declared name ty params (pos.down k))
  | stmt {s s' : Stmt} (h : MovedStmt k s s') : MovedItem k (.stmt s) (.stmt s')

namespace Parser

variable {k : Nat} {α β : Type} {R : α → α → Prop} {S : β → β → Prop}

/-! ## Recovery -/

structure MovedSkip (k : Nat) (s s' : Skipped) : Prop where
  line_eq : s'.line = s.line + k
  rest : Tokens.Moved k s.rest s'.rest

theorem moved_skipConstruct {ts us : List Token} (h : Tokens.Moved k ts us) (braces parens : Nat)
    (first : Bool) (line : Nat) : MovedSkip k (skipConstruct braces parens first line ts)
      (skipConstruct braces parens first (line + k) us) := by
  induction h generalizing braces parens first line with
  | eof hp => exact ⟨rfl, .eof hp⟩
  | @cons kind p ts us hkind hp hrest ih =>
    cases kind
    case eof => exact absurd rfl hkind
    case mark m =>
      cases m
      case lbrace | lparen | rparen => exact ih ..
      case semicolon =>
        unfold skipConstruct
        dsimp only
        split
        · exact ⟨rfl, hrest⟩
        · exact ih ..
      case rbrace =>
        unfold skipConstruct
        dsimp only
        split
        · split
          · exact ⟨rfl, hrest⟩
          · exact ⟨rfl, .cons hkind hp hrest⟩
        · split
          · cases hrest with
            | eof hp => exact ⟨rfl, .eof hp⟩
            | @cons kind q ts us hkind hp hrest =>
              cases kind
              case mark m =>
                cases m
                case semicolon => exact ⟨rfl, hrest⟩
                all_goals exact ⟨rfl, .cons hkind hp hrest⟩
              all_goals exact ⟨rfl, .cons hkind hp hrest⟩
          · exact ih ..
      all_goals exact ih ..
    all_goals exact ih ..

theorem linesText_append (above lines : List String) {first : Nat} (h : 1 ≤ first) (last : Nat) :
    linesText (above ++ lines) (first + above.length) (last + above.length) = linesText lines first last := by
  obtain ⟨n, rfl⟩ : ∃ n, first = n + 1 := ⟨first - 1, by omega⟩
  have hfirst : n + 1 + above.length - 1 = above.length + n := by omega
  unfold linesText
  rw [hfirst, Nat.add_comm last, List.take_length_add_append, List.drop_length_add_append]
  rfl

variable {above lines : List String}

/-- What cannot be read has the same text. -/
theorem moved_recover (e : ParseError) {ts us : List Token} (h : Tokens.Moved above.length ts us) :
    MovedStmt above.length (recover lines e ts).1 (recover (above ++ lines) e us).1 ∧
      Tokens.Moved above.length (recover lines e ts).2 (recover (above ++ lines) e us).2 := by
  have hnext : 1 ≤ (next ts).pos.line ∧ (next us).pos = (next ts).pos.down above.length := by
    cases h with
    | eof hp => exact ⟨hp, rfl⟩
    | cons hkind hp hrest => exact ⟨hp, rfl⟩
  obtain ⟨hp, hpos⟩ := hnext
  have hskip := moved_skipConstruct h 0 0 true (next ts).pos.line
  unfold recover
  dsimp only
  rw [hpos]
  dsimp only [Pos.down]
  rw [hskip.line_eq, linesText_append above lines hp]
  exact ⟨.unsupported .., hskip.rest⟩

/-! ## Declarations -/

theorem atType_eq {ts us : List Token} (h : Tokens.Moved k ts us) : atType us = atType ts := by
  cases h with
  | eof hp => rfl
  | @cons kind p ts us hkind hp hrest => cases kind <;> rfl

/-- The tokens that come next. -/
theorem Moves.get {f g : List Token → Parser β}
    (h : ∀ ts us, Tokens.Moved k ts us → Moves k S (f ts) (g us)) : Moves k S (get >>= f) (get >>= g) :=
  fun ts us hs => h ts us hs hs

/-- Readings that agree on a yes or a no give the same answer, a failure being a no. -/
theorem succeeded_eq {r r' : Except ParseError (Bool × List Token)} : Agree k Eq r r' →
    (match r' with | .ok (b, _) => b | .error _ => false) =
      match r with | .ok (b, _) => b | .error _ => false
  | .ok h _ => h.symm
  | .error _ => rfl

/-- A head of a function is one wherever it stands. -/
theorem atFunction_eq (n : Nat) {ts us : List Token} (h : Tokens.Moved k ts us) :
    atFunction n us = atFunction n ts := by
  let head : Parser Bool := do
    let _ ← ty n
    let _ ← expectName
    let _ ← expect .lparen ""
    let us ← get
    return (← at? .rparen) || atType us
  have hhead : Moves k Eq head head := by
    refine (moves_ty n).bind_eq fun _ => moves_expectName.bind fun _ _ _ =>
      (moves_expect .lparen "").bind fun _ _ _ => .get fun ts us hs => (moves_at .rparen).bind_eq fun _ => ?_
    rw [atType_eq hs]
    exact .pure rfl
  exact succeeded_eq (hhead h)

/-- An expression that may be missing, and the one `k` lines further down. -/
def MovedOption (k : Nat) (o o' : Option Expr) : Prop := o' = o.map (Expr.down k)

theorem moves_soleArgument (es : List Expr) :
    Moves k (MovedExpr k) (soleArgument es) (soleArgument (downAll k es)) := by
  match es with
  | [e] => exact .pure rfl
  | [] | _ :: _ :: _ => exact .fail _

theorem moves_exprUnless (m : Mark) (n : Nat) :
    Moves k (MovedOption k) (exprUnless m n) (exprUnless m n) := by
  refine (moves_at m).bind_eq fun b => ?_
  split
  · exact .pure rfl
  · exact (movesExpr k n).expr.bind_expr fun e => .pure rfl

theorem moves_arraySize (n : Nat) : Moves k (MovedOption k) (arraySize n) (arraySize n) := by
  refine (moves_at .rbracket).bind_eq fun b => ?_
  have hclose (o : Option Expr) : Moves k (MovedOption k)
      (expect .rbracket "after array size" >>= fun _ => pure o)
      (expect .rbracket "after array size" >>= fun _ => pure (o.map (Expr.down k))) :=
    (moves_expect .rbracket _).bind fun _ _ _ => .pure rfl
  cases b with
  | true => exact (Moves.pure (R := MovedOption k) rfl).bind fun _ _ ho => ho ▸ hclose _
  | false =>
    have hsize : Moves k (MovedOption k) (some <$> expr n) (some <$> expr n) :=
      (movesExpr k n).expr.map fun e _ he => congrArg some he
    exact hsize.bind fun o _ ho => ho ▸ hclose o

theorem moves_initializer (n : Nat) (t : Ty) :
    Moves k (MovedOption k) (initializer n t) (initializer n t) := by
  refine (moves_accept .eq).bind fun o o' ho => ?_
  cases ho with
  | some _ => exact (movesExpr k n).expr.bind_expr fun e => .pure rfl
  | none =>
    refine (moves_accept .lparen).bind fun o o' ho => ?_
    cases ho with
    | none => exact .pure rfl
    | some hp =>
      cases t with
      | vector element _ _ => exact ((movesExpr k n).vectorArguments element hp).bind_expr fun e => .pure rfl
      | scalar s _ _ =>
        exact (movesExpr k n).arguments.bind_exprs fun args => (moves_expect .rparen _).bind fun _ _ _ =>
          (moves_soleArgument args).bind_expr fun e => .pure rfl

theorem moves_declaration (n : Nat) :
    Moves k (fun d d' => 1 ≤ d.pos.line ∧ d' = d.down k) (declaration n) (declaration n) := by
  refine (moves_ty n).bind_eq fun base => moves_expectName.bind ?_
  rintro ⟨name, pos⟩ _ ⟨hpos, rfl⟩
  have hclose (d : VarDecl) (hd : 1 ≤ d.pos.line) : Moves k (fun d d' => 1 ≤ d.pos.line ∧ d' = d.down k)
      (pure d >>= fun d => expect .semicolon "after variable declaration" >>= fun _ => pure d)
      (pure (d.down k) >>= fun d => expect .semicolon "after variable declaration" >>= fun _ => pure d) :=
    (moves_expect .semicolon _).bind fun _ _ _ => .pure ⟨hd, rfl⟩
  refine (moves_accept .lbracket).bind fun o o' ho => ?_
  cases ho with
  | none =>
    refine (moves_initializer n base).bind fun init _ hinit => ?_
    cases hinit
    exact hclose ⟨name, base, init, pos⟩ hpos
  | some _ =>
    refine (moves_arraySize n).bind fun size _ hsize => (moves_initializer n _).bind fun init _ hinit => ?_
    cases hsize
    cases hinit
    have hor : (init.map (Expr.down k)).or ((size.map (Expr.down k)).map fun s => .sized s base (pos.down k)) =
        (init.or (size.map fun s => .sized s base pos)).map (Expr.down k) := by
      cases init <;> cases size <;> rfl
    dsimp only
    rw [hor]
    exact hclose ⟨name, .plainVector base, _, pos⟩ hpos

/-! ## Statements -/

theorem moved_toSemicolon {ts us : List Token} (h : Tokens.Moved k ts us) :
    Tokens.Moved k (toSemicolon ts) (toSemicolon us) := by
  induction h with
  | eof hp => exact .eof hp
  | @cons kind p ts us hkind hp hrest ih =>
    cases kind
    case eof => exact absurd rfl hkind
    case mark m =>
      cases m
      case semicolon => exact .cons hkind hp hrest
      all_goals exact ih
    all_goals exact ih

theorem moves_outputItems (n : Nat) : Moves k (MovedExprs k) (outputItems n) (outputItems n) := by
  induction n with
  | zero => exact .fail _
  | succ n ih =>
    unfold outputItems
    refine (moves_accept .ltLt).bind fun o o' ho => ?_
    cases ho with
    | none => exact .pure rfl
    | some _ => exact ((movesExpr k n).binary 4).bind_expr fun e => ih.bind_exprs fun es => .pure rfl

theorem moves_output (n : Nat) {pos : Pos} (hpos : 1 ≤ pos.line) :
    Moves k (MovedStmt k) (output n pos) (output n (pos.down k)) := by
  refine (moves_outputItems n).bind_exprs fun items => ?_
  cases items with
  | nil => exact (Moves.fail (R := Eq) _).bind_eq fun _ => (moves_expect .semicolon _).bind fun _ _ _ =>
      .pure (.output [] hpos)
  | cons e es => exact (moves_expect .semicolon _).bind fun _ _ _ => .pure (.output (e :: es) hpos)

theorem moves_forInit (n : Nat) : Moves k (MovedInit k) (forInit n) (forInit n) := by
  refine (moves_accept .semicolon).bind fun o o' ho => ?_
  cases ho with
  | some _ => exact .pure .none
  | none =>
    refine .get fun ts us hs => ?_
    rw [atType_eq hs]
    split
    · refine (moves_declaration n).bind ?_
      rintro d _ ⟨hd, rfl⟩
      exact .pure (.decl d hd)
    · exact .peek fun t hline => (movesExpr k n).expr.bind_expr fun e =>
        (moves_expect .semicolon _).bind fun _ _ _ => .pure (.expr e hline)

theorem moves_condition (n : Nat) (place close : String) :
    Moves k (MovedExpr k) (condition n place close) (condition n place close) :=
  (moves_expect .lparen place).bind fun _ _ _ => (movesExpr k n).expr.bind_expr fun _ =>
    (moves_expect .rparen close).bind fun _ _ _ => .pure rfl

theorem moves_exprStatement (n : Nat) {pos : Pos} (hpos : 1 ≤ pos.line) :
    Moves k (MovedStmt k) (exprStatement n pos) (exprStatement n (pos.down k)) :=
  (movesExpr k n).expr.bind_expr fun e => (moves_expect .semicolon _).bind fun _ _ _ => .pure (.expr e hpos)

/-- All readers of statements move along when they have `n` units of fuel. The lines of the first text are
`lines`, those of the second one have the lines `above` before them. -/
structure MovesStmt (above lines : List String) (n : Nat) : Prop where
  statement : Moves above.length (MovedStmt above.length) (statement lines n) (statement (above ++ lines) n)
  branch : Moves above.length (MovedBody above.length) (branch lines n) (branch (above ++ lines) n)
  statements :
    Moves above.length (MovedBody above.length) (statements lines n) (statements (above ++ lines) n)

namespace MovesStmt

variable {n : Nat} (h : MovesStmt above lines n)
include h

theorem branch_succ : Moves above.length (MovedBody above.length) (Parser.branch lines (n + 1))
    (Parser.branch (above ++ lines) (n + 1)) := by
  unfold Parser.branch
  refine (moves_accept .lbrace).bind fun o o' ho => ?_
  cases ho with
  | some _ => exact h.statements.bind fun _ _ hbody => (moves_expect .rbrace _).bind fun _ _ _ => .pure hbody
  | none => exact h.statement.bind fun _ _ hs => .pure (.cons hs .nil)

/-- A statement goes in front of those that follow it. -/
theorem consing {s s' : Surface.Stmt} (hstmt : MovedStmt above.length s s') {ts us : List Token}
    (hs : Tokens.Moved above.length ts us) :
    Agree above.length (MovedBody above.length)
      (match Parser.statements lines n ts with
        | .ok (ss, vs) => .ok (s :: ss, vs)
        | .error e => .error e)
      (match Parser.statements (above ++ lines) n us with
        | .ok (ss, vs) => .ok (s' :: ss, vs)
        | .error e => .error e) := by
  generalize Parser.statements lines n ts = r, Parser.statements (above ++ lines) n us = r',
    h.statements hs = hagree
  cases hagree with
  | ok hbody hrest => exact .ok (.cons hstmt hbody) hrest
  | error e => exact .error e

/-- A statement that cannot be read is kept, and reading goes on behind it. -/
theorem recovering {ts us : List Token} (hs : Tokens.Moved above.length ts us) :
    Agree above.length (MovedBody above.length)
      (match (match Parser.statement lines n ts with
          | .ok r => r
          | .error e => recover lines e ts) with
        | (s, ws) => match Parser.statements lines n ws with
          | .ok (ss, vs) => .ok (s :: ss, vs)
          | .error e => .error e)
      (match (match Parser.statement (above ++ lines) n us with
          | .ok r => r
          | .error e => recover (above ++ lines) e us) with
        | (s, ws) => match Parser.statements (above ++ lines) n ws with
          | .ok (ss, vs) => .ok (s :: ss, vs)
          | .error e => .error e) := by
  generalize Parser.statement lines n ts = r, Parser.statement (above ++ lines) n us = r', h.statement hs = hagree
  cases hagree with
  | ok hstmt hrest => exact h.consing hstmt hrest
  | error e =>
    obtain ⟨hstmt, hrest⟩ := moved_recover e hs
    exact h.consing hstmt hrest

theorem statements_succ : Moves above.length (MovedBody above.length) (Parser.statements lines (n + 1))
    (Parser.statements (above ++ lines) (n + 1)) := by
  intro ts us hs
  have hmore := h.recovering hs
  unfold Parser.statements
  cases hs with
  | eof hp => exact .ok .nil (.eof hp)
  | @cons kind p ts us hkind hp hrest =>
    cases kind
    case eof => exact absurd rfl hkind
    case mark m =>
      cases m
      case rbrace => exact .ok .nil (.cons hkind hp hrest)
      all_goals exact hmore
    all_goals exact hmore

theorem statement_succ : Moves above.length (MovedStmt above.length) (Parser.statement lines (n + 1))
    (Parser.statement (above ++ lines) (n + 1)) := by
  unfold Parser.statement
  refine .peek fun t hline => ?_
  obtain ⟨kind, p⟩ := t
  have hexpr : Moves above.length (MovedStmt above.length) (exprStatement n p)
      (exprStatement n (p.down above.length)) := moves_exprStatement n hline
  have hdecl : Moves above.length (MovedStmt above.length)
      (get >>= fun ts => if atFunction n ts then throw .nestedFunction else
        declaration n >>= fun d => pure (.decl d))
      (get >>= fun ts => if atFunction n ts then throw .nestedFunction else
        declaration n >>= fun d => pure (.decl d)) := by
    refine .get fun ts us hs => ?_
    rw [atFunction_eq n hs]
    split
    · exact .fail _
    · refine (moves_declaration n).bind ?_
      rintro d _ ⟨hd, rfl⟩
      exact .pure (.decl d hd)
  cases kind
  case name s =>
    dsimp only [Token.down]
    split
    all_goals first
      | contradiction
      | exact moves_advance.bind_eq fun _ => moves_output n hline
      | exact hexpr
  case mark m =>
    cases m
    case lbrace =>
      exact moves_advance.bind_eq fun _ => h.statements.bind fun body _ hbody =>
        (moves_expect .rbrace _).bind fun _ _ _ => .pure (.block p hbody)
    case semicolon => exact moves_advance.bind_eq fun _ => .pure (.block p .nil)
    all_goals exact hexpr
  case word w =>
    cases w
    case returnWord =>
      exact moves_advance.bind_eq fun _ => (moves_exprUnless .semicolon n).bind fun value _ hvalue =>
        (moves_expect .semicolon _).bind fun _ _ _ => .pure (hvalue ▸ .ret value hline)
    case ifWord =>
      refine moves_advance.bind_eq fun _ => (moves_condition n _ _).bind_expr fun cond =>
        h.branch.bind fun yes _ hyes => (moves_acceptWord .elseWord).bind fun o o' ho => ?_
      cases ho with
      | none => exact .pure (.ifThen cond hline hyes)
      | some _ => exact h.branch.bind fun no _ hno => .pure (.ifElse cond hline hyes hno)
    case whileWord =>
      exact moves_advance.bind_eq fun _ => (moves_condition n _ _).bind_expr fun cond =>
        h.branch.bind fun body _ hbody => .pure (.whileLoop cond hline hbody)
    case doWord =>
      exact moves_advance.bind_eq fun _ => h.branch.bind fun body _ hbody =>
        (moves_expectWord .whileWord _).bind_eq fun _ => (moves_condition n _ _).bind_expr fun cond =>
          (moves_expect .semicolon _).bind fun _ _ _ => .pure (.doWhile cond hline hbody)
    case forWord =>
      refine moves_advance.bind_eq fun _ => (moves_expect .lparen _).bind fun _ _ _ =>
        (moves_forInit n).bind fun init _ hinit => (moves_exprUnless .semicolon n).bind fun cond _ hcond =>
          (moves_expect .semicolon _).bind fun _ _ _ =>
            (moves_exprUnless .rparen n).bind fun update _ hupdate =>
              (moves_expect .rparen _).bind fun _ _ _ => h.branch.bind fun body _ hbody => .pure ?_
      cases hcond
      cases hupdate
      exact .forLoop cond update hline hinit hbody
    case breakWord =>
      exact moves_advance.bind_eq fun _ => (moves_expect .semicolon _).bind fun _ _ _ => .pure (.breakLoop p)
    case continueWord =>
      exact moves_advance.bind_eq fun _ => (moves_expect .semicolon _).bind fun _ _ _ => .pure (.continueLoop p)
    case usingWord =>
      exact moves_advance.bind_eq fun _ => (Moves.modify fun _ _ => moved_toSemicolon).bind_eq fun _ =>
        (moves_expect .semicolon _).bind fun _ _ _ => .pure (.usingDirective p)
    all_goals first | exact hdecl | exact hexpr
  all_goals exact hexpr

end MovesStmt

/-- Statements are moved along. -/
theorem movesStmt (above lines : List String) (n : Nat) : MovesStmt above lines n := by
  induction n with
  | zero => exact ⟨.fail _, .fail _, .pure .nil⟩
  | succ n h => exact ⟨h.statement_succ, h.branch_succ, h.statements_succ⟩

/-! ## Programs -/

theorem moves_parameter (n : Nat) : Moves k Eq (parameter n) (parameter n) := by
  refine (moves_ty n).bind_eq fun t => Moves.bind_eq ?_ fun name =>
    (moves_accept .lbracket).bind fun o o' ho => ?_
  · intro ts us hs
    cases hs with
    | eof hp => exact .ok rfl (.eof hp)
    | @cons kind p ts us hkind hp hrest =>
      cases kind
      case name s => exact .ok rfl hrest
      all_goals exact .ok rfl (.cons hkind hp hrest)
  · cases ho with
    | none => exact .pure rfl
    | some _ => exact (moves_expect .rbracket _).bind fun _ _ _ => .pure rfl

theorem moves_parametersTail (n : Nat) : Moves k Eq (parametersTail n) (parametersTail n) := by
  induction n with
  | zero => exact .fail _
  | succ n ih =>
    unfold parametersTail
    refine (moves_parameter n).bind_eq fun p => (moves_accept .comma).bind fun o o' ho => ?_
    cases ho with
    | none => exact .pure rfl
    | some _ => exact ih.bind_eq fun ps => .pure rfl

theorem moves_parameters (n : Nat) : Moves k Eq (parameters n) (parameters n) := by
  intro ts us hs
  have htail := moves_parametersTail n hs
  cases hs with
  | eof hp => exact htail
  | @cons kind p ts us hkind hp hrest =>
    cases kind
    case mark m =>
      cases m
      case rparen => exact .ok rfl (.cons hkind hp hrest)
      all_goals exact htail
    case word w =>
      cases w
      case void =>
        cases hrest with
        | eof hp => exact htail
        | @cons kind q ts us hkind hp hrest =>
          cases kind
          case mark m =>
            cases m
            case rparen => exact .ok rfl (.cons hkind hp hrest)
            all_goals exact htail
          all_goals exact htail
      all_goals exact htail
    all_goals exact htail

theorem moves_function (n : Nat) :
    Moves above.length (MovedItem above.length) (function lines n) (function (above ++ lines) n) := by
  refine (moves_ty n).bind_eq fun t => moves_expectName.bind ?_
  rintro ⟨name, pos⟩ _ ⟨-, rfl⟩
  refine (moves_expect .lparen _).bind fun _ _ _ => (moves_parameters n).bind_eq fun params =>
    (moves_expect .rparen _).bind fun _ _ _ => (moves_accept .semicolon).bind fun o o' ho => ?_
  cases ho with
  | some _ => exact .pure (.declared name t params pos)
  | none =>
    refine (moves_expect .lbrace _).bind fun _ _ _ => (movesStmt above lines n).statements.bind
      fun body _ hbody => (moves_expect .rbrace _).bind ?_
    rintro finish _ ⟨-, rfl⟩
    exact .pure (.function name t params pos finish hbody)

theorem moves_item (n : Nat) :
    Moves above.length (MovedItem above.length) (item lines n) (item (above ++ lines) n) := by
  refine .get fun ts us hs => ?_
  rw [atType_eq hs, atFunction_eq n hs]
  split
  · exact moves_function n
  · exact (movesStmt above lines n).statement.map fun _ _ hstmt => .stmt hstmt

/-- An item, read or skipped, goes in front of those that follow it. -/
theorem moved_more (n : Nat) {more more' : List Token → List Item}
    (hmore : ∀ ts us, Tokens.Moved above.length ts us → List.Forall₂ (MovedItem above.length) (more ts) (more' us))
    {ts us : List Token} (hs : Tokens.Moved above.length ts us) :
    List.Forall₂ (MovedItem above.length)
      (match (match item lines n ts with
        | .ok r => r
        | .error e => (.stmt (recover lines e ts).1, (recover lines e ts).2)) with
        | (i, vs) => i :: more vs)
      (match (match item (above ++ lines) n us with
        | .ok r => r
        | .error e => (.stmt (recover (above ++ lines) e us).1, (recover (above ++ lines) e us).2)) with
        | (i, vs) => i :: more' vs) := by
  generalize item lines n ts = r, item (above ++ lines) n us = r', moves_item n hs = hagree
  cases hagree with
  | ok hitem hrest => exact .cons hitem (hmore _ _ hrest)
  | error e =>
    obtain ⟨hstmt, hrest⟩ := moved_recover e hs
    exact .cons (.stmt hstmt) (hmore _ _ hrest)

/-- Every item is read alike, and so is what comes after it. -/
theorem moved_items (n count : Nat) {ts us : List Token} (hs : Tokens.Moved above.length ts us) :
    List.Forall₂ (MovedItem above.length) (items lines n count ts) (items (above ++ lines) n count us) := by
  induction count generalizing ts us with
  | zero => exact .nil
  | succ count ih =>
    have hmore := @moved_more above lines n _ _ (fun _ _ hs => ih hs) _ _ hs
    unfold items
    cases hs with
    | eof hp => exact .nil
    | @cons kind p ts us hkind hp hrest =>
      cases kind
      case eof => exact absurd rfl hkind
      all_goals exact hmore

end Parser

/-- The items of a text with a header are those of the text, as many lines further down as the header has. -/
theorem parse_header {header : List (List Char)} (h : ∀ line ∈ header, Scan.SkippedLine line)
    (source : String) : List.Forall₂ (MovedItem header.length) (parse source)
      (parse (String.ofList (Scan.header header) ++ source)) := by
  obtain ⟨above, hlength, hlines⟩ := Scan.lines_header h source
  have hscan := Scan.scan_header h source
  unfold parse
  dsimp only
  rw [Parser.fuelFor, Parser.fuelFor, hscan.length_eq, hlines, ← hlength]
  exact Parser.moved_items _ _ (hlength ▸ hscan)

end Surface

end CallTrace
