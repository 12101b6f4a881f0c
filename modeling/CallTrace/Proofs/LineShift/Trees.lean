import CallTrace.Proofs.LineShift.Tokens
import CallTrace.Surface.Parser.Expression

/-! # Expressions that start further down

Reading types and expressions uses the places of tokens for nothing but the places in what is read.

* `Expr.down`: an expression, some lines further down.
* `Parser.Moves k R p q`: from tokens that are moved down by `k` lines, `q` reads what is related by `R` to
  what `p` reads, and leaves the same tokens, moved down; or both fail alike.
* `Parser.moves_ty`, `Parser.moves_expr`: types are read alike, and expressions are moved along.
-/

namespace CallTrace.Surface
set_option autoImplicit false

/-! ## Trees -/

/-- A place on a line, and the place `k` lines further down. -/
def MovedPos (k : Nat) (p q : Pos) : Prop := 1 ≤ p.line ∧ q = p.down k

mutual

/-- An expression, `k` lines further down. -/
def Expr.down (k : Nat) : Expr → Expr
  | .int n p => .int n (p.down k)
  | .float x p => .float x (p.down k)
  | .bool b p => .bool b (p.down k)
  | .char c p => .char c (p.down k)
  | .str s p => .str s (p.down k)
  | .list items p => .list (downAll k items) (p.down k)
  | .sized size element p => .sized (size.down k) element (p.down k)
  | .filled size fill element p => .filled (size.down k) (fill.down k) element (p.down k)
  | .var name p => .var name (p.down k)
  | .binary op left right p => .binary op (left.down k) (right.down k) (p.down k)
  | .unary op operand p => .unary op (operand.down k) (p.down k)
  | .ternary cond yes no p => .ternary (cond.down k) (yes.down k) (no.down k) (p.down k)
  | .assign target value p => .assign (target.down k) (value.down k) (p.down k)
  | .compound target op value p => .compound (target.down k) op (value.down k) (p.down k)
  | .call name args p => .call name (downAll k args) (p.down k)
  | .method object name args p => .method (object.down k) name (downAll k args) (p.down k)
  | .index base index p => .index (base.down k) (index.down k) (p.down k)

def downAll (k : Nat) : List Expr → List Expr
  | [] => []
  | e :: es => e.down k :: downAll k es

end

/-- An expression and the one `k` lines further down. -/
def MovedExpr (k : Nat) (e e' : Expr) : Prop := e' = e.down k

def MovedExprs (k : Nat) (es es' : List Expr) : Prop := es' = downAll k es

namespace Parser

variable {k : Nat} {α β : Type} {R : α → α → Prop} {S : β → β → Prop}

/-! ## Readers that move along -/

/-- Two results of reading: what has been read is related by `R`, and the tokens that are left are the same,
`k` lines further down; or the error is the same. -/
inductive Agree (k : Nat) (R : α → α → Prop) :
    Except ParseError (α × List Token) → Except ParseError (α × List Token) → Prop where
  | ok {a b : α} {ts us : List Token} (h : R a b) (hrest : Tokens.Moved k ts us) :
      Agree k R (.ok (a, ts)) (.ok (b, us))
  | error (e : ParseError) : Agree k R (.error e) (.error e)

/-- From tokens that are moved down by `k` lines, `q` does what `p` does. -/
def Moves (k : Nat) (R : α → α → Prop) (p q : Parser α) : Prop :=
  ∀ ⦃ts us : List Token⦄, Tokens.Moved k ts us → Agree k R (p ts) (q us)

namespace Moves

theorem pure {a b : α} (h : R a b) : Moves k R (Pure.pure a) (Pure.pure b) := fun _ _ hs => .ok h hs

theorem fail (e : ParseError) : Moves k R (throw e : Parser α) (throw e) := fun _ _ _ => .error e

theorem bind {p q : Parser α} {f g : α → Parser β} (h : Moves k R p q)
    (hf : ∀ a b, R a b → Moves k S (f a) (g b)) : Moves k S (p >>= f) (q >>= g) := by
  intro ts us hs
  show Agree k S (Except.bind (p ts) fun r => f r.1 r.2) (Except.bind (q us) fun r => g r.1 r.2)
  generalize p ts = r, q us = s, h hs = hagree
  cases hagree with
  | ok h hrest => exact hf _ _ h hrest
  | error e => exact .error e

theorem map {p q : Parser α} {f g : α → β} (h : Moves k R p q) (hf : ∀ a b, R a b → S (f a) (g b)) :
    Moves k S (f <$> p) (g <$> q) := by
  intro ts us hs
  show Agree k S (Except.bind (p ts) fun r => .ok (f r.1, r.2)) (Except.bind (q us) fun r => .ok (g r.1, r.2))
  generalize p ts = r, q us = s, h hs = hagree
  cases hagree with
  | ok h hrest => exact .ok (hf _ _ h) hrest
  | error e => exact .error e

/-- What is read is the same, wherever the tokens stand. -/
theorem bind_eq {p q : Parser α} {f g : α → Parser β} (h : Moves k Eq p q)
    (hf : ∀ a, Moves k S (f a) (g a)) : Moves k S (p >>= f) (q >>= g) :=
  h.bind fun a _ hab => hab ▸ hf a

/-- A change of the tokens. -/
theorem modify {f g : List Token → List Token} (h : ∀ ts us, Tokens.Moved k ts us → Tokens.Moved k (f ts) (g us)) :
    Moves k Eq (modify f : Parser Unit) (modify g) := fun _ _ hs => .ok rfl (h _ _ hs)

end Moves

/-! ## Single tokens -/

/-- The token that comes next is on a line. -/
theorem moves_peek : Moves k (fun t u => 1 ≤ t.pos.line ∧ u = t.down k) peek peek := by
  intro ts us hs
  refine .ok ?_ hs
  cases hs with
  | eof hp => exact ⟨hp, rfl⟩
  | cons hkind hp hrest => exact ⟨hp, rfl⟩

/-- A token that has been looked at. -/
theorem Moves.peek {f g : Token → Parser β} (hf : ∀ t : Token, 1 ≤ t.pos.line → Moves k S (f t) (g (t.down k))) :
    Moves k S (Parser.peek >>= f) (Parser.peek >>= g) :=
  moves_peek.bind fun t _ ht => ht.2 ▸ hf t ht.1

theorem moves_advance : Moves k Eq advance advance := by
  intro ts us hs
  refine .ok rfl ?_
  cases hs with
  | eof hp => exact .eof hp
  | @cons kind p ts us hkind hp hrest =>
    cases kind
    case eof => exact absurd rfl hkind
    all_goals exact hrest

theorem moves_accept (m : Mark) : Moves k (Option.Rel (MovedPos k)) (accept m) (accept m) := by
  intro ts us hs
  unfold accept
  cases hs with
  | eof hp => exact .ok .none (.eof hp)
  | @cons kind p ts us hkind hp hrest =>
    cases kind
    case mark j =>
      dsimp only
      split
      · exact .ok (.some ⟨hp, rfl⟩) hrest
      · exact .ok .none (.cons hkind hp hrest)
    all_goals exact .ok .none (.cons hkind hp hrest)

theorem moves_acceptWord (w : Keyword) : Moves k (Option.Rel (MovedPos k)) (acceptWord w) (acceptWord w) := by
  intro ts us hs
  unfold acceptWord
  cases hs with
  | eof hp => exact .ok .none (.eof hp)
  | @cons kind p ts us hkind hp hrest =>
    cases kind
    case word j =>
      dsimp only
      split
      · exact .ok (.some ⟨hp, rfl⟩) hrest
      · exact .ok .none (.cons hkind hp hrest)
    all_goals exact .ok .none (.cons hkind hp hrest)

theorem moves_at (m : Mark) : Moves k Eq (at? m) (at? m) := by
  intro ts us hs
  unfold at?
  cases hs with
  | eof hp => exact .ok rfl (.eof hp)
  | @cons kind p ts us hkind hp hrest => cases kind <;> exact .ok rfl (.cons hkind hp hrest)

/-- What is expected is there in both texts or is missing in both. -/
theorem moves_expect (m : Mark) (place : String) : Moves k (MovedPos k) (expect m place) (expect m place) := by
  refine (moves_accept m).bind fun o o' ho => ?_
  cases ho with
  | none => exact .peek fun t _ => .fail _
  | some h => exact .pure h

theorem moves_expectWord (w : Keyword) (place : String) :
    Moves k Eq (expectWord w place) (expectWord w place) := by
  refine (moves_acceptWord w).bind fun o o' ho => ?_
  cases ho with
  | none => exact .peek fun t _ => .fail _
  | some h => exact .pure rfl

theorem moves_expectName :
    Moves k (fun a b => 1 ≤ a.2.line ∧ b = (a.1, a.2.down k)) expectName expectName := by
  intro ts us hs
  unfold expectName
  cases hs with
  | eof hp => exact .error _
  | @cons kind p ts us hkind hp hrest =>
    cases kind
    case name s => exact .ok ⟨hp, rfl⟩ hrest
    all_goals exact .error _

/-! ## Types -/

theorem moves_closeAngle : Moves k Eq closeAngle closeAngle := by
  intro ts us hs
  unfold closeAngle
  cases hs with
  | eof hp => exact .error _
  | @cons kind p ts us hkind hp hrest =>
    cases kind
    case mark m =>
      cases m
      case gt => exact .ok rfl hrest
      case gtGt => exact .ok rfl (.cons nofun hp hrest)
      all_goals exact .error _
    all_goals exact .error _

theorem moved_dropLong {ts us : List Token} (h : Tokens.Moved k ts us) :
    Tokens.Moved k (dropLong ts) (dropLong us) := by
  induction h with
  | eof hp => exact .eof hp
  | @cons kind p ts us hkind hp hrest ih =>
    cases kind
    case word w =>
      cases w
      case long | int => exact ih
      all_goals exact .cons hkind hp hrest
    all_goals exact .cons hkind hp hrest

theorem isSome_eq {o o' : Option α} (h : Option.Rel R o o') : o'.isSome = o.isSome := by
  cases h <;> rfl

theorem moves_tyMarks : Moves k Eq tyMarks tyMarks := by
  refine (moves_acceptWord .const).bind fun o o' ho => (moves_accept .amp).bind fun r r' hr => ?_
  rw [isSome_eq ho, isSome_eq hr]
  exact .pure rfl

theorem moves_types (n : Nat) : Moves k Eq (ty n) (ty n) ∧ Moves k Eq (vectorElement n) (vectorElement n) := by
  induction n with
  | zero => exact ⟨.fail _, .fail _⟩
  | succ n ih =>
    obtain ⟨hty, helement⟩ := ih
    constructor
    · unfold ty
      refine (moves_acceptWord .const).bind fun o o' ho => ?_
      rw [isSome_eq ho]
      refine .peek fun t hline => ?_
      obtain ⟨kind, p⟩ := t
      cases kind
      case word w =>
        cases w
        case vector =>
          exact moves_advance.bind_eq fun _ => helement.bind_eq fun element =>
            moves_tyMarks.bind_eq fun ⟨_, _⟩ => .pure rfl
        case long =>
          exact moves_advance.bind_eq fun _ => (Moves.modify fun _ _ => moved_dropLong).bind_eq fun _ =>
            moves_tyMarks.bind_eq fun ⟨_, _⟩ => .pure rfl
        all_goals first
          | exact moves_advance.bind_eq fun _ => moves_tyMarks.bind_eq fun ⟨_, _⟩ => .pure rfl
          | exact .fail _
      all_goals exact .fail _
    · unfold vectorElement
      exact (moves_expect .lt _).bind fun _ _ _ => hty.bind_eq fun element =>
        moves_closeAngle.bind_eq fun _ => .pure rfl

theorem moves_ty (n : Nat) : Moves k Eq (ty n) (ty n) := (moves_types n).1

theorem moves_vectorElement (n : Nat) : Moves k Eq (vectorElement n) (vectorElement n) := (moves_types n).2

/-! ## Expressions -/

theorem moves_acceptBinOp (level : Nat) :
    Moves k (Option.Rel fun a b => b = (a.1, a.2.down k)) (acceptBinOp level) (acceptBinOp level) := by
  intro ts us hs
  unfold acceptBinOp
  cases hs with
  | eof hp => exact .ok .none (.eof hp)
  | @cons kind p ts us hkind hp hrest =>
    cases kind
    case mark m =>
      dsimp only
      split
      · split
        · exact .ok (.some rfl) hrest
        · exact .ok .none (.cons hkind hp hrest)
      · exact .ok .none (.cons hkind hp hrest)
    all_goals exact .ok .none (.cons hkind hp hrest)

theorem moves_acceptCompound :
    Moves k (Option.Rel fun a b => b = (a.1, a.2.down k)) acceptCompound acceptCompound := by
  intro ts us hs
  unfold acceptCompound
  cases hs with
  | eof hp => exact .ok .none (.eof hp)
  | @cons kind p ts us hkind hp hrest =>
    cases kind
    case mark m =>
      dsimp only
      split
      · exact .ok (.some rfl) hrest
      · exact .ok .none (.cons hkind hp hrest)
    all_goals exact .ok .none (.cons hkind hp hrest)

theorem moves_vectorOf (element : Ty) {p q : Pos} (hp : MovedPos k p q) {es es' : List Expr}
    (he : MovedExprs k es es') : Moves k (MovedExpr k) (vectorOf element p es) (vectorOf element q es') := by
  obtain ⟨-, rfl⟩ := hp
  cases he
  match es with
  | [] | [size] | [size, fill] => exact .pure rfl
  | _ :: _ :: _ :: _ => exact .fail _

/-- All readers of expressions move along when they have `n` units of fuel. -/
structure MovesExpr (k n : Nat) : Prop where
  expr : Moves k (MovedExpr k) (expr n) (expr n)
  ternary : Moves k (MovedExpr k) (ternary n) (ternary n)
  binary (level : Nat) : Moves k (MovedExpr k) (binary n level) (binary n level)
  binaryTail (level : Nat) (left : Expr) :
    Moves k (MovedExpr k) (binaryTail n level left) (binaryTail n level (left.down k))
  unary : Moves k (MovedExpr k) (unary n) (unary n)
  suffixed : Moves k (MovedExpr k) (suffixed n) (suffixed n)
  suffixes (e : Expr) : Moves k (MovedExpr k) (suffixes n e) (suffixes n (e.down k))
  arguments : Moves k (MovedExprs k) (arguments n) (arguments n)
  expressions : Moves k (MovedExprs k) (expressions n) (expressions n)
  listItems : Moves k (MovedExprs k) (listItems n) (listItems n)
  vectorArguments (element : Ty) {p q : Pos} (hp : MovedPos k p q) :
    Moves k (MovedExpr k) (vectorArguments n element p) (vectorArguments n element q)
  primary : Moves k (MovedExpr k) (primary n) (primary n)

/-- An expression that has been read goes into what is read next. -/
theorem Moves.bind_expr {p q : Parser Expr} {f g : Expr → Parser β} (h : Moves k (MovedExpr k) p q)
    (hf : ∀ e, Moves k S (f e) (g (e.down k))) : Moves k S (p >>= f) (q >>= g) :=
  h.bind fun e _ he => he ▸ hf e

theorem Moves.bind_exprs {p q : Parser (List Expr)} {f g : List Expr → Parser β}
    (h : Moves k (MovedExprs k) p q) (hf : ∀ es, Moves k S (f es) (g (downAll k es))) :
    Moves k S (p >>= f) (q >>= g) :=
  h.bind fun es _ he => he ▸ hf es

namespace MovesExpr

variable {n : Nat} (h : MovesExpr k n)
include h

theorem expr_succ : Moves k (MovedExpr k) (Parser.expr (n + 1)) (Parser.expr (n + 1)) := by
  unfold Parser.expr
  refine h.ternary.bind_expr fun target => (moves_accept .eq).bind fun o o' ho => ?_
  cases ho with
  | some hp => 
    obtain ⟨-, rfl⟩ := hp
    exact h.expr.bind_expr fun value => .pure rfl
  | none =>
    refine moves_acceptCompound.bind fun c c' hc => ?_
    cases hc with
    | none => exact .pure rfl
    | some hop => exact h.expr.bind_expr fun value => .pure (hop ▸ rfl)

theorem ternary_succ : Moves k (MovedExpr k) (Parser.ternary (n + 1)) (Parser.ternary (n + 1)) := by
  unfold Parser.ternary
  refine (h.binary 0).bind_expr fun cond => (moves_accept .question).bind fun o o' ho => ?_
  cases ho with
  | none => exact .pure rfl
  | some hp =>
    obtain ⟨-, rfl⟩ := hp
    exact h.expr.bind_expr fun yes => (moves_expect .colon _).bind fun _ _ _ =>
      h.ternary.bind_expr fun no => .pure rfl

theorem binary_succ (level : Nat) :
    Moves k (MovedExpr k) (Parser.binary (n + 1) level) (Parser.binary (n + 1) level) := by
  unfold Parser.binary
  split
  · exact (h.binary (level + 1)).bind_expr fun left => h.binaryTail level left
  · exact h.unary.bind_expr fun left => .pure rfl

theorem binaryTail_succ (level : Nat) (left : Expr) :
    Moves k (MovedExpr k) (Parser.binaryTail (n + 1) level left)
      (Parser.binaryTail (n + 1) level (left.down k)) := by
  unfold Parser.binaryTail
  refine (moves_acceptBinOp level).bind fun o o' ho => ?_
  cases ho with
  | none => exact .pure rfl
  | @some a b hop =>
    obtain ⟨op, p⟩ := a
    cases hop
    exact (h.binary (level + 1)).bind_expr fun right => h.binaryTail level (.binary op left right p)

theorem unary_succ : Moves k (MovedExpr k) (Parser.unary (n + 1)) (Parser.unary (n + 1)) := by
  unfold Parser.unary
  refine .peek fun t hline => ?_
  obtain ⟨kind, p⟩ := t
  have hoperator (op : UnOp) : Moves k (MovedExpr k)
      (advance >>= fun _ => Parser.unary n >>= fun e => pure (.unary op e p))
      (advance >>= fun _ => Parser.unary n >>= fun e => pure (.unary op e (p.down k))) :=
    moves_advance.bind_eq fun _ => h.unary.bind_expr fun e => .pure rfl
  cases kind
  case mark m =>
    cases m
    case bang | minus | plusPlus | minusMinus => exact hoperator _
    case plus => exact moves_advance.bind_eq fun _ => h.unary
    all_goals exact h.suffixed
  all_goals exact h.suffixed

theorem suffixed_succ : Moves k (MovedExpr k) (Parser.suffixed (n + 1)) (Parser.suffixed (n + 1)) := by
  unfold Parser.suffixed
  exact h.primary.bind_expr fun e => h.suffixes e

theorem suffixes_succ (e : Expr) :
    Moves k (MovedExpr k) (Parser.suffixes (n + 1) e) (Parser.suffixes (n + 1) (e.down k)) := by
  unfold Parser.suffixes
  refine .peek fun t hline => ?_
  obtain ⟨kind, p⟩ := t
  cases kind
  case mark m =>
    cases m
    case plusPlus => exact moves_advance.bind_eq fun _ => h.suffixes (.unary .postInc e p)
    case minusMinus => exact moves_advance.bind_eq fun _ => h.suffixes (.unary .postDec e p)
    case lbracket =>
      exact moves_advance.bind_eq fun _ => h.expr.bind_expr fun i =>
        (moves_expect .rbracket _).bind fun _ _ _ => h.suffixes (.index e i p)
    case dot =>
      refine moves_advance.bind_eq fun _ => moves_expectName.bind ?_
      rintro ⟨name, q⟩ _ ⟨-, rfl⟩
      exact (moves_expect .lparen _).bind fun _ _ _ => h.arguments.bind_exprs fun args =>
        (moves_expect .rparen _).bind fun _ _ _ => h.suffixes (.method e name args p)
    case lparen =>
      refine moves_advance.bind_eq fun _ => h.arguments.bind_exprs fun args =>
        (moves_expect .rparen _).bind fun _ _ _ => ?_
      cases e
      case var name q => exact h.suffixes (.call name args q)
      all_goals exact .fail _
    all_goals exact .pure rfl
  all_goals exact .pure rfl

theorem arguments_succ : Moves k (MovedExprs k) (Parser.arguments (n + 1)) (Parser.arguments (n + 1)) := by
  unfold Parser.arguments
  refine (moves_at .rparen).bind_eq fun b => ?_
  split
  · exact .pure rfl
  · exact h.expressions

theorem expressions_succ :
    Moves k (MovedExprs k) (Parser.expressions (n + 1)) (Parser.expressions (n + 1)) := by
  unfold Parser.expressions
  refine h.expr.bind_expr fun e => (moves_accept .comma).bind fun o o' ho => ?_
  cases ho with
  | none => exact .pure rfl
  | some _ => exact h.expressions.bind_exprs fun es => .pure rfl

theorem listItems_succ : Moves k (MovedExprs k) (Parser.listItems (n + 1)) (Parser.listItems (n + 1)) := by
  unfold Parser.listItems
  refine (moves_at .rbrace).bind_eq fun b => ?_
  split
  · exact .pure rfl
  · refine h.expr.bind_expr fun e => (moves_accept .comma).bind fun o o' ho => ?_
    cases ho with
    | none => exact .pure rfl
    | some _ => exact h.listItems.bind_exprs fun es => .pure rfl

theorem vectorArguments_succ (element : Ty) {p q : Pos} (hp : MovedPos k p q) :
    Moves k (MovedExpr k) (Parser.vectorArguments (n + 1) element p)
      (Parser.vectorArguments (n + 1) element q) := by
  unfold Parser.vectorArguments
  exact h.arguments.bind fun args args' hargs => (moves_expect .rparen _).bind fun _ _ _ =>
    moves_vectorOf element hp hargs

theorem primary_succ : Moves k (MovedExpr k) (Parser.primary (n + 1)) (Parser.primary (n + 1)) := by
  unfold Parser.primary
  refine .peek fun t hline => ?_
  obtain ⟨kind, p⟩ := t
  cases kind
  case int | float | char | str | name => exact moves_advance.bind_eq fun _ => .pure rfl
  case word w =>
    cases w
    case trueWord | falseWord => exact moves_advance.bind_eq fun _ => .pure rfl
    case vector =>
      exact moves_advance.bind_eq fun _ => (moves_vectorElement n).bind_eq fun element =>
        moves_tyMarks.bind_eq fun _ => (moves_expect .lparen _).bind fun _ _ hq =>
          h.vectorArguments element hq
    all_goals exact .fail _
  case mark m =>
    cases m
    case lparen =>
      exact moves_advance.bind_eq fun _ => h.expr.bind_expr fun e =>
        (moves_expect .rparen _).bind fun _ _ _ => .pure rfl
    case lbrace =>
      exact moves_advance.bind_eq fun _ => h.listItems.bind_exprs fun items =>
        (moves_expect .rbrace _).bind fun _ _ _ => .pure rfl
    all_goals exact .fail _
  all_goals exact .fail _

end MovesExpr

/-- Expressions are moved along. -/
theorem movesExpr (k n : Nat) : MovesExpr k n := by
  induction n with
  | zero =>
    exact ⟨.fail _, .fail _, fun _ => .fail _, fun _ _ => .fail _, .fail _, .fail _, fun _ => .fail _, .fail _,
      .fail _, .fail _, fun _ _ _ _ => .fail _, .fail _⟩
  | succ n h =>
    exact ⟨h.expr_succ, h.ternary_succ, h.binary_succ, h.binaryTail_succ, h.unary_succ, h.suffixed_succ,
      h.suffixes_succ, h.arguments_succ, h.expressions_succ, h.listItems_succ, h.vectorArguments_succ,
      h.primary_succ⟩

end Parser

end CallTrace.Surface
