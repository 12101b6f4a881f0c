import CallTrace.Proofs.Parser.Tandem

/-! # Expressions in tandem

* `Parser.TandemExpr`: what each reader of expressions takes at least, and the fuel it needs. Between two tokens
  that are taken thirteen calls are nested at most, three less than the fuel for a token.
* `Parser.tandemExpr`: it holds for all amounts of fuel, by induction on the fuel of one side.
-/

namespace CallTrace.Surface
set_option autoImplicit false

namespace Parser

variable {w : Tails} {N M d n m : Nat}

theorem plain_not_closing : ¬ (Spot.plain d).Closing := Spot.plain_not_closing d

/-- A mark that is no brace. -/
theorem takeable {k : Mark} (h : isBrace (.mark k) = false) : Takeable (.plain d) (.plain d) (.mark k) :=
  takeable_mark (braceStep_of_not_isBrace h d)

theorem Tandem.expectMark {k : Mark} (place : String) (h : isBrace (.mark k) = false := by rfl)
    (hgt : k ≠ .gt ∧ k ≠ .gtGt := by decide) :
    Tandem w Any 1 N M (.plain d) (.plain d) (Parser.expect k place) (Parser.expect k place) :=
  .expect place (takeable h) hgt plain_not_closing

theorem tandem_vectorOf (element : Ty) (p : Pos) (es : List Expr) :
    Tandem w Any 0 N M (.plain d) (.plain d) (vectorOf element p es) (vectorOf element p es) := by
  match es with
  | [] | [size] | [size, fill] => exact .pure trivial
  | _ :: _ :: _ :: _ => exact .fail

/-- All readers of expressions, with `n` and `m` units of fuel. -/
structure TandemExpr (w : Tails) (n m : Nat) : Prop where
  expr {N M d : Nat} (hfits : Fits 13 n m N M) :
    Tandem w Any 1 N M (.plain d) (.plain d) (expr n) (expr m)
  ternary {N M d : Nat} (hfits : Fits 12 n m N M) :
    Tandem w Any 1 N M (.plain d) (.plain d) (ternary n) (ternary m)
  binary {N M d : Nat} (level : Nat) (hlevel : level ≤ 6) (hfits : Fits 11 (n + level) (m + level) N M) :
    Tandem w Any 1 N M (.plain d) (.plain d) (binary n level) (binary m level)
  binaryTail {N M d : Nat} (level : Nat) (hlevel : level < 6) (left : Expr) (hfits : Fits 1 n m N M) :
    Tandem w Any 0 N M (.plain d) (.plain d) (binaryTail n level left) (binaryTail m level left)
  unary {N M d : Nat} (hfits : Fits 4 n m N M) :
    Tandem w Any 1 N M (.plain d) (.plain d) (unary n) (unary m)
  suffixed {N M d : Nat} (hfits : Fits 3 n m N M) :
    Tandem w Any 1 N M (.plain d) (.plain d) (suffixed n) (suffixed m)
  suffixes {N M d : Nat} (e : Expr) (hfits : Fits 1 n m N M) :
    Tandem w Any 0 N M (.plain d) (.plain d) (suffixes n e) (suffixes m e)
  arguments {N M d : Nat} (hfits : Fits 15 n m N M) :
    Tandem w Any 0 N M (.plain d) (.plain d) (arguments n) (arguments m)
  expressions {N M d : Nat} (hfits : Fits 14 n m N M) :
    Tandem w Any 1 N M (.plain d) (.plain d) (expressions n) (expressions m)
  listItems {N M d : Nat} (hfits : Fits 14 n m N M) :
    Tandem w Any 0 N M (.plain d) (.plain d) (listItems n) (listItems m)
  vectorArguments {N M d : Nat} (element : Ty) (p : Pos) (hfits : Fits 16 n m N M) :
    Tandem w Any 1 N M (.plain d) (.plain d) (vectorArguments n element p) (vectorArguments m element p)
  primary {N M d : Nat} (hfits : Fits 1 n m N M) :
    Tandem w Any 1 N M (.plain d) (.plain d) (primary n) (primary m)

namespace TandemExpr

variable (h : TandemExpr w n m)
include h

theorem expr_succ (hfits : Fits 13 (n + 1) (m + 1) N M) :
    Tandem w Any 1 N M (.plain d) (.plain d) (Parser.expr (n + 1)) (Parser.expr (m + 1)) := by
  unfold Parser.expr
  refine (h.ternary (by omega)).bind fun target _ N M _ => .accept (takeable rfl) (by simp) ?_ ?_
  · exact fun p _ _ _ => ((h.expr (by omega)).mono (Nat.zero_le _)).bind fun _ _ _ _ _ => .pure trivial
  · refine .acceptCompound ?_ (.pure trivial)
    rintro ⟨op, p⟩ _ _ _
    exact ((h.expr (by omega)).mono (Nat.zero_le _)).bind fun _ _ _ _ _ => .pure trivial

theorem ternary_succ (hfits : Fits 12 (n + 1) (m + 1) N M) :
    Tandem w Any 1 N M (.plain d) (.plain d) (Parser.ternary (n + 1)) (Parser.ternary (m + 1)) := by
  unfold Parser.ternary
  refine (h.binary 0 (by omega) (by omega)).bind fun cond _ _ _ _ => .accept (takeable rfl) (by simp) ?_ (.pure trivial)
  exact fun p _ _ _ => ((h.expr (by omega)).mono (Nat.zero_le _)).bind fun _ _ _ _ _ =>
    (Tandem.expectMark _).bind fun _ _ _ _ _ =>
      ((h.ternary (by omega)).mono (Nat.zero_le _)).bind fun _ _ _ _ _ => .pure trivial

theorem binary_succ (level : Nat) (hlevel : level ≤ 6) (hfits : Fits 11 (n + 1 + level) (m + 1 + level) N M) :
    Tandem w Any 1 N M (.plain d) (.plain d) (Parser.binary (n + 1) level) (Parser.binary (m + 1) level) := by
  unfold Parser.binary
  by_cases hlt : level < 6
  · simp only [if_pos hlt]
    exact (h.binary (level + 1) (by omega) (by omega)).bind fun left _ _ _ _ => h.binaryTail level hlt left (by omega)
  · simp only [if_neg hlt]
    exact (h.unary (by omega)).bind fun left _ _ _ _ => .pure trivial

theorem binaryTail_succ (level : Nat) (hlevel : level < 6) (left : Expr) (hfits : Fits 1 (n + 1) (m + 1) N M) :
    Tandem w Any 0 N M (.plain d) (.plain d) (Parser.binaryTail (n + 1) level left)
      (Parser.binaryTail (m + 1) level left) := by
  unfold Parser.binaryTail
  refine .acceptBinOp ?_ (.pure trivial)
  rintro ⟨op, p⟩ _ _ _
  exact ((h.binary (level + 1) (by omega) (by omega)).mono (Nat.zero_le _)).bind fun right _ _ _ _ =>
    h.binaryTail level hlevel _ (by omega)

theorem unary_succ (hfits : Fits 4 (n + 1) (m + 1) N M) :
    Tandem w Any 1 N M (.plain d) (.plain d) (Parser.unary (n + 1)) (Parser.unary (m + 1)) := by
  have hoperator (f : Expr → Expr) {N' M' : Nat} (hleft : Left 1 N M N' M') :
      Tandem w Any 0 N' M' (.plain d) (.plain d) (Parser.unary n >>= fun e => pure (f e))
        (Parser.unary m >>= fun e => pure (f e)) :=
    ((h.unary (by omega)).mono (Nat.zero_le _)).bind fun _ _ _ _ _ => .pure trivial
  unfold Parser.unary
  refine .peek plain_not_closing fun t => ?_
  obtain ⟨kind, p⟩ := t
  cases kind with
  | mark k =>
    cases k
    case bang => exact (takeable rfl).advance fun _ _ hleft => hoperator (.unary .not · p) hleft
    case minus => exact (takeable rfl).advance fun _ _ hleft => hoperator (.unary .neg · p) hleft
    case plusPlus => exact (takeable rfl).advance fun _ _ hleft => hoperator (.unary .preInc · p) hleft
    case minusMinus => exact (takeable rfl).advance fun _ _ hleft => hoperator (.unary .preDec · p) hleft
    case plus => exact (takeable rfl).advance fun _ _ _ => (h.unary (by omega)).mono (Nat.zero_le _)
    all_goals exact .of (h.suffixed (by omega))
  | _ => exact .of (h.suffixed (by omega))

theorem suffixed_succ (hfits : Fits 3 (n + 1) (m + 1) N M) :
    Tandem w Any 1 N M (.plain d) (.plain d) (Parser.suffixed (n + 1)) (Parser.suffixed (m + 1)) := by
  unfold Parser.suffixed
  exact (h.primary (by omega)).bind fun e _ _ _ _ => h.suffixes e (by omega)

theorem suffixes_succ (e : Expr) (hfits : Fits 1 (n + 1) (m + 1) N M) :
    Tandem w Any 0 N M (.plain d) (.plain d) (Parser.suffixes (n + 1) e) (Parser.suffixes (m + 1) e) := by
  unfold Parser.suffixes
  refine .peek plain_not_closing fun t => ?_
  obtain ⟨kind, p⟩ := t
  cases kind with
  | mark k =>
    cases k
    case plusPlus | minusMinus => exact (takeable rfl).advance fun _ _ _ => h.suffixes _ (by omega)
    case lbracket =>
      exact (takeable rfl).advance fun _ _ _ => ((h.expr (by omega)).mono (Nat.zero_le _)).bind fun i _ _ _ _ =>
        (Tandem.expectMark _).bind fun _ _ _ _ _ => h.suffixes _ (by omega)
    case dot =>
      refine (takeable rfl).advance fun _ _ _ => Tandem.expectName.bind fun r _ _ _ _ => ?_
      obtain ⟨name, -⟩ := r
      exact (Tandem.expectMark _).bind fun _ _ _ _ _ => (h.arguments (by omega)).bind fun args _ _ _ _ =>
          (Tandem.expectMark _).bind fun _ _ _ _ _ => h.suffixes _ (by omega)
    case lparen =>
      refine (takeable rfl).advance fun _ _ _ => (h.arguments (by omega)).bind fun args _ _ _ _ =>
        (Tandem.expectMark _).bind fun _ _ _ _ _ => ?_
      cases e
      case var name q => exact h.suffixes _ (by omega)
      all_goals exact .fail
    all_goals exact .of (.pure trivial)
  | _ => exact .of (.pure trivial)

theorem arguments_succ (hfits : Fits 15 (n + 1) (m + 1) N M) :
    Tandem w Any 0 N M (.plain d) (.plain d) (Parser.arguments (n + 1)) (Parser.arguments (m + 1)) := by
  unfold Parser.arguments
  refine .at? fun b => ?_
  cases b with
  | true => exact .pure trivial
  | false => exact (h.expressions (by omega)).mono (Nat.zero_le _)

theorem expressions_succ (hfits : Fits 14 (n + 1) (m + 1) N M) :
    Tandem w Any 1 N M (.plain d) (.plain d) (Parser.expressions (n + 1)) (Parser.expressions (m + 1)) := by
  unfold Parser.expressions
  refine (h.expr (by omega)).bind fun e _ _ _ _ => .accept (takeable rfl) (by simp) ?_ (.pure trivial)
  exact fun _ _ _ _ => ((h.expressions (by omega)).mono (Nat.zero_le _)).bind fun _ _ _ _ _ => .pure trivial

theorem listItems_succ (hfits : Fits 14 (n + 1) (m + 1) N M) :
    Tandem w Any 0 N M (.plain d) (.plain d) (Parser.listItems (n + 1)) (Parser.listItems (m + 1)) := by
  unfold Parser.listItems
  refine .at? fun b => ?_
  cases b with
  | true => exact .pure trivial
  | false =>
    refine ((h.expr (by omega)).mono (Nat.zero_le _)).bind fun e _ _ _ _ =>
      .accept (takeable rfl) (by simp) ?_ (.pure trivial)
    exact fun _ _ _ _ => (h.listItems (by omega)).bind fun _ _ _ _ _ => .pure trivial

theorem vectorArguments_succ (element : Ty) (p : Pos) (hfits : Fits 16 (n + 1) (m + 1) N M) :
    Tandem w Any 1 N M (.plain d) (.plain d) (Parser.vectorArguments (n + 1) element p)
      (Parser.vectorArguments (m + 1) element p) := by
  unfold Parser.vectorArguments
  exact (h.arguments (by omega)).bind fun args _ _ _ _ => (Tandem.expectMark _).bind
    fun _ _ _ _ _ => tandem_vectorOf element p args

theorem primary_succ (hfits : Fits 1 (n + 1) (m + 1) N M) :
    Tandem w Any 1 N M (.plain d) (.plain d) (Parser.primary (n + 1)) (Parser.primary (m + 1)) := by
  have hliteral {k : Token.Kind} (hk : Takeable (.plain d) (.plain d) k) (e : Expr) (p : Pos) :
      TandemAt w ⟨k, p⟩ Any 1 N M (.plain d) (.plain d) (advance >>= fun _ => pure e) (advance >>= fun _ => pure e) :=
    hk.advance fun _ _ _ => .pure trivial
  unfold Parser.primary
  refine .peek plain_not_closing fun t => ?_
  obtain ⟨kind, p⟩ := t
  cases kind with
  | int _ | float _ | char _ | str _ | name _ => exact hliteral takeable_plain _ p
  | invalid f => exact .of .fail
  | eof => exact .of .fail
  | word k =>
    cases k
    case trueWord | falseWord => exact hliteral takeable_plain _ p
    case vector =>
      have hvector : Takeable (.plain d) ⟨.name 0, d, false⟩ (.word .vector) :=
        takeable_of_phase rfl
      exact hvector.advance fun _ _ _ => (((tandemTy w n m).vectorElement 0 (by omega)).mono (Nat.zero_le _)).bind
        fun element _ _ _ _ => (tandem_tyMarks 0).bind fun _ _ _ _ _ =>
          (Tandem.expectMark _).bind fun q _ _ _ _ =>
            (h.vectorArguments element q (by omega)).mono (Nat.zero_le _)
    all_goals exact .of .fail
  | mark k =>
    cases k
    case lparen =>
      exact (takeable rfl).advance fun _ _ _ => ((h.expr (by omega)).mono (Nat.zero_le _)).bind fun e _ _ _ _ =>
        (Tandem.expectMark _).bind fun _ _ _ _ _ => .pure trivial
    case lbrace =>
      have hopen : Takeable (.plain d) (.plain (d + 1)) (.mark .lbrace) := takeable_mark rfl
      have hclose : Takeable (.plain (d + 1)) (.plain d) (.mark .rbrace) := takeable_mark rfl
      exact hopen.advance fun _ _ _ => (h.listItems (by omega)).bind fun items _ _ _ _ =>
        (Tandem.expect _ hclose (by simp) plain_not_closing).bind fun _ _ _ _ _ => .pure trivial
    all_goals exact .of .fail

end TandemExpr

/-- Expressions are read in tandem. -/
theorem tandemExpr (w : Tails) (n m : Nat) : TandemExpr w n m := by
  induction n generalizing m with
  | zero =>
    constructor <;> intros <;> next hfits => exact absurd hfits.1 (by omega)
  | succ n ih =>
    cases m with
    | zero =>
      constructor <;> intros <;> next hfits => exact absurd hfits.2 (by omega)
    | succ m =>
      have h := ih m
      exact ⟨h.expr_succ, h.ternary_succ, h.binary_succ, h.binaryTail_succ, h.unary_succ, h.suffixed_succ,
        h.suffixes_succ, h.arguments_succ, h.expressions_succ, h.listItems_succ, h.vectorArguments_succ,
        h.primary_succ⟩

end Parser

end CallTrace.Surface
