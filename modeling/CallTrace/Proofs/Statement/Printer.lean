import CallTrace.Proofs.Expression.Tokens

/-! # Printing statements

* `Stmt.tokens`: the tokens of a statement. Every body stands in braces and every operand of an output
  statement in parentheses.
* `Stmt.Spelled`: the statements that have tokens. An expression that is a statement starts with no token that
  starts another kind of statement, and one in the first clause of a `for` starts with no type.
* `Stmt.erase`: the statement without its places.
-/

namespace CallTrace.Surface
set_option autoImplicit false

/-! ## Tokens -/

/-- The tokens of an expression that may be missing. -/
def optionTokens : Option Expr → List Token.Kind
  | none => []
  | some e => e.tokens

/-- The tokens of the value that a variable starts with, behind its mark. -/
def initTokens : Option Expr → List Token.Kind
  | none => []
  | some e => .mark .eq :: e.tokens

/-- The tokens of a declaration, with its semicolon. -/
def VarDecl.tokens (d : VarDecl) : List Token.Kind :=
  d.ty.print ++ .name d.name :: (initTokens d.init ++ [.mark .semicolon])

/-- The tokens of the first clause of a `for` statement, with its semicolon. -/
def ForInit.tokens : ForInit → List Token.Kind
  | .none => [.mark .semicolon]
  | .decl d => d.tokens
  | .expr e _ => e.tokens ++ [.mark .semicolon]

/-- A tree in parentheses. -/
def parenthesized (e : Expr) : List Token.Kind := .mark .lparen :: (e.tokens ++ [.mark .rparen])

/-- The operands of an output statement, each in parentheses behind its mark. -/
def operandTokens : List Expr → List Token.Kind
  | [] => []
  | e :: es => .mark .ltLt :: (parenthesized e ++ operandTokens es)

/-- Tokens in braces. -/
def braced (ks : List Token.Kind) : List Token.Kind := .mark .lbrace :: (ks ++ [.mark .rbrace])

namespace Stmt

mutual

/-- The tokens of a statement. -/
def tokens : Stmt → List Token.Kind
  | .decl d => d.tokens
  | .expr e _ => e.tokens ++ [.mark .semicolon]
  | .output items _ => .name "cout" :: (operandTokens items ++ [.mark .semicolon])
  | .ret value _ => .word .returnWord :: (optionTokens value ++ [.mark .semicolon])
  | .ifThen cond yes _ => .word .ifWord :: (parenthesized cond ++ braced (tokensAll yes))
  | .ifElse cond yes no _ =>
    .word .ifWord :: (parenthesized cond ++
      (braced (tokensAll yes) ++ .word .elseWord :: braced (tokensAll no)))
  | .whileLoop cond body _ => .word .whileWord :: (parenthesized cond ++ braced (tokensAll body))
  | .doWhile body cond _ =>
    .word .doWord :: (braced (tokensAll body) ++ .word .whileWord :: (parenthesized cond ++ [.mark .semicolon]))
  | .forLoop init cond update body _ =>
    .word .forWord :: .mark .lparen :: (init.tokens ++ (optionTokens cond ++ .mark .semicolon ::
      (optionTokens update ++ .mark .rparen :: braced (tokensAll body))))
  | .block body _ => braced (tokensAll body)
  | .breakLoop _ => [.word .breakWord, .mark .semicolon]
  | .continueLoop _ => [.word .continueWord, .mark .semicolon]
  | .usingDirective _ | .unsupported .. => []

/-- The tokens of some statements, one after the other. -/
def tokensAll : List Stmt → List Token.Kind
  | [] => []
  | s :: ss => tokens s ++ tokensAll ss

end

end Stmt

/-! ## Statements that have tokens -/

def OptionSpelled (o : Option Expr) : Prop := ∀ e ∈ o, e.Spelled

/-- Whether a token starts a type. -/
def opensType : Token.Kind → Bool
  | .word k => k.startsType
  | _ => false

/-- Whether a statement that starts with a token is no expression: a block, an empty statement, an output
statement or a declaration. -/
def opensOther : Token.Kind → Bool
  | .mark m => m == .lbrace || m == .semicolon
  | .name s => s == "cout"
  | k => opensType k

def ForInit.Spelled : ForInit → Prop
  | .none => True
  | .decl d => OptionSpelled d.init
  | .expr e _ => e.Spelled ∧ ∀ k ∈ e.tokens.head?, opensType k = false

namespace Stmt

mutual

/-- The statements that have tokens. -/
def Spelled : Stmt → Prop
  | .decl d => OptionSpelled d.init
  | .expr e _ => e.Spelled ∧ ∀ k ∈ e.tokens.head?, opensOther k = false
  | .output items _ => items ≠ [] ∧ Expr.SpelledAll items
  | .ret value _ => OptionSpelled value
  | .ifThen cond yes _ => cond.Spelled ∧ SpelledAll yes
  | .ifElse cond yes no _ => cond.Spelled ∧ SpelledAll yes ∧ SpelledAll no
  | .whileLoop cond body _ | .doWhile body cond _ => cond.Spelled ∧ SpelledAll body
  | .forLoop init cond update body _ =>
    init.Spelled ∧ OptionSpelled cond ∧ OptionSpelled update ∧ SpelledAll body
  | .block body _ => SpelledAll body
  | .breakLoop _ | .continueLoop _ => True
  | .usingDirective _ | .unsupported .. => False

/-- All statements of a list have tokens. -/
def SpelledAll : List Stmt → Prop
  | [] => True
  | s :: ss => Spelled s ∧ SpelledAll ss

end

end Stmt

/-! ## Without places -/

def VarDecl.erase (d : VarDecl) : VarDecl := ⟨d.name, d.ty, d.init.map Expr.erase, .start⟩

def ForInit.erase : ForInit → ForInit
  | .none => .none
  | .decl d => .decl d.erase
  | .expr e _ => .expr e.erase .start

namespace Stmt

mutual

/-- The statement without its places. -/
def erase : Stmt → Stmt
  | .decl d => .decl d.erase
  | .expr e _ => .expr e.erase .start
  | .output items _ => .output (Expr.eraseAll items) .start
  | .ret value _ => .ret (value.map Expr.erase) .start
  | .ifThen cond yes _ => .ifThen cond.erase (eraseAll yes) .start
  | .ifElse cond yes no _ => .ifElse cond.erase (eraseAll yes) (eraseAll no) .start
  | .whileLoop cond body _ => .whileLoop cond.erase (eraseAll body) .start
  | .doWhile body cond _ => .doWhile (eraseAll body) cond.erase .start
  | .forLoop init cond update body _ =>
    .forLoop init.erase (cond.map Expr.erase) (update.map Expr.erase) (eraseAll body) .start
  | .block body _ => .block (eraseAll body) .start
  | .breakLoop _ => .breakLoop .start
  | .continueLoop _ => .continueLoop .start
  | .usingDirective _ => .usingDirective .start
  | .unsupported text reason _ => .unsupported text reason .start

/-- The statements of a list without their places. -/
def eraseAll : List Stmt → List Stmt
  | [] => []
  | s :: ss => erase s :: eraseAll ss

end

end Stmt

end CallTrace.Surface
