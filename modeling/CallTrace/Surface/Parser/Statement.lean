import CallTrace.Surface.Parser.Expression
import CallTrace.Text.Blank
import CallTrace.Token.Scan

/-! # Reading statements and programs

Reading never fails as a whole. A statement or top-level item that cannot be read is skipped up to its
end (`skipConstruct`) and kept as `Stmt.unsupported`, with the source lines it covers as its text
(`recover`). A statement inside braces is skipped alone; one that is the body of another statement
without braces takes that statement with it.

* `statement`, `branch`, `statements`: one statement, the body of another, the inside of braces.
* `atFunction`: whether a type, a name and a parenthesis come next, as at the head of a function.
* `item`, `items`: what stands at top level.
* `parse`: the items of a source text.
-/

namespace CallTrace.Surface.Parser
set_option autoImplicit false

/-! ## Recovery -/

/-- How a skip ended: the line of the last token skipped and the tokens that are left. -/
structure Skipped where
  line : Nat
  rest : List Token

/-- Skips the rest of a construct inside `braces` open braces and `parens` open parentheses, after a
token on `line`. It ends with a semicolon outside of both, with the brace that closes the last open
one and a semicolon after that, or before a brace that closes none; `first` says that nothing has been
skipped yet, and then that brace is skipped too. -/
def skipConstruct (braces parens : Nat) (first : Bool) (line : Nat) : List Token → Skipped
  | [] => ⟨line, []⟩
  | t :: ts =>
    match t.kind with
    | .eof => ⟨line, t :: ts⟩
    | .mark .lbrace => skipConstruct (braces + 1) parens false t.pos.line ts
    | .mark .rbrace =>
      if braces = 0 then
        if first then ⟨t.pos.line, ts⟩ else ⟨line, t :: ts⟩
      else if braces = 1 ∧ parens = 0 then
        match ts with
        | ⟨.mark .semicolon, p⟩ :: us => ⟨p.line, us⟩
        | _ => ⟨t.pos.line, ts⟩
      else skipConstruct (braces - 1) parens false t.pos.line ts
    | .mark .lparen => skipConstruct braces (parens + 1) false t.pos.line ts
    | .mark .rparen => skipConstruct braces (parens - 1) false t.pos.line ts
    | .mark .semicolon =>
      if braces = 0 ∧ parens = 0 then ⟨t.pos.line, ts⟩
      else skipConstruct braces parens false t.pos.line ts
    | _ => skipConstruct braces parens false t.pos.line ts

/-- The source lines from `first` to `last`, trimmed and joined by spaces. -/
def linesText (lines : List String) (first last : Nat) : String :=
  " ".intercalate (((lines.take last).drop (first - 1)).map Text.trim)

/-- Skips the construct at the head of `ts`, which cannot be read because of `e`. -/
def recover (lines : List String) (e : ParseError) (ts : List Token) : Stmt × List Token :=
  let pos := (next ts).pos
  let s := skipConstruct 0 0 true pos.line ts
  (.unsupported (linesText lines pos.line s.line) e.message pos, s.rest)

/-! ## Declarations -/

/-- Whether the head of a function comes next: a type, a name, a parenthesis, and then the closing
parenthesis or another type. -/
def atFunction (n : Nat) (ts : List Token) : Bool :=
  let head : Parser Bool := do
    let _ ← ty n
    let _ ← expectName
    let _ ← expect .lparen ""
    let us ← get
    return (← at? .rparen) || atType us
  match head.run ts with
  | .ok (b, _) => b
  | .error _ => false

/-- The only argument of a constructor that builds no vector. -/
def soleArgument : List Expr → Parser Expr
  | [e] => return e
  | _ => throw .constructorArguments

/-- The size between the brackets of an array declaration, after the opening bracket. -/
def arraySize (n : Nat) : Parser (Option Expr) := do
  let size ← if ← at? .rbracket then pure none else some <$> expr n
  let _ ← expect .rbracket "after array size"
  return size

/-- The value that a declared variable of type `t` starts with, if the declaration gives one. -/
def initializer (n : Nat) (t : Ty) : Parser (Option Expr) := do
  match ← accept .eq with
  | some _ => return some (← expr n)
  | none =>
    match ← accept .lparen with
    | some p =>
      match t with
      | .vector element _ _ => return some (← vectorArguments n element p)
      | .scalar .. =>
        let args ← arguments n
        let _ ← expect .rparen "after constructor arguments"
        return some (← soleArgument args)
    | none => return none

/-- A declaration of a variable, with its semicolon. A bracket after the name makes it an array. -/
def declaration (n : Nat) : Parser VarDecl := do
  let base ← ty n
  let (name, pos) ← expectName
  let d ← match ← accept .lbracket with
    | some _ => do
      let size ← arraySize n
      let init ← initializer n (.plainVector base)
      let sized := size.map fun s => Expr.sized s base pos
      pure ⟨name, .plainVector base, init.or sized, pos⟩
    | none => do
      let init ← initializer n base
      pure ⟨name, base, init, pos⟩
  let _ ← expect .semicolon "after variable declaration"
  return d

/-! ## Statements -/

def toSemicolon : List Token → List Token
  | [] => []
  | t :: ts =>
    match t.kind with
    | .mark .semicolon | .eof => t :: ts
    | _ => toSemicolon ts

/-- The items of an output statement: each follows a `<<` and binds tighter than it. -/
def outputItems : Nat → Parser (List Expr)
  | 0 => throw .outOfFuel
  | n + 1 => do
    match ← accept .ltLt with
    | some _ =>
      let e ← binary n 4
      return e :: (← outputItems n)
    | none => return []

def output (n : Nat) (pos : Pos) : Parser Stmt := do
  let items ← outputItems n
  if items.isEmpty then throw .outputWithoutItems
  let _ ← expect .semicolon "after output statement"
  return .output items pos

/-- An expression unless the mark `m` comes next. -/
def exprUnless (m : Mark) (n : Nat) : Parser (Option Expr) := do
  if ← at? m then return none else return some (← expr n)

/-- The first clause of a `for` statement, with its semicolon. -/
def forInit (n : Nat) : Parser ForInit := do
  match ← accept .semicolon with
  | some _ => return .none
  | none =>
    if atType (← get) then return .decl (← declaration n)
    else
      let pos := (← peek).pos
      let e ← expr n
      let _ ← expect .semicolon "after for init"
      return .expr e pos

/-- A condition in parentheses; `place` and `close` word the messages. -/
def condition (n : Nat) (place close : String) : Parser Expr := do
  let _ ← expect .lparen place
  let cond ← expr n
  let _ ← expect .rparen close
  return cond

def exprStatement (n : Nat) (pos : Pos) : Parser Stmt := do
  let e ← expr n
  let _ ← expect .semicolon "after expression"
  return .expr e pos

mutual

def statement (lines : List String) : Nat → Parser Stmt
  | 0 => throw .outOfFuel
  | n + 1 => do
    let t ← peek
    let pos := t.pos
    match t.kind with
    | .word .returnWord =>
      advance
      let value ← exprUnless .semicolon n
      let _ ← expect .semicolon "after return"
      return .ret value pos
    | .word .ifWord =>
      advance
      let cond ← condition n "after 'if'" "after if condition"
      let yes ← branch lines n
      match ← acceptWord .elseWord with
      | some _ => return .ifElse cond yes (← branch lines n) pos
      | none => return .ifThen cond yes pos
    | .word .whileWord =>
      advance
      let cond ← condition n "after 'while'" "after while condition"
      return .whileLoop cond (← branch lines n) pos
    | .word .doWord =>
      advance
      let body ← branch lines n
      expectWord .whileWord "after do body"
      let cond ← condition n "after 'while'" "after do-while condition"
      let _ ← expect .semicolon "after do-while"
      return .doWhile body cond pos
    | .word .forWord =>
      advance
      let _ ← expect .lparen "after 'for'"
      let init ← forInit n
      let cond ← exprUnless .semicolon n
      let _ ← expect .semicolon "after for condition"
      let update ← exprUnless .rparen n
      let _ ← expect .rparen "after for clauses"
      return .forLoop init cond update (← branch lines n) pos
    | .word .breakWord =>
      advance
      let _ ← expect .semicolon "after 'break'"
      return .breakLoop pos
    | .word .continueWord =>
      advance
      let _ ← expect .semicolon "after 'continue'"
      return .continueLoop pos
    | .mark .lbrace =>
      advance
      let body ← statements lines n
      let _ ← expect .rbrace "after block"
      return .block body pos
    | .mark .semicolon => advance; return .block [] pos
    | .word .usingWord =>
      advance
      modify toSemicolon
      let _ ← expect .semicolon "after 'using'"
      return .usingDirective pos
    | .name "cout" => advance; output n pos
    | .word k =>
      if k.startsType then
        if atFunction n (← get) then throw .nestedFunction
        return .decl (← declaration n)
      else exprStatement n pos
    | _ => exprStatement n pos

/-- The body of a statement: the inside of braces, or one statement. -/
def branch (lines : List String) : Nat → Parser (List Stmt)
  | 0 => throw .outOfFuel
  | n + 1 => do
    match ← accept .lbrace with
    | some _ =>
      let body ← statements lines n
      let _ ← expect .rbrace "after block"
      return body
    | none => return [← statement lines n]

/-- Statements up to a closing brace, which is not consumed, or to the end of the file. -/
def statements (lines : List String) : Nat → Parser (List Stmt)
  | 0 => return []
  | n + 1 => fun ts =>
    match (next ts).kind with
    | .mark .rbrace | .eof => .ok ([], ts)
    | _ =>
      let (s, us) := match statement lines n ts with
        | .ok r => r
        | .error e => recover lines e ts
      match statements lines n us with
      | .ok (ss, vs) => .ok (s :: ss, vs)
      | .error e => .error e

end

/-! ## Programs -/

/-- A parameter. Brackets after it make it a vector; its name may be missing. -/
def parameter (n : Nat) : Parser Param := do
  let t ← ty n
  let name ← fun ts => match ts with
    | ⟨.name s, _⟩ :: us => Except.ok (s, us)
    | _ => .ok ("", ts)
  match ← accept .lbracket with
  | some _ =>
    let _ ← expect .rbracket "in array parameter"
    return ⟨name, .plainVector t⟩
  | none => return ⟨name, t⟩

def parametersTail : Nat → Parser (List Param)
  | 0 => throw .outOfFuel
  | n + 1 => do
    let p ← parameter n
    match ← accept .comma with
    | some _ => return p :: (← parametersTail n)
    | none => return [p]

/-- The parameters of a function, up to the closing parenthesis. A lone `void` is no parameter. -/
def parameters (n : Nat) : Parser (List Param) := fun ts =>
  match ts with
  | ⟨.mark .rparen, _⟩ :: _ => .ok ([], ts)
  | ⟨.word .void, _⟩ :: ⟨.mark .rparen, p⟩ :: us => .ok ([], ⟨.mark .rparen, p⟩ :: us)
  | _ => parametersTail n ts

def function (lines : List String) (n : Nat) : Parser Item := do
  let t ← ty n
  let (name, pos) ← expectName
  let _ ← expect .lparen "after function name"
  let params ← parameters n
  let _ ← expect .rparen "after parameters"
  match ← accept .semicolon with
  | some _ => return .declared name t params pos
  | none =>
    let _ ← expect .lbrace "before function body"
    let body ← statements lines n
    let finish ← expect .rbrace "after function body"
    return .function ⟨name, t, params, body, pos, finish⟩

def item (lines : List String) (n : Nat) : Parser Item := do
  let ts ← get
  if atType ts && atFunction n ts then function lines n else .stmt <$> statement lines n

/-- The items of a list of tokens. Each item uses one unit of the first argument. -/
def items (lines : List String) (n : Nat) : Nat → List Token → List Item
  | 0, _ => []
  | k + 1, ts =>
    match (next ts).kind with
    | .eof => []
    | _ =>
      let (i, us) := match item lines n ts with
        | .ok r => r
        | .error e =>
          let (s, us) := recover lines e ts
          (.stmt s, us)
      i :: items lines n k us

end Parser

def parse (source : String) : List Item :=
  let ts := Scan.scan source
  Parser.items (Text.lines source) (Parser.fuelFor ts) (ts.length + 1) ts

end CallTrace.Surface
