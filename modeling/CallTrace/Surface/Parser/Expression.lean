import CallTrace.Surface.Parser

/-! # Reading expressions

The levels, from the loosest to the tightest:

* `expr`: assignments, which associate to the right and have a conditional on their left;
* `ternary`: conditionals, with a whole expression in the middle and a conditional at the end;
* `binary`: the six levels of `BinOp.level`, each of which associates to the left;
* `unary`: operators before their operand;
* `suffixed`: steps, indices, method calls and calls after their operand;
* `primary`: literals, names, lists in braces, vectors, and expressions in parentheses.
-/

namespace CallTrace.Surface.Parser
set_option autoImplicit false

def binOp? : Mark → Option BinOp
  | .plus => some .add | .minus => some .sub | .star => some .mul | .slash => some .div
  | .percent => some .mod | .eqEq => some .eq | .notEq => some .ne | .lt => some .lt
  | .le => some .le | .gt => some .gt | .ge => some .ge | .andAnd => some .and
  | .orOr => some .or
  | _ => none

def compoundOp? : Mark → Option BinOp
  | .plusEq => some .add | .minusEq => some .sub | .starEq => some .mul
  | .slashEq => some .div | .percentEq => some .mod
  | _ => none

/-- Consumes a binary operator of the given level if one comes next. -/
def acceptBinOp (level : Nat) : Parser (Option (BinOp × Pos)) := fun ts =>
  match ts with
  | ⟨.mark m, p⟩ :: us =>
    match binOp? m with
    | some op => if op.level = level then .ok (some (op, p), us) else .ok (none, ts)
    | none => .ok (none, ts)
  | _ => .ok (none, ts)

/-- Consumes a compound assignment operator if one comes next. -/
def acceptCompound : Parser (Option (BinOp × Pos)) := fun ts =>
  match ts with
  | ⟨.mark m, p⟩ :: us =>
    match compoundOp? m with
    | some op => .ok (some (op, p), us)
    | none => .ok (none, ts)
  | _ => .ok (none, ts)

def vectorOf (element : Ty) (pos : Pos) : List Expr → Parser Expr
  | [] => return .list [] pos
  | [size] => return .sized size element pos
  | [size, fill] => return .filled size fill element pos
  | _ => throw .vectorArguments

mutual

def expr : Nat → Parser Expr
  | 0 => throw .outOfFuel
  | n + 1 => do
    let target ← ternary n
    match ← accept .eq with
    | some p => return .assign target (← expr n) p
    | none =>
      match ← acceptCompound with
      | some (op, p) => return .compound target op (← expr n) p
      | none => return target

def ternary : Nat → Parser Expr
  | 0 => throw .outOfFuel
  | n + 1 => do
    let cond ← binary n 0
    match ← accept .question with
    | some p =>
      let yes ← expr n
      let _ ← expect .colon "in ternary expression"
      return .ternary cond yes (← ternary n) p
    | none => return cond

def binary : Nat → Nat → Parser Expr
  | 0, _ => throw .outOfFuel
  | n + 1, level => do
    let left ← if level < 6 then binary n (level + 1) else unary n
    if level < 6 then binaryTail n level left else return left

/-- The operators of the given level, with their right operands, after a left operand. -/
def binaryTail : Nat → Nat → Expr → Parser Expr
  | 0, _, _ => throw .outOfFuel
  | n + 1, level, left => do
    match ← acceptBinOp level with
    | some (op, p) =>
      let right ← binary n (level + 1)
      binaryTail n level (.binary op left right p)
    | none => return left

/-- Operators before an operand. A plus sign leaves no trace. -/
def unary : Nat → Parser Expr
  | 0 => throw .outOfFuel
  | n + 1 => do
    let t ← peek
    match t.kind with
    | .mark .bang => advance; return .unary .not (← unary n) t.pos
    | .mark .minus => advance; return .unary .neg (← unary n) t.pos
    | .mark .plusPlus => advance; return .unary .preInc (← unary n) t.pos
    | .mark .minusMinus => advance; return .unary .preDec (← unary n) t.pos
    | .mark .plus => advance; unary n
    | _ => suffixed n

def suffixed : Nat → Parser Expr
  | 0 => throw .outOfFuel
  | n + 1 => do
    let e ← primary n
    suffixes n e

def suffixes : Nat → Expr → Parser Expr
  | 0, _ => throw .outOfFuel
  | n + 1, e => do
    let t ← peek
    match t.kind with
    | .mark .plusPlus => advance; suffixes n (.unary .postInc e t.pos)
    | .mark .minusMinus => advance; suffixes n (.unary .postDec e t.pos)
    | .mark .lbracket =>
      advance
      let i ← expr n
      let _ ← expect .rbracket "after index"
      suffixes n (.index e i t.pos)
    | .mark .dot =>
      advance
      let (name, _) ← expectName
      let _ ← expect .lparen "after method name"
      let args ← arguments n
      let _ ← expect .rparen "after method arguments"
      suffixes n (.method e name args t.pos)
    | .mark .lparen =>
      advance
      let args ← arguments n
      let _ ← expect .rparen "after function arguments"
      match e with
      | .var name p => suffixes n (.call name args p)
      | _ => throw .calleeNotName
    | _ => return e

/-- Arguments up to a closing parenthesis, which is not consumed. -/
def arguments : Nat → Parser (List Expr)
  | 0 => throw .outOfFuel
  | n + 1 => do
    if ← at? .rparen then return [] else expressions n

def expressions : Nat → Parser (List Expr)
  | 0 => throw .outOfFuel
  | n + 1 => do
    let e ← expr n
    match ← accept .comma with
    | some _ => return e :: (← expressions n)
    | none => return [e]

/-- The items of a list up to its closing brace, which is not consumed. A comma may stand before the
brace. -/
def listItems : Nat → Parser (List Expr)
  | 0 => throw .outOfFuel
  | n + 1 => do
    if ← at? .rbrace then return []
    else
      let e ← expr n
      match ← accept .comma with
      | some _ => return e :: (← listItems n)
      | none => return [e]

/-- A vector from its constructor arguments, after the parenthesis at `pos`. -/
def vectorArguments : Nat → Ty → Pos → Parser Expr
  | 0, _, _ => throw .outOfFuel
  | n + 1, element, pos => do
    let args ← arguments n
    let _ ← expect .rparen "after constructor arguments"
    vectorOf element pos args

def primary : Nat → Parser Expr
  | 0 => throw .outOfFuel
  | n + 1 => do
    let t ← peek
    match t.kind with
    | .int k => advance; return .int k t.pos
    | .float x => advance; return .float x t.pos
    | .char c => advance; return .char c t.pos
    | .str s => advance; return .str s t.pos
    | .word .trueWord => advance; return .bool true t.pos
    | .word .falseWord => advance; return .bool false t.pos
    | .name s => advance; return .var s t.pos
    | .mark .lparen =>
      advance
      let e ← expr n
      let _ ← expect .rparen "after expression"
      return e
    | .word .vector =>
      advance
      let element ← vectorElement n
      let _ ← tyMarks
      let p ← expect .lparen "after vector type"
      vectorArguments n element p
    | .mark .lbrace =>
      advance
      let items ← listItems n
      let _ ← expect .rbrace "after list"
      return .list items t.pos
    | .invalid f => throw (.fault f)
    | k => throw (.unexpected k)

end

end CallTrace.Surface.Parser
