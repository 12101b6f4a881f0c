import CallTrace.Surface.Parser.Expression

/-! # Printing expressions

* `Expr.level`: how tight a tree binds, from `0` for assignments to `9` for an operand with what follows
  it, or on its own. No place asks for more.
* `Expr.print`: the tokens of a tree, with parentheses only around an operand that binds looser than its
  place asks for.
* `Expr.Written`: the trees that have tokens. Vectors built from a size are spelled with a type, and a
  compound assignment has one of the five arithmetic operators.
* `Expr.erase`: the tree without its places.
-/

namespace CallTrace.Surface
set_option autoImplicit false

/-- The mark of a binary operator. -/
def binMark : BinOp → Mark
  | .add => .plus | .sub => .minus | .mul => .star | .div => .slash | .mod => .percent
  | .eq => .eqEq | .ne => .notEq | .lt => .lt | .le => .le | .gt => .gt | .ge => .ge
  | .and => .andAnd | .or => .orOr

/-- The mark of a compound assignment, if there is one with the operator. -/
def compoundMark? : BinOp → Option Mark
  | .add => some .plusEq | .sub => some .minusEq | .mul => some .starEq
  | .div => some .slashEq | .mod => some .percentEq
  | _ => none

/-- The mark of an operator on one operand. -/
def unMark : UnOp → Mark
  | .neg => .minus | .not => .bang
  | .preInc | .postInc => .plusPlus
  | .preDec | .postDec => .minusMinus

/-- Whether an operator stands after its operand. -/
def isSuffix : UnOp → Bool
  | .postInc | .postDec => true
  | _ => false

theorem binOp?_binMark (op : BinOp) : Parser.binOp? (binMark op) = some op := by
  cases op <;> rfl

theorem compoundOp?_of_mark {op : BinOp} {m : Mark} (h : compoundMark? op = some m) :
    Parser.compoundOp? m = some op ∧ m ≠ .eq := by
  cases op <;> cases h <;> exact ⟨rfl, Mark.noConfusion⟩

theorem level_le_five (op : BinOp) : op.level ≤ 5 := by
  cases op <;> decide

namespace Expr

/-- How tight a tree binds. -/
def level : Expr → Nat
  | .assign .. | .compound .. => 0
  | .ternary .. => 1
  | .binary op _ _ _ => op.level + 2
  | .unary op _ _ => if isSuffix op then 9 else 8
  | _ => 9

theorem level_le_nine (e : Expr) : e.level ≤ 9 := by
  cases e with
  | binary op a b p => exact Nat.add_le_add (level_le_five op) (by decide : 2 ≤ 4)
  | unary op a p =>
    show (if isSuffix op then 9 else 8) ≤ 9
    split <;> decide
  | _ => exact Nat.le_of_ble_eq_true rfl

/-- Tokens in parentheses unless the tree they are from binds as tight as its place asks for. -/
def guarded (l : Nat) (e : Expr) (ks : List Token.Kind) : List Token.Kind :=
  if e.level < l then .mark .lparen :: (ks ++ [.mark .rparen]) else ks

mutual

/-- The tokens of a tree. -/
def print : Expr → List Token.Kind
  | .int k _ => [.int k]
  | .float x _ => [.float x]
  | .bool b _ => [.word (if b then .trueWord else .falseWord)]
  | .char c _ => [.char c]
  | .str s _ => [.str s]
  | .list items _ => .mark .lbrace :: (printList items ++ [.mark .rbrace])
  | .sized .. | .filled .. => []
  | .var name _ => [.name name]
  | .binary op a b _ =>
    guarded (op.level + 2) a (print a) ++ .mark (binMark op) ::
      guarded (op.level + 3) b (print b)
  | .unary op a _ =>
    if isSuffix op then guarded 9 a (print a) ++ [.mark (unMark op)]
    else .mark (unMark op) :: guarded 8 a (print a)
  | .ternary c a b _ =>
    guarded 2 c (print c) ++ .mark .question :: (print a ++ .mark .colon :: guarded 1 b (print b))
  | .assign a b _ => guarded 1 a (print a) ++ .mark .eq :: print b
  | .compound a op b _ =>
    guarded 1 a (print a) ++ (compoundMark? op).toList.map .mark ++ print b
  | .call name args _ => .name name :: .mark .lparen :: (printList args ++ [.mark .rparen])
  | .method a name args _ =>
    guarded 9 a (print a) ++ .mark .dot :: .name name :: .mark .lparen ::
      (printList args ++ [.mark .rparen])
  | .index a i _ => guarded 9 a (print a) ++ .mark .lbracket :: (print i ++ [.mark .rbracket])

/-- The tokens of some trees, with commas between them. -/
def printList : List Expr → List Token.Kind
  | [] => []
  | e :: es => print e ++ printMore es

/-- The tokens of the trees after the first one, each with a comma before it. -/
def printMore : List Expr → List Token.Kind
  | [] => []
  | e :: es => .mark .comma :: (print e ++ printMore es)

end

mutual

/-- The trees that have tokens. -/
def Written : Expr → Prop
  | .int .. | .float .. | .bool .. | .char .. | .str .. | .var .. => True
  | .sized .. | .filled .. => False
  | .list items _ => WrittenAll items
  | .binary _ a b _ => Written a ∧ Written b
  | .unary _ a _ => Written a
  | .ternary c a b _ => Written c ∧ Written a ∧ Written b
  | .assign a b _ => Written a ∧ Written b
  | .compound a op b _ => Written a ∧ (compoundMark? op).isSome ∧ Written b
  | .call _ args _ => WrittenAll args
  | .method a _ args _ => Written a ∧ WrittenAll args
  | .index a i _ => Written a ∧ Written i

/-- All trees of a list have tokens. -/
def WrittenAll : List Expr → Prop
  | [] => True
  | e :: es => Written e ∧ WrittenAll es

end

mutual

/-- The tree without its places. -/
def erase : Expr → Expr
  | .int k _ => .int k .start
  | .float x _ => .float x .start
  | .bool b _ => .bool b .start
  | .char c _ => .char c .start
  | .str s _ => .str s .start
  | .list items _ => .list (eraseAll items) .start
  | .sized size element _ => .sized (erase size) element .start
  | .filled size fill element _ => .filled (erase size) (erase fill) element .start
  | .var name _ => .var name .start
  | .binary op a b _ => .binary op (erase a) (erase b) .start
  | .unary op a _ => .unary op (erase a) .start
  | .ternary c a b _ => .ternary (erase c) (erase a) (erase b) .start
  | .assign a b _ => .assign (erase a) (erase b) .start
  | .compound a op b _ => .compound (erase a) op (erase b) .start
  | .call name args _ => .call name (eraseAll args) .start
  | .method a name args _ => .method (erase a) name (eraseAll args) .start
  | .index a i _ => .index (erase a) (erase i) .start

/-- The trees of a list without their places. -/
def eraseAll : List Expr → List Expr
  | [] => []
  | e :: es => erase e :: eraseAll es

end

end Expr

end CallTrace.Surface
