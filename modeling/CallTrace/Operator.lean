/-! # Operators

* `BinOp`: the binary operators, with their symbols and binding levels. A greater level binds tighter;
  operators of one level associate to the left.
* `UnOp`: the operators on one operand, with steps by one before or after their operand.
-/

namespace CallTrace
set_option autoImplicit false

inductive BinOp where
  | add | sub | mul | div | mod
  | eq | ne | lt | le | gt | ge
  | and | or
  deriving DecidableEq, Repr

namespace BinOp

def symbol : BinOp → String
  | .add => "+" | .sub => "-" | .mul => "*" | .div => "/" | .mod => "%"
  | .eq => "==" | .ne => "!=" | .lt => "<" | .le => "<=" | .gt => ">" | .ge => ">="
  | .and => "&&" | .or => "||"

/-- The binding level, from `0` for `||` to `5` for products. -/
def level : BinOp → Nat
  | .or => 0
  | .and => 1
  | .eq | .ne => 2
  | .lt | .le | .gt | .ge => 3
  | .add | .sub => 4
  | .mul | .div | .mod => 5

end BinOp

/-- The operators on one operand. -/
inductive UnOp where
  | neg
  | not
  | preInc
  | preDec
  | postInc
  | postDec
  deriving DecidableEq, Repr

end CallTrace
