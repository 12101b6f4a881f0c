/-! # Decimal digits

* `isDigit`: the digits `0` to `9`; digits of other scripts are none.
* `numeral`: the number that some digits denote. `numeralFrom` goes on from the number before them.
-/

namespace CallTrace.Text
set_option autoImplicit false

def isDigit (c : Char) : Bool := '0' ≤ c && c ≤ '9'

def addDigit (n : Nat) (c : Char) : Nat := 10 * n + (c.toNat - 48)

/-- The number that digits denote after a number. -/
def numeralFrom (n : Nat) (digits : List Char) : Nat := digits.foldl addDigit n

def numeral (digits : List Char) : Nat := numeralFrom 0 digits

theorem numeralFrom_append (n : Nat) (xs ys : List Char) :
    numeralFrom n (xs ++ ys) = numeralFrom (numeralFrom n xs) ys :=
  List.foldl_append

end CallTrace.Text
