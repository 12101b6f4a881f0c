/-! # Powers of two and of ten

The powers that binary and decimal notation consist of, as natural numbers.
-/

namespace CallTrace
set_option autoImplicit false

/-- Two to the power `n`. -/
def powTwo (n : Nat) : Nat := Nat.pow 2 n

/-- Ten to the power `n`. -/
def powTen (n : Nat) : Nat := Nat.pow 10 n

end CallTrace
