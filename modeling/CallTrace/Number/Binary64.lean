import CallTrace.Number.Power

/-! # Binary floating-point numbers as exact values

* `Binary64`: what a float stands for, read off its bits. A finite float is `± mantissa · 2^exponent`.
* `truncate`: the integer part of a finite float, exact.
* `remainder`: the remainder of a division whose quotient is cut toward zero. It is computed on
  the exact values, and the result is always a float, so nothing is rounded.
-/

namespace CallTrace
set_option autoImplicit false

/-- What a float stands for: `finite s m e` is `m · 2^e`, negated when `s` holds. -/
inductive Binary64 where
  | nan
  | infinite (negative : Bool)
  | finite (negative : Bool) (mantissa : Nat) (exponent : Int)
  deriving DecidableEq, Repr

namespace Binary64

def ofFloat (x : Float) : Binary64 :=
  let bits : Nat := x.toBits.toNat
  let negative := bits / powTwo 63 == 1
  let field : Nat := bits / powTwo 52 % powTwo 11
  let fraction : Nat := bits % powTwo 52
  if field = 2047 then
    if fraction = 0 then .infinite negative else .nan
  else if field = 0 then .finite negative fraction (-1074)
  else .finite negative (fraction + powTwo 52) ((field : Int) - 1075)

/-- `m · 2^e` cut to an integer. -/
def floorShift (m : Nat) (e : Int) : Nat :=
  if 0 ≤ e then m * powTwo e.toNat else m / powTwo (-e).toNat

/-- Whether `m · 2^e` is an integer. -/
def isWhole (m : Nat) (e : Int) : Bool :=
  0 ≤ e || m % powTwo (-e).toNat == 0

/-- The integer part; `none` for an infinity or a NaN. -/
def truncate : Binary64 → Option Int
  | .finite negative m e =>
    let n : Int := floorShift m e
    some (if negative then -n else n)
  | _ => none

/-- The integer that a float without fractional part stands for. -/
def toInt? (x : Binary64) : Option Int :=
  match x with
  | .finite _ m e => if isWhole m e then x.truncate else none
  | _ => none

end Binary64

/-- `m · 2^e` as a float, negated when `negative` holds. Exact whenever that number is a float. -/
def scaled (negative : Bool) (m : Nat) (e : Int) : Float :=
  let x := (Float.ofNat m).scaleB e
  if negative then -x else x

/-- The remainder of `x` by `y`, with the sign of `x`, for a quotient cut toward zero. -/
def remainder (x y : Float) : Float :=
  match Binary64.ofFloat x, Binary64.ofFloat y with
  | .finite negative m e, .finite _ k f =>
    if k = 0 then 0.0 / 0.0
    else
      let low := min e f
      let a := m * powTwo (e - low).toNat
      let b := k * powTwo (f - low).toNat
      scaled negative (a % b) low
  | .finite .., .infinite _ => x
  | _, _ => 0.0 / 0.0

end CallTrace
