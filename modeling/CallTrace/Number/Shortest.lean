import CallTrace.Number.Power

/-! # The fewest decimal digits that read back

A float stands for every real number that rounds to it. `Decimal.shortest` finds the decimal numeral
with the fewest digits in that interval and, among those, the one nearest to the float. When two are
equally near, `Tie` decides.

* `Interval`: the reals that round to `m · 2^e`, as three fractions over one denominator. Its ends
  belong to it exactly when `m` is even. Below a power of two the gap to the next float is half as
  wide, so the lower end is then nearer.
* `Interval.candidate`: the better of the two neighbours of the float on the grid of multiples of
  `10^p`, if one of them lies in the interval.
* `Decimal.shortest`: the candidate on the coarsest grid that has one. Seventeen digits always
  suffice.
-/

namespace CallTrace
set_option autoImplicit false

/-- Which of two equally near numerals is taken: the greater one, or the one with an even last digit. -/
inductive Tie where
  | up
  | even
  deriving DecidableEq, Repr

/-- `digits · 10^exponent`. -/
structure Decimal where
  digits : Nat
  exponent : Int
  deriving DecidableEq, Repr

/-- The reals that round to a positive float: `value / denominator` is the float, `low / denominator`
and `high / denominator` are the ends. -/
structure Interval where
  low : Nat
  value : Nat
  high : Nat
  denominator : Nat
  closed : Bool

namespace Interval

/-- The interval of `m · 2^e`, for `m` and `e` as a float stores them. -/
def ofFinite (m : Nat) (e : Int) : Interval :=
  let scale := if 2 ≤ e then powTwo (e - 2).toNat else 1
  let denominator := if 2 ≤ e then 1 else powTwo (2 - e).toNat
  let narrow := m == powTwo 52 && (-1074 : Int) < e
  { low := (if narrow then 4 * m - 1 else 4 * m - 2) * scale
    value := 4 * m * scale
    high := (4 * m + 2) * scale
    denominator
    closed := m % 2 == 0 }

/-- Whether `d · unit / denominator` lies in the interval. -/
def contains (i : Interval) (d unit : Nat) : Bool :=
  let x := d * unit
  if i.closed then i.low ≤ x && x ≤ i.high else i.low < x && x < i.high

/-- Scales numerators and denominator so that multiples of `10^p` become multiples of the second
component. -/
def onGrid (i : Interval) (p : Int) : Interval × Nat :=
  if 0 ≤ p then (i, i.denominator * powTen p.toNat)
  else
    let k := powTen (-p).toNat
    ({ i with low := i.low * k, value := i.value * k, high := i.high * k }, i.denominator)

/-- The neighbour of the float on the grid of multiples of `10^p` that is to be printed, as a
multiple of `10^p`. -/
def candidate (i : Interval) (tie : Tie) (p : Int) : Option Nat :=
  let (j, unit) := i.onGrid p
  let d := j.value / unit
  let below := j.contains d unit && d != 0
  let above := j.contains (d + 1) unit
  if below && above then
    let twice := 2 * (j.value % unit)
    if twice < unit then some d
    else if unit < twice then some (d + 1)
    else match tie with
      | .up => some (d + 1)
      | .even => if d % 2 = 0 then some d else some (d + 1)
  else if below then some d
  else if above then some (d + 1)
  else none

end Interval

/-- Whether `10^t ≤ m · 2^e`. -/
def powTenLe (t : Int) (m : Nat) (e : Int) : Bool :=
  powTen t.toNat * powTwo (-e).toNat ≤ m * powTwo e.toNat * powTen (-t).toNat

/-- The exponent of the leading decimal digit of `m · 2^e`. The estimate from the binary length is at
most one too small or too large. -/
def leadingExponent (m : Nat) (e : Int) : Int :=
  let guess := (((m.log2 : Int) + e) * 30103) / 100000
  if powTenLe (guess + 1) m e then guess + 1
  else if powTenLe guess m e then guess
  else guess - 1

namespace Decimal

/-- The first candidate among the grids with `k`, `k + 1`, … digits, of which `left` are tried. -/
def search (i : Interval) (tie : Tie) (lead : Int) : Nat → Nat → Decimal
  | k, 0 =>
    let p := lead - k + 1
    let (j, unit) := i.onGrid p
    ⟨j.value / unit, p⟩
  | k, left + 1 =>
    let p := lead - k + 1
    match i.candidate tie p with
    | some d => ⟨d, p⟩
    | none => search i tie lead (k + 1) left

/-- Drops the zeros at the end of the digits; `fuel` bounds how many. -/
def dropZeros : Nat → Decimal → Decimal
  | 0, d => d
  | fuel + 1, d =>
    if d.digits % 10 = 0 && d.digits != 0 then dropZeros fuel ⟨d.digits / 10, d.exponent + 1⟩ else d

/-- The shortest numeral that rounds to `m · 2^e`, for `0 < m`. -/
def shortest (tie : Tie) (m : Nat) (e : Int) : Decimal :=
  dropZeros 20 (search (.ofFinite m e) tie (leadingExponent m e) 1 17)

end Decimal

end CallTrace
