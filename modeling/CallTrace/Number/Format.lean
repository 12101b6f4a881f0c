import CallTrace.Number.Binary64
import CallTrace.Number.Shortest

/-! # How numbers are written

* `FloatFormat`: the decisions that make a float's shortest digits into text.
* `FloatFormat.plain`: never an exponent, no fraction for whole numbers. Programs print floats so.
* `FloatFormat.literal`: whole numbers keep `.0`; an exponent from `1e16` on and below `1e-4`.
  Listings of programs write floats so.
* `FloatFormat.json`: whole numbers keep `.0`; an exponent, with its sign, from `1e16` on and below
  `1e-5`.
* `fixedPlaces`: a fixed number of places after the point, the exact value rounded half to even.
* `toInt64`: the integer part, clamped to the signed 64-bit range.
-/

namespace CallTrace
set_option autoImplicit false

/-- The decisions that make shortest digits into text. `positionalFrom` and `positionalBelow` bound
the exponent of the leading digit for which no exponent is written; `none` is no bound. -/
structure FloatFormat where
  tie : Tie
  positionalFrom : Option Int
  positionalBelow : Option Int
  pointZero : Bool
  plusSign : Bool

namespace FloatFormat

def plain : FloatFormat := ⟨.up, none, none, false, false⟩

def literal : FloatFormat := ⟨.up, some (-4), some 16, true, false⟩

def json : FloatFormat := ⟨.even, some (-5), some 16, true, true⟩

/-- `n` zeros. -/
def zeros (n : Nat) : String := String.ofList (List.replicate n '0')

/-- The digits with the point after the first `point` of them, padded with zeros on either side. -/
def positional (f : FloatFormat) (digits : List Char) (point : Int) : String :=
  let k : Int := digits.length
  if point ≤ 0 then "0." ++ zeros (-point).toNat ++ String.ofList digits
  else if k ≤ point then
    String.ofList digits ++ zeros (point - k).toNat ++ (if f.pointZero then ".0" else "")
  else
    String.ofList (digits.take point.toNat) ++ "." ++ String.ofList (digits.drop point.toNat)

/-- One digit before the point, then the exponent. -/
def scientific (f : FloatFormat) (digits : List Char) (exponent : Int) : String :=
  let fraction := digits.drop 1
  String.ofList (digits.take 1)
    ++ (if fraction.isEmpty then "" else "." ++ String.ofList fraction)
    ++ "e" ++ (if f.plusSign && 0 ≤ exponent then "+" else "") ++ toString exponent

def magnitude (f : FloatFormat) (m : Nat) (e : Int) : String :=
  let d := Decimal.shortest f.tie m e
  let digits := Nat.toDigits 10 d.digits
  let lead := d.exponent + digits.length - 1
  let low := match f.positionalFrom with
    | some a => a ≤ lead
    | none => true
  let high := match f.positionalBelow with
    | some b => lead < b
    | none => true
  if low && high then f.positional digits (lead + 1) else f.scientific digits lead

def render (f : FloatFormat) (x : Float) : String :=
  match Binary64.ofFloat x with
  | .nan => "NaN"
  | .infinite negative => if negative then "-inf" else "inf"
  | .finite negative m e =>
    let sign := if negative then "-" else ""
    if m = 0 then sign ++ (if f.pointZero then "0.0" else "0") else sign ++ f.magnitude m e

end FloatFormat

/-! ## Fixed places -/

/-- `num / den` to the nearest integer, a half to the even neighbour. -/
def roundHalfEven (num den : Nat) : Nat :=
  let q := num / den
  let twice := 2 * (num % den)
  if twice < den then q
  else if den < twice then q + 1
  else if q % 2 = 0 then q else q + 1

/-- A natural number of `10^-places` as a decimal numeral with that many places. -/
def placesText (places n : Nat) : String :=
  let digits := Nat.toDigits 10 n
  let padded := List.replicate (places + 1 - digits.length) '0' ++ digits
  let whole := padded.take (padded.length - places)
  let fraction := padded.drop (padded.length - places)
  String.ofList whole ++ (if places = 0 then "" else "." ++ String.ofList fraction)

/-- A float with a fixed number of places after the point. -/
def fixedPlaces (places : Nat) (x : Float) : String :=
  match Binary64.ofFloat x with
  | .nan => "NaN"
  | .infinite negative => if negative then "-inf" else "inf"
  | .finite negative m e =>
    let num := m * powTwo e.toNat * powTen places
    let den := powTwo (-e).toNat
    (if negative then "-" else "") ++ placesText places (roundHalfEven num den)

/-! ## Integers -/

def minInt : Int := -9223372036854775808

/-- The greatest integer that a program can hold. -/
def maxInt : Int := 9223372036854775807

/-- Whether an integer is one that a program can hold. -/
def inRange (n : Int) : Bool := minInt ≤ n && n ≤ maxInt

/-- The integer part of a float, clamped to the integers that a program can hold; `0` for NaN. -/
def toInt64 (x : Float) : Int :=
  match Binary64.ofFloat x with
  | .nan => 0
  | .infinite negative => if negative then minInt else maxInt
  | v => match v.truncate with
    | some n => max minInt (min n maxInt)
    | none => 0

end CallTrace
