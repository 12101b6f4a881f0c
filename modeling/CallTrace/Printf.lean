import CallTrace.Heap
import CallTrace.RunError
import CallTrace.Text.Digit

/-! # Formatted output

`Printf.format` writes a text in which directives stand for values. A directive is a percent sign, an
optional point with the number of places, and a letter:

* `d` and `i` write an integer, and the integer part of a float;
* `f` writes a number with the given places, or with six;
* `c` writes the character of a code point, `s` any value; `%` writes a percent sign.
-/

namespace CallTrace.Printf
set_option autoImplicit false

/-- Where reading a format is: in plain text, after a percent sign, or in the number of places. -/
inductive Mode where
  | plain
  | directive
  | places (digits : Nat)

/-- The greatest number of places that is understood; a greater one counts as zero. -/
def maxPlaces : Nat := 18446744073709551615

def charOfInt? (n : Int) : Option Char :=
  if 0 ≤ n ∧ n.toNat.isValidChar then some (Char.ofNat n.toNat) else none

/-- The text of a value under the directive `letter`. -/
def directiveText (h : Heap) (letter : Char) (places : Option Nat) (v : Value) :
    Except Cause String :=
  if letter = 'd' || letter = 'i' then
    match v with
    | .float x => .ok (toString (toInt64 x))
    | _ =>
      match v.int? with
      | some n => .ok (toString n)
      | none =>
        .error (.invalidFormat ("%" ++ letter.toString ++ " expects int, got " ++ v.kindName))
  else if letter = 'f' then
    match v.float? with
    | some x => .ok (fixedPlaces (places.getD 6) x)
    | none => .error (.invalidFormat ("%f expects double, got " ++ v.kindName))
  else if letter = 'c' then
    match v with
    | .int n =>
      match charOfInt? n with
      | some c => .ok c.toString
      | none => .error (.invalidFormat ("%c got invalid character code " ++ toString n))
    | _ => .ok (h.text v)
  else if letter = 's' then .ok (h.text v)
  else .error (.invalidFormat ("Unsupported format specifier %" ++ letter.toString))

/-- What the directive `letter` writes, and the values that are left for the next ones. -/
def directive (h : Heap) (letter : Char) (places : Option Nat) (vs : List Value) :
    Except Cause (String × List Value) :=
  if letter = '%' then .ok ("%", vs)
  else
    match vs with
    | [] => .error (.invalidFormat "Not enough arguments for format string")
    | v :: rest => (directiveText h letter places v).map fun text => (text, rest)

/-- The rest of a text after what is `done`, with the values that are left. -/
def formatFrom (h : Heap) : Mode → List Char → List Value → String → Except Cause String
  | .plain, [], _, done => .ok done
  | _, [], _, _ => .error (.invalidFormat "format string ends with '%'")
  | .plain, c :: cs, vs, done =>
    if c = '%' then formatFrom h .directive cs vs done
    else formatFrom h .plain cs vs (done.push c)
  | .directive, c :: cs, vs, done =>
    if c = '.' then formatFrom h (.places 0) cs vs done
    else
      match directive h c none vs with
      | .ok (text, rest) => formatFrom h .plain cs rest (done ++ text)
      | .error e => .error e
  | .places n, c :: cs, vs, done =>
    if Text.isDigit c then formatFrom h (.places (Text.addDigit n c)) cs vs done
    else
      match directive h c (some (if n ≤ maxPlaces then n else 0)) vs with
      | .ok (text, rest) => formatFrom h .plain cs rest (done ++ text)
      | .error e => .error e

def format (h : Heap) (s : String) (vs : List Value) : Except Cause String :=
  formatFrom h .plain s.toList vs ""

def dropLineFeed (s : String) : String :=
  match s.toList.reverse with
  | '\n' :: cs => String.ofList cs.reverse
  | _ => s

end CallTrace.Printf
