import CallTrace.Number.Format
import CallTrace.Text.Digit
import CallTrace.Toml

/-! # Numbers, dates and times in TOML

Each reader takes the characters from where it starts and gives an item with the characters after it,
or `none` if there is no such item. `numeric` reads whichever of them there is: a date or a time first,
then a float, then an integer.
-/

namespace CallTrace.Toml
set_option autoImplicit false

open Text (isDigit)

def digit? (base : Nat) (c : Char) : Option Nat :=
  let n := c.toNat
  let v :=
    if isDigit c then n - 48
    else if 'a' ≤ c && c ≤ 'f' then n - 87
    else if 'A' ≤ c && c ≤ 'F' then n - 55
    else base
  if v < base then some v else none

/-- Digits after the first one. An underscore stands between two digits; `none` if it does not. -/
def moreDigits (base : Nat) (n : Nat) : List Char → Option (Nat × List Char)
  | [] => some (n, [])
  | c :: d :: cs =>
    if c = '_' then (digit? base d).bind fun v => moreDigits base (base * n + v) cs
    else match digit? base c with
      | some v => moreDigits base (base * n + v) (d :: cs)
      | none => some (n, c :: d :: cs)
  | [c] =>
    if c = '_' then none
    else match digit? base c with
      | some v => some (base * n + v, [])
      | none => some (n, [c])

def digits (base : Nat) : List Char → Option (Nat × List Char)
  | c :: cs => (digit? base c).bind fun v => moreDigits base v cs
  | [] => none

/-- A sign, if there is one; whether it is a minus. -/
def sign : List Char → Bool × List Char
  | '-' :: cs => (true, cs)
  | '+' :: cs => (false, cs)
  | cs => (false, cs)

/-- A decimal numeral without sign; one that starts with zero is that digit alone. -/
def decimal : List Char → Option (Nat × List Char)
  | '0' :: cs => some (0, cs)
  | cs => digits 10 cs

def ranged (n : Int) (rest : List Char) : Option (Item × List Char) :=
  if inRange n then some (.int n, rest) else none

/-- An integer: decimal with a sign, or without one to the base sixteen, eight or two. -/
def integer : List Char → Option (Item × List Char)
  | '0' :: 'x' :: cs => (digits 16 cs).bind fun (n, rest) => ranged n rest
  | '0' :: 'o' :: cs => (digits 8 cs).bind fun (n, rest) => ranged n rest
  | '0' :: 'b' :: cs => (digits 2 cs).bind fun (n, rest) => ranged n rest
  | cs =>
    let (negative, cs) := sign cs
    (decimal cs).bind fun (n, rest) => ranged (if negative then -(n : Int) else n) rest

/-! ## Floats -/

/-- Whether `m · 10^k` is so great that the nearest float is infinite. -/
def exceedsFloats (m : Nat) (k : Int) : Bool :=
  let bound := powTwo 1024 - powTwo 970
  if m = 0 then false
  else if 400 < k then true
  else if 0 ≤ k then bound ≤ m * powTen k.toNat
  else if (m.log2 : Int) < -k then false
  else bound * powTen (-k).toNat ≤ m

def exponent : List Char → Option (Int × List Char)
  | c :: cs =>
    if c = 'e' ∨ c = 'E' then
      let (negative, cs) := sign cs
      (digits 10 cs).map fun (n, rest) => (if negative then -(n : Int) else n, rest)
    else none
  | [] => none

/-- The places after the point of a float: the digits before it with the places appended, and how many
places there are. -/
def fraction (whole : Nat) : List Char → Option (Nat × Nat × List Char)
  | '.' :: cs => (digits 10 cs).bind fun (_, rest) =>
    let places := (cs.take (cs.length - rest.length)).filter (· ≠ '_')
    some (Text.numeralFrom whole places, places.length, rest)
  | _ => none

def numeralFloat (cs : List Char) : Option (Item × List Char) := do
  let (negative, cs) := sign cs
  let (whole, cs) ← decimal cs
  let (m, places, cs, hasPoint) := match cs with
    | '.' :: _ =>
      match fraction whole cs with
      | some (m, places, rest) => (m, places, rest, true)
      | none => (whole, 0, cs, false)
    | _ => (whole, 0, cs, false)
  let (e, cs) ← match exponent cs with
    | some (e, rest) => some (e, rest)
    | none => if hasPoint then some (0, cs) else none
  if !negative && exceedsFloats m (e - places) then none else some (.other, cs)

def specialFloat (cs : List Char) : Option (Item × List Char) :=
  match (sign cs).2 with
  | 'i' :: 'n' :: 'f' :: rest => some (.other, rest)
  | 'n' :: 'a' :: 'n' :: rest => some (.other, rest)
  | _ => none

/-! ## Dates and times -/

def fixedDigits : Nat → Nat → List Char → Option (Nat × List Char)
  | 0, n, cs => some (n, cs)
  | k + 1, n, c :: cs => if isDigit c then fixedDigits k (Text.addDigit n c) cs else none
  | _ + 1, _, [] => none

def twoDigits (low high : Nat) (cs : List Char) : Option (Nat × List Char) :=
  (fixedDigits 2 0 cs).bind fun (n, rest) => if low ≤ n ∧ n ≤ high then some (n, rest) else none

def mark (c : Char) : List Char → Option (List Char)
  | d :: cs => if d = c then some cs else none
  | [] => none

def daysOf (year month : Nat) : Nat :=
  if month = 2 then
    if year % 4 = 0 ∧ (year % 100 ≠ 0 ∨ year % 400 = 0) then 29 else 28
  else if month = 4 ∨ month = 6 ∨ month = 9 ∨ month = 11 then 30
  else 31

def date (cs : List Char) : Option (List Char) := do
  let (year, cs) ← fixedDigits 4 0 cs
  let (month, cs) ← twoDigits 1 12 (← mark '-' cs)
  let (day, cs) ← twoDigits 1 31 (← mark '-' cs)
  if day ≤ daysOf year month then some cs else none

/-- A time, with or without a fraction of the second. -/
def time (cs : List Char) : Option (List Char) := do
  let (_, cs) ← twoDigits 0 23 cs
  let (_, cs) ← twoDigits 0 59 (← mark ':' cs)
  let (_, cs) ← twoDigits 0 60 (← mark ':' cs)
  match cs with
  | '.' :: c :: rest => if isDigit c then some (rest.dropWhile isDigit) else some cs
  | _ => some cs

/-- The distance of a time from universal time, if it is given. -/
def offset : List Char → Option (List Char)
  | 'Z' :: cs => some cs
  | 'z' :: cs => some cs
  | '+' :: cs => hours cs
  | '-' :: cs => hours cs
  | cs => some cs
where
  hours (cs : List Char) : Option (List Char) := do
    let (_, cs) ← twoDigits 0 23 cs
    let (_, cs) ← twoDigits 0 59 (← mark ':' cs)
    return cs

def dateTime (cs : List Char) : Option (Item × List Char) :=
  match date cs with
  | some (c :: rest) =>
    if c = 'T' ∨ c = 't' ∨ c = ' ' then
      match time rest with
      | some rest => (offset rest).map fun rest => (.other, rest)
      | none => some (.other, c :: rest)
    else some (.other, c :: rest)
  | some [] => some (.other, [])
  | none => (time cs).map fun rest => (.other, rest)

def numeric (cs : List Char) : Option (Item × List Char) :=
  dateTime cs <|> numeralFloat cs <|> specialFloat cs <|> integer cs

end CallTrace.Toml
