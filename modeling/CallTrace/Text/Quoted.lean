import CallTrace.Text.Combining
import CallTrace.Text.Unprintable

/-! # Quoted text

Two ways to write a text between quotes:

* `quoteText`, `quoteChar`: as in a listing of a program. The quote that encloses the text, the
  backslash and the usual control characters get a short escape; every other character without a
  visible form of its own is written as its code point.
* `jsonText`: as a JSON string. Only quote, backslash and the characters below the space are escaped.
-/

namespace CallTrace.Text
set_option autoImplicit false

/-- The digits of `n` to the base sixteen. -/
def hex (n : Nat) : List Char := Nat.toDigits 16 n

/-- One character of a listing, between quotes of the kind `quote`. -/
def escapeChar (quote : Char) (c : Char) : List Char :=
  if c = quote then ['\\', c]
  else if c = '\\' then ['\\', '\\']
  else if c = '\n' then ['\\', 'n']
  else if c = '\t' then ['\\', 't']
  else if c = '\r' then ['\\', 'r']
  else if c.toNat = 0 then ['\\', '0']
  else if isCombining c || isUnprintable c then ['\\', 'u', '\x7b'] ++ hex c.toNat ++ ['\x7d']
  else [c]

def quoteText (s : String) : String :=
  String.ofList ('"' :: s.toList.flatMap (escapeChar '"') ++ ['"'])

def quoteChar (c : Char) : String :=
  String.ofList ('\'' :: escapeChar '\'' c ++ ['\''])

/-! ## JSON strings -/

def escapeJson (c : Char) : List Char :=
  if c = '"' then ['\\', '"']
  else if c = '\\' then ['\\', '\\']
  else if c.toNat = 8 then ['\\', 'b']
  else if c = '\t' then ['\\', 't']
  else if c = '\n' then ['\\', 'n']
  else if c.toNat = 12 then ['\\', 'f']
  else if c = '\r' then ['\\', 'r']
  else if c.toNat < 32 then
    let digits := hex c.toNat
    ['\\', 'u'] ++ List.replicate (4 - digits.length) '0' ++ digits
  else [c]

def jsonText (s : String) : String :=
  String.ofList ('"' :: s.toList.flatMap escapeJson ++ ['"'])

end CallTrace.Text
