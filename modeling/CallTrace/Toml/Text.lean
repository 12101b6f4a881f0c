import CallTrace.Toml.Number

/-! # Strings in TOML

Four kinds: on one line or on several, with escapes (in double quotes) or without (in single ones).
Each reader takes the characters after the opening quotes and gives the text with the characters after
the closing ones. In a string on several lines a line break is one line feed, however it is written; a
backslash at the end of a line swallows the line break and the blanks that follow it; up to two quotes
may stand before the closing three.
-/

namespace CallTrace.Toml
set_option autoImplicit false

/-- Whether a character may stand in a comment or a string as it is. -/
def isPlain (c : Char) : Bool := c = '\t' || (32 ≤ c.toNat && c.toNat ≠ 127)

def codePoint (ds : List Char) : Option Char := do
  let n ← ds.foldlM (fun n c => (digit? 16 c).map (16 * n + ·)) 0
  if n < 0xD800 ∨ (0xDFFF < n ∧ n < 0x110000) then some (Char.ofNat n) else none

/-- The character that an escape without code point stands for. -/
def escape? : Char → Option Char
  | 'b' => some '\x08'
  | 't' => some '\t'
  | 'n' => some '\n'
  | 'f' => some '\x0c'
  | 'r' => some '\r'
  | '"' => some '"'
  | '\\' => some '\\'
  | _ => none

/-- An escape, given the characters after the backslash. -/
def escape : List Char → Option (Char × List Char)
  | 'u' :: a :: b :: c :: d :: cs => (codePoint [a, b, c, d]).map (·, cs)
  | 'U' :: a :: b :: c :: d :: e :: f :: g :: h :: cs =>
    (codePoint [a, b, c, d, e, f, g, h]).map (·, cs)
  | c :: cs => (escape? c).map (·, cs)
  | [] => none

def precede (c : Char) (r : List Char × List Char) : List Char × List Char := (c :: r.1, r.2)

/-- A string with escapes on one line. The fuel bounds its length. -/
def basic : Nat → List Char → Option (List Char × List Char)
  | 0, _ => none
  | fuel + 1, cs =>
    match cs with
    | '"' :: rest => some ([], rest)
    | '\\' :: rest => do
      let (c, rest) ← escape rest
      (basic fuel rest).map (precede c)
    | c :: rest => if isPlain c then (basic fuel rest).map (precede c) else none
    | [] => none

def literal : List Char → Option (List Char × List Char)
  | '\'' :: rest => some ([], rest)
  | c :: rest => if isPlain c then (literal rest).map (precede c) else none
  | [] => none

def swallow (broken : Bool) : List Char → Option (List Char)
  | ' ' :: cs => swallow broken cs
  | '\t' :: cs => swallow broken cs
  | '\n' :: cs => swallow true cs
  | '\r' :: '\n' :: cs => swallow true cs
  | cs => if broken then some cs else none

/-- A string with escapes on several lines. The fuel bounds its length. -/
def basicLines : Nat → List Char → Option (List Char × List Char)
  | 0, _ => none
  | fuel + 1, cs =>
    match cs with
    | '"' :: '"' :: '"' :: '"' :: '"' :: rest => some (['"', '"'], rest)
    | '"' :: '"' :: '"' :: '"' :: rest => some (['"'], rest)
    | '"' :: '"' :: '"' :: rest => some ([], rest)
    | '\\' :: rest =>
      match swallow false rest with
      | some rest => basicLines fuel rest
      | none => do
        let (c, rest) ← escape rest
        (basicLines fuel rest).map (precede c)
    | '\r' :: '\n' :: rest => (basicLines fuel rest).map (precede '\n')
    | c :: rest =>
      if c = '\n' ∨ isPlain c then (basicLines fuel rest).map (precede c) else none
    | [] => none

def literalLines : List Char → Option (List Char × List Char)
  | '\'' :: '\'' :: '\'' :: '\'' :: '\'' :: rest => some (['\'', '\''], rest)
  | '\'' :: '\'' :: '\'' :: '\'' :: rest => some (['\''], rest)
  | '\'' :: '\'' :: '\'' :: rest => some ([], rest)
  | '\r' :: '\n' :: rest => (literalLines rest).map (precede '\n')
  | c :: rest => if c = '\n' ∨ isPlain c then (literalLines rest).map (precede c) else none
  | [] => none

/-- The characters after a line break, if one comes first. -/
def skipBreak : List Char → List Char
  | '\n' :: cs => cs
  | '\r' :: '\n' :: cs => cs
  | cs => cs

/-- A string of one line, as it may also stand for a key. -/
def lineString : List Char → Option (String × List Char)
  | '"' :: cs => (basic (cs.length + 1) cs).map fun (s, rest) => (String.ofList s, rest)
  | '\'' :: cs => (literal cs).map fun (s, rest) => (String.ofList s, rest)
  | _ => none

def string : List Char → Option (String × List Char)
  | '"' :: '"' :: '"' :: cs =>
    (basicLines (cs.length + 1) (skipBreak cs)).map fun (s, rest) => (String.ofList s, rest)
  | '\'' :: '\'' :: '\'' :: cs =>
    (literalLines (skipBreak cs)).map fun (s, rest) => (String.ofList s, rest)
  | cs => lineString cs

end CallTrace.Toml
