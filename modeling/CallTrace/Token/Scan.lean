import CallTrace.Text.Digit
import CallTrace.Token

/-! # Reading tokens

`scan` turns a source text into tokens and never fails: text that is no token becomes an `invalid`
token with its fault. The last token is always `eof`.

* Blanks are space, tab, carriage return and line feed. Comments and lines that start with `#` are
  skipped like blanks (`skip`).
* Every other token starts with a character that decides its class (`lexeme`): a quote, a digit, a
  letter, or a mark. Of two marks the longer one is read.
* A name is read without a leading `std::` and stands where the name itself stands.

Each function returns the characters that are left and the place of the first of them.
-/

namespace CallTrace.Scan
set_option autoImplicit false

open Text (isDigit numeral)

/-- What has been read, and where reading goes on. -/
structure Read (α : Type) where
  value : α
  rest : List Char
  pos : Pos

/-! ## Blanks and comments -/

/-- Where `skip` is: between tokens, in a comment up to the line end, or in a comment that was opened
at a known place. -/
inductive Gap where
  | blank
  | line
  | block (opened : Pos)

/-- Skips blanks and comments. The value is the place of a comment that is never closed. -/
def skip : Gap → List Char → Pos → Read (Option Pos)
  | .block opened, [], p => ⟨some opened, [], p⟩
  | _, [], p => ⟨none, [], p⟩
  | .line, c :: cs, p => skip (if c = '\n' then .blank else .line) cs (p.next c)
  | .block _, '*' :: '/' :: cs, p => skip .blank cs (p.right 2)
  | .block opened, c :: cs, p => skip (.block opened) cs (p.next c)
  | .blank, '/' :: '/' :: cs, p => skip .line cs (p.right 2)
  | .blank, '/' :: '*' :: cs, p => skip (.block p) cs (p.right 2)
  | .blank, c :: cs, p =>
    if c = ' ' || c = '\t' || c = '\r' || c = '\n' then skip .blank cs (p.next c)
    else if c = '#' then skip .line cs (p.next c)
    else ⟨none, c :: cs, p⟩

/-! ## Quoted literals -/

/-- The character that an escape stands for, given the character after the backslash. -/
def unescape : Char → Option Char
  | 'n' => some '\n'
  | 't' => some '\t'
  | 'r' => some '\r'
  | '\\' => some '\\'
  | '"' => some '"'
  | '\'' => some '\''
  | '0' => some '\x00'
  | _ => none

/-- The rest of a string literal after the reversed characters `done`. A literal ends on its line; an
unknown escape ends it too, and reading goes on after the escape. -/
def stringBody : List Char → List Char → Pos → Read Token.Kind
  | _, [], p => ⟨.invalid .unterminatedString, [], p⟩
  | done, '\\' :: c :: cs, p =>
    match unescape c with
    | some d => stringBody (d :: done) cs ((p.right 1).next c)
    | none => ⟨.invalid .unknownEscape, cs, (p.right 1).next c⟩
  | done, c :: cs, p =>
    if c = '\n' then ⟨.invalid .unterminatedString, c :: cs, p⟩
    else if c = '"' then ⟨.str (String.ofList done.reverse), cs, p.right 1⟩
    else if c = '\\' then ⟨.invalid .unknownEscape, cs, p.right 1⟩
    else stringBody (c :: done) cs (p.right 1)

/-- The closing quote of a character literal, if `c?` is a character at all. -/
def charEnd (c? : Option Char) (cs : List Char) (p : Pos) : Read Token.Kind :=
  match c?, cs with
  | some c, '\'' :: rest => ⟨.char c, rest, p.right 1⟩
  | _, _ => ⟨.invalid .malformedChar, cs, p⟩

/-- The rest of a character literal after its opening quote. -/
def charBody : List Char → Pos → Read Token.Kind
  | [], p => charEnd none [] p
  | '\\' :: [], p => charEnd none [] (p.right 1)
  | '\\' :: c :: cs, p => charEnd (unescape c) cs ((p.right 1).next c)
  | c :: cs, p => charEnd (if c = '\'' || c = '\n' then none else some c) cs (p.next c)

/-! ## Numbers -/

/-- Whether a character may follow a number without a meaning of its own. -/
def isSuffix (c : Char) : Bool :=
  c = 'l' || c = 'L' || c = 'u' || c = 'U' || c = 'f' || c = 'F'

def intLiteral (digits : List Char) : Token.Kind :=
  if inRange (numeral digits) then .int (numeral digits)
  else .invalid (.integerTooLarge (String.ofList digits))

def floatLiteral (whole fraction : List Char) : Token.Kind :=
  .float (Float.ofScientific (numeral (whole ++ fraction)) true fraction.length)

/-- A number. `cs` starts at its first digit, or at a point before its first digit. -/
def number (cs : List Char) (p : Pos) : Read Token.Kind :=
  let whole := cs.takeWhile isDigit
  let r := cs.dropWhile isDigit
  match r with
  | '.' :: t =>
    let fraction := t.takeWhile isDigit
    let u := t.dropWhile isDigit
    let length := whole.length + 1 + fraction.length + (u.takeWhile isSuffix).length
    ⟨floatLiteral whole fraction, u.dropWhile isSuffix, p.right length⟩
  | _ =>
    ⟨intLiteral whole, r.dropWhile isSuffix, p.right (whole.length + (r.takeWhile isSuffix).length)⟩

/-! ## Names -/

def startsName (c : Char) : Bool :=
  ('a' ≤ c && c ≤ 'z') || ('A' ≤ c && c ≤ 'Z') || c = '_'

def inName (c : Char) : Bool := startsName c || isDigit c

def nameKind (s : String) : Token.Kind :=
  match Keyword.ofText? s with
  | some k => .word k
  | none => .name s

/-- A name that starts with the first character of `cs`, together with its place. Each `std::` before
it uses one unit of `fuel`. -/
def name : Nat → List Char → Pos → Read Token
  | fuel, cs, p =>
    let s := String.ofList (cs.takeWhile inName)
    let r := cs.dropWhile inName
    let q := p.right (cs.takeWhile inName).length
    match fuel, s == "std", r with
    | fuel + 1, true, ':' :: ':' :: c :: t =>
      if startsName c then name fuel (c :: t) (q.right 2)
      else ⟨⟨.invalid .nameExpected, p⟩, t, (q.right 2).next c⟩
    | _, true, [':', ':'] => ⟨⟨.invalid .nameExpected, p⟩, [], q.right 2⟩
    | _, _, _ => ⟨⟨nameKind s, p⟩, r, q⟩

/-! ## Marks -/

def mark2 : Char → Char → Option Mark
  | '+', '+' => some .plusPlus
  | '+', '=' => some .plusEq
  | '-', '-' => some .minusMinus
  | '-', '=' => some .minusEq
  | '*', '=' => some .starEq
  | '/', '=' => some .slashEq
  | '%', '=' => some .percentEq
  | '=', '=' => some .eqEq
  | '!', '=' => some .notEq
  | '<', '=' => some .le
  | '<', '<' => some .ltLt
  | '>', '=' => some .ge
  | '>', '>' => some .gtGt
  | '&', '&' => some .andAnd
  | '|', '|' => some .orOr
  | _, _ => none

def mark1 : Char → Option Mark
  | '+' => some .plus | '-' => some .minus | '*' => some .star | '/' => some .slash
  | '%' => some .percent | '=' => some .eq | '!' => some .bang | '<' => some .lt
  | '>' => some .gt | '&' => some .amp | '.' => some .dot | '?' => some .question
  | ':' => some .colon | '(' => some .lparen | ')' => some .rparen | '\x7b' => some .lbrace
  | '\x7d' => some .rbrace | '[' => some .lbracket | ']' => some .rbracket
  | ';' => some .semicolon | ',' => some .comma
  | _ => none

/-- A mark that starts with `c`; any other character is a token of its own that is invalid. -/
def markKind (c : Char) (cs : List Char) (p : Pos) : Read Token.Kind :=
  match cs.head?.bind (mark2 c) with
  | some m => ⟨.mark m, cs.drop 1, p.right 2⟩
  | none =>
    let kind := match mark1 c with
      | some m => .mark m
      | none => if c = '|' then .invalid .lonePipe else .invalid (.unexpected c)
    ⟨kind, cs, p.right 1⟩

/-! ## Tokens -/

/-- The token that starts with `c`, at `p`. The fuel bounds how often `std::` stands before a name. -/
def lexeme (fuel : Nat) (c : Char) (cs : List Char) (p : Pos) : Read Token :=
  let here (r : Read Token.Kind) : Read Token := ⟨⟨r.value, p⟩, r.rest, r.pos⟩
  if c = '"' then here (stringBody [] cs (p.right 1))
  else if c = '\'' then here (charBody cs (p.right 1))
  else if isDigit c || (c = '.' && cs.head?.any isDigit) then here (number (c :: cs) p)
  else if startsName c then name fuel (c :: cs) p
  else here (markKind c cs p)

/-- The tokens of a text that starts at `p`. Each token uses one unit of fuel, and a text has no more
tokens than characters. -/
def tokensFrom : Nat → List Char → Pos → List Token
  | 0, _, p => [⟨.eof, p⟩]
  | fuel + 1, cs, p =>
    let gap := skip .blank cs p
    let unclosed := match gap.value with
      | some opened => [⟨.invalid .unterminatedComment, opened⟩]
      | none => []
    unclosed ++ match gap.rest with
      | [] => [⟨.eof, gap.pos⟩]
      | c :: t =>
        let r := lexeme fuel c t gap.pos
        r.value :: tokensFrom fuel r.rest r.pos

def scan (source : String) : List Token :=
  tokensFrom (source.length + 1) source.toList .start

end CallTrace.Scan
