import CallTrace.Number.Format
import CallTrace.Text.Quoted

/-! # Tokens of the traced language

* `Pos`: line and column of a character, both counted from one; `Pos.after` steps over characters.
* `Keyword`, `Mark`: the reserved words and the operators and punctuation, each with its spelling.
* `ScanFault`: why a stretch of text is no token.
* `Token`: a kind and the place of its first character.
* `Token.Kind.describe`: the wording by which messages name a token.
-/

namespace CallTrace
set_option autoImplicit false

/-- A place in the source: line and column, counted from one. -/
structure Pos where
  line : Nat
  column : Nat
  deriving DecidableEq, Repr, Inhabited

namespace Pos

def start : Pos := ⟨1, 1⟩

def next (p : Pos) (c : Char) : Pos :=
  if c = '\n' then ⟨p.line + 1, 1⟩ else ⟨p.line, p.column + 1⟩

def after (p : Pos) (cs : List Char) : Pos := cs.foldl next p

/-- The place `n` columns further on the same line. -/
def right (p : Pos) (n : Nat) : Pos := ⟨p.line, p.column + n⟩

end Pos

inductive Keyword where
  | int | long | bool | char | void | double | float | string | vector | auto | const
  | ifWord | elseWord | whileWord | doWord | forWord | breakWord | continueWord | returnWord
  | trueWord | falseWord | usingWord
  deriving DecidableEq, Repr

namespace Keyword

def all : List Keyword :=
  [.int, .long, .bool, .char, .void, .double, .float, .string, .vector, .auto, .const,
   .ifWord, .elseWord, .whileWord, .doWord, .forWord, .breakWord, .continueWord, .returnWord,
   .trueWord, .falseWord, .usingWord]

def text : Keyword → String
  | .int => "int" | .long => "long" | .bool => "bool" | .char => "char" | .void => "void"
  | .double => "double" | .float => "float" | .string => "string" | .vector => "vector"
  | .auto => "auto" | .const => "const"
  | .ifWord => "if" | .elseWord => "else" | .whileWord => "while" | .doWord => "do"
  | .forWord => "for" | .breakWord => "break" | .continueWord => "continue"
  | .returnWord => "return" | .trueWord => "true" | .falseWord => "false" | .usingWord => "using"

def ofText? (s : String) : Option Keyword := all.find? (·.text == s)

def startsType : Keyword → Bool
  | .int | .long | .bool | .char | .void | .double | .float | .string | .vector | .auto
  | .const => true
  | _ => false

end Keyword

inductive Mark where
  | plus | minus | star | slash | percent
  | eqEq | notEq | lt | le | gt | ge
  | andAnd | orOr | bang | ltLt | gtGt | amp
  | eq | plusEq | minusEq | starEq | slashEq | percentEq
  | plusPlus | minusMinus | dot | question | colon
  | lparen | rparen | lbrace | rbrace | lbracket | rbracket | semicolon | comma
  deriving DecidableEq, Repr

namespace Mark

def text : Mark → String
  | .plus => "+" | .minus => "-" | .star => "*" | .slash => "/" | .percent => "%"
  | .eqEq => "==" | .notEq => "!=" | .lt => "<" | .le => "<=" | .gt => ">" | .ge => ">="
  | .andAnd => "&&" | .orOr => "||" | .bang => "!" | .ltLt => "<<" | .gtGt => ">>" | .amp => "&"
  | .eq => "=" | .plusEq => "+=" | .minusEq => "-=" | .starEq => "*=" | .slashEq => "/="
  | .percentEq => "%="
  | .plusPlus => "++" | .minusMinus => "--" | .dot => "." | .question => "?" | .colon => ":"
  | .lparen => "(" | .rparen => ")" | .lbrace => "\x7b" | .rbrace => "\x7d" | .lbracket => "["
  | .rbracket => "]" | .semicolon => ";" | .comma => ","

end Mark

/-- Why a stretch of text is no token. -/
inductive ScanFault where
  | unterminatedComment
  | unterminatedString
  | unknownEscape
  | malformedChar
  | integerTooLarge (digits : String)
  | lonePipe
  | nameExpected
  | unexpected (c : Char)
  deriving DecidableEq, Repr

def ScanFault.message : ScanFault → String
  | .unterminatedComment => "unterminated block comment"
  | .unterminatedString => "unterminated string literal"
  | .unknownEscape => "unknown escape sequence"
  | .malformedChar => "malformed character literal"
  | .integerTooLarge digits => "integer literal too large: " ++ digits
  | .lonePipe => "bitwise '|' is not supported"
  | .nameExpected => "expected name after 'std::'"
  | .unexpected c => "unexpected character '" ++ c.toString ++ "'"

/-- What a token is, wherever it stands. -/
inductive Token.Kind where
  | int (n : Int)
  | float (x : Float)
  | char (c : Char)
  | str (s : String)
  | name (s : String)
  | word (k : Keyword)
  | mark (m : Mark)
  | invalid (fault : ScanFault)
  | eof
  deriving Repr, Inhabited

/-- A token and the place of its first character. -/
structure Token where
  kind : Token.Kind
  pos : Pos
  deriving Repr, Inhabited

def Token.Kind.describe : Token.Kind → String
  | .int n => "int literal " ++ toString n
  | .float x => "float literal " ++ FloatFormat.plain.render x
  | .char c => "char literal " ++ Text.quoteChar c
  | .str s => "string literal \"" ++ s ++ "\""
  | .name s => "identifier '" ++ s ++ "'"
  | .word k => "'" ++ k.text ++ "'"
  | .mark m => "'" ++ m.text ++ "'"
  | .invalid fault => "invalid input (" ++ fault.message ++ ")"
  | .eof => "end of file"

end CallTrace
