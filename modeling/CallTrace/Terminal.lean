/-! # Styled text

Text in a colour or in bold, as control sequences of a terminal. A colour ends with the sequence for the
usual colour, bold text with the one that takes back every style.
-/

namespace CallTrace.Terminal
set_option autoImplicit false

inductive Colour where
  | darkGrey
  | red
  | green
  | yellow
  | magenta
  | cyan
  deriving DecidableEq, Repr

def Colour.index : Colour → Nat
  | .darkGrey => 8
  | .red => 9
  | .green => 10
  | .yellow => 11
  | .magenta => 13
  | .cyan => 14

def coloured (c : Colour) (s : String) : String :=
  "\x1b[38;5;" ++ toString c.index ++ "m" ++ s ++ "\x1b[39m"

def bold (s : String) : String := "\x1b[1m" ++ s ++ "\x1b[0m"

end CallTrace.Terminal
