/-! # Blank characters and source lines

* `isBlank`: the characters with the Unicode property `White_Space`.
* `trim`, `trimEnd`: a text without the blanks at its ends, or at its right end only.
* `lines`: the lines of a text. A line ends at a line feed; a carriage return before the line feed
  belongs to the line end; text after the last line feed is a line of its own unless it is empty.

Everything works on lists of characters; the `String` versions only convert.
-/

namespace CallTrace.Text
set_option autoImplicit false

/-- Whether a character has the Unicode property `White_Space`. -/
def isBlank (c : Char) : Bool :=
  let n := c.toNat
  (9 ≤ n && n ≤ 13) || n == 0x20 || n == 0x85 || n == 0xA0 || n == 0x1680 ||
  (0x2000 ≤ n && n ≤ 0x200A) || n == 0x2028 || n == 0x2029 || n == 0x202F || n == 0x205F ||
  n == 0x3000

def trimStartChars (cs : List Char) : List Char := cs.dropWhile isBlank

def trimEndChars (cs : List Char) : List Char := (trimStartChars cs.reverse).reverse

def trimChars (cs : List Char) : List Char := trimEndChars (trimStartChars cs)

def trim (s : String) : String := String.ofList (trimChars s.toList)

def trimEnd (s : String) : String := String.ofList (trimEndChars s.toList)

/-! ## Lines -/

/-- A finished line without the carriage return that ended it; the line is given reversed. -/
def closeLine : List Char → List Char
  | '\r' :: cs => cs.reverse
  | cs => cs.reverse

/-- The lines of a text that starts with the reversed characters `line`. -/
def linesFrom : List Char → List Char → List (List Char)
  | [], [] => []
  | line, [] => [line.reverse]
  | line, '\n' :: cs => closeLine line :: linesFrom [] cs
  | line, c :: cs => linesFrom (c :: line) cs

def lines (s : String) : List String := (linesFrom [] s.toList).map String.ofList

end CallTrace.Text
