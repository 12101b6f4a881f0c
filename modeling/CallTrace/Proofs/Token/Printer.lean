import CallTrace.Token.Scan
import Mathlib.Data.List.Induction

/-! # Printing tokens

* `Token.Kind.spell`: the text of a token, with escapes inside of its quotes.
* `Token.Kind.Spelled`: the tokens that have a text. A number is one that an integer literal can denote, and a
  name is no keyword.
* `Filler`, `Separator`: text that holds no token, and such text that may stand after any token.
* `render`: the text of tokens, each with what separates it from the next one.
* `Pos.ofText`: the place that comes after a text, counted from its lines.
-/

namespace CallTrace
set_option autoImplicit false

/-! ## Spellings -/

/-- A character between quotes. -/
def escape : Char → List Char
  | '\n' => ['\\', 'n']
  | '\t' => ['\\', 't']
  | '\r' => ['\\', 'r']
  | '\\' => ['\\', '\\']
  | '"' => ['\\', '"']
  | '\'' => ['\\', '\'']
  | '\x00' => ['\\', '0']
  | c => [c]

/-- Whether the characters are a name. -/
def isName : List Char → Bool
  | [] => false
  | c :: cs => Scan.startsName c && cs.all Scan.inName

namespace Token.Kind

/-- The text of a token. -/
def spell : Token.Kind → List Char
  | .int n => Nat.toDigits 10 n.toNat
  | .char c => '\'' :: (escape c ++ ['\''])
  | .str s => '"' :: (s.toList.flatMap escape ++ ['"'])
  | .name s => s.toList
  | .word k => k.text.toList
  | .mark m => m.text.toList
  | .float _ | .invalid _ | .eof => []

/-- The tokens that have a text. -/
def Spelled : Token.Kind → Prop
  | .int n => 0 ≤ n ∧ inRange n
  | .name s => isName s.toList ∧ Keyword.ofText? s = none
  | .char _ | .str _ | .word _ | .mark _ => True
  | .float _ | .invalid _ | .eof => False

end Token.Kind

/-! ## Separators -/

def isSpace (c : Char) : Bool := c = ' ' || c = '\t' || c = '\r' || c = '\n'

/-- Text that holds no token: spaces, comments up to the end of their line, and closed comments. -/
inductive Filler : List Char → Prop where
  | nil : Filler []
  | space {c : Char} {cs : List Char} (hc : isSpace c) (h : Filler cs) : Filler (c :: cs)
  | line {text cs : List Char} (htext : '\n' ∉ text) (h : Filler cs) :
      Filler ('/' :: '/' :: (text ++ '\n' :: cs))
  | block {text cs : List Char} (htext : ¬ ['*', '/'] <:+: text) (h : Filler cs) :
      Filler ('/' :: '*' :: (text ++ '*' :: '/' :: cs))

/-- Text that may stand after any token: a space, and then text that holds no token. -/
inductive Separator : List Char → Prop where
  | intro {c : Char} {cs : List Char} (hc : isSpace c) (h : Filler cs) : Separator (c :: cs)

theorem Separator.filler {cs : List Char} (h : Separator cs) : Filler cs := by
  cases h with
  | intro hc h => exact .space hc h

/-- The text starts with a space. -/
def SpaceFirst (cs : List Char) : Prop := ∃ c ds, cs = c :: ds ∧ isSpace c

theorem Separator.spaceFirst {gap : List Char} (h : Separator gap) (cs : List Char) : SpaceFirst (gap ++ cs) := by
  cases h with
  | intro hc h => exact ⟨_, _, rfl, hc⟩

/-- The text of tokens, each with the text that stands after it. -/
def render (ts : List (Token.Kind × List Char)) : List Char := ts.flatMap fun t => t.1.spell ++ t.2

@[simp] theorem render_cons (t : Token.Kind × List Char) (ts : List (Token.Kind × List Char)) :
    render (t :: ts) = t.1.spell ++ (t.2 ++ render ts) := by
  simp [render]

/-! ## Places -/

namespace Pos

/-- The place that comes after a text: its line, and its column on that line, counted from one. -/
def ofText (cs : List Char) : Pos :=
  ⟨cs.count '\n' + 1, (cs.reverse.takeWhile (· ≠ '\n')).length + 1⟩

@[simp] theorem after_append (p : Pos) (cs ds : List Char) :
    p.after (cs ++ ds) = (p.after cs).after ds :=
  List.foldl_append

theorem start_after (cs : List Char) : start.after cs = ofText cs := by
  induction cs using List.reverseRecOn with
  | nil => rfl
  | append_singleton cs c ih =>
    have hnext : start.after (cs ++ [c]) = (ofText cs).next c := by rw [after_append, ih]; rfl
    rw [hnext]
    by_cases hc : c = '\n'
    · subst hc
      simp [ofText, next]
    · simp [ofText, next, hc]

theorem after_eq_right {cs : List Char} (h : '\n' ∉ cs) (p : Pos) : p.after cs = p.right cs.length := by
  induction cs generalizing p with
  | nil => rfl
  | cons c cs ih =>
    rw [List.mem_cons, not_or] at h
    have hnext : p.next c = p.right 1 := if_neg (Ne.symm h.1)
    show (p.next c).after cs = _
    rw [hnext, ih h.2]
    simp only [right, List.length_cons, Nat.add_assoc, Nat.add_comm 1]

end Pos

end CallTrace
