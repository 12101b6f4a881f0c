import CallTrace.Surface

/-! # Reading trees from tokens

* `ParseError`: why a construct cannot be read, with its wording.
* `Parser`: a reader of a list of tokens; the last token is `eof` and is never consumed.
* `accept`, `expect`, `expectName`: the steps that consume one token.
* `ty`: types. A `>>` that closes two vectors is read as two `>`.

Readers that call each other take fuel, one unit for each call; `fuelFor` gives enough of it for a
list of tokens, because between two tokens that are consumed at most a dozen calls are nested.
-/

namespace CallTrace.Surface
set_option autoImplicit false

/-- Why a construct cannot be read. -/
inductive ParseError where
  | missingMark (m : Mark) (place : String) (found : Token.Kind)
  | missingWord (k : Keyword) (place : String) (found : Token.Kind)
  | missingName (found : Token.Kind)
  | missingType (found : Token.Kind)
  | unexpected (found : Token.Kind)
  | fault (f : ScanFault)
  | nestedFunction
  | outputWithoutItems
  | constructorArguments
  | vectorArguments
  | calleeNotName
  | outOfFuel

def ParseError.message : ParseError → String
  | .missingMark m place found =>
    "Expected '" ++ m.text ++ "' " ++ place ++ ", found " ++ found.describe
  | .missingWord k place found =>
    "Expected '" ++ k.text ++ "' " ++ place ++ ", found " ++ found.describe
  | .missingName found => "Expected identifier, found " ++ found.describe
  | .missingType found => "Expected type, found " ++ found.describe
  | .unexpected found => "Unexpected token: " ++ found.describe
  | .fault f => f.message
  | .nestedFunction => "Nested function definitions are not supported"
  | .outputWithoutItems => "Expected '<<' after 'cout'"
  | .constructorArguments => "Constructor syntax is only supported for vectors"
  | .vectorArguments => "vector constructor takes a size and an optional fill value"
  | .calleeNotName => "Function call must be on identifier"
  | .outOfFuel => "Nesting is too deep"

abbrev Parser := StateT (List Token) (Except ParseError)

namespace Parser

/-- The fuel that reading a list of tokens needs at most. -/
def fuelFor (ts : List Token) : Nat := 16 * (ts.length + 1)

def next : List Token → Token
  | t :: _ => t
  | [] => ⟨.eof, ⟨0, 0⟩⟩

/-- The tokens after the next one. The end of the file is never passed. -/
def rest : List Token → List Token
  | ⟨.eof, p⟩ :: _ => [⟨.eof, p⟩]
  | _ :: ts => ts
  | [] => []

/-- The token that comes next, which is not consumed. -/
def peek : Parser Token := fun ts => .ok (next ts, ts)

def advance : Parser Unit := fun ts => .ok ((), rest ts)

/-- Consumes the mark `m` if it comes next, and gives its place. -/
def accept (m : Mark) : Parser (Option Pos) := fun ts =>
  match ts with
  | ⟨.mark k, p⟩ :: us => if k = m then .ok (some p, us) else .ok (none, ts)
  | _ => .ok (none, ts)

/-- Consumes the word `k` if it comes next, and gives its place. -/
def acceptWord (k : Keyword) : Parser (Option Pos) := fun ts =>
  match ts with
  | ⟨.word j, p⟩ :: us => if j = k then .ok (some p, us) else .ok (none, ts)
  | _ => .ok (none, ts)

/-- Whether the mark `m` comes next. -/
def at? (m : Mark) : Parser Bool := fun ts =>
  match ts with
  | ⟨.mark k, _⟩ :: _ => .ok (k == m, ts)
  | _ => .ok (false, ts)

/-- Consumes the mark `m`, which must come next, and gives its place. -/
def expect (m : Mark) (place : String) : Parser Pos := do
  match ← accept m with
  | some p => return p
  | none => throw (.missingMark m place (← peek).kind)

/-- Consumes the word `k`, which must come next. -/
def expectWord (k : Keyword) (place : String) : Parser Unit := do
  match ← acceptWord k with
  | some _ => return
  | none => throw (.missingWord k place (← peek).kind)

/-- Consumes a name, which must come next, and gives it with its place. -/
def expectName : Parser (String × Pos) := fun ts =>
  match ts with
  | ⟨.name s, p⟩ :: us => .ok ((s, p), us)
  | _ => .error (.missingName (next ts).kind)

/-! ## Types -/

def atType (ts : List Token) : Bool :=
  match ts with
  | ⟨.word k, _⟩ :: _ => k.startsType
  | _ => false

/-- The tokens after the words `long` and `int` at their head. -/
def dropLong : List Token → List Token
  | ⟨.word .long, _⟩ :: ts => dropLong ts
  | ⟨.word .int, _⟩ :: ts => dropLong ts
  | ts => ts

/-- Consumes the `>` that closes a vector type, or the first half of `>>`. -/
def closeAngle : Parser Unit := fun ts =>
  match ts with
  | ⟨.mark .gt, _⟩ :: us => .ok ((), us)
  | ⟨.mark .gtGt, p⟩ :: us => .ok ((), ⟨.mark .gt, p.right 1⟩ :: us)
  | _ => .error (.missingMark .gt "to close template" (next ts).kind)

/-- The type without components that a word denotes. -/
def scalar? : Keyword → Option Scalar
  | .int => some .int | .long => some .long | .bool => some .bool | .char => some .char
  | .void => some .void | .double => some .double | .float => some .float
  | .string => some .string | .auto => some .auto
  | _ => none

/-- The marks after a base type: whether `const` and whether `&` stands there. -/
def tyMarks : Parser (Bool × Bool) := do
  let isConst := (← acceptWord .const).isSome
  let isRef := (← accept .amp).isSome
  return (isConst, isRef)

mutual

/-- A type: `const`, the base type, `const` again, a reference mark. -/
def ty : Nat → Parser Ty
  | 0 => throw .outOfFuel
  | n + 1 => do
    let before := (← acceptWord .const).isSome
    let t ← peek
    match t.kind with
    | .word .vector =>
      advance
      let element ← vectorElement n
      let (after, isRef) ← tyMarks
      return .vector element (before || after) isRef
    | .word k =>
      match scalar? k with
      | some s =>
        advance
        if s = .long then modify dropLong
        let (after, isRef) ← tyMarks
        return .scalar s (before || after) isRef
      | none => throw (.missingType t.kind)
    | _ => throw (.missingType t.kind)

/-- The element type of a vector, after the word `vector`. -/
def vectorElement : Nat → Parser Ty
  | 0 => throw .outOfFuel
  | n + 1 => do
    let _ ← expect .lt "after 'vector'"
    let element ← ty n
    closeAngle
    return element

end

end Parser

end CallTrace.Surface
