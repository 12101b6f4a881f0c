import CallTrace.Toml.Text

/-! # Reading TOML

`Toml.read?` gives the keys of a document, or `none` if the text is no document.

A document consists of lines: a key with its item, the header of a table, a comment, or nothing. Keys
with dots and headers have less than 80 parts, and items are nested less than 80 deep.
-/

namespace CallTrace.Toml
set_option autoImplicit false

abbrev Reader := StateT (List Char) Option

/-- One more than the greatest number of parts of a key, and than the greatest depth of items. -/
def nestingLimit : Nat := 80

namespace Reader

def peek? : Reader (Option Char) := fun cs => some (cs.head?, cs)

def char (c : Char) : Reader Unit := fun cs => (mark c cs).map ((), ·)

def blanks : Reader Unit := fun cs => some ((), cs.dropWhile fun c => c = ' ' || c = '\t')

def gapChars (comment : Bool) : List Char → Option (List Char)
  | '\n' :: cs => gapChars false cs
  | '\r' :: '\n' :: cs => gapChars false cs
  | c :: cs =>
    if comment then if isPlain c then gapChars true cs else none
    else if c = ' ' ∨ c = '\t' then gapChars false cs
    else if c = '#' then gapChars true cs
    else some (c :: cs)
  | [] => some []

def gap : Reader Unit := fun cs => (gapChars false cs).map ((), ·)

def lineEnd : Reader Unit := do
  blanks
  let ended (cs : List Char) : Option (Unit × List Char) :=
    match cs with
    | [] => some ((), [])
    | '\n' :: rest => some ((), rest)
    | '\r' :: '\n' :: rest => some ((), rest)
    | _ => none
  fun cs => match cs with
    | '#' :: rest => ended (rest.dropWhile isPlain)
    | _ => ended cs

/-! ## Keys -/

/-- Whether a character may stand in a key without quotes. -/
def isBare (c : Char) : Bool :=
  Text.isDigit c || ('a' ≤ c && c ≤ 'z') || ('A' ≤ c && c ≤ 'Z') || c = '_' || c = '-'

def part : Reader String := fun cs =>
  match cs with
  | '"' :: _ => lineString cs
  | '\'' :: _ => lineString cs
  | _ =>
    let bare := cs.takeWhile isBare
    if bare.isEmpty then none else some (String.ofList bare, cs.dropWhile isBare)

/-- The parts of a key, with blanks around each. The fuel bounds their number. -/
def parts : Nat → Reader (List String)
  | 0 => failure
  | fuel + 1 => do
    blanks
    let p ← part
    blanks
    if (← peek?) = some '.' then
      char '.'
      return p :: (← parts fuel)
    else return [p]

/-- A key: the parts before its last part, and that part. -/
def key : Reader (List String × String) := do
  let ps ← parts (nestingLimit - 1)
  match ps.getLast? with
  | some last => return (ps.dropLast, last)
  | none => failure

/-! ## Items -/

def scalar : Reader Item := fun cs =>
  match cs with
  | '"' :: _ => (string cs).map fun (s, rest) => (.str s, rest)
  | '\'' :: _ => (string cs).map fun (s, rest) => (.str s, rest)
  | 't' :: 'r' :: 'u' :: 'e' :: rest => some (.other, rest)
  | 'f' :: 'a' :: 'l' :: 's' :: 'e' :: rest => some (.other, rest)
  | _ => numeric cs

/-- The items of an array and the closing bracket. The fuel bounds their number. -/
def arrayItems (item : Reader Item) : Nat → Reader Unit
  | 0 => failure
  | fuel + 1 => do
    gap
    if (← peek?) = some ']' then char ']'
    else
      discard item
      gap
      if (← peek?) = some ',' then
        char ','
        arrayItems item fuel
      else char ']'

/-- The keys of a table in braces and the closing brace. The fuel bounds their number. -/
def inlineKeys (item : Reader Item) : Nat → Entries → Reader Entries
  | 0, _ => failure
  | fuel + 1, entries => do
    let (path, last) ← key
    char '='
    blanks
    let i ← item
    blanks
    match insert path last i .inline entries with
    | none => failure
    | some entries =>
      if (← peek?) = some ',' then
        char ','
        inlineKeys item fuel entries
      else
        char '\x7d'
        return entries

def inlineTable (item : Reader Item) : Reader Item := do
  blanks
  if (← peek?) = some '\x7d' then
    char '\x7d'
    return .table .inline []
  else return .table .inline (← inlineKeys item ((← get).length + 1) [])

/-- An item. The fuel bounds how deep it is nested. -/
def item : Nat → Reader Item
  | 0 => do
    match ← peek? with
    | some '[' => failure
    | some '\x7b' => failure
    | _ => scalar
  | depth + 1 => do
    match ← peek? with
    | some '[' => do
      char '['
      arrayItems (item depth) ((← get).length + 1)
      return .other
    | some '\x7b' => do
      char '\x7b'
      inlineTable (item depth)
    | _ => scalar

/-! ## Lines -/

def definition (d : Draft) : Reader Draft := do
  let (path, last) ← key
  char '='
  blanks
  let i ← item (nestingLimit - 1)
  lineEnd
  match d.define path last i with
  | some d => return d
  | none => failure

def header (d : Draft) : Reader Draft := do
  char '['
  let element ← do
    if (← peek?) = some '[' then
      char '['
      pure true
    else pure false
  let (path, last) ← key
  char ']'
  if element then char ']'
  lineEnd
  match if element then d.openElement path last else d.openTable path last with
  | some d => return d
  | none => failure

/-- The lines of a document. The fuel bounds their number. -/
def document : Nat → Draft → Reader Draft
  | 0, _ => failure
  | fuel + 1, d => do
    blanks
    match ← peek? with
    | none => return d
    | some '[' => do document fuel (← header d)
    | some c =>
      if c = '#' ∨ c = '\n' ∨ c = '\r' then
        lineEnd
        document fuel d
      else document fuel (← definition d)

end Reader

/-- The characters of a document without the mark that may stand in front of them. -/
def withoutByteOrderMark : List Char → List Char
  | c :: cs => if c.toNat = 0xFEFF then cs else c :: cs
  | [] => []

def read? (text : String) : Option Entries :=
  let cs := withoutByteOrderMark text.toList
  (Reader.document (cs.length + 1) .empty cs).map fun (d, _) => d.root

end CallTrace.Toml
