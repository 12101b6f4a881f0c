import CallTrace.Number.Format
import CallTrace.Text.Quoted

/-! # JSON documents

* `Document`: a document, with the fields of objects in order.
* `Document.compact`: its text without any space.
* `Document.pretty`: its text with each item and each field on a line of its own, two spaces deeper
  than what encloses it.

A float that is not finite is written as `null`, which is all that JSON has for it.
-/

namespace CallTrace
set_option autoImplicit false

inductive Document where
  | null
  | bool (b : Bool)
  | int (n : Int)
  | float (x : Float)
  | str (s : String)
  | list (items : List Document)
  | object (fields : List (String × Document))
  deriving Repr, Inhabited

namespace Document

def nat (n : Nat) : Document := .int n

def orNull {α : Type} (f : α → Document) : Option α → Document
  | some a => f a
  | none => .null

/-- A field that is left out when its value is missing. -/
def optionalField {α : Type} (name : String) (f : α → Document) : Option α → List (String × Document)
  | some a => [(name, f a)]
  | none => []

def floatText (x : Float) : String :=
  match Binary64.ofFloat x with
  | .finite .. => FloatFormat.json.render x
  | _ => "null"

/-! ## Without spaces -/

mutual

def compact : Document → String
  | .null => "null"
  | .bool b => if b then "true" else "false"
  | .int n => toString n
  | .float x => floatText x
  | .str s => Text.jsonText s
  | .list items => "[" ++ compactItems items ++ "]"
  | .object fields => "\x7b" ++ compactFields fields ++ "\x7d"

def compactItems : List Document → String
  | [] => ""
  | [d] => d.compact
  | d :: rest => d.compact ++ "," ++ compactItems rest

def compactFields : List (String × Document) → String
  | [] => ""
  | [(name, d)] => Text.jsonText name ++ ":" ++ d.compact
  | (name, d) :: rest => Text.jsonText name ++ ":" ++ d.compact ++ "," ++ compactFields rest

end

/-! ## With line breaks -/

def newLine (depth : Nat) : String := "\n" ++ String.ofList (List.replicate (2 * depth) ' ')

mutual

def prettyAt (depth : Nat) : Document → String
  | .list [] => "[]"
  | .list items => "[" ++ prettyItems (depth + 1) items ++ newLine depth ++ "]"
  | .object [] => "\x7b\x7d"
  | .object fields => "\x7b" ++ prettyFields (depth + 1) fields ++ newLine depth ++ "\x7d"
  | .null => "null"
  | .bool b => if b then "true" else "false"
  | .int n => toString n
  | .float x => floatText x
  | .str s => Text.jsonText s

def prettyItems (depth : Nat) : List Document → String
  | [] => ""
  | [d] => newLine depth ++ d.prettyAt depth
  | d :: rest => newLine depth ++ d.prettyAt depth ++ "," ++ prettyItems depth rest

def prettyFields (depth : Nat) : List (String × Document) → String
  | [] => ""
  | [(name, d)] => newLine depth ++ Text.jsonText name ++ ": " ++ d.prettyAt depth
  | (name, d) :: rest =>
    newLine depth ++ Text.jsonText name ++ ": " ++ d.prettyAt depth ++ "," ++ prettyFields depth rest

end

def pretty (d : Document) : String := d.prettyAt 0

end Document

end CallTrace
