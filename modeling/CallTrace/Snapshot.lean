import CallTrace.Assoc
import CallTrace.Number.Format

/-! # Recorded values

* `Snapshot`: a value as the timeline keeps it. It is a tree of its own, so nothing that the program
  does later can change it.
* `Snapshot.text`: how a recorded value is shown. Strings inside lists stand in quotes.
* `Bindings`: names with recorded values, in the order in which the names were first given one.
-/

namespace CallTrace
set_option autoImplicit false

/-- A recorded value. `undefined` is the result of a function that returns nothing. -/
inductive Snapshot where
  | undefined
  | bool (b : Bool)
  | int (n : Int)
  | float (x : Float)
  | str (s : String)
  | list (items : List Snapshot)
  deriving Repr, Inhabited

namespace Snapshot

def itemText (v : Snapshot) (plain : String) : String :=
  match v with
  | .str _ => "\"" ++ plain ++ "\""
  | _ => plain

mutual

def text : Snapshot → String
  | .undefined => "undefined"
  | .bool b => if b then "true" else "false"
  | .int n => toString n
  | .float x => FloatFormat.plain.render x
  | .str s => s
  | .list items => "[" ++ itemsText items ++ "]"

def itemsText : List Snapshot → String
  | [] => ""
  | [v] => itemText v v.text
  | v :: vs => itemText v v.text ++ ", " ++ itemsText vs

end

mutual

/-- Whether two recorded values are the same. Numbers of different kinds differ; a NaN differs from
itself. -/
def same : Snapshot → Snapshot → Bool
  | .undefined, .undefined => true
  | .bool a, .bool b => a == b
  | .int a, .int b => a == b
  | .float a, .float b => a == b
  | .str a, .str b => a == b
  | .list as, .list bs => sameItems as bs
  | _, _ => false

def sameItems : List Snapshot → List Snapshot → Bool
  | [], [] => true
  | a :: as, b :: bs => same a b && sameItems as bs
  | _, _ => false

end

/-- The integer that was recorded, if it was one. -/
def int? : Snapshot → Option Int
  | .int n => some n
  | _ => none

/-- The truth value that was recorded, if it was one. -/
def bool? : Snapshot → Option Bool
  | .bool b => some b
  | _ => none

/-- The items of the list that was recorded, if it was one. -/
def items? : Snapshot → Option (List Snapshot)
  | .list items => some items
  | _ => none

def isUndefined : Snapshot → Bool
  | .undefined => true
  | _ => false

end Snapshot

/-! ## Bindings -/

/-- Names with recorded values. Each name stands once, where it was first given a value. -/
structure Bindings where
  entries : Assoc Snapshot
  deriving Repr, Inhabited

namespace Bindings

def empty : Bindings := ⟨[]⟩

/-- Gives a name a value. A name that had one keeps its position. -/
def insert (b : Bindings) (name : String) (value : Snapshot) : Bindings :=
  ⟨b.entries.put name value⟩

/-- Gives names values one after the other, starting with none. -/
def ofList (entries : List (String × Snapshot)) : Bindings :=
  entries.foldl (fun b (name, value) => b.insert name value) empty

def get? (b : Bindings) (name : String) : Option Snapshot := b.entries.lookup name

def names (b : Bindings) : List String := b.entries.names

def values (b : Bindings) : List Snapshot := b.entries.map (·.2)

def size (b : Bindings) : Nat := b.entries.length

def isEmpty (b : Bindings) : Bool := b.entries.isEmpty

def text (b : Bindings) : String :=
  "\x7b" ++ ", ".intercalate (b.entries.map fun (name, value) => name ++ ": " ++ value.text) ++ "\x7d"

@[simp] theorem get?_insert_self (b : Bindings) (name : String) (value : Snapshot) :
    (b.insert name value).get? name = some value :=
  Assoc.lookup_put_self name value b.entries

theorem get?_insert_of_ne {name other : String} (h : other ≠ name) (b : Bindings) (value : Snapshot) :
    (b.insert name value).get? other = b.get? other :=
  Assoc.lookup_put_of_ne h value b.entries

end Bindings

end CallTrace
