import CallTrace.Assoc

/-! # TOML documents

* `Toml.Item`: what a key stands for. Only strings and integers keep their value; no setting has a
  value of another kind.
* `TableForm`: how a table came to be, which decides whether more keys may be put into it.
* `update`: changes the table at a path, with the tables on the way to it made where they are missing.
* `define`, `openTable`, `openElement`: what the three kinds of lines in a document do. Each is refused
  where it would define something twice.
-/

namespace CallTrace.Toml
set_option autoImplicit false

inductive TableForm where
  /-- A table in braces, which is complete. -/
  | inline
  /-- A table with a header of its own. -/
  | header
  /-- A table on the way to a key with dots. -/
  | dotted
  /-- A table on the way to another table. -/
  | implied
  deriving DecidableEq, Repr

inductive Item where
  | str (s : String)
  | int (n : Int)
  /-- A float, a truth value, a date, a time or an array. -/
  | other
  | table (form : TableForm) (entries : List (String × Item))
  /-- Tables with the same header, of which only the last one can still change. -/
  | tables (done : List (List (String × Item))) (last : List (String × Item))

abbrev Entries := Assoc Item

/-- Changes the table at the end of a path. A path of a key with dots (`dotted`) goes only through
tables without a header of their own; no path goes through a table in braces. -/
def update (dotted : Bool) (change : TableForm → Entries → Option Entries) :
    List String → TableForm → Entries → Option Entries
  | [], form, entries => change form entries
  | key :: path, _, entries =>
    match entries.lookup key with
    | none =>
      let form := if dotted then .dotted else .implied
      (update dotted change path form []).map fun es => entries ++ [(key, .table form es)]
    | some (.table .inline _) => none
    | some (.table form es) =>
      if dotted && form == .header then none
      else (update dotted change path form es).map fun es => entries.put key (.table form es)
    | some (.tables done last) =>
      (update dotted change path .header last).map fun es => entries.put key (.tables done es)
    | some _ => none

/-- Adds a new key to a table. A key with dots adds to a table that such keys made, and only those
do. -/
def addKey (dotted : Bool) (key : String) (item : Item) (form : TableForm) (entries : Entries) :
    Option Entries :=
  if (form == .dotted) = dotted ∧ (entries.lookup key).isNone then some (entries ++ [(key, item)])
  else none

def insert (path : List String) (key : String) (item : Item) (form : TableForm) (entries : Entries) :
    Option Entries :=
  update true (addKey (!path.isEmpty) key item) path form entries

/-- A document that has been read in part: its tables, and the path of the one whose keys follow. -/
structure Draft where
  root : Entries
  current : List String

def Draft.empty : Draft := ⟨[], []⟩

def Draft.define (d : Draft) (path : List String) (key : String) (item : Item) : Option Draft :=
  (update false (insert path key item) d.current .header d.root).map fun root => { d with root }

/-- The header of a table: it must be new, or a table that was only on the way to others. -/
def Draft.openTable (d : Draft) (path : List String) (key : String) : Option Draft :=
  let change (_ : TableForm) (entries : Entries) : Option Entries :=
    match entries.lookup key with
    | none => some (entries ++ [(key, .table .header [])])
    | some (.table .implied es) => some (entries.put key (.table .header es))
    | some _ => none
  (update false change path .header d.root).map fun root => ⟨root, path ++ [key]⟩

def Draft.openElement (d : Draft) (path : List String) (key : String) : Option Draft :=
  let change (_ : TableForm) (entries : Entries) : Option Entries :=
    match entries.lookup key with
    | none => some (entries ++ [(key, .tables [] [])])
    | some (.tables done last) => some (entries.put key (.tables (done ++ [last]) []))
    | some _ => none
  (update false change path .header d.root).map fun root => ⟨root, path ++ [key]⟩

end CallTrace.Toml
