import CallTrace.Text.Split

/-! # Files

What reading gives for a path.

* `FileError`: why a file cannot be read.
* `Files`: the text under every path, or the reason why there is none.
* `Directory`: the texts that a directory holds. `Directory.files` reads paths from it: the names
  between slashes are followed from left to right, `.` stays where it is and `..` goes up. What stands
  around the directory is unknown, and is taken to be empty.
-/

namespace CallTrace
set_option autoImplicit false

inductive FileError where
  | notFound
  | notDirectory
  | isDirectory
  | nameTooLong
  | other (text : String)
  deriving DecidableEq, Repr

def FileError.message : FileError → String
  | .notFound => "No such file or directory (os error 2)"
  | .notDirectory => "Not a directory (os error 20)"
  | .isDirectory => "Is a directory (os error 21)"
  | .nameTooLong => "File name too long (os error 36)"
  | .other text => text

/-- For every path the text that can be read there, or the reason why there is none. -/
abbrev Files := String → Except FileError String

/-! ## Directories -/

/-- The texts of a directory, each with the names that lead to it. -/
structure Directory where
  texts : List (List String × String)

namespace Directory

def maxNameLength : Nat := 255

def maxPathLength : Nat := 4095

/-- The names of a path. Two slashes have an empty name between them. -/
def names (path : String) : List String := (Text.split '/' path.toList).map String.ofList

def isHere (name : String) : Bool := name = "" || name = "."

def ofTexts (texts : List (String × String)) : Directory :=
  ⟨texts.map fun (path, text) => ((names path).filter fun name => !isHere name, text)⟩

inductive Entry where
  | directory
  | file (text : String)
  deriving DecidableEq, Repr

def entry? (d : Directory) (steps : List String) : Option Entry :=
  match d.texts.lookup steps with
  | some text => some (.file text)
  | none =>
    if steps.isEmpty || d.texts.any fun (names, _) => steps.isPrefixOf names then some .directory
    else none

/-- Where a path has led so far. -/
inductive Place where
  | within (names : List String)
  | outside
  deriving DecidableEq, Repr

/-- Follows one name. Only a directory has names in it. -/
def follow (d : Directory) (place : Place) (name : String) : Except FileError Place :=
  match place with
  | .outside =>
    if isHere name || name = ".." then .ok .outside
    else if maxNameLength < name.utf8ByteSize then .error .nameTooLong
    else .error .notFound
  | .within names =>
    match d.entry? names with
    | none => .error .notFound
    | some (.file _) => .error .notDirectory
    | some .directory =>
      if isHere name then .ok place
      else if name = ".." then
        .ok (if names.isEmpty then .outside else .within names.dropLast)
      else if maxNameLength < name.utf8ByteSize then .error .nameTooLong
      else if (d.entry? (names ++ [name])).isSome then .ok (.within (names ++ [name]))
      else .error .notFound

def read (d : Directory) : Place → Except FileError String
  | .outside => .error .isDirectory
  | .within names =>
    match d.entry? names with
    | none => .error .notFound
    | some .directory => .error .isDirectory
    | some (.file text) => .ok text

def files (d : Directory) : Files := fun path =>
  if path = "" then .error .notFound
  else if maxPathLength < path.utf8ByteSize then .error .nameTooLong
  else do
    let start := if path.startsWith "/" then .outside else .within []
    d.read (← (names path).foldlM d.follow start)

end Directory

end CallTrace
