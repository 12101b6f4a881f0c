import CallTrace.Instrumented

/-! # Listings of instrumented programs

The text by which a program with all its recording is shown. Nothing reads it back.

* `Expr.text`, `Place.text`: expressions. Binary and conditional expressions stand in parentheses.
* `Expr.probes`: the variables recorded while an expression runs, in the order of evaluation.
* `Line`: one line of a listing; lines that record a step or a variable are told apart from code.
* `Stmt.listing`, `Function.listing`, `Program.listing`: the lines of a statement, function, program.
-/

namespace CallTrace.Instrumented
set_option autoImplicit false

/-! ## Expressions -/

mutual

def Expr.text : Expr → String
  | .int n => toString n
  | .float x => FloatFormat.literal.render x
  | .bool b => if b then "true" else "false"
  | .str s => Text.quoteText s
  | .undefined => "undefined"
  | .list items => "[" ++ argsText items ++ "]"
  | .fill size fill => "Array.from(\x7b length: " ++ size.text ++ " \x7d, () => " ++ fill.text ++ ")"
  | .var name => name
  | .binary op left right => "(" ++ left.text ++ " " ++ op.symbol ++ " " ++ right.text ++ ")"
  | .neg e => "-" ++ e.text
  | .not e => "!" ++ e.text
  | .ternary cond yes no => "(" ++ cond.text ++ " ? " ++ yes.text ++ " : " ++ no.text ++ ")"
  | .assign target none value => target.text ++ " = " ++ value.text
  | .assign target (some op) value => target.text ++ " " ++ op.symbol ++ "= " ++ value.text
  | .update target step before =>
    let symbol := match step with
      | .up => "++"
      | .down => "--"
    if before then symbol ++ target.text else target.text ++ symbol
  | .index base index => base.text ++ "[" ++ index.text ++ "]"
  | .call name args => name ++ "(" ++ argsText args ++ ")"
  | .container .append target args => target.text ++ ".push(" ++ argsText args ++ ")"
  | .container .removeLast target _ => target.text ++ ".pop()"
  | .container .length target _ => target.text ++ ".length"
  | .container .substr target args => target.text ++ ".substr(" ++ argsText args ++ ")"
  | .container .back target _ => target.text ++ ".at(-1)"
  | .container .isEmpty target _ => "(" ++ target.text ++ ".length === 0)"

def Place.text : Place → String
  | .var name => name
  | .index base index => base.text ++ "[" ++ index.text ++ "]"

def argsText : List Expr → String
  | [] => ""
  | [e] => e.text
  | e :: es => e.text ++ ", " ++ argsText es

end

/-! ## Recorded variables -/

mutual

def Expr.probes : Expr → List String
  | .list items => probesOf items
  | .fill size fill => size.probes ++ fill.probes
  | .binary _ left right => left.probes ++ right.probes
  | .neg e => e.probes
  | .not e => e.probes
  | .ternary cond yes no => cond.probes ++ yes.probes ++ no.probes
  | .assign target _ value => target.probes ++ value.probes ++ target.root?.toList
  | .update target _ _ => target.probes ++ target.root?.toList
  | .index base index => base.probes ++ index.probes
  | .call _ args => probesOf args
  | .container op target args =>
    target.probes ++ probesOf args ++ (if op.mutates then target.root?.toList else [])
  | .int _ | .float _ | .bool _ | .str _ | .undefined | .var _ => []

def Place.probes : Place → List String
  | .var _ => []
  | .index base index => base.probes ++ index.probes

def probesOf : List Expr → List String
  | [] => []
  | e :: es => e.probes ++ probesOf es

end

/-! ## Lines -/

/-- What a line of a listing says. -/
inductive Line.Content where
  | code (text : String)
  | step (line : Nat)
  | set (name : String) (line : Nat)

/-- A line of a listing, with its indentation. -/
structure Line where
  indent : Nat
  content : Line.Content

def setText (name : String) (line : Nat) : String :=
  "tracer.set(" ++ Text.quoteText name ++ ", " ++ name ++ ", " ++ toString line ++ ")"

def Line.Content.text : Line.Content → String
  | .code text => text
  | .step line =>
    "tracer.step(\"Executing line " ++ toString line ++ "\", " ++ toString line ++ ");"
  | .set name line => setText name line ++ ";"

def Line.text (l : Line) : String :=
  String.ofList (List.replicate l.indent ' ') ++ l.content.text ++ "\n"

/-- How much deeper the inside of braces is indented. -/
def indentation : Nat := 4

def setLines (indent line : Nat) (e : Expr) : List Line :=
  e.probes.map fun name => ⟨indent, .set name line⟩

def Action.listing (indent line : Nat) : Action → List Line
  | .declare name init _ =>
    [⟨indent, .code ("let " ++ name ++ " = " ++ init.text ++ ";")⟩, ⟨indent, .set name line⟩]
  | .eval e => ⟨indent, .code (e.text ++ ";")⟩ :: setLines indent line e
  | .log parts =>
    [⟨indent, .code ("tracer.log([" ++ argsText parts ++ "].join(\"\"), " ++ toString line ++ ");")⟩]
  | .printf format args =>
    [⟨indent, .code ("tracer.log(sprintf(" ++ argsText (format :: args) ++ "), " ++ toString line
      ++ ");")⟩]
  | .unsupported text _ =>
    [⟨indent, .code ("unsupported(" ++ Text.quoteText text ++ ", " ++ toString line ++ ");")⟩]

/-- The head of a `for` statement without its first clause. -/
def forHead (line : Nat) (cond update : Option Expr) : String :=
  let condText := match cond with
    | some e => e.text
    | none => ""
  let updateText := match update with
    | some e => e.text ++ String.join (e.probes.map fun name => ", " ++ setText name line)
    | none => ""
  "for (; " ++ condText ++ "; " ++ updateText ++ ") \x7b"

/-- The line that records a step, if one is recorded. -/
def stepLines (indent : Nat) (step : Bool) (line : Nat) : List Line :=
  if step then [⟨indent, .step line⟩] else []

mutual

def Stmt.listing (indent : Nat) : Stmt → List Line
  | .act line step action => stepLines indent step line ++ action.listing indent line
  | .ifElse line step cond yes no =>
    stepLines indent step line
      ++ [⟨indent, .code ("if (" ++ cond.text ++ ") \x7b")⟩]
      ++ bodyListing (indent + indentation) yes
      ++ (if no.isEmpty then []
          else ⟨indent, .code "\x7d else \x7b"⟩ :: bodyListing (indent + indentation) no)
      ++ [⟨indent, .code "\x7d"⟩]
  | .whileLoop line step cond body =>
    stepLines indent step line
      ++ [⟨indent, .code ("while (" ++ cond.text ++ ") \x7b")⟩]
      ++ bodyListing (indent + indentation) body ++ [⟨indent, .code "\x7d"⟩]
  | .doWhile line step body cond =>
    stepLines indent step line
      ++ [⟨indent, .code "do \x7b"⟩]
      ++ bodyListing (indent + indentation) body
      ++ [⟨indent, .code ("\x7d while (" ++ cond.text ++ ");")⟩]
  | .forLoop line step (some (initLine, init)) cond update body =>
    let inner := indent + indentation
    stepLines indent step line
      ++ [⟨indent, .code "\x7b"⟩]
      ++ init.listing inner initLine
      ++ [⟨inner, .code (forHead line cond update)⟩]
      ++ bodyListing (inner + indentation) body
      ++ [⟨inner, .code "\x7d"⟩, ⟨indent, .code "\x7d"⟩]
  | .forLoop line step none cond update body =>
    stepLines indent step line
      ++ [⟨indent, .code (forHead line cond update)⟩]
      ++ bodyListing (indent + indentation) body ++ [⟨indent, .code "\x7d"⟩]
  | .block line step body =>
    stepLines indent step line
      ++ [⟨indent, .code "\x7b"⟩] ++ bodyListing (indent + indentation) body
      ++ [⟨indent, .code "\x7d"⟩]
  | .breakLoop line step => stepLines indent step line ++ [⟨indent, .code "break;"⟩]
  | .continueLoop line step => stepLines indent step line ++ [⟨indent, .code "continue;"⟩]
  | .ret line step (some value) =>
    stepLines indent step line
      ++ [⟨indent, .code ("\x7b const __ret = " ++ value.text ++ "; tracer.ret(__ret, "
        ++ toString line ++ "); return __ret; \x7d")⟩]
  | .ret line step none =>
    stepLines indent step line
      ++ [⟨indent, .code ("\x7b tracer.ret(undefined, " ++ toString line ++ "); return; \x7d")⟩]

def bodyListing (indent : Nat) : List Stmt → List Line
  | [] => []
  | s :: ss => s.listing indent ++ bodyListing indent ss

end

def Function.listing (f : Function) : List Line :=
  let params := ", ".intercalate (f.params.map (·.name))
  [⟨0, .code ("function " ++ f.name ++ "(" ++ params ++ ") \x7b")⟩,
    ⟨indentation, .code ("tracer.call(" ++ Text.quoteText f.name ++ ", \x7b " ++ params ++ " \x7d, "
      ++ toString f.line ++ ");")⟩]
    ++ bodyListing indentation f.body
    ++ [⟨indentation, .code ("tracer.ret(undefined, " ++ toString f.endLine ++ ");")⟩,
      ⟨0, .code "\x7d"⟩]

/-- The lines of a program: each function with an empty line after it, then the driver. -/
def Program.listing (p : Program) : List Line :=
  p.functions.flatMap (fun f => f.listing ++ [⟨0, .code ""⟩])
    ++ (if p.driver.isEmpty then [] else ⟨0, .code "// Driver"⟩ :: bodyListing 0 p.driver)

def Program.text (p : Program) : String :=
  String.join (p.listing.map Line.text)

end CallTrace.Instrumented
