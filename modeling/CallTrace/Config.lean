/-! # Settings

* `Config`: the settings of a run.
* `Config.default`: the settings of a run that gives none.
-/

namespace CallTrace
set_option autoImplicit false

/-- The settings of a run: the function that runs after the statements at top level, the greatest
number of active calls, the greatest number of events, the stack that the run may use in bytes, and how
long to wait before it starts. The last two do not change what is recorded. -/
structure Config where
  entryPoint : String
  maxCallDepth : Nat
  maxEvents : Nat
  stackSize : Nat
  presentationDelayMs : Nat
  deriving DecidableEq, Repr

def Config.default : Config :=
  { entryPoint := "main"
    maxCallDepth := 10000
    maxEvents := 1000000
    stackSize := 256 * 1024 * 1024
    presentationDelayMs := 0 }

end CallTrace
