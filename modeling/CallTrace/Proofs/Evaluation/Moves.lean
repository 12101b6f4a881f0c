import CallTrace.Proofs.Evaluation.Ends
import CallTrace.Proofs.Evaluation.Rules
import CallTrace.Run

/-! # Lines are only carried along

A run writes source lines into its events and its error, and does nothing else with them.

* `Event.shift`, `Recorder.shift`, `Machine.shift`, `Outcome.shift`: the same with every line moved down.
* `Exec.Moves k c d`: from a state that is moved down by `k` lines, `d` does what `c` does, moved down.
* `Moves.rules`: what a run does with storage moves along with the state. So do its other steps that do not depend on
  the program; the ones that are given a line move along when they are given the line that is `k` further down.
-/

namespace CallTrace
set_option autoImplicit false

/-! ## Events and outcomes -/

/-- The message of a step. -/
def stepMessage (line : Nat) : String := "Executing line " ++ toString line

/-- The message of an event whose line moves down: a step names its line. -/
def Event.messageAt (k : Nat) (e : Event) : String :=
  match e.line with
  | some line =>
    if e.kind = .line ∧ e.message = stepMessage line then stepMessage (line + k) else e.message
  | none => e.message

/-- An event, `k` lines further down. -/
def Event.shift (k : Nat) (e : Event) : Event :=
  { e with message := e.messageAt k, line := e.line.map (· + k) }

def Timeline.shift (k : Nat) (t : Timeline) : Timeline := t.map (Event.shift k)

def RunError.shift (k : Nat) (e : RunError) : RunError := ⟨e.cause, e.line + k⟩

def Halt.shift (k : Nat) : Halt → Halt
  | .failed e => .failed (e.shift k)
  | .outOfFuel => .outOfFuel

/-- An outcome, with its events and its error `k` lines further down. -/
def Outcome.shift (k : Nat) (o : Outcome) : Outcome := ⟨o.timeline.shift k, o.halt.map (Halt.shift k)⟩

namespace Event

theorem shift_step (k : Nat) (line : Nat) (id : Option FrameId) :
    shift k ⟨.line, stepMessage line, some line, id⟩ =
      ⟨.line, stepMessage (line + k), some (line + k), id⟩ := by
  unfold shift messageAt
  simp [Event.kind, Payload.kind]

/-- The message of an event that is no step stays as it is. -/
theorem shift_of_kind_ne (k : Nat) {payload : Payload} (h : payload.kind ≠ .line) (message : String)
    (line : Option Nat) (id : Option FrameId) :
    shift k ⟨payload, message, line, id⟩ = ⟨payload, message, line.map (· + k), id⟩ := by
  have hkind : Event.kind ⟨payload, message, line, id⟩ ≠ .line := h
  unfold shift messageAt
  cases line with
  | none => rfl
  | some line => simp only [hkind, false_and, if_false]

@[simp] theorem shift_zero (e : Event) : e.shift 0 = e := by
  obtain ⟨payload, message, line, id⟩ := e
  unfold shift messageAt
  cases line with
  | none => rfl
  | some line =>
    simp only [Nat.add_zero, Option.map_some]
    split
    · next h => rw [h.2]
    · rfl

end Event

namespace Recorder

/-- A recording, with its events `k` lines further down. -/
def shift (k : Nat) (r : Recorder) : Recorder := { r with events := r.events.shift k }

@[simp] theorem size_shift (k : Nat) (r : Recorder) : (r.shift k).events.size = r.events.size :=
  Array.size_map

theorem shift_push (k : Nat) {payload : Payload} (h : payload.kind ≠ .line) (r : Recorder)
    (message : String) (line : Option Nat) (id : Option FrameId) :
    (r.shift k).push payload message (line.map (· + k)) id =
      (r.push payload message line id).shift k := by
  unfold push shift Timeline.shift
  rw [Array.map_push, Event.shift_of_kind_ne k h]

theorem shift_call (k : Nat) (r : Recorder) (name : String) (args : List (String × Snapshot))
    (line : Nat) : (r.shift k).call name args (some (line + k)) =
      (r.call name args (some line)).shift k :=
  shift_push k (by nofun) (r.pushFrame (r.newFrame name args)) _ (some line) _

theorem shift_popFrame (k : Nat) (r : Recorder) : (r.shift k).popFrame = r.popFrame.shift k := by
  obtain ⟨events, active, frames, depth, h⟩ := r
  cases active <;> rfl

theorem shift_ret (k : Nat) (r : Recorder) (value : Snapshot) (line : Nat) :
    (r.shift k).ret value (some (line + k)) = (r.ret value (some line)).shift k := by
  have hactive : (r.shift k).active = r.active := rfl
  have hframes : (r.shift k).frames = r.frames := rfl
  unfold ret
  rw [hactive, hframes, shift_popFrame]
  cases r.active with
  | nil => rfl
  | cons id rest =>
    dsimp only
    cases r.frames[id]? with
    | none => rfl
    | some a =>
      exact shift_push k (by nofun) (r.popFrame.setFrame id _) _ (some line) _

theorem shift_set (k : Nat) (r : Recorder) (name : String) (value : Snapshot) (line : Nat) :
    (r.shift k).set name value (some (line + k)) = (r.set name value (some line)).shift k := by
  have hactive : (r.shift k).active = r.active := rfl
  have hframes : (r.shift k).frames = r.frames := rfl
  unfold set
  rw [hactive, hframes]
  cases r.active with
  | nil => rfl
  | cons id rest =>
    dsimp only
    cases r.frames[id]? with
    | none => rfl
    | some a => exact shift_push k (by nofun) (r.setFrame id _) _ (some line) _

theorem shift_log (k : Nat) (r : Recorder) (text : String) (line : Nat) :
    (r.shift k).log text (some (line + k)) = (r.log text (some line)).shift k :=
  shift_push k (by nofun) r _ (some line) _

theorem shift_step (k : Nat) (r : Recorder) (line : Nat) :
    (r.shift k).step (stepMessage (line + k)) (some (line + k)) =
      (r.step (stepMessage line) (some line)).shift k := by
  have hactive : (r.shift k).active = r.active := rfl
  unfold step
  rw [hactive]
  cases r.active with
  | nil => rfl
  | cons id rest =>
    dsimp only
    unfold push shift Timeline.shift
    rw [Array.map_push, Event.shift_step]

end Recorder

/-! ## States -/

/-- A state, with its line and its recording `k` lines further down. -/
def Machine.shift (k : Nat) (m : Machine) : Machine :=
  { m with recorder := m.recorder.shift k, line := m.line + k }

@[simp] theorem Machine.shift_zero (m : Machine) : m.shift 0 = m := by
  have hevents (t : Timeline) : t.shift 0 = t := by
    unfold Timeline.shift
    rw [show Event.shift 0 = id from funext Event.shift_zero, Array.map_id]
  simp only [Machine.shift, Recorder.shift, hevents, Nat.add_zero]

namespace Exec

variable {k : Nat} {α β : Type}

/-- A result, `k` lines further down. -/
def shiftResult (k : Nat) : EStateM.Result Halt Machine α → EStateM.Result Halt Machine α
  | .ok a m => .ok a (m.shift k)
  | .error e m => .error (e.shift k) (m.shift k)

@[simp] theorem shiftResult_zero (r : EStateM.Result Halt Machine α) : shiftResult 0 r = r := by
  cases r with
  | ok a m => exact congrArg _ m.shift_zero
  | error e m =>
    have he : e.shift 0 = e := by cases e <;> rfl
    simp only [shiftResult, he, m.shift_zero]

theorem ofResult_shiftResult (r : EStateM.Result Halt Machine α) :
    Outcome.ofResult (shiftResult k r) = (Outcome.ofResult r).shift k := by
  cases r <;> rfl

/-- From a state that is moved down, `d` does what `c` does, moved down. -/
def Moves (k : Nat) (c d : Exec α) : Prop := ∀ m, d (m.shift k) = shiftResult k (c m)

namespace Moves

theorem pure (a : α) : Moves k (Pure.pure a) (Pure.pure a) := fun _ => rfl

theorem fail (cause : Cause) : Moves k (Exec.fail cause : Exec α) (Exec.fail cause) := fun _ => rfl

theorem outOfFuel : Moves k (Exec.outOfFuel : Exec α) Exec.outOfFuel := fun _ => rfl

theorem ofExcept (r : Except Cause α) : Moves k (Exec.ofExcept r) (Exec.ofExcept r) := by
  cases r with
  | ok a => exact .pure a
  | error cause => exact .fail cause

theorem bind {c d : Exec α} {f g : α → Exec β} (h : Moves k c d) (hf : ∀ a, Moves k (f a) (g a)) :
    Moves k (c >>= f) (d >>= g) := by
  intro m
  cases hc : c m with
  | ok a n =>
    have hd : d (m.shift k) = .ok a (n.shift k) := (h m).trans (congrArg _ hc)
    rw [bind_of_ok hc, bind_of_ok hd]
    exact hf a n
  | error e n =>
    have hd : d (m.shift k) = .error (e.shift k) (n.shift k) := (h m).trans (congrArg _ hc)
    rw [bind_of_error hc, bind_of_error hd]
    rfl

/-- A computation that looks at the state. -/
theorem get_shift {f g : Machine → Exec α} (h : ∀ m, Moves k (f m) (g (m.shift k))) :
    Moves k (MonadState.get >>= f) (MonadState.get >>= g) := fun m => h m m

/-- A computation that looks at anything in the state but the line and the recording. -/
theorem get {f : Machine → Exec α} (hf : ∀ m, f (m.shift k) = f m) (h : ∀ m, Moves k (f m) (f m)) :
    Moves k (MonadState.get >>= f) (MonadState.get >>= f) := get_shift fun m => (hf m).symm ▸ h m

/-- A change of the state. -/
theorem modify {f g : Machine → Machine} (h : ∀ m, g (m.shift k) = (f m).shift k) :
    Moves k (modify f : Exec Unit) (modify g) :=
  fun m => congrArg (EStateM.Result.ok ()) (h m)

theorem assign (name : String) (v : Value) : Moves k (Exec.assign name v) (Exec.assign name v) := by
  intro m
  have hstack : (m.shift k).stack = m.stack := rfl
  unfold Exec.assign
  rw [hstack]
  cases m.stack.assign? name v <;> rfl

/-- Storage knows nothing of lines. -/
theorem rules : WriteRules fun c => Moves k c c where
  pure := pure
  fail _ := fail _
  get h hf := get (fun m => hf m (m.shift k) rfl rfl) h
  bind := bind
  onHeap _ _ := rfl
  assign := assign

end Moves

/-! ## What does not depend on the program -/

theorem moves_setLine (line : Nat) : Moves k (setLine line) (setLine (line + k)) :=
  .modify fun _ => rfl

theorem moves_modifyStack (f : CallStack → CallStack) : Moves k (modifyStack f) (modifyStack f) :=
  .modify fun _ => rfl

theorem moves_recordSet (name : String) : Moves k (recordSet name) (recordSet name) := by
  refine .modify fun m => ?_
  have hstack : (m.shift k).stack = m.stack := rfl
  rw [hstack]
  split
  · cases m.stack.lookup name with
    | none => rfl
    | some v =>
      exact congrArg (Machine.mk m.heap m.stack · (m.line + k) m.entered)
        (m.recorder.shift_set k name (m.heap.snapshot v) m.line)
  · rfl

theorem moves_recordRoot (root : Option String) : Moves k (recordRoot root) (recordRoot root) := by
  cases root with
  | none => exact .pure ()
  | some name => exact moves_recordSet name

theorem moves_recordLog (text : String) : Moves k (recordLog text) (recordLog text) :=
  .modify fun m => congrArg (Machine.mk m.heap m.stack · (m.line + k) m.entered)
    (m.recorder.shift_log k text m.line)

theorem moves_recordReturn (v : Value) (line : Nat) :
    Moves k (recordReturn v line) (recordReturn v (line + k)) :=
  .modify fun m => congrArg (Machine.mk m.heap m.stack · (m.line + k) m.entered)
    (m.recorder.shift_ret k (m.heap.snapshot v) line)

/-- A step names the line that is recorded with it. -/
theorem moves_recordStep (line : Nat) :
    Moves k (record (·.step ("Executing line " ++ toString line) (some line)))
      (record (·.step ("Executing line " ++ toString (line + k)) (some (line + k)))) :=
  .modify fun m => congrArg (Machine.mk m.heap m.stack · (m.line + k) m.entered)
    (m.recorder.shift_step k line)

/-! ## Calls and checks -/

theorem moves_checkEvents {env env' : Env} (h : env'.config = env.config) :
    Moves k (checkEvents env) (checkEvents env') := by
  intro m
  have hsize : (m.shift k).recorder.events.size = m.recorder.events.size := m.recorder.size_shift k
  unfold checkEvents
  rw [hsize, h]
  split <;> rfl

theorem moves_begin {env env' : Env} (h : env'.config = env.config) (line : Nat) (step : Bool) :
    Moves k (begin env line step) (begin env' (line + k) step) := by
  refine (moves_setLine line).bind fun _ => ?_
  cases step with
  | false => exact moves_checkEvents h
  | true => exact (moves_recordStep line).bind fun _ => moves_checkEvents h

/-- Two functions with the same head, except that the second one stands `k` lines further down. -/
structure SameHead (k : Nat) (f g : Instrumented.Function) : Prop where
  name_eq : g.name = f.name
  params_eq : g.params = f.params
  line_eq : g.line = f.line + k
  endLine_eq : g.endLine = f.endLine + k

variable {env env' : Env} {f g : Instrumented.Function}

theorem moves_checkCall (h : env'.config = env.config) (hfg : SameHead k f g) (args : List Value) :
    Moves k (checkCall env f args) (checkCall env' g args) := by
  have hsame : checkCall env' g args = checkCall env f args := by
    simp only [checkCall, hfg.name_eq, hfg.params_eq, h]
  rw [hsame]
  exact Moves.rules.checkCall env f args

theorem moves_noteEntry (h : env'.config = env.config) (name : String) :
    Moves k (noteEntry env name) (noteEntry env' name) := by
  unfold noteEntry
  rw [h]
  exact .modify fun _ => rfl

theorem moves_enter (h : env'.config = env.config) (hfg : SameHead k f g)
    (vars : List (String × Value)) : Moves k (enter env f vars) (enter env' g vars) := by
  unfold enter
  rw [hfg.name_eq, hfg.line_eq]
  refine Moves.bind (.modify fun m => ?_) fun _ => (moves_checkEvents h).bind fun _ =>
    (moves_modifyStack _).bind fun _ => (moves_modifyStack _).bind fun _ => moves_setLine f.line
  exact congrArg (Machine.mk m.heap m.stack · (m.line + k) m.entered)
    (m.recorder.shift_call k f.name _ f.line)

theorem moves_finish (hfg : SameHead k f g) (flow : Flow) : Moves k (finish f flow) (finish g flow) := by
  unfold finish
  rw [hfg.endLine_eq]
  split
  · exact .pure _
  · exact (moves_recordReturn _ _).bind fun _ => .pure _

end Exec

end CallTrace
