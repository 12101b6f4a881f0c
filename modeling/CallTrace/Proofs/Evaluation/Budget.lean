import CallTrace.Proofs.Evaluation.Call
import CallTrace.Proofs.Evaluation.Silent
import CallTrace.Proofs.Recording

/-! # What is recorded between two checks of the event limit

The limit is checked when a call begins, before a statement runs, after a round of a loop and after a `return`.
Assignments, output and calls that come to the end of their body are recorded without a check.

* `Expr.burst`, `Stmt.burst`, `Program.burst`: how many events an expression or a statement may itself record
  before the next check.
* `Env.ceiling d`: how many events there may be when `d` calls are active and the limit was just passed: every
  call that is still possible may add one burst and its return.
* `Machine.Budgeted`, `Machine.Overrun`: what holds of a run that goes on, and of one that has stopped.
* `Exec.Meets`: from a state a computation gives a result with some property, or stops within the budget.
* `Exec.Spends`, `Exec.Runs`: a computation goes from one surplus over the ceiling to another.
-/

namespace CallTrace
set_option autoImplicit false

open Instrumented (Expr Place Action Stmt ContainerOp)

/-! ## Bursts -/

namespace Instrumented

mutual

/-- The most events that an expression records, apart from its calls. A string that is changed in place has
its target evaluated twice. -/
def Expr.burst : Expr → Nat
  | .list items => burstOf items
  | .fill size fill => size.burst + fill.burst
  | .binary _ left right => left.burst + right.burst
  | .neg e => e.burst
  | .not e => e.burst
  | .ternary cond yes no => cond.burst + max yes.burst no.burst
  | .assign target _ value => target.burst + value.burst + 1
  | .update target _ _ => target.burst + 1
  | .index base index => base.burst + index.burst
  | .call _ args => burstOf args
  | .container op target args =>
    target.burst + burstOf args + (if op.mutates then target.burst + 1 else 0)
  | .int _ | .float _ | .bool _ | .str _ | .undefined | .var _ => 0

def Place.burst : Place → Nat
  | .var _ => 0
  | .index base index => base.burst + index.burst

def burstOf : List Expr → Nat
  | [] => 0
  | e :: es => e.burst + burstOf es

end

theorem Place.burst_toExpr (target : Place) : target.toExpr.burst = target.burst := by
  cases target <;> rfl

def optionBurst : Option Expr → Nat
  | some e => e.burst
  | none => 0

def Action.burst : Action → Nat
  | .declare _ init _ => init.burst + 1
  | .eval e => e.burst
  | .log parts => burstOf parts + 1
  | .printf format args => format.burst + burstOf args + 1
  | .unsupported _ _ => 0

def initBurst : Option (Nat × Action) → Nat
  | some (_, action) => action.burst
  | none => 0

mutual

/-- The most events that a statement records after a check and before the next one, apart from its calls. -/
def Stmt.burst : Stmt → Nat
  | .act _ _ action => action.burst
  | .ifElse _ _ cond yes no => max cond.burst (max (bodyBurst yes) (bodyBurst no))
  | .whileLoop _ _ cond body => max cond.burst (bodyBurst body)
  | .doWhile _ _ body cond => max cond.burst (bodyBurst body)
  | .forLoop _ _ init cond update body =>
    max (initBurst init + optionBurst cond) (bodyBurst body) + optionBurst update
  | .block _ _ body => bodyBurst body
  | .ret _ _ value => optionBurst value
  | .breakLoop _ _ | .continueLoop _ _ => 0

def bodyBurst : List Stmt → Nat
  | [] => 0
  | s :: rest => max s.burst (bodyBurst rest)

end

/-- The greatest burst of a statement of the program. -/
def Program.burst (p : Program) : Nat :=
  (p.functions.map fun f => bodyBurst f.body).foldr max (bodyBurst p.driver)

theorem Program.bodyBurst_le {p : Program} {f : Function} (h : f ∈ p.functions) :
    bodyBurst f.body ≤ p.burst := by
  unfold Program.burst
  generalize p.functions = fs at h
  induction fs with
  | nil => cases h
  | cons g gs ih =>
    rcases List.mem_cons.mp h with rfl | h
    · exact Nat.le_max_left _ _
    · exact Nat.le_trans (ih h) (Nat.le_max_right _ _)

theorem Program.driverBurst_le (p : Program) : bodyBurst p.driver ≤ p.burst := by
  unfold Program.burst
  induction p.functions with
  | nil => exact Nat.le_refl _
  | cons g gs ih => exact Nat.le_trans ih (Nat.le_max_right _ _)

end Instrumented

/-- The most events that there may be when `d` calls are active and nothing has been recorded in the latest of
them since a check. -/
def Env.ceiling (env : Env) (d : Nat) : Nat :=
  env.config.maxEvents + (env.config.maxCallDepth - d) * (env.program.burst + 1)

/-- A call makes room for one burst and for its return. -/
theorem Env.ceiling_succ {env : Env} {d : Nat} (h : d < env.config.maxCallDepth) :
    env.ceiling d = env.ceiling (d + 1) + env.program.burst + 1 := by
  obtain ⟨k, hk⟩ := Nat.exists_eq_add_of_lt h
  have hleft : env.config.maxCallDepth - d = k + 1 := by omega
  have hrest : env.config.maxCallDepth - (d + 1) = k := by omega
  rw [ceiling, ceiling, hleft, hrest, Nat.succ_mul]
  omega

theorem Env.le_ceiling (env : Env) (d : Nat) : env.config.maxEvents ≤ env.ceiling d := Nat.le_add_right _ _

/-! ## States -/

/-- The limit is checked right after the event is recorded. -/
def Event.isChecked (e : Event) : Bool := e.kind == .call || e.kind == .line

/-- Every call on a timeline is less deep than the limit. -/
def Timeline.Shallow (env : Env) (t : Timeline) : Prop :=
  ∀ e ∈ t, ∀ frame depth, e.payload = .call frame depth → frame.depth < env.config.maxCallDepth

/-- Calls and steps stand within the limit, up to those at which the run stops. -/
def Timeline.Guarded (env : Env) (t : Timeline) (stops : Nat → Prop) : Prop :=
  ∀ j e, t[j]? = some e → e.isChecked → j < env.config.maxEvents ∨ stops j

/-- A state with `d` active calls, of which the latest `left` have returned already, and with `i` events above
the ceiling at most. -/
structure Machine.Budgeted (env : Env) (d left i : Nat) (m : Machine) : Prop where
  depth : m.stack.depth = d
  recorded : m.recorder.depth ≤ d - left
  shallow : m.recorder.events.Shallow env
  guarded : m.recorder.events.Guarded env fun _ => False
  size : m.recorder.events.size ≤ env.ceiling d + i

/-- A state in which a run has stopped, with `e` events above the ceiling at most beside the last one. A call or
a step beyond the limit is the last event, and the run has stopped because of it. -/
structure Machine.Overrun (env : Env) (d e : Nat) (halt : Halt) (m : Machine) : Prop where
  shallow : m.recorder.events.Shallow env
  guarded : m.recorder.events.Guarded env fun j =>
    j + 1 = m.recorder.events.size ∧ ∃ line, halt = .failed ⟨.eventLimit env.config.maxEvents, line⟩
  size : m.recorder.events.size ≤ env.ceiling d + e + 1

/-- A state in which the last event may still have to be checked. -/
structure Machine.Unchecked (env : Env) (d e : Nat) (m : Machine) : Prop where
  shallow : m.recorder.events.Shallow env
  guarded : m.recorder.events.Guarded env fun j => j + 1 = m.recorder.events.size
  size : m.recorder.events.size ≤ env.ceiling d + e + 1

namespace Timeline

variable {env : Env} {t : Timeline} {ev : Event}

theorem Shallow.push (h : t.Shallow env)
    (hev : ∀ frame depth, ev.payload = .call frame depth → frame.depth < env.config.maxCallDepth) :
    Shallow env (t.push ev) := by
  intro e he
  rcases Array.mem_push.mp he with he | rfl
  · exact h e he
  · exact hev

theorem Guarded.push {stops stops' : Nat → Prop} (h : t.Guarded env stops)
    (hstops : ∀ j, stops j → stops' j) (hev : ev.isChecked → stops' t.size) :
    Guarded env (t.push ev) stops' := by
  intro j e hj he
  rw [Array.getElem?_push] at hj
  split at hj
  · next hlast =>
    cases hj
    exact .inr (hlast ▸ hev he)
  · exact (h j e hj he).imp_right (hstops j)

end Timeline

namespace Machine

variable {env : Env} {d left i j e : Nat} {m n : Machine} {halt : Halt}

theorem Budgeted.mono (h : m.Budgeted env d left i) (hij : i ≤ j) : m.Budgeted env d left j :=
  { h with size := by have := h.size; omega }

theorem Budgeted.unleft (h : m.Budgeted env d left i) : m.Budgeted env d 0 i :=
  { h with recorded := by have := h.recorded; omega }

theorem Budgeted.of_eq (h : m.Budgeted env d left i) (hrecorder : n.recorder = m.recorder)
    (hdepth : n.stack.depth = m.stack.depth) : n.Budgeted env d left i :=
  ⟨hdepth.trans h.depth, hrecorder ▸ h.recorded, hrecorder ▸ h.shallow, hrecorder ▸ h.guarded,
    hrecorder ▸ h.size⟩

theorem Budgeted.overrun (h : m.Budgeted env d left i) (hi : i ≤ e + 1) : m.Overrun env d e halt :=
  ⟨h.shallow, fun j ev hj hev => (h.guarded j ev hj hev).imp_right False.elim, by have := h.size; omega⟩

/-- One more event that is not checked. -/
theorem Budgeted.push {ev : Event} (h : m.Budgeted env d 0 i)
    (hevents : n.recorder.events = m.recorder.events.push ev) (hev : ev.isChecked = false)
    (hrecorded : n.recorder.depth ≤ d - left) (hdepth : n.stack.depth = m.stack.depth) :
    n.Budgeted env d left (i + 1) where
  depth := hdepth.trans h.depth
  recorded := hrecorded
  shallow := by
    rw [hevents]
    refine h.shallow.push fun frame depth hp => ?_
    rw [Event.isChecked, Event.kind, hp] at hev
    cases hev
  guarded := by
    rw [hevents]
    exact h.guarded.push (fun _ => id) fun hc => by rw [hev] at hc; cases hc
  size := by
    rw [hevents, Array.size_push]
    have := h.size
    omega

/-- One more event, which is about to be checked. -/
theorem Budgeted.unchecked {ev : Event} (h : m.Budgeted env d left i) (hi : i ≤ e)
    (hevents : n.recorder.events = m.recorder.events.push ev)
    (hev : ∀ frame depth, ev.payload = .call frame depth → frame.depth < env.config.maxCallDepth) :
    n.Unchecked env d e where
  shallow := by
    rw [hevents]
    exact h.shallow.push hev
  guarded := by
    rw [hevents, Array.size_push]
    exact h.guarded.push (fun _ => False.elim) fun _ => rfl
  size := by
    rw [hevents, Array.size_push]
    have := h.size
    omega

theorem Budgeted.toUnchecked (h : m.Budgeted env d left i) (hi : i ≤ e + 1) : m.Unchecked env d e :=
  ⟨h.shallow, fun j ev hj hev => (h.guarded j ev hj hev).imp_right False.elim, by have := h.size; omega⟩

theorem Unchecked.of_events (h : m.Unchecked env d e) (hevents : n.recorder.events = m.recorder.events) :
    n.Unchecked env d e := ⟨hevents ▸ h.shallow, hevents ▸ h.guarded, hevents ▸ h.size⟩

end Machine

/-! ## What the recorder adds -/

namespace Recorder

/-- A recording without a new event, or with one new event of a kind. -/
def Adds (kind : EventKind) (r s : Recorder) : Prop :=
  s.events = r.events ∨ ∃ e : Event, e.kind = kind ∧ s.events = r.events.push e

variable (r : Recorder) (line : Option Nat)

theorem set_adds (name : String) (value : Snapshot) :
    Adds .set r (r.set name value line) ∧ (r.set name value line).depth = r.depth := by
  unfold set
  split
  · exact ⟨.inl rfl, rfl⟩
  · split
    · exact ⟨.inl rfl, rfl⟩
    · exact ⟨.inr ⟨_, rfl, rfl⟩, rfl⟩

theorem step_adds (message : String) :
    Adds .line r (r.step message line) ∧ (r.step message line).depth = r.depth := by
  unfold step
  split
  · exact ⟨.inl rfl, rfl⟩
  · exact ⟨.inr ⟨_, rfl, rfl⟩, rfl⟩

theorem ret_adds (value : Snapshot) :
    Adds .ret r (r.ret value line) ∧ (r.ret value line).depth = r.depth - 1 := by
  unfold ret
  split
  · next h =>
    have hzero : r.depth = 0 := by rw [r.depth_eq, h, List.length_nil]
    exact ⟨.inl rfl, by rw [hzero]⟩
  · next id rest _ =>
    split
    · exact ⟨.inl (events_popFrame r), r.depth_popFrame⟩
    · next frame _ =>
      let done := { frame with returned := some value }
      have hevents : (r.popFrame.setFrame id done).events = r.events := events_popFrame r
      let event : Event := ⟨.ret done value (r.depth - 1), "Returning from " ++ frame.name, line, some id⟩
      exact ⟨.inr ⟨event, rfl, by rw [events_push, hevents]⟩, r.depth_popFrame⟩

end Recorder

/-! ## Computations -/

/-- How many calls have returned when a statement has ended. -/
def Flow.left : Flow → Nat
  | .ret _ => 1
  | _ => 0

theorem Flow.left_of_loopExit {flow flow' : Flow} (h : flow.loopExit? = some flow') :
    flow'.left = flow.left := by
  cases flow <;> cases h <;> rfl

theorem Flow.left_of_loopExit_none {flow : Flow} (h : flow.loopExit? = none) : flow.left = 0 := by
  cases flow
  case normal | continueLoop => rfl
  all_goals cases h

namespace Exec

section

variable {α β : Type} {env : Env} {d e i j b : Nat} {m n : Machine}

/-- From the state `m` the computation gives a result with `post`, or stops with `e` events above the ceiling
at most beside the last one. -/
def Meets (env : Env) (d e : Nat) (post : α → Machine → Prop) (c : Exec α) (m : Machine) : Prop :=
  match c m with
  | .ok a n => post a n
  | .error halt n => n.Overrun env d e halt

namespace Meets

variable {post post' : α → Machine → Prop} {other : β → Machine → Prop} {c : Exec α}

theorem of_ok {a : α} (h : c m = .ok a n) (hpost : post a n) : Meets env d e post c m := by
  rw [Meets, h]
  exact hpost

theorem of_error {halt : Halt} (h : c m = .error halt n) (hn : n.Overrun env d e halt) :
    Meets env d e post c m := by
  rw [Meets, h]
  exact hn

theorem imp (h : Meets env d e post c m) (hp : ∀ a n, c m = .ok a n → post a n → post' a n) :
    Meets env d e post' c m := by
  cases hc : c m with
  | ok a n =>
    rw [Meets, hc] at h
    exact of_ok hc (hp a n hc h)
  | error halt n =>
    rw [Meets, hc] at h
    exact of_error hc h

theorem ok_bind {f : α → Exec β} {a : α} {n : Machine} (hc : c m = .ok a n)
    (hf : Meets env d e other (f a) n) : Meets env d e other (c >>= f) m := by
  rwa [Meets, bind_of_ok hc]

theorem bind {f : α → Exec β} (h : Meets env d e post c m)
    (hf : ∀ a n, c m = .ok a n → post a n → Meets env d e other (f a) n) :
    Meets env d e other (c >>= f) m := by
  cases hc : c m with
  | ok a n =>
    rw [Meets, hc] at h
    have hnext := hf a n hc h
    rwa [Meets, bind_of_ok hc]
  | error halt n =>
    rw [Meets, hc] at h
    exact of_error (bind_of_error hc) h

/-- What records nothing keeps to the budget. -/
theorem silent {left : Nat} (h : Silent c) (hm : m.Budgeted env d left i) (hi : i ≤ e + 1) :
    Meets env d e (fun _ n => n.Budgeted env d left i) c m := by
  cases hc : c m with
  | ok a n =>
    have hn := h.ok hc
    exact of_ok hc (hm.of_eq hn.recorder hn.depth)
  | error halt n =>
    have hn := h.error hc
    exact of_error hc ((hm.of_eq hn.recorder hn.depth).overrun hi)

end Meets

/-- The check of the limit brings a run below it, or stops it. -/
theorem meets_checkEvents (h : m.Unchecked env d e) :
    Meets env d e (fun _ n => n = m ∧ m.recorder.events.size ≤ env.config.maxEvents ∧
      m.recorder.events.Guarded env fun _ => False) (checkEvents env) m := by
  by_cases hlimit : env.config.maxEvents < m.recorder.events.size
  · have hstop : checkEvents env m = .error (.failed ⟨.eventLimit env.config.maxEvents, m.line⟩) m :=
      if_pos hlimit
    exact .of_error hstop
      ⟨h.shallow, fun j ev hj hev => (h.guarded j ev hj hev).imp_right fun hlast => ⟨hlast, _, rfl⟩,
        h.size⟩
  · have hgo : checkEvents env m = .ok () m := if_neg hlimit
    refine .of_ok hgo ⟨rfl, Nat.le_of_not_lt hlimit, fun j ev hj hev => .inl ?_⟩
    rcases h.guarded j ev hj hev with hlt | hlast
    · exact hlt
    · omega

/-- A computation that begins with `i` events above the ceiling at most ends with `b`. -/
def Spends (env : Env) (d e i b : Nat) (c : Exec α) : Prop :=
  ∀ m, m.Budgeted env d 0 i → Meets env d e (fun _ n => n.Budgeted env d 0 b) c m

/-- The same for a statement, after which the latest call may have returned. -/
def Runs (env : Env) (d e i b : Nat) (c : Exec Flow) : Prop :=
  ∀ m, m.Budgeted env d 0 i → Meets env d e (fun flow n => n.Budgeted env d flow.left b) c m

namespace Spends

variable {c : Exec α}

theorem silent (h : Silent c) (hi : i ≤ e + 1) : Spends env d e i i c := fun _ hm => .silent h hm hi

theorem mono (h : Spends env d e i j c) (hjb : j ≤ b) : Spends env d e i b c := fun m hm =>
  (h m hm).imp fun _ _ _ hn => hn.mono hjb

theorem bind {f : α → Exec β} (h : Spends env d e i j c) (hf : ∀ a, Spends env d e j b (f a)) :
    Spends env d e i b (c >>= f) := fun m hm => (h m hm).bind fun a n _ hn => hf a n hn

theorem bind_runs {f : α → Exec Flow} (h : Spends env d e i j c) (hf : ∀ a, Runs env d e j b (f a)) :
    Runs env d e i b (c >>= f) := fun m hm => (h m hm).bind fun a n _ hn => hf a n hn

/-- A computation that ends with something that records nothing. -/
theorem bind_silent {f : α → Exec β} (h : Spends env d e i j c) (hf : ∀ a, Silent (f a))
    (hj : j ≤ e + 1) : Spends env d e i j (c >>= f) := h.bind fun a => .silent (hf a) hj

theorem silent_bind {f : α → Exec β} (h : Silent c) (hf : ∀ a, Spends env d e i b (f a))
    (hi : i ≤ e + 1) : Spends env d e i b (c >>= f) := (Spends.silent h hi).bind hf

end Spends

theorem Runs.mono {c : Exec Flow} (h : Runs env d e i j c) (hjb : j ≤ b) : Runs env d e i b c := fun m hm =>
  (h m hm).imp fun _ _ _ hn => hn.mono hjb

theorem runs_pure {flow : Flow} (hflow : flow.left = 0) : Runs env d e i i (pure flow) := fun _ hm =>
  .of_ok rfl (hflow ▸ hm)

/-! ## Recording -/

theorem spends_recordSet (name : String) : Spends env d e i (i + 1) (recordSet name) := by
  intro m hm
  have hskip : m.Budgeted env d 0 (i + 1) := hm.mono (Nat.le_succ i)
  refine .of_ok rfl ?_
  dsimp only
  split
  · split
    · next v _ =>
      obtain ⟨hadds, hdepth⟩ := m.recorder.set_adds (some m.line) name (m.heap.snapshot v)
      have hrecorded : (m.recorder.set name (m.heap.snapshot v) (some m.line)).depth ≤ d - 0 :=
        hdepth ▸ hm.recorded
      rcases hadds with hsame | ⟨ev, hkind, hevents⟩
      · exact ⟨hm.depth, hrecorded, hsame ▸ hm.shallow, hsame ▸ hm.guarded, hsame ▸ hskip.size⟩
      · exact hm.push hevents (by rw [Event.isChecked, hkind]; rfl) hrecorded rfl
    · exact hskip
  · exact hskip

theorem spends_recordRoot (root : Option String) : Spends env d e i (i + 1) (recordRoot root) := by
  cases root with
  | none => exact fun m hm => .of_ok rfl (hm.mono (Nat.le_succ i))
  | some name => exact spends_recordSet name

theorem spends_recordLog (text : String) : Spends env d e i (i + 1) (recordLog text) := fun _ hm =>
  .of_ok rfl (hm.push rfl rfl hm.recorded rfl)

/-- A return leaves one call less in the recording. -/
theorem meets_recordReturn (v : Value) (line : Nat) (hm : m.Budgeted env d 0 i) :
    Meets env d e (fun _ n => n.Budgeted env d 1 (i + 1)) (recordReturn v line) m := by
  obtain ⟨hadds, hdepth⟩ := m.recorder.ret_adds (some line) (m.heap.snapshot v)
  have hrecorded : (m.recorder.ret (m.heap.snapshot v) (some line)).depth ≤ d - 1 := by
    have := hm.recorded
    omega
  refine .of_ok rfl ?_
  rcases hadds with hsame | ⟨ev, hkind, hevents⟩
  · exact ⟨hm.depth, hrecorded, hsame ▸ hm.shallow, hsame ▸ hm.guarded,
      hsame ▸ (hm.mono (Nat.le_succ i)).size⟩
  · exact hm.push hevents (by rw [Event.isChecked, hkind]; rfl) hrecorded rfl

theorem spends_checkEvents (hi : i ≤ e + 1) : Spends env d e i 0 (checkEvents env) := fun m hm =>
  (meets_checkEvents (hm.toUnchecked hi)).imp fun _ n _ ⟨hn, hsize, _⟩ => by
    subst hn
    exact { hm with size := Nat.le_trans hsize (env.le_ceiling d) }

theorem spends_modifyStack {f : CallStack → CallStack} (hf : ∀ s, (f s).depth = s.depth) :
    Spends env d e i i (modifyStack f) := fun _ hm => .of_ok rfl (hm.of_eq rfl (hf _))

theorem spends_setLine (line : Nat) : Spends env d e i i (setLine line) := fun _ hm => .of_ok rfl (hm.of_eq rfl rfl)

/-- Whatever was recorded before a statement begins, there is no surplus when it has begun. -/
theorem spends_begin (line : Nat) (step : Bool) (hi : i ≤ e) : Spends env d e i 0 (begin env line step) := by
  refine (spends_setLine line).bind fun _ => ?_
  cases step with
  | false => exact spends_checkEvents (by omega)
  | true =>
    intro m hm
    let m' : Machine :=
      { m with recorder := m.recorder.step ("Executing line " ++ toString line) (some line) }
    obtain ⟨hadds, hdepth⟩ := m.recorder.step_adds (some line) ("Executing line " ++ toString line)
    have hunchecked : m'.Unchecked env d e := by
      rcases hadds with hsame | ⟨ev, hkind, hevents⟩
      · exact (hm.toUnchecked (by omega)).of_events hsame
      · refine hm.unchecked hi hevents fun frame depth hp => ?_
        rw [Event.kind, hp] at hkind
        cases hkind
    refine .ok_bind (n := m') rfl ?_
    refine (meets_checkEvents hunchecked).imp fun _ n _ ⟨hn, hsize, hguarded⟩ => ?_
    subst hn
    exact ⟨hm.depth, hdepth ▸ hm.recorded, hunchecked.shallow, hguarded,
      Nat.le_trans hsize (env.le_ceiling d)⟩

end

end Exec

end CallTrace
