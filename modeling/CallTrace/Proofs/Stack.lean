import CallTrace.Scope

/-! # The shape of the variables

* `CallStack.depths`: how many scopes are open at top level and in every call.
* `CallStack.SameShape s t`: the frames of the callers are the same in `s` and `t`, and as many scopes are
  open. Everything that a statement does to variables keeps the shape; a scope that is opened and closed
  does, and a call gives its caller's frame back as it was.
-/

namespace CallTrace
set_option autoImplicit false

theorem Frame.length_scopes_declare (f : Frame) (name : String) (v : Value) :
    (f.declare name v).scopes.length = f.scopes.length := by
  unfold Frame.declare
  cases f.scopes with
  | nil => rfl
  | cons s rest =>
    dsimp only
    split
    · rfl
    · split <;> rfl

theorem Frame.length_scopes_popScope (f : Frame) :
    f.popScope.scopes.length = f.scopes.length - 1 := by
  unfold Frame.popScope
  split
  · next h => rw [h]; rfl
  · next h => rw [h]; rfl

namespace CallStack

/-- How many scopes are open at top level and in every call. -/
def depths (s : CallStack) : Nat × List Nat :=
  (s.globals.scopes.length, s.frames.map (·.scopes.length))

@[simp] theorem depth_updateCurrent (s : CallStack) (f : Frame → Frame) :
    (s.updateCurrent f).depth = s.depth := by
  obtain ⟨globals, frames, n, h⟩ := s
  cases frames <;> rfl

@[simp] theorem depth_popFrame (s : CallStack) : s.popFrame.depth = s.depth - 1 := by
  obtain ⟨globals, frames, n, h⟩ := s
  cases frames with
  | nil => exact h.trans (congrArg (· - 1) h).symm
  | cons f rest => rfl

/-- The frames of the callers are the same, and as many scopes are open. -/
structure SameShape (s t : CallStack) : Prop where
  tail : t.frames.tail = s.frames.tail
  depths : t.depths = s.depths

namespace SameShape

variable {s t : CallStack}

theorem refl (s : CallStack) : SameShape s s := ⟨rfl, rfl⟩

theorem trans {u : CallStack} (h : SameShape s t) (h' : SameShape t u) : SameShape s u :=
  ⟨h'.tail.trans h.tail, h'.depths.trans h.depths⟩

theorem depth_eq (h : SameShape s t) : t.depth = s.depth := by
  have hframes : t.frames.length = s.frames.length := by
    simpa using congrArg List.length (Prod.mk.inj h.depths).2
  rw [CallStack.depth_eq, CallStack.depth_eq, hframes]

/-- Changing the variables of the innermost frame, but not how many scopes it has open. -/
theorem updateCurrent (s : CallStack) {g : Frame → Frame}
    (hg : ∀ f, (g f).scopes.length = f.scopes.length) : SameShape s (s.updateCurrent g) := by
  obtain ⟨globals, frames, n, h⟩ := s
  cases frames with
  | nil => exact ⟨rfl, by simp [CallStack.updateCurrent, CallStack.depths, hg]⟩
  | cons f rest => exact ⟨rfl, by simp [CallStack.updateCurrent, CallStack.depths, hg]⟩

theorem declare (s : CallStack) (name : String) (v : Value) : SameShape s (s.declare name v) :=
  updateCurrent s fun f => f.length_scopes_declare name v

theorem declares (s : CallStack) (vars : List (String × Value)) :
    SameShape s (vars.foldl (fun s (name, v) => s.declare name v) s) := by
  induction vars generalizing s with
  | nil => exact refl s
  | cons b vars ih => exact (declare s b.1 b.2).trans (ih _)

theorem assign {name : String} {v : Value} (h : s.assign? name v = some t) : SameShape s t := by
  unfold CallStack.assign? at h
  split at h
  · obtain rfl := Option.some.inj h
    exact updateCurrent s fun _ => rfl
  · split at h
    · obtain rfl := Option.some.inj h
      exact ⟨rfl, rfl⟩
    · cases h

theorem scope (h : SameShape s.pushScope t) : SameShape s t.popScope := by
  obtain ⟨globals, frames, n, hn⟩ := s
  obtain ⟨globals', frames', n', hn'⟩ := t
  obtain ⟨htail, hdepths⟩ := h
  cases frames with
  | nil =>
    obtain ⟨hglobals, hframes⟩ := Prod.mk.inj hdepths
    obtain rfl : frames' = [] := List.map_eq_nil_iff.mp hframes
    refine ⟨rfl, ?_⟩
    simp only [CallStack.depths, CallStack.popScope, CallStack.updateCurrent, List.map_nil,
      Frame.length_scopes_popScope, hglobals]
    rfl
  | cons f rest =>
    obtain ⟨hglobals, hframes⟩ := Prod.mk.inj hdepths
    obtain ⟨f', rest', rfl, hf, hrest⟩ := List.map_eq_cons_iff.mp hframes
    refine ⟨htail, ?_⟩
    simp only [CallStack.depths, CallStack.popScope, CallStack.updateCurrent, List.map_cons,
      Frame.length_scopes_popScope, hf, hrest, hglobals]
    rfl

theorem call {name : String} {vars : List (String × Value)}
    (h : SameShape (vars.foldl (fun s (name, v) => s.declare name v) (s.pushFrame name)) t) :
    t.popFrame.frames = s.frames ∧
      t.popFrame.globals.scopes.length = s.globals.scopes.length := by
  obtain ⟨htail, hdepths⟩ := (declares (s.pushFrame name) vars).trans h
  obtain ⟨globals, frames, n, hn⟩ := t
  obtain ⟨hglobals, hframes⟩ := Prod.mk.inj hdepths
  obtain ⟨f, rest, rfl, -⟩ := List.map_eq_cons_iff.mp hframes
  exact ⟨htail, hglobals⟩

theorem popFrame {name : String} {vars : List (String × Value)}
    (h : SameShape (vars.foldl (fun s (name, v) => s.declare name v) (s.pushFrame name)) t) :
    SameShape s t.popFrame := by
  obtain ⟨hframes, hglobals⟩ := h.call
  exact ⟨congrArg List.tail hframes, Prod.ext hglobals (congrArg (List.map _) hframes)⟩

end SameShape

end CallStack

end CallTrace
