import CallTrace.Proofs.Recording

/-! # Nested calls in a timeline

* `Event.IsCall`, `Event.IsReturn`, `Event.IsWithin`: the events of one activation.
* `Nested id k es n`: the events `es` happen inside the call `id`, or outside of all calls. Each is an event
  of that call or part of a call that begins and ends among them. The calls among them have the numbers
  from `k` up to `n`, in order.
* `Recorder.Inside r s`, `Recorder.Finished r s`: the recording has gone from `r` to `s` inside the latest
  active call, or up to its return.
-/

namespace CallTrace
set_option autoImplicit false

namespace Event

/-- The event is the call of the activation `id`, of a function with some arguments, at a line. -/
def IsCall (id : FrameId) (name : String) (args : Bindings) (line : Option Nat) (e : Event) : Prop :=
  e.frameId = some id ∧ e.line = line ∧ ∃ frame depth, e.payload = .call frame depth ∧
    frame.id = id ∧ frame.name = name ∧ frame.args = args

/-- The event is the return of the activation `id` with a value, at a line. -/
def IsReturn (id : FrameId) (value : Snapshot) (line : Nat) (e : Event) : Prop :=
  e.frameId = some id ∧ e.line = some line ∧
    ∃ frame depth, e.payload = .ret frame value depth ∧ frame.id = id

/-- The event is of the activation `id`, or at top level, and neither its call nor its return. -/
def IsWithin (id : Option FrameId) (e : Event) : Prop :=
  e.frameId = id ∧ (e.kind = .line ∨ e.kind = .set ∨ e.kind = .log)

variable {e : Event}

theorem IsCall.kind {id : FrameId} {name : String} {args : Bindings} {line : Option Nat}
    (h : e.IsCall id name args line) : e.kind = .call := by
  obtain ⟨-, -, frame, depth, hp, -⟩ := h
  rw [Event.kind, hp]
  rfl

theorem IsReturn.kind {id : FrameId} {value : Snapshot} {line : Nat} (h : e.IsReturn id value line) :
    e.kind = .ret := by
  obtain ⟨-, -, frame, depth, hp, -⟩ := h
  rw [Event.kind, hp]
  rfl

end Event

/-! ## Nesting -/

/-- Events inside a call, or outside of all calls. -/
inductive Nested : Option FrameId → Nat → List Event → Nat → Prop where
  | nil {id : Option FrameId} {k : Nat} : Nested id k [] k
  | own {id : Option FrameId} {k n : Nat} {e : Event} {es : List Event} (he : e.IsWithin id)
      (hes : Nested id k es n) : Nested id k (e :: es) n
  | call {id : Option FrameId} {k n l line : Nat} {c r : Event} {inner es : List Event}
      {name : String} {args : Bindings} {at' : Option Nat} {value : Snapshot}
      (hc : c.IsCall k name args at') (hinner : Nested (some k) (k + 1) inner n)
      (hr : r.IsReturn k value line) (hes : Nested id n es l) :
      Nested id k (c :: (inner ++ r :: es)) l

namespace Nested

variable {id : Option FrameId} {k n : Nat} {es : List Event}

theorem append {l : Nat} {fs : List Event} (h : Nested id k es n) (h' : Nested id n fs l) :
    Nested id k (es ++ fs) l := by
  induction h with
  | nil => exact h'
  | own he _ ih => exact .own he (ih h')
  | call hc hinner hr _ _ ih =>
    rw [List.cons_append, List.append_assoc]
    exact .call hc hinner hr (ih h')

theorem one {e : Event} (he : e.IsWithin id) : Nested id k [e] k := .own he .nil

theorem countP_call (h : Nested id k es n) : k + es.countP (·.kind == .call) = n := by
  induction h with
  | nil => rfl
  | own he _ ih =>
    rw [List.countP_cons_of_neg, ih]
    rcases he.2 with hk | hk | hk <;> rw [hk] <;> decide
  | call hc _ hr _ ih ih' =>
    rw [List.countP_cons_of_pos (by rw [hc.kind]; rfl), List.countP_append,
      List.countP_cons_of_neg (by rw [hr.kind]; decide)]
    omega

theorem countP_ret (h : Nested id k es n) :
    es.countP (·.kind == .ret) = es.countP (·.kind == .call) := by
  induction h with
  | nil => rfl
  | own he _ ih =>
    rw [List.countP_cons_of_neg, List.countP_cons_of_neg, ih] <;>
      rcases he.2 with hk | hk | hk <;> rw [hk] <;> decide
  | call hc _ hr _ ih ih' =>
    rw [List.countP_cons_of_neg (by rw [hc.kind]; decide), List.countP_append,
      List.countP_cons_of_pos (by rw [hr.kind]; rfl),
      List.countP_cons_of_pos (by rw [hc.kind]; rfl), List.countP_append,
      List.countP_cons_of_neg (by rw [hr.kind]; decide)]
    omega

end Nested

/-! ## Recordings -/

namespace Recorder

/-- From `r` to `s` something has happened inside the latest active call. -/
structure Inside (r s : Recorder) : Prop where
  active : s.active = r.active
  events : ∃ es, s.events.toList = r.events.toList ++ es ∧
    Nested r.active.head? r.frames.size es s.frames.size

/-- From `r` to `s` the latest active call, `id`, has come to its end and returned a value at a line. -/
structure Finished (r s : Recorder) (id : FrameId) (value : Snapshot) (line : Nat) : Prop where
  active : r.active = id :: s.active
  events : ∃ es e, s.events.toList = r.events.toList ++ (es ++ [e]) ∧
    Nested (some id) r.frames.size es s.frames.size ∧ e.IsReturn id value line

variable {r s t : Recorder} {id : FrameId} {value : Snapshot} {line : Nat}

theorem Inside.refl (r : Recorder) : Inside r r := ⟨rfl, [], (List.append_nil _).symm, .nil⟩

theorem Inside.trans (h : Inside r s) (h' : Inside s t) : Inside r t := by
  obtain ⟨es, he, hn⟩ := h.events
  obtain ⟨fs, hf, hm⟩ := h'.events
  refine ⟨h'.active.trans h.active, es ++ fs, by rw [hf, he, List.append_assoc], hn.append ?_⟩
  rw [← h.active]
  exact hm

theorem Inside.finished (h : Inside r s) (h' : Finished s t id value line) :
    Finished r t id value line := by
  obtain ⟨es, he, hn⟩ := h.events
  obtain ⟨fs, e, hf, hm, hr⟩ := h'.events
  have hactive : r.active = id :: t.active := h.active.symm.trans h'.active
  rw [hactive] at hn
  exact ⟨hactive, es ++ fs, e, by rw [hf, he]; simp only [List.append_assoc], hn.append hm, hr⟩

theorem Inside.push {payload : Payload} (message : String) (line : Option Nat)
    (hp : payload.kind = .line ∨ payload.kind = .set ∨ payload.kind = .log) :
    Inside r (r.push payload message line r.active.head?) :=
  ⟨rfl, _, Array.toList_push, .one ⟨rfl, hp⟩⟩

theorem Inside.of_setFrame {a : Activation} (h : Inside (r.setFrame id a) s) : Inside r s := by
  obtain ⟨es, he, hn⟩ := h.events
  rw [frames_setFrame, Array.size_setIfInBounds] at hn
  exact ⟨h.active, es, he, hn⟩

/-- A call that has been made and has come to its end: its events. -/
theorem Finished.call_events {name : String} {args : List (String × Snapshot)} {at' : Option Nat}
    (h : Finished (r.call name args at') s id value line) :
    ∃ c es e, s.events.toList = r.events.toList ++ c :: (es ++ [e]) ∧
      c.IsCall r.frames.size name (.ofList args) at' ∧
      Nested (some r.frames.size) (r.frames.size + 1) es s.frames.size ∧
      e.IsReturn r.frames.size value line := by
  obtain ⟨rfl, -⟩ := List.cons.inj ((active_call r name args at').symm.trans h.active)
  obtain ⟨es, e, he, hn, hr⟩ := h.events
  rw [events_call, Array.toList_push, List.append_assoc] at he
  rw [frames_call, Array.size_push] at hn
  exact ⟨_, es, e, he, ⟨rfl, rfl, _, _, rfl, rfl, rfl, rfl⟩, hn, hr⟩

theorem Finished.active_of_call {name : String} {args : List (String × Snapshot)} {at' : Option Nat}
    (h : Finished (r.call name args at') s id value line) : s.active = r.active :=
  (List.cons.inj ((active_call r name args at').symm.trans h.active)).2.symm

/-- A call that has been made and has come to its end adds events inside the call before it. -/
theorem Finished.inside {name : String} {args : List (String × Snapshot)} {at' : Option Nat}
    (h : Finished (r.call name args at') s id value line) : Inside r s := by
  obtain ⟨c, es, e, he, hc, hn, hr⟩ := h.call_events
  exact ⟨h.active_of_call, _, he, .call hc hn hr .nil⟩

namespace Sound

theorem inside_set (h : r.Sound) (name : String) (value : Snapshot) (line : Option Nat) :
    Inside r (r.set name value line) := by
  rcases h.set_cases name value line with ⟨-, he⟩ | ⟨a, ha, he⟩
  · rw [he]
    exact .refl r
  · obtain ⟨rest, hactive⟩ := ha.active
    have hhead : (r.setFrame a.id { a with locals := a.locals.insert name value }).active.head? =
        some a.id := by rw [active_setFrame, hactive]; rfl
    rw [he, assigned, ← hhead]
    exact (Inside.push _ line (.inr (.inl rfl))).of_setFrame

theorem inside_step (h : r.Sound) (message : String) (line : Option Nat) :
    Inside r (r.step message line) := by
  rcases h.step_cases message line with ⟨-, he⟩ | ⟨a, ha, he⟩
  · rw [he]
    exact .refl r
  · obtain ⟨rest, hactive⟩ := ha.active
    have hhead : r.active.head? = some a.id := by rw [hactive]; rfl
    rw [he, ← hhead]
    exact .push message line (.inl rfl)

theorem finished_ret (h : r.Sound) {rest : List FrameId} (hactive : r.active = id :: rest)
    (value : Snapshot) (line : Nat) : Finished r (r.ret value (some line)) id value line := by
  rcases h.ret_cases value (some line) with ⟨hnil, -⟩ | ⟨a, ha, he⟩
  · cases hnil.symm.trans hactive
  · obtain ⟨rest', hactive'⟩ := ha.active
    obtain ⟨rfl, rfl⟩ := List.cons.inj (hactive.symm.trans hactive')
    rw [he]
    have hnested : Nested (some a.id) r.frames.size [] (r.returned a value (some line)).frames.size := by
      rw [frames_returned, Array.size_setIfInBounds]
      exact .nil
    refine ⟨by rw [active_returned, hactive]; rfl, [],
      ⟨.ret { a with returned := some value } value (r.depth - 1), "Returning from " ++ a.name,
        some line, some a.id⟩, ?_, hnested, rfl, rfl, _, _, rfl, rfl⟩
    rw [events_returned, Array.toList_push]
    rfl

end Sound

end Recorder

end CallTrace
