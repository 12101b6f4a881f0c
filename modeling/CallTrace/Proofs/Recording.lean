import CallTrace.Recorder

/-! # Runs of a recorder

* `Recorder.Op`: an operation; `Recorder.record` applies some operations in order, starting with an
  empty recording.
* `Recorder.Sound`: what holds after every run: activations stand at the position of their number, the
  active calls are the activations that have not returned, and every event belongs to an activation
  that exists.
* `Recorder.Step`: everything that one operation can do to a sound recording (`Sound.step`). Every fact
  about runs is a case analysis on it.
-/

namespace CallTrace
set_option autoImplicit false

/-- Whether an event is the return of an activation. -/
def Event.isReturnOf (id : FrameId) (e : Event) : Bool :=
  match e.payload with
  | .ret frame _ _ => frame.id == id
  | _ => false

theorem Event.isReturnOf_ret (id : FrameId) (a : Activation) (value : Snapshot) (depth : Nat)
    (message : String) (line : Option Nat) (frameId : Option FrameId) :
    isReturnOf id ⟨.ret a value depth, message, line, frameId⟩ = (a.id == id) := rfl

theorem Event.isReturnOf_of_kind {e : Event} (h : e.kind ≠ .ret) (id : FrameId) :
    e.isReturnOf id = false := by
  obtain ⟨payload, message, line, frameId⟩ := e
  cases payload with
  | ret frame value depth => exact absurd rfl h
  | _ => rfl

/-- What holds at every one of some events, given those before it, and at one more event behind them, holds at each of
all these. -/
theorem Event.forall_splits_concat {p : List Event → Event → Prop} {es : List Event} {e : Event}
    (h : ∀ before x after, es = before ++ x :: after → p before x) (he : p es e) :
    ∀ before x after, es ++ [e] = before ++ x :: after → p before x := by
  intro before x after hsplit
  rcases List.eq_nil_or_concat after with rfl | ⟨after, y, rfl⟩
  · obtain ⟨rfl, hx⟩ := List.append_inj' hsplit rfl
    exact (List.singleton_inj.mp hx) ▸ he
  · refine h before x after ?_
    have hcut : es ++ [e] = (before ++ x :: after) ++ [y] := by simpa using hsplit
    exact (List.append_inj' hcut rfl).1

namespace Recorder

/-! ## Operations -/

/-- An operation on a recorder. -/
inductive Op where
  | call (name : String) (args : List (String × Snapshot)) (line : Option Nat)
  | ret (value : Snapshot) (line : Option Nat)
  | set (name : String) (value : Snapshot) (line : Option Nat)
  | log (text : String) (line : Option Nat)
  | step (message : String) (line : Option Nat)
  | reset

/-- The recorder after an operation. -/
def apply (r : Recorder) : Op → Recorder
  | .call name args line => r.call name args line
  | .ret value line => r.ret value line
  | .set name value line => r.set name value line
  | .log text line => r.log text line
  | .step message line => r.step message line
  | .reset => r.reset

/-- The recorder after some operations. -/
def record (ops : List Op) : Recorder := ops.foldl apply empty

theorem record_concat (ops : List Op) (op : Op) :
    record (ops ++ [op]) = (record ops).apply op := by
  rw [record, List.foldl_append]
  rfl

/-! ## Fields after the parts of an operation -/

@[simp] theorem events_push (r : Recorder) (payload : Payload) (message : String)
    (line : Option Nat) (id : Option FrameId) :
    (r.push payload message line id).events = r.events.push ⟨payload, message, line, id⟩ := rfl

@[simp] theorem events_setFrame (r : Recorder) (id : FrameId) (a : Activation) :
    (r.setFrame id a).events = r.events := rfl

@[simp] theorem active_setFrame (r : Recorder) (id : FrameId) (a : Activation) :
    (r.setFrame id a).active = r.active := rfl

@[simp] theorem frames_setFrame (r : Recorder) (id : FrameId) (a : Activation) :
    (r.setFrame id a).frames = r.frames.setIfInBounds id a := rfl

@[simp] theorem events_popFrame (r : Recorder) : r.popFrame.events = r.events := by
  unfold popFrame
  split <;> rfl

@[simp] theorem frames_popFrame (r : Recorder) : r.popFrame.frames = r.frames := by
  unfold popFrame
  split <;> rfl

@[simp] theorem active_popFrame (r : Recorder) : r.popFrame.active = r.active.tail := by
  unfold popFrame
  split <;> rfl

@[simp] theorem depth_popFrame (r : Recorder) : r.popFrame.depth = r.depth - 1 := by
  obtain ⟨events, active, frames, n, h⟩ := r
  cases active with
  | nil => exact h.trans (congrArg (· - 1) h).symm
  | cons id rest => rfl

@[simp] theorem events_call (r : Recorder) (name : String) (args : List (String × Snapshot))
    (line : Option Nat) : (r.call name args line).events =
      r.events.push ⟨.call (r.newFrame name args) (r.depth + 1), "Called function " ++ name, line,
        some r.frames.size⟩ := rfl

@[simp] theorem frames_call (r : Recorder) (name : String) (args : List (String × Snapshot))
    (line : Option Nat) : (r.call name args line).frames = r.frames.push (r.newFrame name args) := rfl

theorem forall_mem_push {p : Event → Prop} {t : Timeline} {e : Event} :
    (∀ x ∈ t.push e, p x) ↔ (∀ x ∈ t, p x) ∧ p e := by
  simp only [Array.mem_push, or_imp, forall_and, forall_eq]

/-! ## What one operation does -/

/-- The recording in which the activation `a` has just returned `value`. -/
def returned (r : Recorder) (a : Activation) (value : Snapshot) (line : Option Nat) : Recorder :=
  let done := { a with returned := some value }
  (r.popFrame.setFrame a.id done).push (.ret done value (r.depth - 1)) ("Returning from " ++ a.name)
    line (some a.id)

@[simp] theorem events_returned (r : Recorder) (a : Activation) (value : Snapshot)
    (line : Option Nat) : (r.returned a value line).events = r.events.push
      ⟨.ret { a with returned := some value } value (r.depth - 1), "Returning from " ++ a.name, line,
        some a.id⟩ := by
  simp [returned]

@[simp] theorem frames_returned (r : Recorder) (a : Activation) (value : Snapshot)
    (line : Option Nat) : (r.returned a value line).frames =
      r.frames.setIfInBounds a.id { a with returned := some value } := by
  simp [returned]

@[simp] theorem active_returned (r : Recorder) (a : Activation) (value : Snapshot)
    (line : Option Nat) : (r.returned a value line).active = r.active.tail := by
  simp [returned]

/-- The recording in which a variable of the activation `a` has just been given a value. -/
def assigned (r : Recorder) (a : Activation) (name : String) (value : Snapshot)
    (line : Option Nat) : Recorder :=
  let locals := a.locals.insert name value
  (r.setFrame a.id { a with locals }).push (.set name value locals) ("Updated " ++ name) line
    (some a.id)

@[simp] theorem events_assigned (r : Recorder) (a : Activation) (name : String) (value : Snapshot)
    (line : Option Nat) : (r.assigned a name value line).events = r.events.push
      ⟨.set name value (a.locals.insert name value), "Updated " ++ name, line, some a.id⟩ := rfl

@[simp] theorem frames_assigned (r : Recorder) (a : Activation) (name : String) (value : Snapshot)
    (line : Option Nat) : (r.assigned a name value line).frames =
      r.frames.setIfInBounds a.id { a with locals := a.locals.insert name value } := rfl

@[simp] theorem active_assigned (r : Recorder) (a : Activation) (name : String) (value : Snapshot)
    (line : Option Nat) : (r.assigned a name value line).active = r.active := rfl

/-- The activation `a` is the latest active one. -/
structure Latest (r : Recorder) (a : Activation) : Prop where
  active : ∃ rest, r.active = a.id :: rest
  stored : r.frames[a.id]? = some a

/-- What an operation can do. -/
inductive Step (r : Recorder) : Recorder → Prop where
  | stay : Step r r
  | reset : Step r empty
  | call (name : String) (args : List (String × Snapshot)) (line : Option Nat) :
      Step r (r.call name args line)
  | ret {a : Activation} (ha : r.Latest a) (value : Snapshot) (line : Option Nat) :
      Step r (r.returned a value line)
  | set {a : Activation} (ha : r.Latest a) (name : String) (value : Snapshot) (line : Option Nat) :
      Step r (r.assigned a name value line)
  | log (text : String) (line : Option Nat) : Step r (r.log text line)
  | step {a : Activation} (ha : r.Latest a) (message : String) (line : Option Nat) :
      Step r (r.push .line message line (some a.id))

/-- What holds of a recording after every run. -/
structure Sound (r : Recorder) : Prop where
  id_eq : ∀ i (a : Activation), r.frames[i]? = some a → a.id = i
  active_lt : ∀ id ∈ r.active, id < r.frames.size
  active_nodup : r.active.Nodup
  active_iff : ∀ i (a : Activation), r.frames[i]? = some a → (i ∈ r.active ↔ a.returned = none)
  returned_iff : ∀ i (a : Activation), r.frames[i]? = some a →
    (a.returned = none ↔ ∀ e ∈ r.events, e.isReturnOf i = false)
  event_lt : ∀ e ∈ r.events, ∀ id, e.frameId = some id ∨ e.isReturnOf id → id < r.frames.size

namespace Sound

variable {r : Recorder}

theorem empty : Sound .empty where
  id_eq := by simp [Recorder.empty]
  active_lt := by simp [Recorder.empty]
  active_nodup := List.nodup_nil
  active_iff := by simp [Recorder.empty]
  returned_iff := by simp [Recorder.empty]
  event_lt := by simp [Recorder.empty]

/-- The head of the active calls is the number of the latest active activation. -/
theorem latest (h : r.Sound) {id : FrameId} {rest : List FrameId} (ha : r.active = id :: rest) :
    ∃ a, a.id = id ∧ r.Latest a := by
  have hlt : id < r.frames.size := h.active_lt id (ha ▸ List.mem_cons_self)
  have hget : r.frames[id]? = some r.frames[id] := Array.getElem?_eq_getElem hlt
  have hid : (r.frames[id]).id = id := h.id_eq id _ hget
  exact ⟨r.frames[id], hid, ⟨rest, hid.symm ▸ ha⟩, by rw [hid]; exact hget⟩

/-- A return ends the latest active call, if there is one. -/
theorem ret_cases (h : r.Sound) (value : Snapshot) (line : Option Nat) :
    (r.active = [] ∧ r.ret value line = r) ∨
      ∃ a, r.Latest a ∧ r.ret value line = r.returned a value line := by
  cases ha : r.active with
  | nil => exact .inl ⟨rfl, ret_of_active_nil ha value line⟩
  | cons id rest =>
    obtain ⟨a, rfl, hl⟩ := h.latest ha
    exact .inr ⟨a, hl, by simp only [Recorder.ret, ha, hl.stored, returned]⟩

/-- A variable that is set belongs to the latest active call. -/
theorem set_cases (h : r.Sound) (name : String) (value : Snapshot) (line : Option Nat) :
    (r.active = [] ∧ r.set name value line = r) ∨
      ∃ a, r.Latest a ∧ r.set name value line = r.assigned a name value line := by
  cases ha : r.active with
  | nil => exact .inl ⟨rfl, by simp only [Recorder.set, ha]⟩
  | cons id rest =>
    obtain ⟨a, rfl, hl⟩ := h.latest ha
    exact .inr ⟨a, hl, by simp only [Recorder.set, ha, hl.stored, assigned]⟩

theorem step_cases (h : r.Sound) (message : String) (line : Option Nat) :
    (r.active = [] ∧ r.step message line = r) ∨
      ∃ a, r.Latest a ∧ r.step message line = r.push .line message line (some a.id) := by
  cases ha : r.active with
  | nil => exact .inl ⟨rfl, by simp only [Recorder.step, ha]⟩
  | cons id rest =>
    obtain ⟨a, rfl, hl⟩ := h.latest ha
    exact .inr ⟨a, hl, by simp only [Recorder.step, ha]⟩

/-- Every operation does one of the things listed in `Step`. -/
theorem step (h : r.Sound) (op : Op) : Step r (r.apply op) := by
  cases op with
  | call name args line => exact .call name args line
  | log text line => exact .log text line
  | reset => exact .reset
  | ret value line =>
    show Step r (r.ret value line)
    rcases h.ret_cases value line with ⟨-, he⟩ | ⟨a, ha, he⟩
    · rw [he]
      exact .stay
    · rw [he]
      exact .ret ha value line
  | set name value line =>
    show Step r (r.set name value line)
    rcases h.set_cases name value line with ⟨-, he⟩ | ⟨a, ha, he⟩
    · rw [he]
      exact .stay
    · rw [he]
      exact .set ha name value line
  | step message line =>
    show Step r (r.step message line)
    rcases h.step_cases message line with ⟨-, he⟩ | ⟨a, ha, he⟩
    · rw [he]
      exact .stay
    · rw [he]
      exact .step ha message line

/-! ## Every operation keeps a recording sound -/

theorem call (h : r.Sound) (name : String) (args : List (String × Snapshot)) (line : Option Nat) :
    (r.call name args line).Sound where
  id_eq i a hi := by
    rw [frames_call, Array.getElem?_push] at hi
    split at hi
    · next he =>
      cases hi
      exact he.symm
    · exact h.id_eq i a hi
  active_lt id hid := by
    rw [frames_call, Array.size_push]
    rcases List.mem_cons.mp hid with rfl | hid
    · exact Nat.lt_succ_self _
    · exact Nat.lt_succ_of_lt (h.active_lt id hid)
  active_nodup := List.nodup_cons.mpr
    ⟨fun hm => Nat.lt_irrefl _ (h.active_lt _ hm), h.active_nodup⟩
  active_iff i a hi := by
    rw [frames_call, Array.getElem?_push] at hi
    rw [active_call, List.mem_cons]
    split at hi
    · next he =>
      cases hi
      exact ⟨fun _ => rfl, fun _ => .inl he⟩
    · next hne =>
      rw [← h.active_iff i a hi]
      exact ⟨fun hm => hm.resolve_left hne, .inr⟩
  returned_iff i a hi := by
    rw [frames_call, Array.getElem?_push] at hi
    rw [events_call]
    split at hi
    · next he =>
      cases hi
      refine ⟨fun _ e hm => Bool.eq_false_iff.mpr fun hr => ?_, fun _ => rfl⟩
      rcases Array.mem_push.mp hm with hm | rfl
      · exact absurd (he ▸ h.event_lt e hm i (.inr hr)) (Nat.lt_irrefl _)
      · cases hr
    · rw [h.returned_iff i a hi, forall_mem_push]
      exact ⟨fun hall => ⟨hall, rfl⟩, And.left⟩
  event_lt e he id hid := by
    rw [frames_call, Array.size_push]
    rcases Array.mem_push.mp he with he | rfl
    · exact Nat.lt_succ_of_lt (h.event_lt e he id hid)
    · rcases hid with hid | hid
      · cases hid
        exact Nat.lt_succ_self _
      · cases hid

theorem latest_lt (h : r.Sound) {a : Activation} (ha : r.Latest a) : a.id < r.frames.size := by
  obtain ⟨rest, he⟩ := ha.active
  exact h.active_lt _ (he ▸ List.mem_cons_self)

theorem latest_not_returned (h : r.Sound) {a : Activation} (ha : r.Latest a) : a.returned = none := by
  obtain ⟨rest, he⟩ := ha.active
  exact (h.active_iff _ a ha.stored).mp (he ▸ List.mem_cons_self)

/-- The activations after the latest one has been changed. -/
theorem getElem?_setLatest (h : r.Sound) {a b c : Activation} (ha : r.Latest a) {i : Nat}
    (hi : (r.frames.setIfInBounds a.id b)[i]? = some c) :
    (i = a.id ∧ c = b) ∨ (i ≠ a.id ∧ r.frames[i]? = some c) := by
  rw [Array.getElem?_setIfInBounds] at hi
  split at hi
  · next he =>
    rw [if_pos (h.latest_lt ha)] at hi
    exact .inl ⟨he.symm, (Option.some.inj hi).symm⟩
  · next hne => exact .inr ⟨fun e => hne e.symm, hi⟩

theorem ret (h : r.Sound) {a : Activation} (ha : r.Latest a) (value : Snapshot)
    (line : Option Nat) : (r.returned a value line).Sound := by
  obtain ⟨rest, hact⟩ := ha.active
  have hactive : (r.returned a value line).active = rest := by rw [active_returned, hact]; rfl
  have hnodup : (a.id :: rest).Nodup := hact ▸ h.active_nodup
  constructor
  · intro i c hi
    rw [frames_returned] at hi
    rcases h.getElem?_setLatest ha hi with ⟨rfl, rfl⟩ | ⟨-, hi⟩
    · rfl
    · exact h.id_eq i c hi
  · intro id hid
    rw [frames_returned, Array.size_setIfInBounds]
    exact h.active_lt id (hact ▸ List.mem_cons_of_mem _ (hactive ▸ hid))
  · rw [hactive]
    exact (List.nodup_cons.mp hnodup).2
  · intro i c hi
    rw [frames_returned] at hi
    rw [hactive]
    rcases h.getElem?_setLatest ha hi with ⟨rfl, rfl⟩ | ⟨hne, hi⟩
    · exact ⟨fun hm => absurd hm (List.nodup_cons.mp hnodup).1, (nomatch ·)⟩
    · rw [← h.active_iff i c hi, hact, List.mem_cons]
      exact ⟨.inr, fun hm => hm.resolve_left hne⟩
  · intro i c hi
    rw [frames_returned] at hi
    rw [events_returned, forall_mem_push]
    rcases h.getElem?_setLatest ha hi with ⟨rfl, rfl⟩ | ⟨hne, hi⟩
    · refine ⟨(nomatch ·), fun hall => absurd hall.2 ?_⟩
      rw [Event.isReturnOf_ret, beq_self_eq_true]
      decide
    · rw [h.returned_iff i c hi, Event.isReturnOf_ret, beq_eq_false_iff_ne.mpr (Ne.symm hne)]
      exact ⟨fun hall => ⟨hall, rfl⟩, And.left⟩
  · rw [events_returned, frames_returned, Array.size_setIfInBounds, forall_mem_push]
    refine ⟨h.event_lt, fun id hid => ?_⟩
    have he : id = a.id := by
      rcases hid with hid | hid
      · exact (Option.some.inj hid).symm
      · exact (beq_iff_eq.mp hid).symm
    exact he ▸ h.latest_lt ha

/-- Events that are no returns, for activations that exist, keep a recording sound. -/
theorem push (h : r.Sound) {payload : Payload} {message : String} {line : Option Nat}
    {id : Option FrameId} (hid : ∀ i, id = some i → i < r.frames.size)
    (hp : payload.kind ≠ .ret) : (r.push payload message line id).Sound := by
  have hr : ∀ i, Event.isReturnOf i ⟨payload, message, line, id⟩ = false :=
    Event.isReturnOf_of_kind hp
  refine ⟨h.id_eq, h.active_lt, h.active_nodup, h.active_iff, fun i a hi => ?_, ?_⟩
  · rw [events_push, forall_mem_push, h.returned_iff i a hi]
    exact ⟨fun hall => ⟨hall, hr i⟩, And.left⟩
  · rw [events_push, forall_mem_push]
    refine ⟨h.event_lt, fun i hi => ?_⟩
    rcases hi with hi | hi
    · exact hid i hi
    · rw [hr i] at hi
      cases hi

theorem setFrame (h : r.Sound) {a b : Activation} (ha : r.Latest a) (hid : b.id = a.id)
    (hb : b.returned = none) : (r.setFrame a.id b).Sound := by
  have hn := h.latest_not_returned ha
  refine ⟨fun i c hi => ?_, fun id hm => ?_, h.active_nodup, fun i c hi => ?_, fun i c hi => ?_, ?_⟩
  · rcases h.getElem?_setLatest ha hi with ⟨rfl, rfl⟩ | ⟨-, hi⟩
    · exact hid
    · exact h.id_eq i c hi
  · rw [frames_setFrame, Array.size_setIfInBounds]
    exact h.active_lt id hm
  · rcases h.getElem?_setLatest ha hi with ⟨rfl, rfl⟩ | ⟨-, hi⟩
    · rw [active_setFrame, h.active_iff _ a ha.stored, hn, hb]
    · exact h.active_iff i c hi
  · rcases h.getElem?_setLatest ha hi with ⟨rfl, rfl⟩ | ⟨-, hi⟩
    · rw [events_setFrame, ← h.returned_iff _ a ha.stored, hn, hb]
    · exact h.returned_iff i c hi
  · rw [frames_setFrame, Array.size_setIfInBounds]
    exact h.event_lt

theorem set (h : r.Sound) {a : Activation} (ha : r.Latest a) (name : String) (value : Snapshot)
    (line : Option Nat) : (r.assigned a name value line).Sound := by
  have hn : a.returned = none := h.latest_not_returned ha
  have hs := h.setFrame (b := { a with locals := a.locals.insert name value }) ha rfl hn
  refine hs.push (fun i hi => ?_) (by simp [Payload.kind])
  rw [frames_setFrame, Array.size_setIfInBounds]
  exact Option.some.inj hi ▸ h.latest_lt ha

theorem log (h : r.Sound) (text : String) (line : Option Nat) : (r.log text line).Sound := by
  refine h.push (fun i hi => ?_) (by simp [Payload.kind])
  exact h.active_lt i (List.mem_of_mem_head? hi)

theorem of_step (h : r.Sound) {r' : Recorder} (hs : Step r r') : r'.Sound := by
  cases hs with
  | stay => exact h
  | reset => exact Sound.empty
  | call name args line => exact h.call name args line
  | ret ha value line => exact h.ret ha value line
  | set ha name value line => exact h.set ha name value line
  | log text line => exact h.log text line
  | step ha message line =>
    exact h.push (fun i hi => Option.some.inj hi ▸ h.latest_lt ha) (by simp [Payload.kind])

end Sound

theorem sound_record (ops : List Op) : (record ops).Sound :=
  List.foldlRecOn ops apply Sound.empty fun _ h op _ => h.of_step (h.step op)

end Recorder

end CallTrace
