import CallTrace.Proofs.Recording
import CallTrace.Replay
import Mathlib.Data.List.Induction

/-! # Replay gives back what was recorded

The replayer folds the events of a timeline; the recorder changes its activations in place. Both see the
same state at every position of every timeline.

* `Recorder.view`: the state of a recorder as a viewer sees it while the latest event is on display.
* `Recorder.settled`: the same once the latest event is past, so that nothing is just returning. It is
  what the replayer has after the events so far (`replayed_record`), and this is the simulation that
  every operation keeps.
* `reconstruct_record`: at every position, replay gives the view that the recorder had right after it
  added the event at that position.
-/

namespace CallTrace
set_option autoImplicit false

/-! ## The two sides -/

/-- How far a call has got at the end of a timeline: it is just returning if the last event is its
return, and has returned if an earlier one is. -/
def Timeline.statusOf (t : Timeline) (id : FrameId) : FrameStatus :=
  if t.back?.any (Event.isReturnOf id) then .returning
  else if t.any (Event.isReturnOf id) then .returned
  else .active

/-- The latest line that an event of a timeline has. -/
def Timeline.lastLine (t : Timeline) : Option Nat :=
  t.toList.foldl (fun line e => e.line.or line) none

/-- The activation that an event is the return of. -/
def Event.returning? (e : Event) : Option FrameId :=
  match e.payload with
  | .ret frame _ _ => some frame.id
  | _ => none

theorem Event.isReturnOf_of_returning? {e : Event} {id : FrameId} (h : e.returning? = some id) :
    e.isReturnOf id = true := by
  obtain ⟨payload, message, line, frameId⟩ := e
  cases payload with
  | ret frame value depth => exact beq_iff_eq.mpr (Option.some.inj h)
  | _ => cases h

/-- An activation as it is shown with a status. -/
def Activation.viewAs (a : Activation) (status : FrameStatus) : FrameView :=
  { id := a.id
    name := a.name
    args := a.args
    parent := a.parent
    depth := a.depth
    status
    locals := a.locals
    returned := a.returned }

namespace Recorder

/-- The state of a recorder while its latest event is on display. A call that is just returning stays on
the stack. -/
def view (r : Recorder) : ReplayState :=
  { index := r.events.size - 1
    event := r.events.back?
    frames := r.frames.map fun a => a.viewAs (r.events.statusOf a.id)
    active := (r.events.back?.bind Event.returning?).toList ++ r.active
    output := (Timeline.output r.events).toArray
    currentLine := r.events.lastLine }

/-- The state of a recorder once its latest event is past. -/
def settled (r : Recorder) : ReplayState :=
  { index := 0
    event := none
    frames := r.frames.map fun a => a.viewAs (if a.returned.isNone then .active else .returned)
    active := r.active
    output := (Timeline.output r.events).toArray
    currentLine := r.events.lastLine }

end Recorder

/-- The state of the replayer after all events of a timeline. -/
def replayed (t : Timeline) : ReplayState := t.toList.foldl (ReplayState.after false) .empty

/-! ## Adding an event -/

namespace Timeline

variable (t : Timeline) (e : Event)

@[simp] theorem lastLine_push : Timeline.lastLine (t.push e) = e.line.or t.lastLine := by
  rw [lastLine, Array.toList_push, List.foldl_append]
  rfl

@[simp] theorem output_push :
    Timeline.output (t.push e) = Timeline.output t ++ e.logged?.toList := by
  rw [output, Array.toList_push, List.filterMap_append]
  cases h : e.logged? <;> simp [output, h]

theorem count_push (k : EventKind) :
    Timeline.count (t.push e) k = Timeline.count t k + if e.kind == k then 1 else 0 := by
  rw [count, count, Array.countP_push]

end Timeline

theorem replayed_push (t : Timeline) (e : Event) :
    replayed (t.push e) = (replayed t).after false e := by
  rw [replayed, Array.toList_push, List.foldl_append]
  rfl

theorem reconstruct_push (t : Timeline) (e : Event) :
    reconstruct (t.push e) t.size =
      { (replayed t).after true e with index := t.size, event := some e } := by
  have hi : min t.size ((t.push e).size - 1) = t.size := by
    rw [Array.size_push]
    omega
  simp only [reconstruct, hi, Array.getElem?_push_size, Array.toList_push]
  rw [List.take_left' Array.length_toList]
  rfl

/-- Replay at a position does not look at later events. -/
theorem reconstruct_of_take {t u : Timeline} {i : Nat} (hi : i < t.size)
    (h : u.toList = t.toList.take (i + 1)) : reconstruct t i = reconstruct u i := by
  have hu : u.size = i + 1 := by
    rw [← Array.length_toList, h, List.length_take, Array.length_toList]
    omega
  have hget : u[i]? = t[i]? := by
    rw [← Array.getElem?_toList, h, List.getElem?_take_of_lt (Nat.lt_succ_self i),
      Array.getElem?_toList]
  have htake : u.toList.take i = t.toList.take i := by
    rw [h, List.take_take, Nat.min_eq_left (Nat.le_succ i)]
  have ht : min i (t.size - 1) = i := by omega
  have hu' : min i (u.size - 1) = i := by omega
  simp only [reconstruct, ht, hu', hget, htake]

/-! ## Status -/

namespace Recorder.Sound

variable {r : Recorder} (h : r.Sound)
include h

/-- Unless it is just returning, a call has returned exactly when the recorder says so. -/
theorem statusOf_eq {i : Nat} {a : Activation} (ha : r.frames[i]? = some a)
    (hlast : r.events.back?.any (Event.isReturnOf i) = false) :
    r.events.statusOf i = if a.returned.isNone then .active else .returned := by
  have hany : r.events.any (Event.isReturnOf i) = !a.returned.isNone := by
    rw [Bool.eq_iff_iff, Array.any_eq_true']
    cases hr : a.returned with
    | none =>
      have hall := (h.returned_iff i a ha).mp hr
      simpa using hall
    | some value =>
      have hall := mt (h.returned_iff i a ha).mpr (by simp [hr])
      simpa using hall
  rw [Timeline.statusOf, hlast, hany]
  cases a.returned <;> rfl

/-- After an event that is no return, what is on display is the settled state. -/
theorem view_eq {t : Timeline} {e : Event} (he : r.events = t.push e) (hk : e.kind ≠ .ret) :
    r.view = { r.settled with index := t.size, event := some e } := by
  have hback : r.events.back? = some e := by rw [he, Array.back?_push]
  have hnone : e.returning? = none := by
    obtain ⟨payload, message, line, frameId⟩ := e
    cases payload with
    | ret frame value depth => exact absurd rfl hk
    | _ => rfl
  have hframes : r.frames.map (fun a => a.viewAs (r.events.statusOf a.id)) = r.settled.frames := by
    refine Array.map_congr_left fun a ha => ?_
    obtain ⟨i, hi⟩ := Array.getElem?_of_mem ha
    have hid := h.id_eq i a hi
    subst hid
    rw [h.statusOf_eq hi (by rw [hback]; exact Event.isReturnOf_of_kind hk _)]
  simp only [view, hframes, hback, Option.bind_some, hnone]
  simp [he, settled]

/-- Changing the views of the latest activation is changing the activation. -/
theorem map_setLatest {a b : Activation} (ha : r.Latest a) {g k : Activation → FrameView}
    {f : FrameView → FrameView} (hid : ∀ c, (g c).id = c.id) (hb : f (g a) = k b)
    (hother : ∀ c, c.id ≠ a.id → r.frames[c.id]? = some c → g c = k c) :
    (r.frames.map g).map (fun v => if v.id = a.id then f v else v) =
      (r.frames.setIfInBounds a.id b).map k := by
  refine Array.ext_getElem? fun i => ?_
  rw [Array.map_map, Array.getElem?_map, Array.getElem?_map, Array.getElem?_setIfInBounds]
  by_cases hi : a.id = i
  · subst hi
    rw [if_pos rfl, if_pos (h.latest_lt ha), ha.stored]
    simp only [Option.map_some, Function.comp_apply, hid, if_true, hb]
  · rw [if_neg hi]
    cases hc : r.frames[i]? with
    | none => rfl
    | some c =>
      have hci := h.id_eq i c hc
      subst hci
      have hne : ¬ (g c).id = a.id := fun e => hi (e.symm.trans (hid c))
      simp only [Option.map_some, Function.comp_apply, if_neg hne]
      rw [hother c (Ne.symm hi) hc]

end Recorder.Sound

/-! ## One operation -/

/-- Only a return is shown differently while it is on display. -/
theorem ReplayState.after_of_kind {e : Event} (hk : e.kind ≠ .ret) (s : ReplayState) :
    s.after true e = s.after false e := by
  obtain ⟨payload, message, line, frameId⟩ := e
  cases payload with
  | ret frame value depth => exact absurd rfl hk
  | _ => rfl

namespace Recorder

/-- The recording `r'` is `r` with one more event, and the replayer sees it like the recorder. -/
def Shows (r r' : Recorder) : Prop :=
  ∃ e, r'.events = r.events.push e ∧ r.settled.after false e = r'.settled ∧
    { r.settled.after true e with index := r.events.size, event := some e } = r'.view

/-- It is enough to look at the settled states unless the event is a return. -/
theorem Shows.of_settled {r r' : Recorder} (h' : r'.Sound) {e : Event}
    (he : r'.events = r.events.push e) (hk : e.kind ≠ .ret)
    (hs : r.settled.after false e = r'.settled) : r.Shows r' := by
  refine ⟨e, he, hs, ?_⟩
  rw [ReplayState.after_of_kind hk, hs, h'.view_eq he hk]

namespace Sound

variable {r : Recorder} (h : r.Sound)
include h

theorem shows_call (name : String) (args : List (String × Snapshot)) (line : Option Nat) :
    r.Shows (r.call name args line) := by
  refine .of_settled (h.call name args line) (events_call r name args line) (by simp [Event.kind,
    Payload.kind]) ?_
  simp only [settled, events_call, frames_call, active_call, Array.map_push, Timeline.output_push,
    Timeline.lastLine_push]
  simp [ReplayState.after, ReplayState.afterPayload, Event.logged?, FrameView.ofCall,
    Activation.viewAs, newFrame]

theorem shows_log (text : String) (line : Option Nat) : r.Shows (r.log text line) := by
  refine .of_settled (h.log text line) (events_push ..) (by simp [Event.kind, Payload.kind]) ?_
  simp only [Recorder.log, settled, events_push, frames_push, active_push, Timeline.output_push,
    Timeline.lastLine_push]
  simp [ReplayState.after, ReplayState.afterPayload, Event.logged?]

theorem shows_step {a : Activation} (ha : r.Latest a) (message : String) (line : Option Nat) :
    r.Shows (r.push .line message line (some a.id)) := by
  refine .of_settled (h.of_step (.step ha message line)) (events_push ..)
    (by simp [Event.kind, Payload.kind]) ?_
  simp only [settled, events_push, frames_push, active_push, Timeline.output_push,
    Timeline.lastLine_push]
  simp [ReplayState.after, ReplayState.afterPayload, Event.logged?]

theorem shows_set {a : Activation} (ha : r.Latest a) (name : String) (value : Snapshot)
    (line : Option Nat) : r.Shows (r.assigned a name value line) := by
  refine .of_settled (h.set ha name value line) (events_push ..)
    (by simp [Event.kind, Payload.kind]) ?_
  have hframes := h.map_setLatest (b := { a with locals := a.locals.insert name value })
    (g := fun c => c.viewAs (if c.returned.isNone then .active else .returned))
    (f := fun v => { v with locals := a.locals.insert name value }) ha (fun _ => rfl) rfl
    (fun _ _ _ => rfl)
  simp only [settled, events_assigned, active_assigned, frames_assigned, Timeline.output_push,
    Timeline.lastLine_push, ← hframes]
  simp [ReplayState.after, ReplayState.afterPayload, ReplayState.updateFrame, Event.logged?]

omit h in
theorem knows_latest {a : Activation} (ha : r.Latest a) (line : Option Nat) :
    ReplayState.knows { r.settled with currentLine := line } a.id = true := by
  simp only [ReplayState.knows, settled, Array.any_map, Array.any_eq_true']
  exact ⟨a, Array.mem_of_getElem? ha.stored, by simp [Activation.viewAs]⟩

theorem shows_ret {a : Activation} (ha : r.Latest a) (value : Snapshot) (line : Option Nat) :
    r.Shows (r.returned a value line) := by
  have h' := h.ret ha value line
  obtain ⟨rest, hact⟩ := ha.active
  refine ⟨_, events_returned r a value line, ?_, ?_⟩
  · have hframes := h.map_setLatest (b := { a with returned := some value })
      (g := fun c => c.viewAs (if c.returned.isNone then .active else .returned))
      (f := fun v => { v with returned := some value, status := .returned }) ha (fun _ => rfl) rfl
      (fun _ _ _ => rfl)
    simp only [ReplayState.after, ReplayState.afterPayload, ReplayState.afterReturn,
      knows_latest ha, if_true, Bool.false_eq_true, if_false]
    simp only [settled, events_returned, active_returned, frames_returned, Timeline.output_push,
      Timeline.lastLine_push, ← hframes]
    simp [ReplayState.updateFrame, Event.logged?, hact]
  · have hstatus : ∀ c : Activation, c.id ≠ a.id → r.frames[c.id]? = some c →
        c.viewAs (if c.returned.isNone then .active else .returned) =
          c.viewAs ((r.returned a value line).events.statusOf c.id) := by
      intro c hne hc
      have hc' : (r.returned a value line).frames[c.id]? = some c := by
        rw [frames_returned, Array.getElem?_setIfInBounds_ne (Ne.symm hne), hc]
      have hlast : (r.returned a value line).events.back?.any (Event.isReturnOf c.id) = false := by
        rw [events_returned, Array.back?_push, Option.any_some, Event.isReturnOf_ret]
        exact beq_eq_false_iff_ne.mpr (Ne.symm hne)
      rw [h'.statusOf_eq hc' hlast]
    have hself : (r.returned a value line).events.statusOf a.id = .returning := by
      rw [Timeline.statusOf, events_returned, Array.back?_push, Option.any_some,
        Event.isReturnOf_ret, beq_self_eq_true, if_pos rfl]
    have hframes := h.map_setLatest (b := { a with returned := some value })
      (k := fun c => c.viewAs ((r.returned a value line).events.statusOf c.id))
      (f := fun v => { v with returned := some value, status := .returning }) ha (fun _ => rfl)
      (by simp only [hself]; rfl) hstatus
    simp only [ReplayState.after, ReplayState.afterPayload, ReplayState.afterReturn,
      knows_latest ha, if_true]
    simp only [view, frames_returned, ← hframes, active_returned]
    simp [settled, ReplayState.updateFrame, Event.logged?, Event.returning?, hact]

/-- What one operation does to a recording, as the replayer sees it. -/
theorem shows {r' : Recorder} (hs : Step r r') : r' = r ∨ r' = Recorder.empty ∨ r.Shows r' := by
  cases hs with
  | stay => exact .inl rfl
  | reset => exact .inr (.inl rfl)
  | call name args line => exact .inr (.inr (h.shows_call name args line))
  | ret ha value line => exact .inr (.inr (h.shows_ret ha value line))
  | set ha name value line => exact .inr (.inr (h.shows_set ha name value line))
  | log text line => exact .inr (.inr (h.shows_log text line))
  | step ha message line => exact .inr (.inr (h.shows_step ha message line))

end Sound

/-! ## Every run -/

theorem replayed_empty : replayed Recorder.empty.events = Recorder.empty.settled := by
  simp [replayed, settled, Recorder.empty, ReplayState.empty, Timeline.output, Timeline.lastLine]

/-- After the events of a run the replayer has the settled state of the recorder. -/
theorem replayed_record (ops : List Op) : replayed (record ops).events = (record ops).settled := by
  refine (List.foldlRecOn (motive := fun r : Recorder => r.Sound ∧ replayed r.events = r.settled)
    ops apply ⟨Sound.empty, replayed_empty⟩ fun r h op _ => ⟨h.1.of_step (h.1.step op), ?_⟩).2
  rcases h.1.shows (h.1.step op) with he | he | ⟨e, he, hs, -⟩
  · rw [he, h.2]
  · rw [he, replayed_empty]
  · rw [he, replayed_push, h.2, hs]

/-- The calls that have not returned are the active ones. -/
theorem count_call_record (ops : List Op) :
    Timeline.count (record ops).events .call =
      Timeline.count (record ops).events .ret + (record ops).active.length := by
  refine (List.foldlRecOn (motive := fun r : Recorder => r.Sound ∧
    Timeline.count r.events .call = Timeline.count r.events .ret + r.active.length)
    ops apply ⟨Sound.empty, rfl⟩ fun r h op _ => ⟨h.1.of_step (h.1.step op), ?_⟩).2
  obtain ⟨hsound, hcount⟩ := h
  have hs := hsound.step op
  generalize r.apply op = r' at hs ⊢
  cases hs with
  | stay => exact hcount
  | reset => rfl
  | call name args line =>
    rw [events_call, Timeline.count_push, Timeline.count_push, hcount, active_call,
      List.length_cons]
    simp [Event.kind, Payload.kind]
    omega
  | ret ha value line =>
    obtain ⟨rest, hact⟩ := ha.active
    rw [events_returned, Timeline.count_push, Timeline.count_push, hcount, active_returned, hact]
    simp [Event.kind, Payload.kind]
    omega
  | set ha name value line =>
    rw [events_assigned, Timeline.count_push, Timeline.count_push, hcount]
    simp [Event.kind, Payload.kind]
  | log text line =>
    rw [Recorder.log, events_push, Timeline.count_push, Timeline.count_push, hcount]
    simp [Event.kind, Payload.kind]
  | step ha message line =>
    rw [events_push, Timeline.count_push, Timeline.count_push, hcount]
    simp [Event.kind, Payload.kind]

/-- An event of a run was added by one of its operations, and there is no reset after that. -/
theorem exists_added (ops : List Op) {i : Nat} (hi : i < (record ops).events.size) :
    ∃ before op after, ops = before ++ op :: after ∧ Op.reset ∉ after ∧
      (record before).events.size = i ∧ (record before).Shows (record (before ++ [op])) ∧
      (record (before ++ [op])).events.toList = (record ops).events.toList.take (i + 1) := by
  induction ops using List.reverseRecOn with
  | nil => exact absurd hi (Nat.not_lt_zero i)
  | append_singleton ops op ih =>
    have hsound := sound_record ops
    have hne : op = .reset → False := by
      intro he
      rw [record_concat, he] at hi
      exact Nat.not_lt_zero i hi
    -- The event is an old one: the operation that added it is found in the shorter run.
    have old (hlt : i < (record ops).events.size)
        (htake : (record ops).events.toList.take (i + 1) =
          (record (ops ++ [op])).events.toList.take (i + 1)) :
        ∃ before o after, ops ++ [op] = before ++ o :: after ∧ Op.reset ∉ after ∧
          (record before).events.size = i ∧ (record before).Shows (record (before ++ [o])) ∧
          (record (before ++ [o])).events.toList =
            (record (ops ++ [op])).events.toList.take (i + 1) := by
      obtain ⟨before, o, after, he, hr, hsize, hs, ht⟩ := ih hlt
      refine ⟨before, o, after ++ [op], by rw [he]; simp, ?_, hsize, hs, ht.trans htake⟩
      intro hm
      rcases List.mem_append.mp hm with hm | hm
      · exact hr hm
      · exact hne (List.mem_singleton.mp hm).symm
    rw [record_concat ops op] at hi old ⊢
    rcases hsound.shows (hsound.step op) with he | he | hs
    · rw [he] at hi old ⊢
      exact old hi rfl
    · rw [he] at hi
      exact absurd hi (Nat.not_lt_zero i)
    · obtain ⟨e, he, -, -⟩ := id hs
      rw [he, Array.size_push] at hi
      rcases Nat.lt_succ_iff_lt_or_eq.mp hi with hlt | rfl
      · refine old hlt ?_
        rw [he, Array.toList_push, List.take_append_of_le_length]
        rw [Array.length_toList]
        omega
      · refine ⟨ops, op, [], by simp, List.not_mem_nil, rfl, by rwa [record_concat], ?_⟩
        rw [record_concat, List.take_of_length_le]
        refine Nat.le_of_eq ?_
        rw [he, Array.length_toList, Array.size_push]

/-! ## The number of active calls -/

namespace Sound

variable {r : Recorder} (h : r.Sound)
include h

omit h in
/-- What is found by a number is the view of an activation that has the number. -/
theorem of_frame?_view {i : Nat} {v : FrameView} (hv : r.view.frame? i = some v) :
    ∃ a ∈ r.frames, a.id = i ∧ v = a.viewAs (r.events.statusOf i) := by
  obtain ⟨a, ha, rfl⟩ := Array.mem_map.mp (Array.mem_of_find?_eq_some hv)
  have hid : a.id = i := eq_of_beq (Array.find?_some (p := fun v : FrameView => v.id == i) hv)
  exact ⟨a, ha, hid, hid ▸ rfl⟩

theorem frame?_view {i : Nat} {a : Activation} (ha : r.frames[i]? = some a) :
    r.view.frame? i = some (a.viewAs (r.events.statusOf i)) := by
  obtain rfl := h.id_eq i a ha
  have hmem : a.viewAs (r.events.statusOf a.id) ∈ r.view.frames :=
    Array.mem_map.mpr ⟨a, Array.mem_of_getElem? ha, rfl⟩
  have hsome : (r.view.frame? a.id).isSome :=
    Array.find?_isSome.mpr ⟨_, hmem, beq_self_eq_true a.id⟩
  obtain ⟨v, hv⟩ := Option.isSome_iff_exists.mp hsome
  obtain ⟨b, hb, hid, rfl⟩ := of_frame?_view hv
  obtain ⟨j, hj⟩ := Array.getElem?_of_mem hb
  rw [← h.id_eq j b hj, hid, ha] at hj
  rw [hv, Option.some.inj hj]

theorem statusOf_active {i : Nat} (hi : i ∈ r.active) : r.events.statusOf i = .active := by
  have hget := Array.getElem?_eq_getElem (h.active_lt i hi)
  have hall := (h.returned_iff i _ hget).mp ((h.active_iff i _ hget).mp hi)
  have hback : r.events.back?.any (Event.isReturnOf i) = false := by
    cases hb : r.events.back? with
    | none => rfl
    | some e => exact hall e (Array.mem_of_back? hb)
  have hany : r.events.any (Event.isReturnOf i) = false := by
    rw [Array.any_eq_false']
    exact fun e he => Bool.eq_false_iff.mp (hall e he)
  simp [Timeline.statusOf, hback, hany]

omit h in
theorem statusOf_returning {i : Nat} (hi : r.events.back?.bind Event.returning? = some i) :
    r.events.statusOf i = .returning := by
  obtain ⟨e, he, hr⟩ := Option.bind_eq_some_iff.mp hi
  rw [Timeline.statusOf, he, Option.any_some, Event.isReturnOf_of_returning? hr, if_pos rfl]

theorem activeDepth_view : r.view.activeDepth = r.active.length := by
  have hactive : ∀ i ∈ r.active,
      ((r.view.frame? i).map fun v => v.status == .active).getD false = true := by
    intro i hi
    rw [h.frame?_view (Array.getElem?_eq_getElem (h.active_lt i hi)), h.statusOf_active hi]
    rfl
  have hreturning : ∀ i ∈ (r.events.back?.bind Event.returning?).toList,
      ¬ ((r.view.frame? i).map fun v => v.status == .active).getD false = true := by
    intro i hi
    have hstatus := statusOf_returning (Option.mem_toList.mp hi)
    cases hv : r.view.frame? i with
    | none => exact Bool.false_ne_true
    | some v =>
      obtain ⟨a, -, -, rfl⟩ := of_frame?_view hv
      rw [hstatus]
      exact Bool.false_ne_true
  rw [ReplayState.activeDepth, ReplayState.stack, List.countP_filterMap, ReplayState.activeStack,
    List.countP_reverse]
  show List.countP _ (_ ++ r.active) = _
  rw [List.countP_append, List.countP_eq_zero.mpr hreturning, List.countP_eq_length.mpr hactive,
    Nat.zero_add]

end Sound

/-! ## Every position -/

/-- Replay at a position gives the view that the recorder had right after it added the event there: the
operation `op` added it, and there is no reset after that. The active calls are the calls so far that
have not returned. -/
theorem reconstruct_record (ops : List Op) {i : Nat} (hi : i < (record ops).events.size) :
    ∃ before op after, ops = before ++ op :: after ∧ Op.reset ∉ after ∧
      (record before).events.size = i ∧
      (record (before ++ [op])).events = (record ops).events.take (i + 1) ∧
      reconstruct (record ops).events i = (record (before ++ [op])).view ∧
      Timeline.count ((record ops).events.take (i + 1)) .call =
        Timeline.count ((record ops).events.take (i + 1)) .ret +
          (reconstruct (record ops).events i).activeDepth := by
  obtain ⟨before, op, after, hops, hreset, rfl, ⟨e, he, -, hview⟩, htake⟩ := exists_added ops hi
  have hevents : (record (before ++ [op])).events =
      (record ops).events.take ((record before).events.size + 1) := by
    rw [← Array.toList_inj, htake]
    simp
  have hreplay : reconstruct (record ops).events (record before).events.size =
      (record (before ++ [op])).view := by
    rw [reconstruct_of_take hi htake, he, reconstruct_push, replayed_record, hview]
  refine ⟨before, op, after, hops, hreset, rfl, hevents, hreplay, ?_⟩
  rw [← hevents, hreplay, (sound_record _).activeDepth_view]
  exact count_call_record (before ++ [op])

theorem reconstruct_call_ret :
    1 < (record [.call "f" [] none, .ret .undefined (some 3)]).events.size ∧
    ∃ before op after, [Op.call "f" [] none, .ret .undefined (some 3)] = before ++ op :: after ∧
      Op.reset ∉ after ∧ (record before).events.size = 1 ∧
      (record (before ++ [op])).events =
        (record [.call "f" [] none, .ret .undefined (some 3)]).events.take (1 + 1) ∧
      reconstruct (record [.call "f" [] none, .ret .undefined (some 3)]).events 1 =
        (record (before ++ [op])).view ∧
      Timeline.count
          ((record [.call "f" [] none, .ret .undefined (some 3)]).events.take (1 + 1)) .call =
        Timeline.count
            ((record [.call "f" [] none, .ret .undefined (some 3)]).events.take (1 + 1)) .ret +
          (reconstruct (record [.call "f" [] none, .ret .undefined (some 3)]).events 1).activeDepth :=
  ⟨by decide, reconstruct_record _ (by decide)⟩

end Recorder

end CallTrace
