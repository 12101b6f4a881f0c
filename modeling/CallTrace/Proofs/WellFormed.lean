import CallTrace.Proofs.Reconstruction

/-! # Well-formed timelines

Which calls are active can be read off the events: they are the calls that have not returned.

* `Timeline.called`, `Timeline.pending`: the activations called in some events, and those of them that
  have not returned, the oldest first.
* `Event.FitsAfter`: what an event may be, given the events before it.
* `Recorder.Formed`: what links the events of a recording, its active calls and its activations. Every
  operation keeps it (`Formed.of_step`).
* `timeline_wellFormed`: every event of every timeline fits, and at every prefix the pending calls are the
  active stack that the recorder had there.
-/

namespace CallTrace
set_option autoImplicit false

/-! ## Pending calls -/

/-- The activation that an event is the call of. -/
def Event.called? (e : Event) : Option FrameId :=
  match e.payload with
  | .call frame _ => some frame.id
  | _ => none

theorem Event.called?_of_kind {e : Event} (h : e.kind ≠ .call) : e.called? = none := by
  obtain ⟨payload, message, line, frameId⟩ := e
  cases payload with
  | call frame depth => exact absurd rfl h
  | _ => rfl

namespace Timeline

/-- The activations called in some events, in the order of the calls. -/
def called (es : List Event) : List FrameId := es.filterMap Event.called?

/-- The activations called in some events that have not returned in them, the oldest first. -/
def pending (es : List Event) : List FrameId :=
  (called es).filter fun id => !es.any (Event.isReturnOf id)

theorem called_concat (es : List Event) (e : Event) :
    called (es ++ [e]) = called es ++ e.called?.toList := by
  rw [called, List.filterMap_append]
  cases h : e.called? <;> simp [called, h]

theorem pending_concat (es : List Event) (e : Event) :
    pending (es ++ [e]) =
      (pending es ++ e.called?.toList.filter fun id => !es.any (Event.isReturnOf id)).filter
        fun id => !e.isReturnOf id := by
  rw [pending, called_concat, pending, ← List.filter_append, List.filter_filter]
  refine List.filter_congr fun id _ => ?_
  rw [List.any_append, Bool.not_or, Bool.and_comm]
  simp

theorem not_isReturnOf_of_mem_pending {es : List Event} {id : FrameId} (h : id ∈ pending es)
    {e : Event} (he : e ∈ es) : e.isReturnOf id = false := by
  have hany : es.any (Event.isReturnOf id) = false := by simpa using (List.mem_filter.mp h).2
  exact Bool.eq_false_iff.mpr (List.any_eq_false.mp hany e he)

theorem pending_concat_within (es : List Event) {e : Event} (hcall : e.kind ≠ .call)
    (hret : e.kind ≠ .ret) : pending (es ++ [e]) = pending es := by
  rw [pending_concat, Event.called?_of_kind hcall]
  simp [Event.isReturnOf_of_kind hret]

theorem pending_concat_call {es : List Event} {e : Event} {id : FrameId} (he : e.called? = some id)
    (hret : e.kind ≠ .ret) (hid : ∀ x ∈ es, x.isReturnOf id = false) :
    pending (es ++ [e]) = pending es ++ [id] := by
  have hany : es.any (Event.isReturnOf id) = false :=
    List.any_eq_false.mpr fun x hx => Bool.eq_false_iff.mp (hid x hx)
  rw [pending_concat, he]
  simp [Event.isReturnOf_of_kind hret, hany]

theorem pending_concat_ret {es : List Event} {e : Event} {id : FrameId} {rest : List FrameId}
    (hcall : e.kind ≠ .call) (hret : ∀ i, e.isReturnOf i = (id == i)) (hes : pending es = rest ++ [id])
    (hid : id ∉ rest) : pending (es ++ [e]) = rest := by
  have hrest : rest.filter (fun i => !(id == i)) = rest := by
    refine List.filter_eq_self.mpr fun i hi => ?_
    have hne : id ≠ i := fun he => hid (he ▸ hi)
    simp [hne]
  rw [pending_concat, Event.called?_of_kind hcall, hes]
  simp [hret, hrest]

end Timeline

open Timeline

/-! ## Events that fit -/

/-- Two records of one call: they may differ in the locals and in what was returned. -/
structure Activation.SameCall (a b : Activation) : Prop where
  id_eq : a.id = b.id
  name_eq : a.name = b.name
  args_eq : a.args = b.args
  parent_eq : a.parent = b.parent
  depth_eq : a.depth = b.depth

/-- The event is the call of the activation `a`. -/
def Event.Opens (a : Activation) (e : Event) : Prop :=
  ∃ frame depth, e.payload = .call frame depth ∧ frame.SameCall a

/-- What is called after some events: it is numbered by the calls so far, and stands under the latest
pending one. -/
structure Activation.CalledAfter (before : List Event) (a : Activation) : Prop where
  id_eq : a.id = (called before).length
  parent_eq : a.parent = (pending before).getLast?
  depth_eq : a.depth = (pending before).length
  root : a.parent = none → a.depth = 0
  child : ∀ p, a.parent = some p →
    ∃ b, b.id = p ∧ a.depth = b.depth + 1 ∧ ∃ e ∈ before, e.Opens b

/-- What returns after some events: the latest pending call, as it was called. -/
structure Activation.ReturnsAfter (before : List Event) (a : Activation) : Prop where
  latest : (pending before).getLast? = some a.id
  opened : ∃ e ∈ before, e.Opens a

/-- What an event may be after some others: which activation it belongs to, and for a call and a return
what they say. -/
def Event.FitsAfter (before : List Event) (e : Event) : Prop :=
  match e.payload with
  | .call a stackDepth => e.frameId = some a.id ∧ a.CalledAfter before ∧ stackDepth = a.depth + 1
  | .ret a _ stackDepth =>
    e.frameId = some a.id ∧ a.ReturnsAfter before ∧ stackDepth + 1 = (pending before).length
  | .line => ∃ id, e.frameId = some id ∧ (pending before).getLast? = some id
  | .set _ _ _ => ∃ id, e.frameId = some id ∧ (pending before).getLast? = some id
  | .log _ => e.frameId = (pending before).getLast?

namespace Activation

variable {a b c : Activation}

theorem SameCall.refl (a : Activation) : a.SameCall a := ⟨rfl, rfl, rfl, rfl, rfl⟩

theorem SameCall.trans (h : a.SameCall b) (h' : b.SameCall c) : a.SameCall c :=
  ⟨h.id_eq.trans h'.id_eq, h.name_eq.trans h'.name_eq, h.args_eq.trans h'.args_eq,
    h.parent_eq.trans h'.parent_eq, h.depth_eq.trans h'.depth_eq⟩

end Activation

theorem Event.Opens.of_sameCall {a b : Activation} {e : Event} (h : e.Opens a) (hs : a.SameCall b) :
    e.Opens b := by
  obtain ⟨frame, depth, he, hf⟩ := h
  exact ⟨frame, depth, he, hf.trans hs⟩

/-- The activation an event belongs to is pending, unless the event is its call. -/
theorem Event.FitsAfter.frameId_cases {before : List Event} {e : Event} (h : e.FitsAfter before)
    {id : FrameId} (hid : e.frameId = some id) :
    id ∈ pending before ∨ id = (called before).length := by
  have latest {i : FrameId} (hi : (pending before).getLast? = some i) (he : e.frameId = some i) :
      id ∈ pending before ∨ id = (called before).length :=
    .inl (Option.some.inj (hid.symm.trans he) ▸ List.mem_of_getLast? hi)
  obtain ⟨payload, message, line, frameId⟩ := e
  cases payload with
  | call a stackDepth =>
    obtain ⟨he, ha, -⟩ := h
    exact .inr ((Option.some.inj (hid.symm.trans he)).trans ha.id_eq)
  | ret a value stackDepth => exact latest h.2.1.latest h.1
  | line =>
    obtain ⟨i, he, hi⟩ := h
    exact latest hi he
  | set name value locals =>
    obtain ⟨i, he, hi⟩ := h
    exact latest hi he
  | log text => exact latest (h.symm.trans hid) hid

/-- What returns is pending. -/
theorem Event.FitsAfter.mem_pending_of_isReturnOf {before : List Event} {e : Event}
    (h : e.FitsAfter before) {id : FrameId} (hret : e.isReturnOf id) : id ∈ pending before := by
  obtain ⟨payload, message, line, frameId⟩ := e
  cases payload with
  | ret a value stackDepth =>
    obtain rfl : a.id = id := beq_iff_eq.mp hret
    exact List.mem_of_getLast? h.2.1.latest
  | _ => cases hret

namespace Recorder

/-! ## What every operation keeps -/

/-- What links the events of a recording, its active calls and its activations. -/
structure Formed (r : Recorder) : Prop where
  fits : ∀ before e after, r.events.toList = before ++ e :: after → e.FitsAfter before
  called_eq : called r.events.toList = List.range r.frames.size
  pending_eq : pending r.events.toList = r.activeStack
  opened : ∀ (i : Nat) (a : Activation), r.frames[i]? = some a → ∃ e ∈ r.events.toList, e.Opens a
  depth_eq : ∀ above (id : FrameId) below, r.active = above ++ id :: below →
    ∀ a : Activation, r.frames[id]? = some a → a.depth = below.length

namespace Formed

variable {r : Recorder}

theorem empty : Formed .empty where
  fits := by simp [Recorder.empty]
  called_eq := rfl
  pending_eq := rfl
  opened := by simp [Recorder.empty]
  depth_eq := by simp [Recorder.empty]

/-- An event that fits after all the others leaves every event fitting. -/
theorem fits_concat (h : r.Formed) {e : Event} (he : e.FitsAfter r.events.toList) :
    ∀ before x after, r.events.toList ++ [e] = before ++ x :: after → x.FitsAfter before :=
  Event.forall_splits_concat h.fits he

theorem getLast?_pending (h : r.Formed) : (pending r.events.toList).getLast? = r.active.head? := by
  rw [h.pending_eq, activeStack, List.getLast?_reverse]

theorem length_pending (h : r.Formed) : (pending r.events.toList).length = r.depth := by
  rw [h.pending_eq, activeStack, List.length_reverse, r.depth_eq]

theorem length_called (h : r.Formed) : (called r.events.toList).length = r.frames.size := by
  rw [h.called_eq, List.length_range]

theorem latest_pending (h : r.Formed) {a : Activation} (ha : r.Latest a) :
    (pending r.events.toList).getLast? = some a.id := by
  obtain ⟨rest, hact⟩ := ha.active
  rw [h.getLast?_pending, hact, List.head?_cons]

/-- The next activation is what may be called after the events so far. -/
theorem calledAfter_newFrame (hs : r.Sound) (h : r.Formed) (name : String)
    (args : List (String × Snapshot)) :
    (r.newFrame name args).CalledAfter r.events.toList where
  id_eq := h.length_called.symm
  parent_eq := h.getLast?_pending.symm
  depth_eq := h.length_pending.symm
  root hp := by
    have hnil : r.active = [] := List.head?_eq_none_iff.mp hp
    show r.depth = 0
    rw [r.depth_eq, hnil, List.length_nil]
  child p hp := by
    obtain ⟨rest, hact⟩ := List.head?_eq_some_iff.mp hp
    obtain ⟨b, rfl, hb⟩ := hs.latest hact
    refine ⟨b, rfl, ?_, h.opened _ b hb.stored⟩
    have hdepth : b.depth = rest.length := h.depth_eq [] b.id rest hact b hb.stored
    show r.depth = b.depth + 1
    rw [r.depth_eq, hact, List.length_cons, hdepth]

theorem call (hs : r.Sound) (h : r.Formed) (name : String) (args : List (String × Snapshot))
    (line : Option Nat) : (r.call name args line).Formed := by
  have hfit : Event.FitsAfter r.events.toList ⟨.call (r.newFrame name args) (r.depth + 1),
      "Called function " ++ name, line, some r.frames.size⟩ :=
    ⟨rfl, calledAfter_newFrame hs h name args, rfl⟩
  have hfresh : ∀ e ∈ r.events.toList, e.isReturnOf r.frames.size = false := by
    refine fun e he => Bool.eq_false_iff.mpr fun hr => ?_
    exact Nat.lt_irrefl _ (hs.event_lt e (Array.mem_toList_iff.mp he) _ (.inr hr))
  constructor
  · rw [events_call, Array.toList_push]
    exact h.fits_concat hfit
  · rw [events_call, Array.toList_push, called_concat, h.called_eq, frames_call, Array.size_push,
      List.range_succ]
    rfl
  · rw [events_call, Array.toList_push, pending_concat_call rfl (by simp [Event.kind, Payload.kind]) hfresh,
      h.pending_eq, activeStack, activeStack, active_call, List.reverse_cons]
  · intro i a hi
    rw [events_call, Array.toList_push]
    rw [frames_call, Array.getElem?_push] at hi
    split at hi
    · cases hi
      exact ⟨_, List.mem_concat_self, _, _, rfl, .refl _⟩
    · obtain ⟨e, he, ho⟩ := h.opened i a hi
      exact ⟨e, List.mem_append_left _ he, ho⟩
  · intro above id below hact a ha
    rw [frames_call, Array.getElem?_push] at ha
    rw [active_call] at hact
    cases above with
    | nil =>
      obtain ⟨rfl, rfl⟩ := List.cons.inj hact
      rw [if_pos rfl] at ha
      cases ha
      exact r.depth_eq
    | cons top above =>
      obtain ⟨rfl, hrest⟩ := List.cons.inj hact
      have hlt : id < r.frames.size :=
        hs.active_lt id (hrest ▸ List.mem_append_right _ List.mem_cons_self)
      rw [if_neg (Nat.ne_of_lt hlt)] at ha
      exact h.depth_eq above id below hrest a ha

/-- Another record of the latest active call may take the place of the one that is stored. -/
theorem sameCall_of_setLatest (hs : r.Sound) {a b c : Activation} (ha : r.Latest a) (hb : a.SameCall b)
    {i : Nat} (hi : (r.frames.setIfInBounds a.id b)[i]? = some c) :
    ∃ c', r.frames[i]? = some c' ∧ c'.SameCall c := by
  rcases hs.getElem?_setLatest ha hi with ⟨rfl, rfl⟩ | ⟨-, hi⟩
  · exact ⟨a, ha.stored, hb⟩
  · exact ⟨c, hi, .refl c⟩

/-- A recording that has the same activations up to their locals and what they returned, some events
more, and some of the latest active calls less, keeps what its activations are known by. -/
theorem registered_of_sameCall {r' : Recorder} (h : r.Formed) {e : Event} (top : List FrameId)
    (hevents : r'.events.toList = r.events.toList ++ [e]) (hactive : r.active = top ++ r'.active)
    (hframes : ∀ (i : Nat) (c : Activation), r'.frames[i]? = some c →
      ∃ c', r.frames[i]? = some c' ∧ c'.SameCall c) :
    (∀ (i : Nat) (c : Activation), r'.frames[i]? = some c → ∃ x ∈ r'.events.toList, x.Opens c) ∧
      ∀ above (id : FrameId) below, r'.active = above ++ id :: below →
        ∀ c : Activation, r'.frames[id]? = some c → c.depth = below.length := by
  constructor
  · intro i c hi
    obtain ⟨c', hc', hsame⟩ := hframes i c hi
    obtain ⟨x, hx, ho⟩ := h.opened i c' hc'
    exact ⟨x, hevents ▸ List.mem_append_left _ hx, ho.of_sameCall hsame⟩
  · intro above id below hact c hc
    obtain ⟨c', hc', hsame⟩ := hframes id c hc
    rw [← hsame.depth_eq]
    refine h.depth_eq (top ++ above) id below ?_ c' hc'
    rw [hactive, hact, List.append_assoc]

/-- An event that is neither a call nor a return. -/
theorem within (h : r.Formed) {r' : Recorder} {e : Event}
    (hevents : r'.events = r.events.push e) (hactive : r'.active = r.active)
    (hsize : r'.frames.size = r.frames.size)
    (hframes : ∀ (i : Nat) (c : Activation), r'.frames[i]? = some c →
      ∃ c', r.frames[i]? = some c' ∧ c'.SameCall c)
    (hcall : e.kind ≠ .call) (hret : e.kind ≠ .ret) (hfit : e.FitsAfter r.events.toList) :
    r'.Formed := by
  have hlist : r'.events.toList = r.events.toList ++ [e] := by rw [hevents, Array.toList_push]
  obtain ⟨hopened, hdepth⟩ :=
    h.registered_of_sameCall [] hlist hactive.symm hframes
  refine ⟨hlist ▸ h.fits_concat hfit, ?_, ?_, hopened, hdepth⟩
  · rw [hlist, called_concat, Event.called?_of_kind hcall, h.called_eq, hsize]
    exact List.append_nil _
  · rw [hlist, pending_concat_within _ hcall hret, h.pending_eq, activeStack, activeStack, hactive]

theorem ret (hs : r.Sound) (h : r.Formed) {a : Activation} (ha : r.Latest a) (value : Snapshot)
    (line : Option Nat) : (r.returned a value line).Formed := by
  obtain ⟨rest, hact⟩ := id ha.active
  have hsame : a.SameCall { a with returned := some value } := ⟨rfl, rfl, rfl, rfl, rfl⟩
  have hlist := congrArg Array.toList (events_returned r a value line)
  rw [Array.toList_push] at hlist
  have hactive : (r.returned a value line).active = rest := by rw [active_returned, hact]; rfl
  have hpending : pending r.events.toList = rest.reverse ++ [a.id] := by
    rw [h.pending_eq, activeStack, hact, List.reverse_cons]
  have hnotin : a.id ∉ rest.reverse := by
    rw [List.mem_reverse]
    exact (List.nodup_cons.mp (hact ▸ hs.active_nodup)).1
  obtain ⟨hopened, hdepth⟩ := h.registered_of_sameCall [a.id] hlist
    (by rw [hactive, hact]; rfl)
    (fun i c hi => sameCall_of_setLatest hs ha hsame (by rwa [frames_returned] at hi))
  have hlatest : (pending r.events.toList).getLast? = some a.id := h.latest_pending ha
  have hreturns : Activation.ReturnsAfter r.events.toList { a with returned := some value } := by
    obtain ⟨e, he, ho⟩ := h.opened _ a ha.stored
    exact ⟨hlatest, e, he, ho.of_sameCall hsame⟩
  refine ⟨hlist ▸ h.fits_concat ⟨rfl, hreturns, ?_⟩, ?_, ?_, hopened, hdepth⟩
  · have hpos : r.depth = rest.length + 1 := by rw [r.depth_eq, hact, List.length_cons]
    rw [h.length_pending, hpos, Nat.add_sub_cancel]
  · rw [hlist, called_concat, h.called_eq, frames_returned, Array.size_setIfInBounds]
    exact List.append_nil _
  · rw [hlist, pending_concat_ret (by simp [Event.kind, Payload.kind]) (fun i => rfl) hpending hnotin,
      activeStack, hactive]

theorem of_step (hs : r.Sound) (h : r.Formed) {r' : Recorder} (hstep : Step r r') : r'.Formed := by
  have same (i : Nat) (c : Activation) (hi : r.frames[i]? = some c) :
      ∃ c', r.frames[i]? = some c' ∧ c'.SameCall c := ⟨c, hi, .refl c⟩
  cases hstep with
  | stay => exact h
  | reset => exact Formed.empty
  | call name args line => exact call hs h name args line
  | ret ha value line => exact ret hs h ha value line
  | @set a ha name value line =>
    refine h.within (events_assigned ..) (active_assigned ..) ?_ ?_ (by simp [Event.kind, Payload.kind])
      (by simp [Event.kind, Payload.kind]) ⟨a.id, rfl, h.latest_pending ha⟩
    · rw [frames_assigned, Array.size_setIfInBounds]
    · intro i c hi
      rw [frames_assigned] at hi
      exact sameCall_of_setLatest hs ha
        (b := { a with locals := a.locals.insert name value }) ⟨rfl, rfl, rfl, rfl, rfl⟩ hi
  | log text line =>
    exact h.within rfl rfl rfl same (by simp [Event.kind, Payload.kind])
      (by simp [Event.kind, Payload.kind]) h.getLast?_pending.symm
  | @step a ha message line =>
    exact h.within rfl rfl rfl same (by simp [Event.kind, Payload.kind])
      (by simp [Event.kind, Payload.kind]) ⟨a.id, rfl, h.latest_pending ha⟩

/-- What is called in the events up to a position has a number below the number of calls there. -/
theorem lt_length_called (h : r.Formed) {before after : List Event}
    (hsplit : r.events.toList = before ++ after) {id : FrameId} (hid : id ∈ called before) :
    id < (called before).length := by
  have hprefix : called before <+: List.range r.frames.size := by
    rw [← h.called_eq, hsplit, called, called, List.filterMap_append]
    exact List.prefix_append _ _
  have hrange : called before = List.range (called before).length := by
    have htake := List.prefix_iff_eq_take.mp hprefix
    have hlen : (called before).length ≤ r.frames.size := by simpa using hprefix.length_le
    rwa [List.take_range, Nat.min_eq_left hlen] at htake
  rw [hrange] at hid
  exact List.mem_range.mp hid

/-- An activation that has returned before an event is not the one that the event belongs to. -/
theorem frameId_ne (h : r.Formed) {before after : List Event} {e : Event}
    (hsplit : r.events.toList = before ++ e :: after) {x : Event} (hx : x ∈ before) {id : FrameId}
    (hret : x.isReturnOf id) : e.frameId ≠ some id := by
  intro hid
  rcases (h.fits before e after hsplit).frameId_cases hid with hmem | hnew
  · rw [not_isReturnOf_of_mem_pending hmem hx] at hret
    cases hret
  · -- The event would be the call of `id`, but what has returned was called before it returned.
    obtain ⟨start, between, rfl⟩ := List.append_of_mem hx
    have hfits : x.FitsAfter start := h.fits start x (between ++ e :: after) (by simp [hsplit])
    have hcalled : id ∈ called (start ++ x :: between) := by
      rw [called, List.filterMap_append]
      exact List.mem_append_left _ (List.mem_filter.mp (hfits.mem_pending_of_isReturnOf hret)).1
    exact Nat.ne_of_lt (h.lt_length_called hsplit hcalled) hnew

end Formed

theorem formed_record (ops : List Op) : (record ops).Formed :=
  (List.foldlRecOn (motive := fun r : Recorder => r.Sound ∧ r.Formed) ops apply
    ⟨Sound.empty, Formed.empty⟩ fun _ h op _ =>
      ⟨h.1.of_step (h.1.step op), Formed.of_step h.1 h.2 (h.1.step op)⟩).2

/-! ## Every timeline -/

/-- Every prefix of a timeline is what the recorder had after some of the operations, and there is no
reset after them. -/
theorem exists_prefix (ops : List Op) {es : List Event} (hes : es <+: (record ops).events.toList) :
    ∃ done rest, ops = done ++ rest ∧ Op.reset ∉ rest ∧ (record done).events.toList = es := by
  rcases Nat.lt_or_eq_of_le hes.length_le with hlt | heq
  · have hsize : es.length < (record ops).events.size := by simpa using hlt
    obtain ⟨done, op, after, hops, hreset, hlen, ⟨e, he, -⟩, htake⟩ := exists_added ops hsize
    have hdone : (record done).events.toList = es := by
      rw [he, Array.toList_push] at htake
      have hcut := congrArg (List.take es.length) htake
      rwa [List.take_append_of_le_length (by simp [hlen]), List.take_of_length_le (by simp [hlen]),
        List.take_take, Nat.min_eq_left (Nat.le_succ _), ← List.prefix_iff_eq_take.mp hes] at hcut
    refine ⟨done, op :: after, hops, fun hm => ?_, hdone⟩
    rcases List.mem_cons.mp hm with hop | hm
    · rw [record_concat, ← hop] at he
      exact absurd (congrArg Array.size he) (by simp [apply, reset, Recorder.empty])
    · exact hreset hm
  · exact ⟨ops, [], (List.append_nil ops).symm, List.not_mem_nil, (hes.eq_of_length heq).symm⟩

/-- In the timeline of any operations every event fits after the events before it, and belongs to no
activation that has returned before it. At every prefix, which the recorder had after some of the
operations, the pending calls are the active stack it had there. -/
theorem timeline_wellFormed (ops : List Op) :
    (∀ before e after, (record ops).events.toList = before ++ e :: after →
      e.FitsAfter before ∧
        ∀ x ∈ before, ∀ id, x.isReturnOf id → e.frameId ≠ some id) ∧
    ∀ es, es <+: (record ops).events.toList → ∃ done rest, ops = done ++ rest ∧
      Op.reset ∉ rest ∧ (record done).events.toList = es ∧
      pending es = (record done).activeStack := by
  have h : (record ops).Formed := formed_record ops
  refine ⟨fun before e after hsplit => ⟨h.fits before e after hsplit, ?_⟩, fun es hes => ?_⟩
  · exact fun x hx id hret => h.frameId_ne hsplit hx hret
  · obtain ⟨done, rest, hops, hreset, rfl⟩ := exists_prefix ops hes
    exact ⟨done, rest, hops, hreset, rfl, (formed_record done).pending_eq⟩

/-- A call under a call that is still active: only the outer one is pending once the inner one is back. -/
example : pending (record [.call "f" [] none, .call "g" [] none, .ret .undefined none]).events.toList =
    [0] := by decide

end Recorder

end CallTrace
