import CallTrace.Proofs.WellFormed
import Mathlib.Data.List.Nodup

/-! # Windows

A window is any stretch of a timeline: it may begin inside of calls that it does not show, and end before
calls return.

* `Timeline.opened`, `Timeline.callsBy`, `Timeline.resultOf`: the calls in a window, the calls that one of
  them makes there, and what it returns there.
* `Timeline.outermost`: the calls whose caller is absent or not called in the window.
* `Timeline.Fits`: every event fits after those before it. What is called in a window has not returned before
  it (`Fits.not_isReturnOf`), and is pending after what is pending from before (`Fits.pending_append`).
* `returned_eq_resultOf`: what a recorder knows to be returned is what its events say.
-/

namespace CallTrace
set_option autoImplicit false

/-! ## What a window says about its calls -/

/-- The activation that an event is the call of, as it was called. -/
def Event.opened? (e : Event) : Option Activation :=
  match e.payload with
  | .call frame _ => some frame
  | _ => none

/-- The value that a return of an activation returns. -/
def Event.resultOf? (id : FrameId) (e : Event) : Option Snapshot :=
  if e.isReturnOf id then e.returned? else none

theorem Event.called?_eq (e : Event) : e.called? = e.opened?.map (·.id) := by
  obtain ⟨payload, message, line, frameId⟩ := e
  cases payload <;> rfl

theorem Event.resultOf?_eq_none {e : Event} {id : FrameId} (h : e.isReturnOf id = false) :
    e.resultOf? id = none := by
  rw [Event.resultOf?, if_neg (Bool.eq_false_iff.mp h)]

namespace Timeline

/-- The activations called in some events, as they were called. -/
def opened (es : List Event) : List Activation := es.filterMap Event.opened?

/-- The value that an activation returns in some events. -/
def resultOf (es : List Event) (id : FrameId) : Option Snapshot := es.findSome? (Event.resultOf? id)

/-- The calls that an activation makes in some events. -/
def callsBy (es : List Event) (id : FrameId) : List FrameId :=
  ((opened es).filter fun a => a.parent = some id).map (·.id)

/-- The caller of a call is absent or not called in some events. -/
def OutermostIn (es : List Event) (a : Activation) : Prop := ∀ p ∈ a.parent, p ∉ called es

instance (es : List Event) (a : Activation) : Decidable (OutermostIn es a) :=
  inferInstanceAs (Decidable (∀ p ∈ a.parent, p ∉ called es))

theorem not_outermostIn {es : List Event} {a : Activation} :
    ¬ OutermostIn es a ↔ ∃ p, a.parent = some p ∧ p ∈ called es := by
  simp [OutermostIn]

/-- The calls in some events whose caller is absent or not called in them. -/
def outermost (es : List Event) : List FrameId :=
  ((opened es).filter fun a => OutermostIn es a).map (·.id)

theorem called_eq_map (es : List Event) : called es = (opened es).map (·.id) := by
  rw [called, opened, List.map_filterMap, funext Event.called?_eq]

theorem mem_called {es : List Event} {id : FrameId} :
    id ∈ called es ↔ ∃ a ∈ opened es, a.id = id := by
  rw [called_eq_map, List.mem_map]

theorem mem_called_of_mem_opened {es : List Event} {a : Activation} (ha : a ∈ opened es) :
    a.id ∈ called es := mem_called.mpr ⟨a, ha, rfl⟩

theorem mem_callsBy {es : List Event} {id i : FrameId} :
    i ∈ callsBy es id ↔ ∃ a ∈ opened es, a.parent = some id ∧ a.id = i := by
  simp [callsBy, and_assoc]

theorem opened_concat (es : List Event) (e : Event) :
    opened (es ++ [e]) = opened es ++ e.opened?.toList := by
  rw [opened, List.filterMap_append]
  cases h : e.opened? <;> simp [opened, h]

theorem resultOf_append (es fs : List Event) (id : FrameId) :
    resultOf (es ++ fs) id = (resultOf es id).or (resultOf fs id) := List.findSome?_append

theorem resultOf_concat (es : List Event) (e : Event) (id : FrameId) :
    resultOf (es ++ [e]) id = (resultOf es id).or (e.resultOf? id) := by
  rw [resultOf_append]
  simp [resultOf]

theorem resultOf_eq_none {es : List Event} {id : FrameId} (h : ∀ e ∈ es, e.isReturnOf id = false) :
    resultOf es id = none :=
  List.findSome?_eq_none_iff.mpr fun e he => Event.resultOf?_eq_none (h e he)

theorem callsBy_concat_call (es : List Event) {e : Event} {a : Activation} (he : e.opened? = some a)
    (id : FrameId) :
    callsBy (es ++ [e]) id = callsBy es id ++ if a.parent = some id then [a.id] else [] := by
  rw [callsBy, opened_concat, he]
  by_cases h : a.parent = some id <;> simp [callsBy, h]

theorem callsBy_concat_of_ne (es : List Event) {e : Event} {a : Activation} (he : e.opened? = some a)
    {id : FrameId} (hne : a.parent ≠ some id) : callsBy (es ++ [e]) id = callsBy es id := by
  rw [callsBy_concat_call es he, if_neg hne, List.append_nil]

theorem callsBy_concat_of_none (es : List Event) {e : Event} (he : e.opened? = none) :
    callsBy (es ++ [e]) = callsBy es := by
  funext id
  rw [callsBy, opened_concat, he]
  simp [callsBy]

theorem resultOf?_of_opened {e : Event} {a : Activation} (he : e.opened? = some a) (id : FrameId) :
    e.resultOf? id = none := by
  obtain ⟨payload, message, line, frameId⟩ := e
  cases payload with
  | call frame depth => rfl
  | _ => cases he

/-! ## Events that fit -/

/-- Every event fits after the events before it. -/
def Fits (es : List Event) : Prop :=
  ∀ before e after, es = before ++ e :: after → e.FitsAfter before

variable {before es fs : List Event} {e : Event}

theorem Fits.of_append (h : Fits (es ++ fs)) : Fits es := fun before e after he =>
  h before e (after ++ fs) (by simp [he])

theorem Fits.last (h : Fits (es ++ [e])) : e.FitsAfter es := h es e [] rfl

/-- The last event of a window fits after the others. -/
theorem Fits.last_window (h : Fits (before ++ (es ++ [e]))) : e.FitsAfter (before ++ es) := by
  rw [← List.append_assoc] at h
  exact h.last

theorem Fits.of_concat (h : Fits (before ++ (es ++ [e]))) : Fits (before ++ es) := by
  rw [← List.append_assoc] at h
  exact h.of_append

theorem Fits.calledAfter (h : Fits (es ++ [e])) {a : Activation} (he : e.opened? = some a) :
    a.CalledAfter es := by
  have hlast := h.last
  obtain ⟨payload, message, line, frameId⟩ := e
  cases payload with
  | call frame depth =>
    obtain rfl := Option.some.inj he
    exact hlast.2.1
  | _ => cases he

theorem Fits.called_eq (h : Fits es) : called es = List.range (called es).length := by
  induction es using List.reverseRecOn with
  | nil => rfl
  | append_singleton es e ih =>
    rw [called_concat, e.called?_eq]
    cases he : e.opened? with
    | none => simpa using ih h.of_append
    | some a =>
      have hid : a.id = (called es).length := (h.calledAfter he).id_eq
      simp only [Option.map_some, Option.toList_some, List.length_append, List.length_singleton,
        List.range_succ]
      rw [← ih h.of_append, hid]

theorem Fits.lt_length (h : Fits es) {id : FrameId} (hid : id ∈ called es) :
    id < (called es).length := by
  rw [h.called_eq] at hid
  exact List.mem_range.mp hid

theorem Fits.nodup_called (h : Fits es) : (called es).Nodup := by
  rw [h.called_eq]
  exact List.nodup_range

theorem mem_called_of_mem_pending {id : FrameId} (h : id ∈ pending es) : id ∈ called es :=
  (List.mem_filter.mp h).1

/-- A caller was called before what it calls. -/
theorem Fits.parent_lt (h : Fits es) {a : Activation} (ha : a ∈ opened es) {p : FrameId}
    (hp : a.parent = some p) : p < a.id := by
  induction es using List.reverseRecOn with
  | nil => cases ha
  | append_singleton es e ih =>
    rw [opened_concat, List.mem_append] at ha
    rcases ha with ha | ha
    · exact ih h.of_append ha
    · have hcall := h.calledAfter (Option.mem_toList.mp ha)
      have hlast : p ∈ pending es := List.mem_of_getLast? (hcall.parent_eq.symm.trans hp)
      rw [hcall.id_eq]
      exact h.of_append.lt_length (mem_called_of_mem_pending hlast)

theorem Fits.mem_called_of_isReturnOf (h : Fits es) (he : e ∈ es) {id : FrameId}
    (hret : e.isReturnOf id) : id ∈ called es := by
  obtain ⟨before, after, rfl⟩ := List.append_of_mem he
  have hmem : id ∈ pending before := (h before e after rfl).mem_pending_of_isReturnOf hret
  rw [called, List.filterMap_append]
  exact List.mem_append_left _ (mem_called_of_mem_pending hmem)

/-- What is called after some events has not returned in them. -/
theorem Fits.not_isReturnOf (h : Fits (es ++ fs)) {id : FrameId} (hid : id ∈ called fs) :
    ∀ e ∈ es, e.isReturnOf id = false := by
  refine fun e he => Bool.eq_false_iff.mpr fun hret => ?_
  have hnodup := h.nodup_called
  rw [called, List.filterMap_append] at hnodup
  exact (List.nodup_append.mp hnodup).2.2 id (h.of_append.mem_called_of_isReturnOf he hret) id hid rfl

/-- The pending calls are those from before a window and then those of the window. -/
theorem Fits.pending_append (h : Fits (before ++ es)) :
    ∃ out, pending (before ++ es) = out ++ pending es ∧ ∀ id ∈ out, id ∈ called before := by
  refine ⟨(called before).filter fun id => !(before ++ es).any (Event.isReturnOf id), ?_, fun id hid =>
    (List.mem_filter.mp hid).1⟩
  rw [pending, called, List.filterMap_append, List.filter_append]
  refine congrArg _ (List.filter_congr fun id hid => ?_)
  rw [List.any_append, List.any_eq_false.mpr fun e he =>
    Bool.eq_false_iff.mp (h.not_isReturnOf hid e he), Bool.false_or]

theorem Fits.nodup_window (h : Fits (before ++ es)) : (called es).Nodup := by
  have hnodup := h.nodup_called
  rw [called, List.filterMap_append] at hnodup
  exact (List.nodup_append.mp hnodup).2.1

theorem Fits.nodup_pending (h : Fits (before ++ es)) : (pending es).Nodup := h.nodup_window.filter _

theorem Fits.not_mem_called (h : Fits (before ++ es)) {id : FrameId} (hid : id ∈ called before) :
    id ∉ called es := by
  have hnodup := h.nodup_called
  rw [called, List.filterMap_append] at hnodup
  exact fun hmem => (List.nodup_append.mp hnodup).2.2 id hid id hmem rfl

/-- What is called has a number that no caller has so far. -/
theorem Fits.parent_ne (h : Fits (es ++ [e])) {a : Activation} (he : e.opened? = some a)
    {b : Activation} (hb : b ∈ opened (es ++ [e])) : b.parent ≠ some a.id := by
  intro hp
  have hid := (h.calledAfter he).id_eq
  rw [opened_concat, he, List.mem_append] at hb
  rcases hb with hb | hb
  · have hlt := h.of_append.lt_length (mem_called_of_mem_opened hb)
    exact Nat.lt_asymm (h.of_append.parent_lt hb hp) (hid.symm ▸ hlt)
  · obtain rfl : b = a := List.mem_singleton.mp hb
    have hmem := List.mem_of_getLast? ((h.calledAfter he).parent_eq.symm.trans hp)
    exact Nat.ne_of_lt (h.of_append.lt_length (mem_called_of_mem_pending hmem)) hid

/-- What is called last in a window is the caller of none of its calls. -/
theorem Fits.parent_ne_of_window (h : Fits (before ++ (es ++ [e]))) {a : Activation}
    (he : e.opened? = some a) {b : Activation} (hb : b ∈ opened (es ++ [e])) :
    b.parent ≠ some a.id := by
  rw [← List.append_assoc] at h
  refine h.parent_ne he ?_
  rw [opened, List.append_assoc, List.filterMap_append]
  exact List.mem_append_right _ hb

theorem callsBy_new (h : Fits (before ++ (es ++ [e]))) {a : Activation} (he : e.opened? = some a) :
    callsBy (es ++ [e]) a.id = [] := by
  refine List.eq_nil_iff_forall_not_mem.mpr fun i hi => ?_
  obtain ⟨b, hb, hp, -⟩ := mem_callsBy.mp hi
  exact h.parent_ne_of_window he hb hp

theorem outermost_concat_of_none (he : e.opened? = none) : outermost (es ++ [e]) = outermost es := by
  have hopened : opened (es ++ [e]) = opened es := by simp [opened_concat, he]
  have hcalled : called (es ++ [e]) = called es := by rw [called_eq_map, hopened, called_eq_map]
  rw [outermost, outermost, hopened]
  refine congrArg _ (List.filter_congr fun a _ => ?_)
  rw [decide_eq_decide, OutermostIn, OutermostIn, hcalled]

theorem outermost_concat_call (h : Fits (before ++ (es ++ [e]))) {a : Activation}
    (he : e.opened? = some a) :
    outermost (es ++ [e]) =
      outermost es ++ if OutermostIn es a then [a.id] else [] := by
  have hsame : ∀ b ∈ opened (es ++ [e]),
      decide (OutermostIn (es ++ [e]) b) = decide (OutermostIn es b) := by
    refine fun b hb => decide_eq_decide.mpr (forall₂_congr fun p hp => ?_)
    have hpne : p ≠ a.id := fun heq =>
      h.parent_ne_of_window he hb (heq ▸ Option.mem_def.mp hp)
    rw [called_concat, Event.called?_eq, he]
    simp [hpne]
  rw [outermost, List.filter_congr hsame, opened_concat, he]
  by_cases hp : OutermostIn es a <;> simp [outermost, hp]

theorem opened_injective (h : (called es).Nodup) {a b : Activation} (ha : a ∈ opened es)
    (hb : b ∈ opened es) (hid : a.id = b.id) : a = b :=
  List.inj_on_of_nodup_map (called_eq_map es ▸ h) ha hb hid

/-- The depth of a call is one more than that of its caller. -/
theorem depth_of_parent (h : Fits (before ++ es)) {a b : Activation} (ha : a ∈ opened es)
    (hb : b ∈ opened es) (hp : a.parent = some b.id) : a.depth = b.depth + 1 := by
  obtain ⟨e, he, hopen⟩ := List.mem_filterMap.mp ha
  obtain ⟨front, back, rfl⟩ := List.append_of_mem he
  have hall : Fits ((before ++ front ++ [e]) ++ back) := by simpa using h
  have hcall : a.CalledAfter (before ++ front) := hall.of_append.calledAfter hopen
  obtain ⟨c, hcid, hdepth, x, hx, frame, depth, hpayload, hsame⟩ := hcall.child b.id hp
  -- The caller is opened by an event before; it is `b`, since their numbers are the same.
  have hframe : frame ∈ opened (before ++ (front ++ e :: back)) := by
    refine List.mem_filterMap.mpr ⟨x, ?_, by rw [Event.opened?, hpayload]⟩
    rw [← List.append_assoc]
    exact List.mem_append_left _ hx
  have hb' : b ∈ opened (before ++ (front ++ e :: back)) := by
    rw [opened, List.filterMap_append]
    exact List.mem_append_right _ hb
  obtain rfl : frame = b :=
    opened_injective h.nodup_called hframe hb' (hsame.id_eq.trans hcid)
  rw [hdepth, hsame.depth_eq]

/-- An activation returns once at most, after its call. -/
theorem resultOf_of_mem (h : Fits (before ++ es)) {id : FrameId} {e : Event} (he : e ∈ es)
    (hret : e.isReturnOf id) : resultOf es id = e.returned? := by
  obtain ⟨front, back, rfl⟩ := List.append_of_mem he
  have hfront : resultOf front id = none := by
    rw [← List.append_assoc] at h
    refine resultOf_eq_none fun x hx => ?_
    exact not_isReturnOf_of_mem_pending ((h _ e back rfl).mem_pending_of_isReturnOf hret)
      (List.mem_append_right _ hx)
  have hsome : e.resultOf? id = e.returned? := if_pos hret
  obtain ⟨value, hvalue⟩ : ∃ value, e.returned? = some value := by
    obtain ⟨payload, message, line, frameId⟩ := e
    cases payload with
    | ret a value depth => exact ⟨value, rfl⟩
    | _ => cases hret
  rw [resultOf_append, hfront, Option.none_or, resultOf, List.findSome?_cons, hsome, hvalue]

/-- The latest pending call is the last one of the window, unless all calls of the window have returned. -/
theorem latest_cases (h : Fits (before ++ es)) :
    (pending es = [] ∧ ∀ p, (pending (before ++ es)).getLast? = some p → p ∉ called es) ∨
      ∃ path c, pending es = path ++ [c] ∧ c ∉ path ∧
        (pending (before ++ es)).getLast? = some c := by
  obtain ⟨out, hsplit, hout⟩ := h.pending_append
  rcases List.eq_nil_or_concat (pending es) with hnil | ⟨path, c, hpath⟩
  · refine .inl ⟨hnil, fun p hp => h.not_mem_called (hout p ?_)⟩
    rw [hsplit, hnil, List.append_nil] at hp
    exact List.mem_of_getLast? hp
  · have hfresh : c ∉ path := ((List.nodup_concat _ _).mp (hpath ▸ h.nodup_pending)).1
    rw [List.concat_eq_append] at hpath
    exact .inr ⟨path, c, hpath, hfresh, by rw [hsplit, hpath, ← List.append_assoc, List.getLast?_concat]⟩

/-- A return ends the latest pending call, unless all calls of the window have returned. -/
theorem pending_concat_cases (h : Fits (before ++ (es ++ [e]))) (he : e.opened? = none) :
    pending (es ++ [e]) = pending es ∨ ∃ id, pending es = pending (es ++ [e]) ++ [id] := by
  have hlast : e.FitsAfter (before ++ es) := h.last_window
  have hes : Fits (before ++ es) := h.of_concat
  obtain ⟨payload, message, line, frameId⟩ := e
  cases payload with
  | call a depth => cases he
  | ret a value depth =>
    rcases latest_cases hes with ⟨hnil, -⟩ | ⟨path, c, hpath, hfresh, hc⟩
    · refine .inl ?_
      rw [pending_concat, hnil]
      rfl
    · have hid : a.id = c := Option.some.inj (hlast.2.1.latest.symm.trans hc)
      refine .inr ⟨c, ?_⟩
      rw [pending_concat_ret (by simp [Event.kind, Payload.kind]) (fun i => ?_) hpath hfresh, hpath]
      rw [Event.isReturnOf_ret, hid]
  | _ =>
    refine .inl (pending_concat_within es ?_ ?_)
    · simp [Event.kind, Payload.kind]
    · simp [Event.kind, Payload.kind]

/-- A window ends the events up to its last one. -/
theorem exists_before (t : Timeline) (start stop : Nat) :
    ∃ before, t.toList.take (min stop t.size) = before ++ (t.extract start stop).toList := by
  refine ⟨(t.toList.take stop).take start, ?_⟩
  calc t.toList.take (min stop t.size)
      = t.toList.take stop := by rw [← Array.length_toList, ← List.take_eq_take_min]
    _ = (t.toList.take stop).take start ++ (t.toList.take stop).drop start :=
        (List.take_append_drop start _).symm
    _ = (t.toList.take stop).take start ++ (t.extract start stop).toList := by
        rw [Array.toList_extract, List.extract, List.drop_take]

end Timeline

open Timeline

namespace Recorder

/-- An activation has returned what its return says. -/
theorem returned_eq_resultOf (ops : List Op) {i : FrameId} {a : Activation}
    (ha : (record ops).frames[i]? = some a) : a.returned = resultOf (record ops).events.toList i := by
  refine (List.foldlRecOn (motive := fun r : Recorder => r.Sound ∧
    ∀ (i : Nat) (a : Activation), r.frames[i]? = some a → a.returned = resultOf r.events.toList i)
    ops apply ⟨Sound.empty, by simp [Recorder.empty]⟩ fun r h op _ =>
      ⟨h.1.of_step (h.1.step op), ?_⟩).2 i a ha
  obtain ⟨hsound, hr⟩ := h
  have hs := hsound.step op
  generalize r.apply op = r' at hs ⊢
  have within {e : Event} (hk : e.kind ≠ .ret) (i : FrameId) :
      resultOf (r.events.push e).toList i = resultOf r.events.toList i := by
    rw [Array.toList_push, resultOf_concat,
      Event.resultOf?_eq_none (Event.isReturnOf_of_kind hk i), Option.or_none]
  cases hs with
  | stay => exact hr
  | reset => simp [Recorder.empty]
  | call name args line =>
    intro i a hi
    rw [events_call, within (by simp [Event.kind, Payload.kind])]
    rw [frames_call, Array.getElem?_push] at hi
    split at hi
    · next he =>
      obtain rfl := Option.some.inj hi
      refine (resultOf_eq_none fun e hmem => Bool.eq_false_iff.mpr fun hret => ?_).symm
      exact Nat.ne_of_lt (hsound.event_lt e (Array.mem_toList_iff.mp hmem) i (.inr hret)) he
    · exact hr i a hi
  | @ret b hb value line =>
    intro i a hi
    rw [events_returned, Array.toList_push, resultOf_concat]
    rw [frames_returned] at hi
    rcases hsound.getElem?_setLatest hb hi with ⟨rfl, rfl⟩ | ⟨hne, hi⟩
    · rw [← hr _ b hb.stored, hsound.latest_not_returned hb, Option.none_or, Event.resultOf?,
        Event.isReturnOf_ret, if_pos (beq_self_eq_true _)]
      rfl
    · rw [← hr i a hi, Event.resultOf?_eq_none, Option.or_none]
      rw [Event.isReturnOf_ret]
      exact beq_eq_false_iff_ne.mpr (Ne.symm hne)
  | @set b hb name value line =>
    intro i a hi
    rw [events_assigned, within (by simp [Event.kind, Payload.kind])]
    rw [frames_assigned] at hi
    rcases hsound.getElem?_setLatest hb hi with ⟨rfl, rfl⟩ | ⟨-, hi⟩
    · exact hr _ b hb.stored
    · exact hr i a hi
  | log text line =>
    intro i a hi
    rw [Recorder.log, events_push, within (by simp [Event.kind, Payload.kind])]
    exact hr i a hi
  | step hb message line =>
    intro i a hi
    rw [events_push, within (by simp [Event.kind, Payload.kind])]
    exact hr i a hi

end Recorder

end CallTrace
