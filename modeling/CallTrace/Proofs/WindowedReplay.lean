import CallTrace.Proofs.Window

/-! # Replay of a window

Replay may begin in the middle of a timeline, inside of calls whose `call` events it never sees. What it
shows then is what replay of the whole timeline shows of the calls made in the window.

* `ReplayState.Restricts`: the calls in a set, out of a state. One more event keeps it, if what it calls is in
  the set (`Restricts.after`), and so do any number of events (`Restricts.afterAll`).
* `Recorder.restricts_before`: before the window there is no call of the window.
* `Recorder.reconstruct_window`: replay of a window, at every position in it.
-/

namespace CallTrace
set_option autoImplicit false

namespace ReplayState

/-! ## The calls in a set -/

/-- The state `w` has the calls of `s` that are in `ids`, in the same order, and no others. -/
structure Restricts (ids : List FrameId) (s w : ReplayState) : Prop where
  frames_eq : w.frames = s.frames.filter fun v => v.id ∈ ids
  active_eq : w.active = s.active.filter (· ∈ ids)

variable {ids : List FrameId} {s w : ReplayState}

/-- An update of a call, which may be outside of the set. -/
theorem Restricts.updateFrame (h : Restricts ids s w) (id : FrameId) {f : FrameView → FrameView}
    (hf : ∀ v, (f v).id = v.id) : Restricts ids (s.updateFrame id f) (w.updateFrame id f) where
  frames_eq := by
    have hid (v : FrameView) : (if v.id = id then f v else v).id = v.id := by
      split
      · exact hf v
      · rfl
    simp only [ReplayState.updateFrame, h.frames_eq, Array.filter_map, Function.comp_def, hid]
  active_eq := h.active_eq

/-- Nothing in the set changes when a call outside of it is updated. -/
theorem Restricts.updateFrame_left (h : Restricts ids s w) {id : FrameId} (hid : id ∉ ids)
    {f : FrameView → FrameView} (hf : ∀ v, (f v).id = v.id) :
    Restricts ids (s.updateFrame id f) w where
  frames_eq := by
    rw [(h.updateFrame id hf).frames_eq.symm, ReplayState.updateFrame, h.frames_eq]
    refine (Array.map_id _).symm.trans (Array.map_congr_left fun v hv => ?_)
    have hne : v.id ≠ id := fun he => hid (he ▸ of_decide_eq_true (Array.mem_filter.mp hv).2)
    exact (if_neg hne).symm
  active_eq := h.active_eq

theorem Restricts.knows_eq (h : Restricts ids s w) {id : FrameId} (hid : id ∈ ids) :
    w.knows id = s.knows id := by
  rw [knows, knows, h.frames_eq, Array.any_filter]
  refine congrArg (s.frames.any · 0 s.frames.size) (funext fun v => ?_)
  by_cases hv : v.id = id
  · simp [hv, hid]
  · simp [hv]

theorem Restricts.not_knows (h : Restricts ids s w) {id : FrameId} (hid : id ∉ ids) :
    w.knows id = false := by
  rw [knows, h.frames_eq, Array.any_eq_false']
  intro v hv
  have hne : v.id ≠ id := fun he => hid (he ▸ of_decide_eq_true (Array.mem_filter.mp hv).2)
  simp [hne]

/-- A call that is no longer on the stack is off it in both. -/
theorem Restricts.erase (h : Restricts ids s w) (id : FrameId) :
    Restricts ids { s with active := s.active.erase id } { w with active := w.active.erase id } where
  frames_eq := h.frames_eq
  active_eq := by simp only [h.active_eq, List.erase_filter]

theorem Restricts.erase_left (h : Restricts ids s w) {id : FrameId} (hid : id ∉ ids) :
    Restricts ids { s with active := s.active.erase id } w where
  frames_eq := h.frames_eq
  active_eq := by
    rw [← List.erase_filter, ← h.active_eq]
    refine (List.erase_of_not_mem fun hmem => hid ?_).symm
    rw [h.active_eq] at hmem
    exact of_decide_eq_true (List.mem_filter.mp hmem).2

/-! ## One event, and all events of a window -/

/-- The return of a call: a window that does not know the call ignores it. -/
theorem Restricts.afterReturn (h : Restricts ids s w) (last : Bool) (id : FrameId) (value : Snapshot) :
    Restricts ids (s.afterReturn last id value) (w.afterReturn last id value) := by
  have hf (status : FrameStatus) (v : FrameView) :
      ({ v with returned := some value, status } : FrameView).id = v.id := rfl
  unfold ReplayState.afterReturn
  by_cases hid : id ∈ ids
  · rw [h.knows_eq hid]
    cases s.knows id with
    | false => exact h
    | true =>
      cases last with
      | true => exact h.updateFrame id (hf .returning)
      | false => exact (h.updateFrame id (hf .returned)).erase id
  · rw [h.not_knows hid]
    cases s.knows id with
    | false => exact h
    | true =>
      cases last with
      | true => exact h.updateFrame_left hid (hf .returning)
      | false => exact (h.updateFrame_left hid (hf .returned)).erase_left hid

theorem Restricts.after (h : Restricts ids s w) (last : Bool) {e : Event}
    (he : ∀ id, e.called? = some id → id ∈ ids) : Restricts ids (s.after last e) (w.after last e) := by
  have hline (x y : Option Nat) : Restricts ids { s with currentLine := x } { w with currentLine := y } :=
    ⟨h.frames_eq, h.active_eq⟩
  obtain ⟨payload, message, line, frameId⟩ := e
  cases payload with
  | call frame depth =>
    have hid : frame.id ∈ ids := he frame.id rfl
    constructor
    · show w.frames.push _ = (s.frames.push _).filter _
      rw [Array.filter_push, if_pos (decide_eq_true (by exact hid)), h.frames_eq]
    · show frame.id :: w.active = (frame.id :: s.active).filter fun i => decide (i ∈ ids)
      rw [List.filter_cons_of_pos (by exact decide_eq_true hid), h.active_eq]
  | ret frame value depth => exact (hline _ _).afterReturn last frame.id value
  | line => exact hline _ _
  | set name value locals =>
    cases frameId with
    | none => exact hline _ _
    | some id => exact (hline _ _).updateFrame id fun _ => rfl
  | log text => exact ⟨h.frames_eq, h.active_eq⟩

/-- Every event of a window: what it calls is in the set. -/
theorem Restricts.afterAll {es : List Event} (h : Restricts ids s w) (hes : Timeline.called es ⊆ ids) :
    Restricts ids (es.foldl (ReplayState.after false) s) (es.foldl (ReplayState.after false) w) := by
  induction es generalizing s w with
  | nil => exact h
  | cons e es ih =>
    refine ih (h.after false fun id hid => hes ?_) fun id hid => hes ?_
    · exact List.mem_filterMap.mpr ⟨e, List.mem_cons_self, hid⟩
    · obtain ⟨x, hx, hcall⟩ := List.mem_filterMap.mp hid
      exact List.mem_filterMap.mpr ⟨x, List.mem_cons_of_mem _ hx, hcall⟩

/-! ## Output -/

theorem output_afterReturn (s : ReplayState) (last : Bool) (id : FrameId) (value : Snapshot) :
    (s.afterReturn last id value).output = s.output := by
  unfold ReplayState.afterReturn
  split
  · cases last <;> rfl
  · rfl

theorem output_after (s : ReplayState) (last : Bool) (e : Event) :
    (s.after last e).output = s.output ++ e.logged?.toList := by
  obtain ⟨payload, message, line, frameId⟩ := e
  cases payload with
  | ret frame value depth => exact (output_afterReturn _ last frame.id value).trans (by simp [Event.logged?])
  | set name value locals => cases frameId <;> simp [ReplayState.after, afterPayload, Event.logged?, updateFrame]
  | _ => simp [ReplayState.after, afterPayload, Event.logged?]

theorem output_foldl (s : ReplayState) (es : List Event) :
    (es.foldl (ReplayState.after false) s).output = s.output ++ Timeline.output es.toArray := by
  induction es generalizing s with
  | nil => simp [Timeline.output]
  | cons e es ih =>
    rw [List.foldl_cons, ih, output_after]
    cases h : e.logged? <;> simp [Timeline.output, h]

end ReplayState

/-- Replay at a position of any events prints what they log up to the position. -/
theorem output_reconstruct (t : Timeline) {i : Nat} (hi : i < t.size) :
    (reconstruct t i).output = (Timeline.output (t.take (i + 1))).toArray := by
  have hmin : min i (t.size - 1) = i := by omega
  have hlist : (t.take (i + 1)).toList = t.toList.take i ++ [t[i]] := by
    simp [List.take_add_one, hi]
  have hsplit : Timeline.output (t.take (i + 1)) =
      Timeline.output (t.toList.take i).toArray ++ t[i].logged?.toList := by
    rw [Timeline.output, hlist, List.filterMap_append]
    cases h : t[i].logged? <;> simp [Timeline.output, h]
  simp only [reconstruct, hmin, Array.getElem?_eq_getElem hi]
  rw [ReplayState.output_after, ReplayState.output_foldl, hsplit]
  simp [ReplayState.empty]

namespace Recorder

open Timeline ReplayState

/-! ## Every window -/

/-- At the start of a window replay of the whole timeline knows no call of the window. -/
theorem restricts_before (ops : List Op) (start : Nat) :
    Restricts (called ((record ops).events.toList.drop start))
      (((record ops).events.toList.take start).foldl (ReplayState.after false) .empty) .empty := by
  obtain ⟨done, -, -, -, hdone⟩ := exists_prefix ops (List.take_prefix start _)
  have hall : Fits (record ops).events.toList := (formed_record ops).fits
  rw [← List.take_append_drop start (record ops).events.toList, ← hdone] at hall
  have hold : ∀ id < (record done).frames.size, id ∉ called ((record ops).events.toList.drop start) := by
    intro id hid
    refine hall.not_mem_called ?_
    rw [(formed_record done).called_eq]
    exact List.mem_range.mpr hid
  have hstate : ((record ops).events.toList.take start).foldl (ReplayState.after false) .empty =
      (record done).settled := by
    rw [← hdone]
    exact replayed_record done
  rw [hstate]
  constructor
  · refine (Array.filter_eq_empty_iff.mpr fun v hv => ?_).symm
    obtain ⟨a, ha, rfl⟩ := Array.mem_map.mp hv
    obtain ⟨i, hi⟩ := Array.getElem?_of_mem ha
    have hid : a.id = i := (sound_record done).id_eq i a hi
    have hlt : a.id < (record done).frames.size := hid ▸ (Array.getElem?_eq_some_iff.mp hi).1
    exact fun hmem => hold a.id hlt (of_decide_eq_true hmem)
  · refine (List.filter_eq_nil_iff.mpr fun id hid hmem => ?_).symm
    exact hold id ((sound_record done).active_lt id hid) (of_decide_eq_true hmem)

/-- Replay of a window at a position of it: its calls are those that replay of the whole timeline has there
and that are called in the window, in the same order and with the same arguments, callers, depths, statuses,
locals and results, its stack is the part of the stack that these calls are, and its output is what is
logged from the start of the window on. -/
theorem reconstruct_window (ops : List Op) {start i : Nat} (hstart : start ≤ i)
    (hi : i < (record ops).events.size) :
    (reconstruct ((record ops).events.extract start) (i - start)).frames =
        ((reconstruct (record ops).events i).frames.filter fun v =>
          v.id ∈ called ((record ops).events.toList.drop start)) ∧
      (reconstruct ((record ops).events.extract start) (i - start)).activeStack =
        ((reconstruct (record ops).events i).activeStack.filter
          (· ∈ called ((record ops).events.toList.drop start))) ∧
      (reconstruct ((record ops).events.extract start) (i - start)).output =
        (Timeline.output ((record ops).events.extract start (i + 1))).toArray := by
  have hbefore := restricts_before ops start
  generalize (record ops).events = t at hi hbefore ⊢
  have hsize : i - start < (t.extract start).size := by
    rw [Array.size_extract]
    omega
  have hlist : (t.extract start).toList = t.toList.drop start := by
    rw [Array.toList_extract, List.extract_eq_take_drop, List.take_of_length_le (by simp)]
  have hget : (t.extract start)[i - start]? = t[i]? := by
    rw [← Array.getElem?_toList, hlist, List.getElem?_drop, Nat.add_sub_cancel' hstart, Array.getElem?_toList]
  -- The events before the position are those before the window and then those of the window.
  have htake : t.toList.take i = t.toList.take start ++ (t.extract start).toList.take (i - start) := by
    rw [hlist, ← List.take_add, Nat.add_sub_cancel' hstart]
  have hcalled : ∀ e ∈ t.toList.drop start, ∀ id, e.called? = some id → id ∈ called (t.toList.drop start) :=
    fun e he id hid => List.mem_filterMap.mpr ⟨e, he, hid⟩
  have hat : Restricts (called (t.toList.drop start)) (reconstruct t i)
      (reconstruct (t.extract start) (i - start)) := by
    have hmin : min i (t.size - 1) = i := by omega
    have hmin' : min (i - start) ((t.extract start).size - 1) = i - start := by omega
    have hmem : t[i] ∈ t.toList.drop start := by
      refine List.mem_drop_iff_getElem.mpr ⟨i - start, ?_, ?_⟩
      · rwa [Nat.sub_add_cancel hstart]
      · simp [Nat.add_sub_cancel' hstart]
    have hsub : called ((t.extract start).toList.take (i - start)) ⊆ called (t.toList.drop start) := fun id hid => by
      obtain ⟨e, he, hcall⟩ := List.mem_filterMap.mp hid
      exact hcalled e (hlist ▸ List.mem_of_mem_take he) id hcall
    have hwindow := (hbefore.afterAll hsub).after true (hcalled _ hmem)
    simp only [reconstruct, hmin, hmin', hget, Array.getElem?_eq_getElem hi, htake, List.foldl_append]
    exact ⟨hwindow.frames_eq, hwindow.active_eq⟩
  refine ⟨hat.frames_eq, ?_, ?_⟩
  · rw [ReplayState.activeStack, ReplayState.activeStack, hat.active_eq, List.filter_reverse]
  · rw [output_reconstruct _ hsize]
    have hsame : (t.extract start).take (i - start + 1) = t.extract start (i + 1) := by
      rw [← Array.toList_inj, Array.toList_extract, hlist, Array.toList_extract, List.extract_eq_take_drop,
        List.extract_eq_take_drop, List.drop_zero, Nat.sub_zero, Nat.sub_add_comm hstart]
    rw [hsame]

/-- `f` calls `g`, which prints, and both return. -/
def nestedOps : List Op :=
  [.call "f" [] none, .call "g" [] none, .log "x" none, .ret .undefined none, .ret .undefined none]

/-- A window from the call of `g` to the return of `f`, which the window does not know. -/
theorem reconstruct_window_nestedOps :
    1 ≤ 4 ∧ 4 < (record nestedOps).events.size ∧
      (reconstruct ((record nestedOps).events.extract 1) (4 - 1)).frames =
        ((reconstruct (record nestedOps).events 4).frames.filter fun v =>
          v.id ∈ called ((record nestedOps).events.toList.drop 1)) ∧
      (reconstruct ((record nestedOps).events.extract 1) (4 - 1)).activeStack =
        ((reconstruct (record nestedOps).events 4).activeStack.filter
          (· ∈ called ((record nestedOps).events.toList.drop 1))) ∧
      (reconstruct ((record nestedOps).events.extract 1) (4 - 1)).output =
        (Timeline.output ((record nestedOps).events.extract 1 (4 + 1))).toArray :=
  ⟨by decide, by decide, reconstruct_window nestedOps (by decide) (by decide)⟩

end Recorder

end CallTrace
