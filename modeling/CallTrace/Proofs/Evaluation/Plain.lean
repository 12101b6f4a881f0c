import CallTrace.Proofs.Evaluation.Ends
import CallTrace.Proofs.Evaluation.Rules
import CallTrace.Proofs.Recording

/-! # Computations without regard to the settings

What a run does between its checks of the limits depends on nothing but its state.

* `Exec.Plain c`: a computation only adds to the timeline, and what it fails with is no degradation.
* `Plain.rules`: what a run does with storage is plain, and so is recording.
-/

namespace CallTrace
set_option autoImplicit false

/-! ## Recording adds to the timeline -/

namespace Recorder

variable (r : Recorder)

theorem prefix_push (payload : Payload) (message : String) (line : Option Nat)
    (id : Option FrameId) :
    r.events.toList <+: (r.push payload message line id).events.toList := by
  rw [push, Array.toList_push]
  exact List.prefix_append _ _

theorem prefix_call (name : String) (args : List (String × Snapshot)) (line : Option Nat) :
    r.events.toList <+: (r.call name args line).events.toList :=
  (r.pushFrame (r.newFrame name args)).prefix_push _ _ _ _

theorem prefix_ret (value : Snapshot) (line : Option Nat) :
    r.events.toList <+: (r.ret value line).events.toList := by
  unfold ret
  split
  · exact List.prefix_rfl
  · split
    · exact r.events_popFrame ▸ List.prefix_rfl
    · rw [← events_popFrame r]
      exact prefix_push (r.popFrame.setFrame _ _) _ _ _ _

theorem prefix_set (name : String) (value : Snapshot) (line : Option Nat) :
    r.events.toList <+: (r.set name value line).events.toList := by
  unfold set
  split
  · exact List.prefix_rfl
  · split
    · exact List.prefix_rfl
    · exact prefix_push (r.setFrame _ _) _ _ _ _

theorem prefix_step (message : String) (line : Option Nat) :
    r.events.toList <+: (r.step message line).events.toList := by
  unfold step
  split
  · exact List.prefix_rfl
  · exact r.prefix_push _ _ _ _

end Recorder

namespace Exec

/-! ## Plain computations -/

/-- A computation that only adds to the timeline, and fails with no degradation. -/
structure Plain {α : Type} (c : Exec α) : Prop where
  ok : ∀ m a n, c m = .ok a n → m.recorder.events.toList <+: n.recorder.events.toList
  error : ∀ m h n, c m = .error h n → m.recorder.events.toList <+: n.recorder.events.toList ∧
    ∀ e, h = .failed e → e.isDegradation = false

namespace Plain

variable {α β : Type}

theorem pure (a : α) : Plain (Pure.pure a) where
  ok m b n h := by
    cases h
    exact List.prefix_rfl
  error m h n he := nomatch he

theorem get : Plain (get : Exec Machine) where
  ok m b n h := by
    cases h
    exact List.prefix_rfl
  error m h n he := nomatch he

/-- A change of the state that keeps the timeline or adds to it. -/
theorem modify {f : Machine → Machine}
    (h : ∀ m, m.recorder.events.toList <+: (f m).recorder.events.toList) :
    Plain (modify f : Exec Unit) where
  ok m b n he := by
    cases he
    exact h m
  error m h n he := nomatch he

theorem fail {cause : Cause} (h : ∀ text reason, cause ≠ .unsupported text reason) :
    Plain (Exec.fail cause : Exec α) where
  ok m b n he := nomatch he
  error m x n he := by
    cases he
    refine ⟨List.prefix_rfl, fun e he => ?_⟩
    cases he
    cases cause with
    | unsupported text reason => exact absurd rfl (h text reason)
    | _ => rfl

theorem outOfFuel : Plain (outOfFuel : Exec α) where
  ok m b n he := nomatch he
  error m x n he := by
    cases he
    exact ⟨List.prefix_rfl, fun e he => nomatch he⟩

theorem bind {c : Exec α} {f : α → Exec β} (h : Plain c) (hf : ∀ a, Plain (f a)) :
    Plain (c >>= f) where
  ok m b n he := by
    obtain ⟨a, o, hc, hfa⟩ := ok_of_bind he
    exact (h.ok m a o hc).trans ((hf a).ok o b n hfa)
  error m x n he := by
    cases hc : c m with
    | ok a o =>
      rw [bind_of_ok hc] at he
      obtain ⟨hadd, herror⟩ := (hf a).error o x n he
      exact ⟨(h.ok m a o hc).trans hadd, herror⟩
    | error y o =>
      rw [bind_of_error hc] at he
      cases he
      exact h.error m _ _ hc

theorem assign (name : String) (v : Value) : Plain (Exec.assign name v) where
  ok m b n h := by
    unfold Exec.assign at h
    split at h
    · cases h
      exact List.prefix_rfl
    · cases h
  error m x n h := by
    unfold Exec.assign at h
    split at h
    · cases h
    · cases h
      refine ⟨List.prefix_rfl, fun e he => ?_⟩
      cases he
      rfl

theorem rules : WriteRules @Plain where
  pure := pure
  fail := fail
  get h _ := get.bind h
  bind := bind
  onHeap f := {
    ok := fun m b n h => by
      cases h
      exact List.prefix_rfl
    error := fun m h n he => nomatch he }
  assign := assign

end Plain

/-- A change of the state that keeps the recording. -/
theorem plain_modify_of_recorder {f : Machine → Machine} (h : ∀ m, (f m).recorder = m.recorder) :
    Plain (modify f : Exec Unit) := .modify fun m => (h m).symm ▸ List.prefix_rfl

theorem plain_setLine (line : Nat) : Plain (setLine line) := plain_modify_of_recorder fun _ => rfl

theorem plain_modifyStack (f : CallStack → CallStack) : Plain (modifyStack f) :=
  plain_modify_of_recorder fun _ => rfl

theorem plain_noteEntry (env : Env) (name : String) : Plain (noteEntry env name) :=
  plain_modify_of_recorder fun _ => rfl

/-! ## Recording -/

theorem plain_recordSet (name : String) : Plain (recordSet name) := by
  refine .modify fun m => ?_
  split
  · split
    · exact m.recorder.prefix_set _ _ _
    · exact List.prefix_rfl
  · exact List.prefix_rfl

theorem plain_recordRoot (root : Option String) : Plain (recordRoot root) := by
  cases root with
  | none => exact .pure ()
  | some name => exact plain_recordSet name

theorem plain_recordLog (text : String) : Plain (recordLog text) :=
  .modify fun m => m.recorder.prefix_push _ _ _ _

theorem plain_recordReturn (v : Value) (line : Nat) : Plain (recordReturn v line) :=
  .modify fun m => m.recorder.prefix_ret _ _

theorem plain_finish (f : Instrumented.Function) (flow : Flow) : Plain (finish f flow) := by
  unfold finish
  split
  · exact .pure _
  · exact (plain_recordReturn _ _).bind fun _ => .pure _

end Exec

end CallTrace
