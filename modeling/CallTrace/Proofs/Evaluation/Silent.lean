import CallTrace.Proofs.Evaluation.Ends
import CallTrace.Proofs.Evaluation.Rules
import CallTrace.Proofs.Stack

/-! # Computations that record nothing

* `Machine.Alike m n`: the recording, the number of active calls and the names of the local variables are
  the same.
* `Exec.Silent c`: a computation only leads to states that are alike, also where it fails, and it stays at its line.
* `Silent.rules`: what only reads and writes storage is silent.
-/

namespace CallTrace
set_option autoImplicit false

structure Machine.Alike (m n : Machine) : Prop where
  recorder : n.recorder = m.recorder
  depth : n.stack.depth = m.stack.depth
  isLocal : ∀ name, n.stack.isLocal name = m.stack.isLocal name

namespace Machine.Alike

variable {m n o : Machine}

theorem refl (m : Machine) : m.Alike m := ⟨rfl, rfl, fun _ => rfl⟩

theorem trans (h : m.Alike n) (h' : n.Alike o) : m.Alike o :=
  ⟨h'.recorder.trans h.recorder, h'.depth.trans h.depth, fun name => (h'.isLocal name).trans (h.isLocal name)⟩

theorem of_eq (hrecorder : n.recorder = m.recorder) (hstack : n.stack = m.stack) : m.Alike n :=
  ⟨hrecorder, by rw [hstack], fun _ => by rw [hstack]⟩

end Machine.Alike

namespace CallStack

/-- Writing to a variable brings in no name. -/
theorem isLocal_assign {s t : CallStack} {name : String} {v : Value} (h : s.assign? name v = some t)
    (other : String) : t.isLocal other = s.isLocal other := by
  obtain ⟨globals, frames, depth, hdepth⟩ := s
  unfold assign? at h
  split at h
  · next hlocal =>
    cases h
    cases frames with
    | nil => cases hlocal
    | cons f rest =>
      change ((f.assign name v).lookup other).isSome = (f.lookup other).isSome
      by_cases ho : other = name
      · subst ho
        have hold : (f.lookup other).isSome := hlocal
        rw [hold, Frame.assign, Frame.lookup, Assoc.lookup_put_self]
        rfl
      · exact congrArg _ (Assoc.lookup_put_of_ne ho v f.vars)
  · split at h
    · cases h
      rfl
    · cases h

end CallStack

namespace Exec

variable {α β : Type}

/-- A computation that records nothing, whether it gives a result or fails, and stays at its line. -/
structure Silent (c : Exec α) : Prop where
  ok : ∀ {m a n}, c m = .ok a n → m.Alike n
  error : ∀ {m e n}, c m = .error e n → m.Alike n
  line : ∀ {m a n}, c m = .ok a n → n.line = m.line
  raised : ∀ {m e n}, c m = .error (.failed e) n → e.line = m.line

namespace Silent

theorem pure (a : α) : Silent (Pure.pure a) where
  ok h := by
    cases h
    exact .refl _
  error h := nomatch h
  line h := by
    cases h
    rfl
  raised h := nomatch h

theorem get : Silent (get : Exec Machine) where
  ok h := by
    cases h
    exact .refl _
  error h := nomatch h
  line h := by
    cases h
    rfl
  raised h := nomatch h

theorem modify {f : Machine → Machine} (hf : ∀ m, Machine.Alike m (f m)) (hline : ∀ m, (f m).line = m.line) :
    Silent (modify f : Exec Unit) where
  ok h := by
    cases h
    exact hf _
  error h := nomatch h
  line h := by
    cases h
    exact hline _
  raised h := nomatch h

theorem fail (cause : Cause) : Silent (Exec.fail cause : Exec α) where
  ok h := nomatch h
  error h := by
    cases h
    exact .refl _
  line h := nomatch h
  raised h := by
    cases h
    rfl

theorem outOfFuel : Silent (Exec.outOfFuel : Exec α) where
  ok h := nomatch h
  error h := by
    cases h
    exact .refl _
  line h := nomatch h
  raised h := nomatch h

theorem ofExcept (r : Except Cause α) : Silent (Exec.ofExcept r) := by
  cases r with
  | ok a => exact pure a
  | error cause => exact fail cause

theorem bind {c : Exec α} {f : α → Exec β} (h : Silent c) (hf : ∀ a, Silent (f a)) : Silent (c >>= f) where
  ok {m b n} hc := by
    obtain ⟨a, o, ha, hb⟩ := ok_of_bind hc
    exact (h.ok ha).trans ((hf a).ok hb)
  error {m e n} hc := by
    rcases error_of_bind hc with ha | ⟨a, o, ha, hb⟩
    · exact h.error ha
    · exact (h.ok ha).trans ((hf a).error hb)
  line {m b n} hc := by
    obtain ⟨a, o, ha, hb⟩ := ok_of_bind hc
    exact ((hf a).line hb).trans (h.line ha)
  raised {m e n} hc := by
    rcases error_of_bind hc with ha | ⟨a, o, ha, hb⟩
    · exact h.raised ha
    · exact ((hf a).raised hb).trans (h.line ha)

theorem assign (name : String) (v : Value) : Silent (Exec.assign name v) where
  ok {m a n} h := by
    unfold Exec.assign at h
    split at h
    · next stack hstack =>
      cases h
      exact ⟨rfl, (CallStack.SameShape.assign hstack).depth_eq, CallStack.isLocal_assign hstack⟩
    · cases h
  error {m e n} h := by
    unfold Exec.assign at h
    split at h
    · cases h
    · cases h
      exact .refl _
  line {m a n} h := by
    unfold Exec.assign at h
    split at h
    · cases h
      rfl
    · cases h
  raised {m e n} h := by
    unfold Exec.assign at h
    split at h
    · cases h
    · cases h
      rfl

theorem rules : WriteRules @Silent where
  pure := pure
  fail _ := fail _
  get h _ := get.bind h
  bind := bind
  onHeap f := {
    ok := fun h => by
      cases h
      exact .of_eq rfl rfl
    error := fun h => nomatch h
    line := fun h => by
      cases h
      rfl
    raised := fun h => nomatch h }
  assign := assign

end Silent

/-! ## Other steps -/

theorem silent_noteEntry (env : Env) (name : String) : Silent (noteEntry env name) :=
  .modify (fun _ => .of_eq rfl rfl) fun _ => rfl

theorem silent_checkEvents (env : Env) : Silent (checkEvents env) := by
  have hcases (m : Machine) : checkEvents env m = .ok () m ∨
      checkEvents env m = .error (.failed ⟨.eventLimit env.config.maxEvents, m.line⟩) m := by
    unfold checkEvents
    split
    · exact .inr rfl
    · exact .inl rfl
  constructor <;> intro m x n h <;> rcases hcases m with he | he <;> cases he.symm.trans h
  · exact .refl m
  · exact .refl m
  · rfl
  · rfl

end Exec

end CallTrace
