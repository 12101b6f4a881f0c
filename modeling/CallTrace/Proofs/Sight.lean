import CallTrace.Proofs.Scopes

/-! # Variables under open scopes

A variable of a function is out of reach while a scope has another one of its name, and nothing that is done there
changes it.

* `Sight`: how a variable of a function stands when some scopes are open: it is visible, or one of them hides it.
* `Chain.Sees x w σ`, `Frame.Sees x w σ`, `CallStack.Sees x w σ`: the variable `x` has the value `w` and stands as `σ`
  says. There is one lemma for each operation on variables.
-/

namespace CallTrace
set_option autoImplicit false

/-- How a variable of a function stands when scopes are open: it is visible through some of them, or it is hidden by
one that has `scopes` others outside of it and `inner` ones inside. -/
inductive Sight where
  | clear (scopes : Nat)
  | hidden (scopes inner : Nat)

namespace Sight

/-- The same in one more scope. -/
def inside : Sight → Sight
  | clear k => clear (k + 1)
  | hidden k n => hidden k (n + 1)

def isClear : Sight → Bool
  | clear _ => true
  | hidden _ _ => false

/-- Whether the innermost scope is inside of the one that hides the variable. -/
def isCovered : Sight → Bool
  | hidden _ (_ + 1) => true
  | _ => false

end Sight

namespace Chain

/-- The outermost table has the value `w` for `x`, and of the scopes outside of the one that hides `x`, if there is one,
none has the name. -/
inductive Sees (x : String) (w : Value) : Sight → Chain → Prop
  | base {vars : Assoc Value} (h : List.lookup x vars = some w) : Sees x w (.clear 0) (.base vars)
  | through {k : Nat} {vars : Assoc Value} {outer : Chain} (h : List.lookup x vars = none)
      (houter : Sees x w (.clear k) outer) : Sees x w (.clear (k + 1)) (.scope vars outer)
  | hidden {k : Nat} {vars : Assoc Value} {outer : Chain} (h : (List.lookup x vars).isSome)
      (houter : Sees x w (.clear k) outer) : Sees x w (.hidden k 0) (.scope vars outer)
  | inner {k n : Nat} {vars : Assoc Value} {outer : Chain} (houter : Sees x w (.hidden k n) outer) :
      Sees x w (.hidden k (n + 1)) (.scope vars outer)

namespace Sees

variable {x : String} {w : Value} {σ : Sight} {c : Chain}

theorem lookup {k : Nat} (h : c.Sees x w (.clear k)) : c.lookup x = some w := by
  generalize hσ : Sight.clear k = σ at h
  induction h generalizing k with
  | base h => exact h
  | through h _ ih => rw [Chain.lookup, h, Option.none_or, ih rfl]
  | hidden _ _ _ | inner _ _ => cases hσ

/-- What is overwritten is another variable, unless `x` is hidden. -/
theorem overwrite (h : c.Sees x w σ) {name : String} (hname : σ.isClear → name ≠ x) (v : Value) :
    (c.overwrite name v).Sees x w σ := by
  induction h with
  | @base vars h =>
    rw [Chain.overwrite]
    split
    · exact .base (by rw [Assoc.lookup_put_of_ne (hname rfl).symm, h])
    · exact .base h
  | @through k vars outer h houter ih =>
    rw [Chain.overwrite]
    split
    · exact .through (by rw [Assoc.lookup_put_of_ne (hname rfl).symm, h]) houter
    · exact .through h (ih fun _ => hname rfl)
  | @hidden k vars outer h houter ih =>
    rw [Chain.overwrite]
    split
    · next hmem => exact .hidden (by rwa [Assoc.isSome_lookup_put hmem]) houter
    · next hmem => exact .hidden h (ih fun _ he => hmem (he ▸ h))
  | @inner k n vars outer houter ih =>
    rw [Chain.overwrite]
    split
    · exact .inner houter
    · exact .inner (ih fun hσ => absurd hσ Bool.false_ne_true)

/-- A declaration is one of another variable, unless a scope outside of the innermost one hides `x`. -/
theorem declare (h : c.Sees x w σ) {name : String} (hname : name = x → σ.isCovered) (v : Value) :
    (c.declareSpilling name v).Sees x w σ := by
  have hne (hσ : σ.isCovered = false) : x ≠ name := fun he => Bool.false_ne_true (hσ.symm.trans (hname he.symm))
  cases h with
  | base h => exact .base (by rw [Assoc.lookup_put_of_ne (hne rfl), h])
  | through h houter =>
    refine .through (by rw [Assoc.lookup_put_of_ne (hne rfl), h]) ?_
    split
    · exact houter.overwrite (fun _ => (hne rfl).symm) _
    · exact houter
  | hidden h houter =>
    refine .hidden (by rwa [Assoc.lookup_put_of_ne (hne rfl)]) ?_
    split
    · exact houter.overwrite (fun _ => (hne rfl).symm) _
    · exact houter
  | inner houter =>
    refine .inner ?_
    split
    · exact houter.overwrite (fun hσ => absurd hσ Bool.false_ne_true) _
    · exact houter

/-- Another variable of its name hides a visible one. -/
theorem declare_self {k : Nat} (h : c.Sees x w (.clear (k + 1))) (v : Value) :
    (c.declareSpilling x v).Sees x w (.hidden k 0) := by
  cases h with
  | through h houter =>
    rw [declareSpilling, h]
    exact .hidden (by rw [Assoc.lookup_put_self]; rfl) houter

theorem pushScope (h : c.Sees x w σ) : (Chain.scope [] c).Sees x w σ.inside := by
  cases σ with
  | clear k => exact .through rfl h
  | hidden k n => exact .inner h

theorem popScope (h : c.Sees x w σ.inside) : c.popScope.Sees x w σ := by
  cases σ with
  | clear k =>
    cases h with
    | through _ houter => exact houter
  | hidden k n =>
    cases h with
    | inner houter => exact houter

theorem popScope_hidden {k : Nat} (h : c.Sees x w (.hidden k 0)) : c.popScope.Sees x w (.clear k) := by
  cases h with
  | hidden _ houter => exact houter

end Sees

end Chain

/-- The variable `x` of a function has the value `w`, and stands as `σ` says. -/
def Frame.Sees (x : String) (w : Value) (σ : Sight) (f : Frame) : Prop := ∃ c, f.Represents c ∧ c.Sees x w σ

/-- The same of the innermost call. -/
def CallStack.Sees (x : String) (w : Value) (σ : Sight) (s : CallStack) : Prop :=
  ∃ f rest, s.frames = f :: rest ∧ f.Sees x w σ

section

variable {x name : String} {w : Value} {σ τ : Sight} {k : Nat}

namespace Frame.Sees

variable {f : Frame}

theorem lookup (h : f.Sees x w (.clear k)) : f.lookup x = some w := by
  obtain ⟨c, hf, hc⟩ := h
  rw [hf.lookup, hc.lookup]

theorem assign (h : f.Sees x w σ) (hvar : (f.lookup name).isSome) (hname : σ.isClear → name ≠ x) (v : Value) :
    (f.assign name v).Sees x w σ := by
  obtain ⟨c, hf, hc⟩ := h
  have hassigned : scoping.overwrite f name v = f.assign name v := if_pos hvar
  exact ⟨_, hassigned ▸ hf.overwrite name v, hc.overwrite hname v⟩

theorem declare (h : f.Sees x w σ) (hname : name = x → σ.isCovered) (v : Value) : (f.declare name v).Sees x w σ := by
  obtain ⟨c, hf, hc⟩ := h
  exact ⟨_, hf.declare name v, hc.declare hname v⟩

theorem declare_self (h : f.Sees x w (.clear (k + 1))) (v : Value) : (f.declare x v).Sees x w (.hidden k 0) := by
  obtain ⟨c, hf, hc⟩ := h
  exact ⟨_, hf.declare x v, hc.declare_self v⟩

theorem pushScope (h : f.Sees x w σ) : f.pushScope.Sees x w σ.inside := by
  obtain ⟨c, hf, hc⟩ := h
  exact ⟨_, hf.pushScope, hc.pushScope⟩

theorem popScope (h : f.Sees x w σ.inside) : f.popScope.Sees x w σ := by
  obtain ⟨c, hf, hc⟩ := h
  exact ⟨_, hf.popScope, hc.popScope⟩

theorem popScope_hidden (h : f.Sees x w (.hidden k 0)) : f.popScope.Sees x w (.clear k) := by
  obtain ⟨c, hf, hc⟩ := h
  exact ⟨_, hf.popScope, hc.popScope_hidden⟩

end Frame.Sees

namespace CallStack.Sees

variable {s t : CallStack}

theorem of_frames (h : s.Sees x w σ) (ht : t.frames = s.frames) : t.Sees x w σ := by
  obtain ⟨f, rest, hs, hf⟩ := h
  exact ⟨f, rest, ht.trans hs, hf⟩

theorem lookup (h : s.Sees x w (.clear k)) : s.lookup x = some w := by
  obtain ⟨f, rest, hs, hf⟩ := h
  simp only [CallStack.lookup, hs, hf.lookup, Option.some_or]

theorem updateCurrent {g : Frame → Frame} (h : s.Sees x w σ) (hg : ∀ f : Frame, f.Sees x w σ → (g f).Sees x w τ) :
    (s.updateCurrent g).Sees x w τ := by
  obtain ⟨globals, frames, n, hn⟩ := s
  obtain ⟨f, rest, rfl, hf⟩ := h
  exact ⟨g f, rest, rfl, hg f hf⟩

/-- What is assigned to is another variable, unless `x` is hidden. -/
theorem assign {v : Value} (h : s.Sees x w σ) (ht : s.assign? name v = some t) (hname : σ.isClear → name ≠ x) :
    t.Sees x w σ := by
  obtain ⟨globals, frames, n, hn⟩ := s
  obtain ⟨f, rest, rfl, hf⟩ := h
  unfold assign? at ht
  split at ht
  · next hlocal =>
    obtain rfl := Option.some.inj ht
    exact ⟨_, rest, rfl, hf.assign hlocal hname v⟩
  · split at ht
    · obtain rfl := Option.some.inj ht
      exact ⟨f, rest, rfl, hf⟩
    · cases ht

end CallStack.Sees

end

end CallTrace
