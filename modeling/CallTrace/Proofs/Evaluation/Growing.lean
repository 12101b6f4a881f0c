import CallTrace.Proofs.Evaluation.Reached
import CallTrace.Proofs.Evaluation.Rules
import CallTrace.Proofs.Heap.Forest
import CallTrace.Proofs.Ownership

/-! # States in which lists are a forest

* `Machine.Ordered`: lists are a forest, and the values of all variables exist.
* `Exec.Growing m n`: the state `n` is ordered, and no list of `m` has got a new place.
* `Exec.Still c`: the computation `c` changes neither the heap nor the variables.
* `Exec.Preserves stop m post c n`: from the state `n`, as a part of something that began in `m`, the
  computations `c` lead to states that have grown from `m`, also when they end with an error. They differ in
  nothing but the reason with which they are stopped, and are given as a function of it.
* `Preserves.bind`, `Preserves.mapM`, `Preserves.sequence`, `Preserves.repeatWhile`: the rules for
  computations in order.
-/

namespace CallTrace
set_option autoImplicit false

open Instrumented (Stmt)

/-! ## The values of all variables -/

namespace CallStack

/-- The values of all variables have a property, also those that are hidden. -/
def All (p : Value → Prop) (s : CallStack) : Prop := ∀ f ∈ s.owners, ∀ v, f.Holds v → p v

variable {p q : Value → Prop} {s t : CallStack} {name : String} {v : Value}

namespace All

theorem empty : All p .empty := by
  intro f hf v hv
  rw [List.mem_singleton.mp hf] at hv
  exact absurd hv (Frame.not_holds_new _)

theorem imp (h : s.All p) (hpq : ∀ v, p v → q v) : s.All q := fun f hf v hv => hpq v (h f hf v hv)

theorem lookup (h : s.All p) (hv : s.lookup name = some v) : p v := by
  obtain ⟨globals, frames, n, hn⟩ := s
  have hglobals (hv : globals.lookup name = some v) : p v :=
    h globals List.mem_cons_self v (Frame.holds_of_lookup hv)
  cases frames with
  | nil => exact hglobals hv
  | cons f rest =>
    rcases Option.or_eq_some_iff.mp hv with hv | ⟨-, hv⟩
    · exact h f (List.mem_cons_of_mem _ List.mem_cons_self) v (Frame.holds_of_lookup hv)
    · exact hglobals hv

/-- The innermost frame may be changed. -/
theorem updateCurrent {g : Frame → Frame} (h : s.All p)
    (hg : ∀ f w, (g f).Holds w → f.Holds w ∨ p w) : (s.updateCurrent g).All p := by
  obtain ⟨globals, frames, n, hn⟩ := s
  have hchanged {f : Frame} (hf : f ∈ owners ⟨globals, frames, n, hn⟩) (w : Value)
      (hw : (g f).Holds w) : p w := (hg f w hw).elim (h f hf w) id
  intro f hf w hw
  cases frames with
  | nil =>
    rw [List.mem_singleton.mp hf] at hw
    exact hchanged List.mem_cons_self w hw
  | cons top rest =>
    rcases List.mem_cons.mp hf with rfl | hf
    · exact h _ List.mem_cons_self w hw
    · rcases List.mem_cons.mp hf with rfl | hf
      · exact hchanged (List.mem_cons_of_mem _ List.mem_cons_self) w hw
      · exact h f (List.mem_cons_of_mem _ (List.mem_cons_of_mem _ hf)) w hw

theorem declare (h : s.All p) (hv : p v) : (s.declare name v).All p :=
  h.updateCurrent fun _ w hw => (Frame.holds_of_declare hw).imp_right fun (he : w = v) => he ▸ hv

theorem assign (h : s.All p) (hv : p v) (ht : s.assign? name v = some t) : t.All p := by
  have hassign (f : Frame) (w : Value) (hw : (f.assign name v).Holds w) : f.Holds w ∨ p w :=
    (Frame.holds_of_assign hw).imp_right fun (he : w = v) => he ▸ hv
  rcases assign_cases ht with rfl | rfl
  · exact h.updateCurrent hassign
  · intro f hf w hw
    rcases List.mem_cons.mp hf with rfl | hf
    · exact (hassign s.globals w hw).elim (h _ List.mem_cons_self w) id
    · exact h f (List.mem_cons_of_mem _ hf) w hw

theorem pushScope (h : s.All p) : s.pushScope.All p :=
  h.updateCurrent fun _ _ hw => .inl (Frame.holds_pushScope.mp hw)

theorem popScope (h : s.All p) : s.popScope.All p :=
  h.updateCurrent fun _ _ hw => .inl (Frame.holds_of_popScope hw)

theorem pushFrame (h : s.All p) (name : String) : (s.pushFrame name).All p := by
  intro f hf v hv
  rcases List.mem_cons.mp hf with rfl | hf
  · exact h _ List.mem_cons_self v hv
  · rcases List.mem_cons.mp hf with rfl | hf
    · exact absurd hv (Frame.not_holds_new name)
    · exact h f (List.mem_cons_of_mem _ hf) v hv

theorem popFrame (h : s.All p) : s.popFrame.All p := by
  obtain ⟨globals, frames, n, hn⟩ := s
  cases frames with
  | nil => exact h
  | cons top rest =>
    intro f hf v hv
    rcases List.mem_cons.mp hf with rfl | hf
    · exact h _ List.mem_cons_self v hv
    · exact h f (List.mem_cons_of_mem _ (List.mem_cons_of_mem _ hf)) v hv

theorem declares {vars : List (String × Value)} (h : s.All p) (hvars : ∀ b ∈ vars, p b.2) :
    (vars.foldl (fun s (name, v) => s.declare name v) s).All p := by
  induction vars generalizing s with
  | nil => exact h
  | cons b vars ih =>
    exact ih (h.declare (hvars b List.mem_cons_self)) fun b hb => hvars b (List.mem_cons_of_mem _ hb)

end All

end CallStack

/-! ## Ordered states -/

/-- Lists are a forest, and the values of all variables exist. -/
structure Machine.Ordered (m : Machine) : Prop where
  forest : m.heap.Forest
  vars : m.stack.All m.heap.Has

theorem Machine.ordered_initial : Machine.initial.Ordered := ⟨.empty, .empty⟩

/-- The value that is returned exists, if one is. -/
def Flow.Has (flow : Flow) (m : Machine) : Prop := ∀ v, flow.returned? = some v → m.heap.Has v

namespace Exec

/-- The state `n` is ordered, and no list of `m` has got a new place. -/
structure Growing (m n : Machine) : Prop where
  ordered : n.Ordered
  grows : m.heap.Grows n.heap

namespace Growing

variable {m n o : Machine} {v : Value}

theorem refl (hm : m.Ordered) : Growing m m := ⟨hm, .refl _⟩

theorem trans (h : Growing m n) (h' : Growing n o) : Growing m o := ⟨h'.ordered, h.grows.trans h'.grows⟩

theorem has (h : Growing m n) (hv : m.heap.Has v) : n.heap.Has v := hv.of_size h.grows.size

/-- Only the heap and the variables matter. -/
theorem of_eq (h : Growing m n) (hheap : o.heap = n.heap) (hstack : o.stack = n.stack) :
    Growing m o := by
  refine ⟨⟨hheap ▸ h.ordered.forest, ?_⟩, hheap ▸ h.grows⟩
  rw [hheap, hstack]
  exact h.ordered.vars

theorem withStack (h : Growing m n) {s : CallStack} (hs : s.All n.heap.Has) :
    Growing m { n with stack := s } := ⟨⟨h.ordered.forest, hs⟩, h.grows⟩

theorem withHeap (h : Growing m n) {heap : Heap} (hforest : heap.Forest)
    (hsize : n.heap.cells.size ≤ heap.cells.size) (hgrows : m.heap.Grows heap) :
    Growing m { n with heap } :=
  ⟨⟨hforest, h.ordered.vars.imp fun _ hv => hv.of_size hsize⟩, hgrows⟩

end Growing

/-! ## Computations that change neither lists nor variables -/

/-- A computation that changes neither the heap nor the variables. -/
structure Still {α : Type} (c : Exec α) : Prop where
  ok : ∀ m a n, c m = .ok a n → n.heap = m.heap ∧ n.stack = m.stack
  error : ∀ m e n, c m = .error e n → n.heap = m.heap ∧ n.stack = m.stack

namespace Still

variable {α β : Type}

/-- A computation that gives a value, and changes at most what was recorded and where the run is. -/
theorem of_ok {c : Exec α} (h : ∀ m, ∃ a n, c m = .ok a n ∧ n.heap = m.heap ∧ n.stack = m.stack) :
    Still c where
  ok m a n hc := by
    obtain ⟨b, o, hb, ho⟩ := h m
    cases hb.symm.trans hc
    exact ho
  error m e n hc := by
    obtain ⟨b, o, hb, -⟩ := h m
    cases hb.symm.trans hc

theorem pure (a : α) : Still (Pure.pure a) := of_ok fun m => ⟨a, m, rfl, rfl, rfl⟩

/-- A change of what was recorded, or of where the run is. -/
theorem modify {f : Machine → Machine} (hf : ∀ m, (f m).heap = m.heap ∧ (f m).stack = m.stack) :
    Still (modify f : Exec Unit) := of_ok fun m => ⟨(), f m, rfl, hf m⟩

theorem fail {cause : Cause} : Still (fail cause : Exec α) where
  ok m a n hc := nomatch hc
  error m e n hc := by
    cases hc
    exact ⟨rfl, rfl⟩

theorem bind {c : Exec α} {f : α → Exec β} (h : Still c) (hf : ∀ a, Still (f a)) : Still (c >>= f) where
  ok m b n hc := by
    obtain ⟨a, o, ha, hb⟩ := ok_of_bind hc
    obtain ⟨hheap, hstack⟩ := h.ok m a o ha
    obtain ⟨hheap', hstack'⟩ := (hf a).ok o b n hb
    exact ⟨hheap'.trans hheap, hstack'.trans hstack⟩
  error m e n hc := by
    cases ha : c m with
    | ok a o =>
      rw [bind_of_ok ha] at hc
      obtain ⟨hheap, hstack⟩ := h.ok m a o ha
      obtain ⟨hheap', hstack'⟩ := (hf a).error o e n hc
      exact ⟨hheap'.trans hheap, hstack'.trans hstack⟩
    | error e' o =>
      rw [bind_of_error ha] at hc
      cases hc
      exact h.error m _ _ ha

theorem setLine (line : Nat) : Still (setLine line) := modify fun _ => ⟨rfl, rfl⟩

theorem recordLog (text : String) : Still (recordLog text) := modify fun _ => ⟨rfl, rfl⟩

theorem recordReturn (v : Value) (line : Nat) : Still (recordReturn v line) := modify fun _ => ⟨rfl, rfl⟩

theorem noteEntry (env : Env) (name : String) : Still (noteEntry env name) := modify fun _ => ⟨rfl, rfl⟩

theorem recordSet (name : String) : Still (recordSet name) := by
  refine modify fun m => ?_
  split
  · split <;> exact ⟨rfl, rfl⟩
  · exact ⟨rfl, rfl⟩

theorem recordRoot (root : Option String) : Still (recordRoot root) := by
  cases root with
  | none => exact pure ()
  | some name => exact recordSet name

theorem checkEvents (env : Env) : Still (checkEvents env) where
  ok m a n hc := by
    unfold Exec.checkEvents at hc
    split at hc
    · cases hc
    · cases hc
      exact ⟨rfl, rfl⟩
  error m e n hc := by
    unfold Exec.checkEvents at hc
    split at hc
    · cases hc
      exact ⟨rfl, rfl⟩
    · cases hc

theorem begin (env : Env) (line : Nat) (step : Bool) : Still (begin env line step) := by
  refine (setLine line).bind fun _ => ?_
  cases step with
  | false => exact checkEvents env
  | true => exact bind (modify fun _ => ⟨rfl, rfl⟩) fun _ => checkEvents env

theorem rules : ReadRules @Still where
  pure := pure
  fail _ := fail
  get h _ := {
    ok := fun m => (h m).ok m
    error := fun m => (h m).error m }
  bind := bind

end Still

/-! ## Computations that preserve order -/

/-- What some computations do that differ only in the reason with which they are stopped, as a part of
something that began in `m`. The two states are kept apart because a copy made since `m` may be stored: a list of
`n` gets a place then, but no list of `m` does. -/
inductive Preserves {α : Type} (stop : Machine → Prop) (m : Machine) (post : α → Machine → Prop)
    (c : Halt → Exec α) (n : Machine) : Prop where
  | ok {a : α} {o : Machine} (eq : ∀ x, c x n = .ok a o) (growing : Growing m o) (hpost : post a o)
  | error {e : Halt} {o : Machine} (eq : ∀ x, c x n = .error e o) (growing : Growing m o)
  | stopped {o : Machine} (eq : ∀ x, c x n = .error x o) (growing : Growing m o) (hstop : stop o)

namespace Preserves

variable {α β : Type} {stop : Machine → Prop} {post : α → Machine → Prop}
  {other : β → Machine → Prop} {c : Halt → Exec α} {m n : Machine}

/-! ### One computation -/

/-- Only what a computation does from the state matters. -/
theorem of_eq {d : Halt → Exec α} {o : Machine} (h : Preserves stop m post d o)
    (he : ∀ x, c x n = d x o) : Preserves stop m post c n := by
  cases h with
  | ok eq growing hpost => exact .ok (fun x => (he x).trans (eq x)) growing hpost
  | error eq growing => exact .error (fun x => (he x).trans (eq x)) growing
  | stopped eq growing hstop => exact .stopped (fun x => (he x).trans (eq x)) growing hstop

theorem mono {post' : α → Machine → Prop} (h : Preserves stop m post c n)
    (hp : ∀ a o, Growing m o → post a o → post' a o) : Preserves stop m post' c n := by
  cases h with
  | ok eq growing hpost => exact .ok eq growing (hp _ _ growing hpost)
  | error eq growing => exact .error eq growing
  | stopped eq growing hstop => exact .stopped eq growing hstop

theorem pure {a : α} (hn : Growing m n) (h : post a n) :
    Preserves stop m post (fun _ => Pure.pure a) n := .ok (fun _ => rfl) hn h

theorem fail {cause : Cause} (hn : Growing m n) :
    Preserves stop m post (fun _ => Exec.fail cause) n := .error (fun _ => rfl) hn

theorem outOfFuel (hn : Growing m n) : Preserves stop m post (fun _ => Exec.outOfFuel) n :=
  .error (fun _ => rfl) hn

theorem ofExcept {r : Except Cause α} (hn : Growing m n) (h : ∀ a, r = .ok a → post a n) :
    Preserves stop m post (fun _ => Exec.ofExcept r) n := by
  cases r with
  | ok a => exact .pure hn (h a rfl)
  | error cause => exact .fail hn

theorem still {c : Exec α} (h : Still c) (hn : Growing m n) :
    Preserves stop m (fun _ o => o.heap = n.heap) (fun _ => c) n := by
  cases hc : c n with
  | ok a o =>
    obtain ⟨hheap, hstack⟩ := h.ok n a o hc
    exact .ok (fun _ => hc) (hn.of_eq hheap hstack) hheap
  | error e o =>
    obtain ⟨hheap, hstack⟩ := h.error n e o hc
    exact .error (fun _ => hc) (hn.of_eq hheap hstack)

theorem quiet {c : Exec α} (h : Still c) (hn : n.Ordered) :
    Preserves stop n (fun _ _ => True) (fun _ => c) n :=
  (still h (.refl hn)).mono fun _ _ _ _ => trivial

theorem modifyStack {f : CallStack → CallStack} (hn : Growing m n) (hf : (f n.stack).All n.heap.Has) :
    Preserves stop m (fun _ o => o.heap = n.heap) (fun _ => Exec.modifyStack f) n :=
  .ok (fun _ => rfl) (hn.withStack hf) rfl

/-- What has grown from a later state has grown from an earlier one. -/
theorem since {l : Machine} (hm : Growing l m) (h : Preserves stop m post c n) :
    Preserves stop l post c n := by
  cases h with
  | ok eq growing hpost => exact .ok eq (hm.trans growing) hpost
  | error eq growing => exact .error eq (hm.trans growing)
  | stopped eq growing hstop => exact .stopped eq (hm.trans growing) hstop

/-- A computation that is never stopped, when it is stopped if it begins in certain states. -/
theorem stopIf {c : Exec α} {here : Machine → Prop} [DecidablePred here] {o : Machine}
    (h : Preserves (fun _ => False) m post (fun _ => c) n) (hstop : here n → Growing m o ∧ stop o) :
    Preserves stop m post (fun x n => if here n then .error x o else c n) n := by
  by_cases hn : here n
  · exact .stopped (fun x => if_pos hn) (hstop hn).1 (hstop hn).2
  · cases h with
    | ok eq growing hpost => exact .ok (fun x => (if_neg hn).trans (eq x)) growing hpost
    | error eq growing => exact .error (fun x => (if_neg hn).trans (eq x)) growing
    | stopped eq growing hstop => exact hstop.elim

/-! ### Known results -/

theorem of_ok {c : Exec α} (h : Preserves stop m post (fun _ => c) n) {a : α} {o : Machine}
    (hc : c n = .ok a o) : Growing m o ∧ post a o := by
  cases h with
  | ok eq growing hpost =>
    cases (eq .outOfFuel).symm.trans hc
    exact ⟨growing, hpost⟩
  | error eq growing => cases (eq .outOfFuel).symm.trans hc
  | stopped eq growing hstop => cases (eq .outOfFuel).symm.trans hc

theorem of_error {c : Exec α} (h : Preserves stop m post (fun _ => c) n) {e : Halt} {o : Machine}
    (hc : c n = .error e o) : Growing m o := by
  cases h with
  | ok eq growing hpost => cases (eq e).symm.trans hc
  | error eq growing =>
    cases (eq e).symm.trans hc
    exact growing
  | stopped eq growing hstop =>
    cases (eq e).symm.trans hc
    exact growing

theorem of_stopped (h : Preserves stop m post c n) {o : Machine} (hc : ∀ x, c x n = .error x o) :
    Growing m o ∧ stop o := by
  cases h with
  | ok eq growing hpost => cases (eq .outOfFuel).symm.trans (hc .outOfFuel)
  | error eq growing =>
    -- One error is not two reasons.
    have h₁ := (eq .outOfFuel).symm.trans (hc .outOfFuel)
    have h₂ := (eq (.failed ⟨.divisionByZero, 0⟩)).symm.trans (hc _)
    cases h₁
    cases h₂
  | stopped eq growing hstop =>
    cases (eq .outOfFuel).symm.trans (hc .outOfFuel)
    exact ⟨growing, hstop⟩

/-! ### Computations in order -/

theorem bind {f : Halt → α → Exec β} (h : Preserves stop m post c n)
    (hf : ∀ a o, Growing m o → post a o → Preserves stop m other (fun x => f x a) o) :
    Preserves stop m other (fun x => c x >>= f x) n := by
  cases h with
  | ok eq growing hpost => exact of_eq (hf _ _ growing hpost) fun x => bind_of_ok (eq x)
  | error eq growing => exact .error (fun x => bind_of_error (eq x)) growing
  | stopped eq growing hstop => exact .stopped (fun x => bind_of_error (eq x)) growing hstop

/-- What follows sees the state. -/
theorem get_bind {f : Halt → Machine → Exec β} (h : Preserves stop m other (fun x => f x n) n) :
    Preserves stop m other (fun x => MonadState.get >>= f x) n := of_eq h fun _ => rfl

theorem ofExcept_bind {r : Except Cause α} {f : Halt → α → Exec β} (hn : Growing m n)
    (hf : ∀ a, r = .ok a → Preserves stop m other (fun x => f x a) n) :
    Preserves stop m other (fun x => Exec.ofExcept r >>= f x) n := by
  cases r with
  | ok a => exact hf a rfl
  | error cause => exact .error (fun _ => rfl) hn

/-- What follows may begin anew where the first computation has ended. -/
theorem andThen {f : Halt → α → Exec β} (h : Preserves stop m post c n)
    (hf : ∀ a o, Growing m o → post a o → Preserves stop o other (fun x => f x a) o) :
    Preserves stop m other (fun x => c x >>= f x) n :=
  h.bind fun a o ho hpost => since ho (hf a o ho hpost)

/-- One computation for each member of a list. What holds of the results so far, `inv`, is kept by every
step. -/
theorem mapM {inv : List β → Machine → Prop} {f : Halt → α → Exec β} {xs : List α}
    (hn : Growing m n) (hinit : inv [] n)
    (hf : ∀ a ∈ xs, ∀ done o, Growing m o → inv done o →
      Preserves stop m (fun b p => inv (done ++ [b]) p) (fun x => f x a) o) :
    Preserves stop m inv (fun x => xs.mapM (f x)) n := by
  suffices ∀ done n, Growing m n → inv done n →
      Preserves stop m (fun bs p => inv (done ++ bs) p) (fun x => xs.mapM (f x)) n from
    (this [] n hn hinit).mono fun _ _ _ => id
  clear hinit hn
  induction xs with
  | nil =>
    intro done n hn hdone
    have hall : inv (done ++ []) n := by rwa [List.append_nil]
    exact .pure hn hall
  | cons a xs ih =>
    intro done n hn hdone
    simp only [List.mapM_cons]
    refine (hf a List.mem_cons_self done n hn hdone).bind fun b o ho hb => ?_
    have hrest := ih (fun a ha => hf a (List.mem_cons_of_mem _ ha)) (done ++ [b]) o ho hb
    refine hrest.bind fun bs p hp hbs => .pure hp ?_
    rwa [List.append_assoc] at hbs

theorem sequence {run : Halt → Stmt → Exec Flow}
    (hrun : ∀ s o, o.Ordered → Preserves stop o Flow.Has (fun x => run x s) o) (body : List Stmt)
    (hn : n.Ordered) : Preserves stop n Flow.Has (fun x => sequence (run x) body) n := by
  induction body generalizing n with
  | nil => exact .pure (.refl hn) fun _ he => nomatch he
  | cons s rest ih =>
    refine (hrun s n hn).andThen fun flow o ho hflow => ?_
    cases flow with
    | normal => exact ih ho.ordered
    | breakLoop | continueLoop | ret v => exact .pure (.refl ho.ordered) hflow

theorem inScope {run : Halt → Exec Flow}
    (hrun : ∀ o, o.Ordered → Preserves stop o Flow.Has run o) (hn : n.Ordered) :
    Preserves stop n Flow.Has (fun x => inScope (run x)) n := by
  have hpush : Growing n { n with stack := n.stack.pushScope } :=
    (Growing.refl hn).withStack hn.vars.pushScope
  refine .of_eq (o := { n with stack := n.stack.pushScope }) (d := fun x => run x >>= fun flow =>
    Exec.modifyStack CallStack.popScope >>= fun _ => Pure.pure flow) (.since hpush ?_) fun _ => rfl
  refine (hrun _ hpush.ordered).bind fun flow o ho hflow => ?_
  exact .ok (fun _ => rfl) (ho.withStack ho.ordered.vars.popScope) hflow

/-- A loop preserves order when its parts do, by induction on the rounds. -/
theorem repeatWhile {cond : Halt → Exec Bool} {body : Halt → Exec Flow} {next : Halt → Exec Unit}
    (hcond : ∀ o, o.Ordered → Preserves stop o (fun _ _ => True) cond o)
    (hbody : ∀ o, o.Ordered → Preserves stop o Flow.Has body o)
    (hnext : ∀ o, o.Ordered → Preserves stop o (fun _ _ => True) next o) (rounds : Nat)
    (hn : n.Ordered) :
    Preserves stop n Flow.Has (fun x => repeatWhile (cond x) (body x) (next x) rounds) n := by
  induction rounds generalizing n with
  | zero => exact .outOfFuel (.refl hn)
  | succ rounds ih =>
    refine (hcond n hn).andThen fun b o ho _ => ?_
    cases b with
    | false => exact .pure (.refl ho.ordered) fun _ he => nomatch he
    | true =>
      refine (hbody o ho.ordered).andThen fun flow p hp hflow => ?_
      have hround : Preserves stop p Flow.Has (fun x => next x >>= fun _ =>
          Exec.repeatWhile (cond x) (body x) (next x) rounds) p :=
        (hnext p hp.ordered).andThen fun _ q hq _ => ih hq.ordered
      cases flow with
      | normal | continueLoop => exact hround
      | breakLoop => exact .pure (.refl hp.ordered) fun _ he => nomatch he
      | ret v => exact .pure (.refl hp.ordered) hflow

end Preserves

end Exec

end CallTrace
