import CallTrace.Proofs.Evaluation.Supported

/-! # Rules for parts of a run

Many properties of computations go over from parts to the whole. One that does holds of everything that a run does
with slots, lists and arguments as soon as it holds of a few small steps.

* `Exec.ReadRules J`: the property `J` goes over from parts to the whole, and holds of giving a value, of failing,
  and of a look at storage.
* `Exec.StoreRules J`: it also holds of changes to lists.
* `Exec.WriteRules J`: it also holds of assignments to variables.
* `ReadRules.readSlot`, `StoreRules.listOp`, `WriteRules.writeSlot` and so on: what follows, one lemma for each function
  of a run that is made of such steps.
* `Exec.afterLeft_rule`, `Exec.onString_rule`: what a binary operator can do once its left operand has a value, and what
  an operation on a string can do.
-/

namespace CallTrace
set_option autoImplicit false

open Instrumented (Expr ContainerOp)

namespace Exec

/-- A property that goes over from parts to the whole, and holds of what only reads storage. A failure never says that
something is outside the language: there are properties that only such a failure lacks. -/
structure ReadRules (J : {α : Type} → Exec α → Prop) : Prop where
  pure {α : Type} (a : α) : J (Pure.pure a : Exec α)
  fail {α : Type} {cause : Cause} (h : ∀ text reason, cause ≠ .unsupported text reason) :
    J (Exec.fail cause : Exec α)
  -- A look at the line or at the recording is none at storage.
  get {α : Type} {f : Machine → Exec α} (h : ∀ m, J (f m))
    (hf : ∀ m n : Machine, n.heap = m.heap → n.stack = m.stack → f n = f m) : J (MonadState.get >>= f)
  bind {α β : Type} {c : Exec α} {f : α → Exec β} (h : J c) (hf : ∀ a, J (f a)) : J (c >>= f)

/-- A property that also holds of what makes and changes lists. -/
structure StoreRules (J : {α : Type} → Exec α → Prop) : Prop extends ReadRules J where
  onHeap {α : Type} (f : StateM Heap α) : J (Exec.onHeap f)

/-- A property that also holds of what gives variables new values. -/
structure WriteRules (J : {α : Type} → Exec α → Prop) : Prop extends StoreRules J where
  assign (name : String) (v : Value) : J (Exec.assign name v)

variable {J : {α : Type} → Exec α → Prop} {α β : Type}

/-! ## Reading -/

namespace ReadRules

variable (R : ReadRules J)
include R

theorem ofExcept {r : Except Cause α} (h : Supported r) : J (Exec.ofExcept r) := by
  cases r with
  | ok a => exact R.pure a
  | error cause => exact R.fail fun text reason he => h text reason (he ▸ rfl)

theorem mapM {f : α → Exec β} {xs : List α} (hf : ∀ a ∈ xs, J (f a)) : J (xs.mapM f) := by
  induction xs with
  | nil => exact R.pure []
  | cons a xs ih =>
    rw [List.mapM_cons]
    have hrest : J (xs.mapM f) := ih fun b hb => hf b (List.mem_cons_of_mem a hb)
    exact R.bind (hf a List.mem_cons_self) fun b => R.bind hrest fun bs => R.pure (b :: bs)

theorem lookup (name : String) : J (lookup name) := by
  refine R.get (fun m => ?_) fun _ _ _ hstack => by rw [hstack]
  split
  · exact R.pure _
  · exact R.fail fun _ _ h => nomatch h

/-- What follows is given by the lists alone. -/
theorem heap_ofExcept {r : Heap → Except Cause α} (h : ∀ heap, Supported (r heap)) :
    J (MonadState.get >>= fun m : Machine => Exec.ofExcept (r m.heap)) :=
  R.get (fun m => R.ofExcept (h m.heap)) fun _ _ hheap _ => by rw [hheap]

theorem readSlot (slot : Slot) : J (readSlot slot) := by
  induction slot with
  | var name => exact R.lookup name
  | item c i => exact R.heap_ofExcept fun heap => supported_itemOf heap (.list c) i
  | char owner i ih => exact R.bind ih fun v => R.heap_ofExcept fun heap => supported_itemOf heap v i

theorem elementSlot (owner : Slot) (index : Int) : J (elementSlot owner index) := by
  refine R.bind (R.readSlot owner) fun v => ?_
  split
  · exact R.pure _
  · exact R.pure _
  · exact R.fail fun _ _ h => nomatch h

/-- An operation that does not change its list. -/
theorem listOp_of_not_mutates {op : ContainerOp} (hop : op.mutates = false) (c : CellId) (args : List Value) :
    J (listOp op c args) := by
  cases op with
  | append | removeLast => cases hop
  | length | isEmpty => exact R.get (fun m => R.pure _) fun _ _ hheap _ => by rw [hheap]
  | back =>
    refine R.get (fun m => ?_) fun _ _ hheap _ => by rw [hheap]
    split
    · exact R.pure _
    · exact R.fail fun _ _ h => nomatch h
  | substr => exact R.fail fun _ _ h => nomatch h

theorem callLibrary (name : String) (args : List Value) : J (callLibrary name args) := by
  unfold Exec.callLibrary
  split
  · next f _ => exact R.heap_ofExcept fun heap => supported_apply heap f args
  · exact R.fail fun _ _ h => nomatch h

theorem checkCall (env : Env) (f : Instrumented.Function) (args : List Value) : J (checkCall env f args) := by
  have hdepth : J (MonadState.get >>= fun m : Machine => if env.config.maxCallDepth ≤ m.stack.depth then
      Exec.fail (.callDepth env.config.maxCallDepth) else Pure.pure ()) := by
    refine R.get (fun m => ?_) fun _ _ _ hstack => by rw [hstack]
    split
    · exact R.fail fun _ _ h => nomatch h
    · exact R.pure ()
  unfold Exec.checkCall
  split
  · exact R.bind (R.fail fun _ _ h => nomatch h) fun _ => hdepth
  · exact hdepth

end ReadRules

/-! ## Lists -/

namespace StoreRules

variable (R : StoreRules J)
include R

theorem modifyHeap (f : Heap → Heap) : J (modifyHeap f) := R.onHeap fun heap => ((), f heap)

theorem copy (v : Value) : J (copy v) := R.onHeap _

theorem newList (items : Array Value) : J (newList items) := R.onHeap _

theorem stored (slot : Slot) (op : Option BinOp) (v : Value) : J (stored slot op v) := by
  cases op with
  | none => exact R.copy v
  | some op =>
    exact R.bind (R.readSlot slot) fun old => R.heap_ofExcept fun heap => supported_binaryOp heap op old v

theorem listOp (op : ContainerOp) (c : CellId) (args : List Value) : J (listOp op c args) := by
  cases op with
  | append =>
    have hitem : J (copyFirst args) := by
      cases args with
      | nil => exact R.pure _
      | cons v rest => exact R.copy v
    exact R.bind hitem fun item => R.bind (R.modifyHeap _) fun _ => R.pure _
  | removeLast =>
    have hpop : J (Exec.modifyHeap (·.update c Array.pop) >>= fun _ => Pure.pure Value.undefined) :=
      R.bind (R.modifyHeap _) fun _ => R.pure _
    refine R.get (fun m => ?_) fun _ _ hheap _ => by rw [hheap]
    split
    · exact R.bind (R.fail fun _ _ h => nomatch h) fun _ => hpop
    · exact hpop
  | length | isEmpty | back | substr => exact R.listOp_of_not_mutates rfl c args

theorem bindArgs (params : List Instrumented.Param) (args : List Value) : J (bindArgs params args) := by
  refine R.mapM fun ⟨p, v⟩ _ => ?_
  dsimp only
  split
  · exact R.bind (R.pure v) fun _ => R.pure _
  · exact R.bind (R.copy v) fun _ => R.pure _

end StoreRules

/-! ## Variables -/

namespace WriteRules

variable (R : WriteRules J)
include R

theorem writeSlot (slot : Slot) (v : Value) : J (writeSlot slot v) := by
  induction slot generalizing v with
  | var name => exact R.assign name v
  | item c i =>
    refine R.get (fun m => ?_) fun _ _ hheap _ => by rw [hheap]
    exact R.bind (R.ofExcept (supported_position _ _)) fun k => R.modifyHeap _
  | char owner i ih =>
    refine R.bind (R.readSlot owner) fun w => ?_
    split
    · exact R.bind (R.ofExcept (supported_charOf v)) fun c =>
        R.bind (R.ofExcept (supported_position _ _)) fun k => ih _
    · exact R.fail fun _ _ h => nomatch h

theorem updateSlot (slot : Slot) {f : Value → Except Cause Value} (hf : ∀ v, Supported (f v)) :
    J (updateSlot slot f) :=
  R.bind (R.readSlot slot) fun old => R.bind (R.ofExcept (hf old)) fun new =>
    R.bind (R.writeSlot slot new) fun _ => R.pure _

end WriteRules

/-! ## Binary operators -/

/-- What a binary operator does once its left operand has the value `l`. -/
def afterLeft (op : BinOp) (l : Value) (right : Expr) (p : Meaning) : Exec Value :=
  match op with
  | .and => if l.isTruthy then return .bool (← truth p right) else return .bool false
  | .or => if l.isTruthy then return .bool true else return .bool (← truth p right)
  | _ => do
    let r ← p.eval right
    ofExcept (binaryOp (← MonadState.get).heap op l r)

theorem binary_eq (p : Meaning) (op : BinOp) (left right : Expr) :
    binary p op left right = p.eval left >>= fun l => afterLeft op l right p := rfl

/-- The left operand decides, or the right one does, or the operator is applied to the values of both. -/
theorem afterLeft_rule {Q : (Meaning → Exec Value) → Prop} (op : BinOp) (l : Value) (right : Expr)
    (hdecided : ∀ b, Q fun _ => Pure.pure (.bool b))
    (htruth : Q fun p => truth p right >>= fun b => Pure.pure (.bool b))
    (hboth : Q fun p => p.eval right >>= fun r => MonadState.get >>= fun m : Machine =>
      Exec.ofExcept (binaryOp m.heap op l r)) : Q (afterLeft op l right) := by
  cases op
  case and =>
    unfold afterLeft
    cases l.isTruthy with
    | true => exact htruth
    | false => exact hdecided false
  case or =>
    unfold afterLeft
    cases l.isTruthy with
    | true => exact hdecided true
    | false => exact htruth
  all_goals exact hboth

/-! ## Operations on strings -/

/-- An operation that gives a new string is one that changes a string. -/
theorem mutates_of_stringOp {op : ContainerOp} {s t : String} {args : List Value} {result : Value}
    (h : stringOp op s args = .ok (result, some t)) : op.mutates := by
  cases op with
  | append | removeLast => rfl
  | length | isEmpty => cases h
  | back =>
    rw [stringOp] at h
    split at h <;> cases h
  | substr =>
    rw [stringOp] at h
    cases hsub : substring s args <;> rw [hsub] at h <;> cases h

/-- An operation on a string fails, or gives its result at once, or is one that changes strings and stores a new one
first. -/
theorem onString_rule {Q : Exec Value → Prop} (p : Meaning) (op : ContainerOp) (target : Expr) (s : String)
    (args : List Value) (hfail : ∀ cause, Q (Exec.fail cause)) (hsame : ∀ result, Q (Pure.pure result))
    (hchanged : ∀ result t, op.mutates → Q (p.resolve target >>= fun slot => writeSlot slot (.str t) >>= fun _ =>
      Pure.pure result)) : Q (onString p op target s args) := by
  unfold onString
  cases hop : stringOp op s args with
  | error cause => exact hfail cause
  | ok both =>
    obtain ⟨result, changed⟩ := both
    cases changed with
    | none => exact hsame result
    | some t => exact hchanged result t (mutates_of_stringOp hop)

end Exec

end CallTrace
