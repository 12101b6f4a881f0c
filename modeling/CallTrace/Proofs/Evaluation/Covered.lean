import CallTrace.Proofs.Evaluation.Contract
import CallTrace.Proofs.Evaluation.Rules
import CallTrace.Proofs.Evaluation.Scalars

/-! # Every run is covered by a contract

* `Contract.copy_ends`, `Contract.readSlot_ends`, …: what each thing that a run does is covered by, with one
  lemma for each.
* `Means.next`: what a construct does is covered when what its parts do is.
* `Contract.means`: what everything does is covered, by induction on the fuel.
* `Contract.inv_of_reached`: so every state that a run reaches satisfies the invariant.
-/

namespace CallTrace
set_option autoImplicit false

open Instrumented (Expr Place Action Stmt ContainerOp)

namespace Exec.Contract

variable {refs : Bool} {C : Contract refs} {stop : Machine → Prop} {m n : Machine}

theorem During.refl (hm : C.Inv m) : C.During m m := ⟨hm, C.refl m⟩

theorem During.trans (h : C.During m n) {o : Machine} (h' : C.During n o) : C.During m o :=
  ⟨h'.inv, C.trans h.rel h'.rel⟩

/-! ## Values -/

theorem hand_of_itemOf (h : C.During m n) {container v : Value} {i : Int}
    (hc : C.Hand m container) (hv : itemOf n.heap container i = .ok v) : C.Hand m v := by
  rcases itemOf_cases hv with hscalar | ⟨c, rfl, hmem⟩
  · exact C.hand_scalar hscalar
  · exact C.item h.inv h.rel hc hmem

theorem lookup_ends (h : C.During m n) (name : String) :
    Ends stop (fun v o => o = n ∧ C.Hand m v) (fun _ => Exec.lookup name) n := by
  cases hv : n.stack.lookup name with
  | some v => exact .ok (fun _ => lookup_of_some hv) ⟨rfl, C.lookup h.inv h.rel hv⟩
  | none => exact .of_eq .fail fun _ => lookup_of_none hv

theorem copy_ends (h : C.During m n) (v : Value) :
    Ends stop (fun w o => C.During m o ∧ C.Rel n o ∧ C.Pending m o w) (fun _ => Exec.copy v) n := by
  obtain ⟨hinv, hrel, hpending⟩ := C.copy v h.inv
  exact .ok (fun _ => rfl) ⟨⟨hinv, C.trans h.rel hrel⟩, hrel, C.pending_of_rel h.rel hpending⟩

theorem copies_ends (v : Value) (k : Nat) (done : Array Value) (h : C.During m n)
    (hdone : ∀ w ∈ done, C.Pending m n w) :
    Ends stop (fun ws o => C.During m o ∧ ∀ w ∈ ws, C.Pending m o w)
      (fun _ => onHeap (Heap.copies v k done)) n := by
  induction k generalizing done n with
  | zero => exact .ok (fun _ => rfl) ⟨h, hdone⟩
  | succ k ih =>
    obtain ⟨hinv, hrel, hpending⟩ := C.copy v h.inv
    refine .of_eq (ih (done.push (n.heap.copy v).1) ⟨hinv, C.trans h.rel hrel⟩ fun w hw => ?_)
      fun _ => rfl
    rcases Array.mem_push.mp hw with hw | rfl
    · exact C.pending_rel (hdone w hw) h.inv hrel
    · exact C.pending_of_rel h.rel hpending

theorem newList_ends (h : C.During m n) {items : Array Value}
    (hitems : ∀ v ∈ items, C.Pending m n v) :
    Ends stop (fun v o => C.During m o ∧ C.Hand m v) (fun _ => Exec.newList items) n := by
  obtain ⟨hinv, hrel, hhand⟩ := C.newList h.inv h.rel hitems
  exact .ok (fun _ => rfl) ⟨⟨hinv, hrel⟩, hhand⟩

/-! ## Slots -/

theorem HandSlot.of_rel {slot : Slot} (h : C.Rel m n) (hs : C.HandSlot n slot) :
    C.HandSlot m slot := by
  induction slot with
  | var name => trivial
  | item c i => exact C.hand_of_rel h hs
  | char owner i ih => exact ih hs

theorem readSlot_ends (h : C.During m n) {slot : Slot} (hs : C.HandSlot m slot) :
    Ends stop (fun v o => o = n ∧ C.Hand m v) (fun _ => readSlot slot) n := by
  induction slot with
  | var name => exact lookup_ends h name
  | item c i =>
    exact .get_bind (.ofExcept fun v hv => ⟨rfl, hand_of_itemOf h hs hv⟩)
  | char owner i ih =>
    refine (ih hs).bind fun v o ⟨ho, hv⟩ => ?_
    subst ho
    exact .get_bind (.ofExcept fun w hw => ⟨rfl, hand_of_itemOf h hv hw⟩)

theorem store_ends (h : C.During m n) {c : CellId} (hc : C.Hand m (.list c))
    {f : Array Value → Array Value}
    (hf : ∀ v ∈ f (n.heap.items c), v ∈ n.heap.items c ∨ C.Pending m n v) :
    Ends stop (fun _ o => C.During m o) (fun _ => modifyHeap (·.update c f)) n := by
  obtain ⟨hinv, hrel⟩ := C.store h.inv h.rel hc hf
  exact .ok (fun _ => rfl) ⟨hinv, hrel⟩

theorem assign_ends (h : C.During m n) {v : Value} (hv : C.Pending m n v) (name : String) :
    Ends stop (fun _ o => C.During m o) (fun _ => Exec.assign name v) n := by
  refine .const fun _ o ho => ?_
  unfold Exec.assign at ho
  split at ho
  · next s hs =>
    cases ho
    obtain ⟨hinv, hrel⟩ := C.assign h.inv h.rel hv hs
    exact ⟨hinv, hrel⟩
  · cases ho

theorem writeSlot_ends (h : C.During m n) {slot : Slot} (hs : C.HandSlot m slot) {v : Value}
    (hv : C.Pending m n v) :
    Ends stop (fun _ o => C.During m o) (fun _ => writeSlot slot v) n := by
  induction slot generalizing v with
  | var name => exact assign_ends h hv name
  | item c i =>
    refine .get_bind (.ofExcept_bind fun k _ => store_ends h hs fun w hw => ?_)
    rcases Array.mem_or_eq_of_mem_setIfInBounds hw with hw | rfl
    · exact .inl hw
    · exact .inr hv
  | char owner i ih =>
    have howner : C.HandSlot m owner := hs
    simp only [writeSlot]
    refine (readSlot_ends h howner).bind fun w o ⟨ho, _⟩ => ?_
    subst ho
    cases w with
    | str s =>
      exact .ofExcept_bind fun c _ => .ofExcept_bind fun k _ => ih howner (C.pending_scalar rfl)
    | _ => exact .fail

theorem elementSlot_ends (h : C.During m n) {owner : Slot} (hs : C.HandSlot m owner) (i : Int) :
    Ends stop (fun slot o => o = n ∧ C.HandSlot m slot) (fun _ => elementSlot owner i) n := by
  refine (readSlot_ends h hs).bind fun v o ⟨ho, hv⟩ => ?_
  cases v with
  | list c => exact .pure ⟨ho, hv⟩
  | str s => exact .pure ⟨ho, hs⟩
  | _ => exact .fail

/-! ## Recording -/

theorem recordSet_ends (h : C.During m n) (name : String) :
    Ends stop (fun _ o => C.During m o) (fun _ => recordSet name) n := by
  refine .ok (fun _ => rfl) ?_
  show C.During m (if _ then _ else _)
  split
  · split
    · obtain ⟨hinv, hrel⟩ := C.set name _ h.inv
      exact ⟨hinv, C.trans h.rel hrel⟩
    · exact h
  · exact h

theorem recordRoot_ends (h : C.During m n) (root : Option String) :
    Ends stop (fun _ o => C.During m o) (fun _ => recordRoot root) n := by
  cases root with
  | none => exact .pure h
  | some name => exact recordSet_ends h name

theorem recordLog_ends (h : C.During m n) (text : String) :
    Ends stop (fun _ o => C.During m o) (fun _ => recordLog text) n := by
  obtain ⟨hinv, hrel⟩ := C.log text h.inv
  exact .ok (fun _ => rfl) ⟨hinv, C.trans h.rel hrel⟩

/-! ## Operations on containers -/

theorem listOp_ends (h : C.During m n) {c : CellId} (hc : C.Hand m (.list c)) (op : ContainerOp)
    (args : List Value) :
    Ends stop (fun v o => C.During m o ∧ C.Hand m v) (fun _ => listOp op c args) n := by
  cases op with
  | append =>
    have hitem : Ends stop (fun w o => C.During m o ∧ C.Pending m o w)
        (fun _ => copyFirst args) n := by
      cases args with
      | nil => exact .pure ⟨h, C.pending_scalar rfl⟩
      | cons v rest => exact (copy_ends h v).mono fun _ _ ⟨ho, _, hp⟩ => ⟨ho, hp⟩
    refine hitem.bind fun w o ⟨ho, hw⟩ => ?_
    refine (store_ends ho hc fun v hv => ?_).bind fun _ p hp => .pure ⟨hp, C.hand_scalar rfl⟩
    rcases Array.mem_push.mp hv with hv | rfl
    · exact .inl hv
    · exact .inr hw
  | removeLast =>
    have hpop : Ends stop (fun _ o => C.During m o) (fun _ => modifyHeap (·.update c Array.pop)) n :=
      store_ends h hc fun v hv => .inl (Heap.mem_of_mem_pop hv)
    refine .get_bind ?_
    split
    · exact .fail
    · exact hpop.bind fun _ o ho => .pure ⟨ho, C.hand_scalar rfl⟩
  | length | isEmpty => exact .ok (fun _ => rfl) ⟨h, C.hand_scalar rfl⟩
  | back =>
    cases hb : (n.heap.items c).back? with
    | some item =>
      refine .ok (fun _ => ?_) ⟨h, C.item h.inv h.rel hc (Array.mem_of_back? hb)⟩
      simp only [listOp, get_bind, hb]
      rfl
    | none =>
      refine .of_eq (n := n) (d := fun _ => Exec.fail (.emptyContainer "back")) .fail fun _ => ?_
      simp only [listOp, get_bind, hb]
  | substr => exact .fail

/-! ## Expressions -/

namespace Means

variable {P : Halt → Meaning} (hP : C.Means stop P)
include hP

theorem eval_during (h : C.During m n) (e : Expr) :
    Ends stop (fun v o => C.During m o ∧ C.Rel n o ∧ C.Hand m v) (fun x => (P x).eval e) n :=
  (hP.eval e h.inv).mono fun _ _ ⟨ho, hv⟩ => ⟨h.trans ho, ho.rel, C.hand_of_rel h.rel hv⟩

theorem resolve_during (h : C.During m n) (e : Expr) :
    Ends stop (fun slot o => C.During m o ∧ C.HandSlot m slot) (fun x => (P x).resolve e) n :=
  (hP.resolve e h.inv).mono fun _ _ ⟨ho, hs⟩ => ⟨h.trans ho, .of_rel h.rel hs⟩

theorem discard_during (h : C.During m n) (e : Expr) :
    Ends stop (fun _ o => C.During m o) (fun x => discard ((P x).eval e)) n :=
  (hP.eval_during h e).bind fun _ _ ⟨ho, _⟩ => .pure ho

theorem evals_during (h : C.During m n) (es : List Expr) :
    Ends stop (fun vs o => C.During m o ∧ ∀ v ∈ vs, C.Hand m v) (fun x => es.mapM (P x).eval) n := by
  refine .mapM (k := fun _ v => C.Hand m v) h fun e _ o ho => ?_
  exact (hP.eval_during ho e).mono fun _ _ ⟨hp, _, hv⟩ => ⟨hp, hv, fun _ => id⟩

theorem truth_during (h : C.During m n) (cond : Expr) :
    Ends stop (fun _ o => C.During m o) (fun x => truth (P x) cond) n :=
  (hP.eval_during h cond).bind fun _ _ ⟨ho, _⟩ => .pure ho

theorem literal_during (h : C.During m n) (items : List Expr) :
    Ends stop (fun v o => C.During m o ∧ C.Hand m v) (fun x => literal (P x) items) n := by
  -- A copy made for one item stays unstored while the items after it are evaluated.
  have hcopies : Ends stop (fun vs o => C.During m o ∧ ∀ v ∈ vs, C.Pending m o v)
      (fun x => items.mapM fun item => (P x).eval item >>= fun v => Exec.copy v) n := by
    refine .mapM (k := C.Pending m) h fun item _ o ho => ?_
    refine (hP.eval_during ho item).bind fun v p ⟨hp, hrel, _⟩ => ?_
    refine (copy_ends hp v).mono fun w q ⟨hq, hrel', hw⟩ => ⟨hq, hw, fun u hu => ?_⟩
    exact C.pending_rel hu ho.inv (C.trans hrel hrel')
  refine hcopies.bind fun vs o ⟨ho, hvs⟩ => newList_ends ho fun v hv => ?_
  exact hvs v (List.mem_toArray.mp hv)

theorem filled_during (h : C.During m n) (size fill : Expr) :
    Ends stop (fun v o => C.During m o ∧ C.Hand m v) (fun x => filled (P x) size fill) n := by
  refine (hP.eval_during h size).bind fun v o ⟨ho, _⟩ => ?_
  refine .ofExcept_bind fun k _ => (hP.eval_during ho fill).bind fun w q ⟨hq, _⟩ => ?_
  exact (copies_ends w k #[] hq (by simp)).bind fun ws r ⟨hr, hws⟩ => newList_ends hr hws

theorem binary_during (h : C.During m n) (op : BinOp) (left right : Expr) :
    Ends stop (fun v o => C.During m o ∧ C.Hand m v) (fun x => binary (P x) op left right) n := by
  refine (hP.eval_during h left).bind fun l o ⟨ho, _⟩ => ?_
  refine afterLeft_rule (Q := fun f => Ends stop (fun v p => C.During m p ∧ C.Hand m v) (fun x => f (P x)) o)
    op l right (fun b => .pure ⟨ho, C.hand_scalar rfl⟩) ?_ ?_
  · exact (hP.truth_during ho right).bind fun _ _ hp => .pure ⟨hp, C.hand_scalar rfl⟩
  · refine (hP.eval_during ho right).bind fun r p ⟨hp, _⟩ => ?_
    exact .get_bind (.ofExcept fun v hv => ⟨hp, C.hand_scalar (isList_of_binaryOp hv)⟩)

omit hP in
theorem stored_ends (h : C.During m n) {slot : Slot} (hs : C.HandSlot m slot) (op : Option BinOp)
    (v : Value) :
    Ends stop (fun w o => C.During m o ∧ C.Pending m o w) (fun _ => stored slot op v) n := by
  cases op with
  | none => exact (copy_ends h v).mono fun _ _ ⟨ho, _, hw⟩ => ⟨ho, hw⟩
  | some op =>
    refine (readSlot_ends h hs).bind fun old o ⟨ho, _⟩ => ?_
    subst ho
    exact .get_bind (.ofExcept fun w hw => ⟨h, C.pending_scalar (isList_of_binaryOp hw)⟩)

theorem assignment_during (h : C.During m n) (target : Place) (op : Option BinOp) (value : Expr) :
    Ends stop (fun v o => C.During m o ∧ C.Hand m v)
      (fun x => assignment (P x) target op value) n := by
  refine (hP.resolve_during h target.toExpr).bind fun slot o ⟨ho, hs⟩ => ?_
  refine (hP.eval_during ho value).bind fun v p ⟨hp, _⟩ => ?_
  refine (stored_ends hp hs op v).bind fun new q ⟨hq, hnew⟩ => ?_
  refine (writeSlot_ends hq hs hnew).bind fun _ r hr => ?_
  exact (recordRoot_ends hr _).bind fun _ _ hs => .pure ⟨hs, C.hand_of_pending hnew⟩

theorem stepping_during (h : C.During m n) (target : Place) (step : Instrumented.Step)
    (before : Bool) :
    Ends stop (fun v o => C.During m o ∧ C.Hand m v)
      (fun x => stepping (P x) target step before) n := by
  refine (hP.resolve_during h target.toExpr).bind fun slot o ⟨ho, hs⟩ => ?_
  have hupdate : Ends stop (fun w p => C.During m p ∧ C.Hand m w.1 ∧ C.Hand m w.2)
      (fun _ => updateSlot slot (stepBy step.delta)) o := by
    refine (readSlot_ends ho hs).bind fun old p ⟨hp, hold⟩ => ?_
    subst hp
    have hstep : Ends stop (fun w q => q = p ∧ w.isList = false)
        (fun _ => Exec.ofExcept (stepBy step.delta old)) p :=
      .ofExcept fun w hw => ⟨rfl, isList_of_stepBy hw⟩
    refine hstep.bind fun new q ⟨hq, hnew⟩ => ?_
    subst hq
    refine (writeSlot_ends ho hs (C.pending_scalar hnew)).bind fun _ r hr => ?_
    exact .pure ⟨hr, hold, C.hand_scalar hnew⟩
  refine hupdate.bind fun w p ⟨hp, hold, hnew⟩ => ?_
  refine (recordRoot_ends hp _).bind fun _ q hq => .pure ⟨hq, ?_⟩
  split
  · exact hnew
  · exact hold

theorem indexing_during (h : C.During m n) (base index : Expr) :
    Ends stop (fun v o => C.During m o ∧ C.Hand m v) (fun x => indexing (P x) base index) n := by
  refine (hP.eval_during h base).bind fun container o ⟨ho, _, hc⟩ => ?_
  refine (hP.eval_during ho index).bind fun i p ⟨hp, _⟩ => ?_
  exact .ofExcept_bind fun k _ => .get_bind (.ofExcept fun v hv => ⟨hp, hand_of_itemOf hp hc hv⟩)

theorem onString_during (h : C.During m n) (op : ContainerOp) (target : Expr) (s : String)
    (args : List Value) :
    Ends stop (fun v o => C.During m o ∧ C.Hand m v)
      (fun x => onString (P x) op target s args) n := by
  have hop : Ends stop (fun w o => o = n ∧ w.1.isList = false)
      (fun _ => Exec.ofExcept (stringOp op s args)) n :=
    .ofExcept fun w hw => ⟨rfl, isList_of_stringOp hw⟩
  refine hop.bind fun w o ⟨ho, hw⟩ => ?_
  subst ho
  obtain ⟨result, changed⟩ := w
  cases changed with
  | none => exact .pure ⟨h, C.hand_scalar hw⟩
  | some s =>
    refine (hP.resolve_during h target).bind fun slot p ⟨hp, hs⟩ => ?_
    exact (writeSlot_ends hp hs (C.pending_scalar rfl)).bind fun _ _ hq =>
      .pure ⟨hq, C.hand_scalar hw⟩

theorem operation_during (h : C.During m n) (op : ContainerOp) (target : Expr)
    (args : List Expr) :
    Ends stop (fun v o => C.During m o ∧ C.Hand m v) (fun x => operation (P x) op target args) n := by
  refine (hP.eval_during h target).bind fun container o ⟨ho, _, hc⟩ => ?_
  refine (hP.evals_during ho args).bind fun values p ⟨hp, _⟩ => ?_
  have hrecord (v : Value) (q : Machine) (hq : C.During m q ∧ C.Hand m v) :
      Ends stop (fun v o => C.During m o ∧ C.Hand m v)
        (fun _ => recordRoot (Expr.container op target args).probe? >>= fun _ => Pure.pure v) q :=
    (recordRoot_ends hq.1 _).bind fun _ _ hr => .pure ⟨hr, hq.2⟩
  cases container with
  | list c => exact (listOp_ends hp hc op values).bind hrecord
  | str s => exact (hP.onString_during hp op target s values).bind hrecord
  | _ => exact Ends.bind .fail hrecord

theorem evalWith_ends (e : Expr) (hm : C.Inv m) :
    Ends stop (fun v n => C.During m n ∧ C.Hand m v) (fun x => evalWith (P x) e) m := by
  have h : C.During m m := .refl hm
  cases e with
  | int _ | float _ | bool _ | str _ | undefined => exact .pure ⟨h, C.hand_scalar rfl⟩
  | list items => exact hP.literal_during h items
  | fill size fill => exact hP.filled_during h size fill
  | var name => exact (lookup_ends h name).mono fun _ _ ⟨ho, hv⟩ => ⟨ho ▸ h, hv⟩
  | binary op left right => exact hP.binary_during h op left right
  | neg operand =>
    exact (hP.eval_during h operand).bind fun v o ⟨ho, _⟩ =>
      .ofExcept fun w hw => ⟨ho, C.hand_scalar (isList_of_negate hw)⟩
  | not operand =>
    exact (hP.truth_during h operand).bind fun _ _ ho => .pure ⟨ho, C.hand_scalar rfl⟩
  | ternary cond yes no =>
    refine (hP.truth_during h cond).bind fun b o ho => ?_
    have hbranch (e : Expr) : Ends stop (fun v n => C.During m n ∧ C.Hand m v)
        (fun x => (P x).eval e) o :=
      (hP.eval_during ho e).mono fun _ _ ⟨hp, _, hv⟩ => ⟨hp, hv⟩
    cases b with
    | true => exact hbranch yes
    | false => exact hbranch no
  | assign target op value => exact hP.assignment_during h target op value
  | update target step before => exact hP.stepping_during h target step before
  | index base index => exact hP.indexing_during h base index
  | call name args =>
    refine (hP.evals_during h args).bind fun values o ⟨ho, _⟩ => ?_
    exact (hP.call name values ho.inv).mono fun _ _ ⟨hp, hv⟩ =>
      ⟨ho.trans hp, C.hand_of_rel ho.rel hv⟩
  | container op target args => exact hP.operation_during h op target args

theorem resolveWith_ends (e : Expr) (hm : C.Inv m) :
    Ends stop (fun slot n => C.During m n ∧ C.HandSlot m slot) (fun x => resolveWith (P x) e) m := by
  have h : C.During m m := .refl hm
  cases e with
  | var name => exact .pure ⟨h, trivial⟩
  | index base index =>
    refine (hP.resolve_during h base).bind fun owner o ⟨ho, hs⟩ => ?_
    refine (hP.eval_during ho index).bind fun i p ⟨hp, _⟩ => ?_
    refine .ofExcept_bind fun k _ => ?_
    exact (elementSlot_ends hp hs k).mono fun _ _ ⟨hr, hs⟩ => ⟨hr ▸ hp, hs⟩
  | _ => exact .fail

/-! ## Statements in order -/

theorem sequence_ends {body : List Stmt} (hbody : Stmt.AllRefsOnlyIf refs body) (hn : C.Inv n) :
    Ends stop (fun flow o => C.Inv o ∧ C.Runs flow.returned? n o)
      (fun x => sequence (P x).run body) n := by
  induction body generalizing n with
  | nil => exact .pure ⟨hn, C.runs_of_rel (C.refl n)⟩
  | cons s rest ih =>
    refine (hP.run hbody.1 hn).bind fun flow o ⟨ho, hrun⟩ => ?_
    cases flow with
    | normal =>
      exact (ih hbody.2 ho).mono fun _ _ ⟨hp, hrest⟩ => ⟨hp, C.runs_trans hrun hrest⟩
    | breakLoop | continueLoop | ret v => exact .pure ⟨ho, hrun⟩

theorem block_ends {body : List Stmt} (hbody : Stmt.AllRefsOnlyIf refs body) (hn : C.Inv n) :
    Ends stop (fun flow o => C.Inv o ∧ C.Runs flow.returned? n o) (fun x => block (P x) body) n := by
  refine .of_eq (n := { n with stack := n.stack.pushScope }) (d := fun x =>
    sequence (P x).run body >>= fun flow => modifyStack CallStack.popScope >>= fun _ =>
    Pure.pure flow) ?_ fun _ => rfl
  refine (hP.sequence_ends hbody (C.pushScope hn)).bind fun flow o ⟨ho, hrun⟩ => ?_
  exact .ok (fun _ => rfl) (C.popScope hn ho hrun)

omit hP in
/-- A loop is covered when its parts are. Its state before a round is related to the one at its start, by
induction on the rounds. -/
theorem repeatWhile_ends {cond : Halt → Exec Bool} {body : Halt → Exec Flow}
    {next : Halt → Exec Unit}
    (hcond : ∀ n, C.Inv n → Ends stop (fun _ o => C.Inv o ∧ C.Runs none n o) cond n)
    (hbody : ∀ n, C.Inv n →
      Ends stop (fun flow o => C.Inv o ∧ C.Runs flow.returned? n o) body n)
    (hnext : ∀ n, C.Inv n → Ends stop (fun _ o => C.Inv o ∧ C.Runs none n o) next n)
    (rounds : Nat) (hn : C.Inv n) :
    Ends stop (fun flow o => C.Inv o ∧ C.Runs flow.returned? n o)
      (fun x => repeatWhile (cond x) (body x) (next x) rounds) n := by
  induction rounds generalizing n with
  | zero => exact .outOfFuel
  | succ rounds ih =>
    refine (hcond n hn).bind fun b o ⟨ho, hno⟩ => ?_
    cases b with
    | false => exact .pure ⟨ho, hno⟩
    | true =>
      refine (hbody o ho).bind fun flow p ⟨hp, hop⟩ => ?_
      have hround (hnone : flow.returned? = none) (hexit : flow.loopExit? = none) :
          Ends stop (fun flow o => C.Inv o ∧ C.Runs flow.returned? n o)
            (fun x => next x >>= fun _ => repeatWhile (cond x) (body x) (next x) rounds) p := by
        rw [hnone] at hop
        refine (hnext p hp).bind fun _ q ⟨hq, hpq⟩ => ?_
        refine (ih hq).mono fun _ _ ⟨hr, hqr⟩ => ⟨hr, ?_⟩
        exact C.runs_trans hno (C.runs_trans hop (C.runs_trans hpq hqr))
      cases flow with
      | normal => exact hround rfl rfl
      | continueLoop => exact hround rfl rfl
      | breakLoop => exact .pure ⟨hp, C.runs_trans hno hop⟩
      | ret v => exact .pure ⟨hp, C.runs_trans hno hop⟩

/-! ## Statements -/

omit hP in
theorem begin_ends {env : Env} (hn : C.Inv n) (line : Nat) (step : Bool) :
    Ends stop (fun _ o => C.Inv o ∧ C.Runs none n o) (fun _ => begin env line step) n := by
  obtain ⟨hline, hruns⟩ := C.setLine line hn
  have hcheck (o : Machine) (ho : C.Inv o ∧ C.Runs none n o) :
      Ends stop (fun _ o => C.Inv o ∧ C.Runs none n o) (fun _ => checkEvents env) o :=
    checkEvents_ends.mono fun _ _ hp => hp ▸ ho
  cases step with
  | false => exact .of_eq (hcheck _ ⟨hline, hruns⟩) fun _ => rfl
  | true =>
    obtain ⟨hstep, hruns'⟩ := C.step ("Executing line " ++ toString line) line hline
    exact .of_eq (hcheck _ ⟨hstep, C.runs_trans hruns hruns'⟩) fun _ => rfl

theorem declaration_ends (hn : C.Inv n) (name : String) (init : Expr) {byRef : Bool}
    (hrefs : byRef = true → refs = true) :
    Ends stop (fun _ o => C.Inv o ∧ C.Runs none n o)
      (fun x => declaration (P x) name init byRef) n := by
  refine (hP.eval_during (.refl hn) init).bind fun v o ⟨ho, _, _⟩ => ?_
  have hdeclare (w : Value) (p : Machine) (hp : C.During n p ∧ (refs = true ∨ C.Pending n p w)) :
      Ends stop (fun _ o => C.Inv o ∧ C.Runs none n o)
        (fun _ => modifyStack (·.declare name w) >>= fun _ => recordSet name) p := by
    obtain ⟨hinv, hruns⟩ := C.declare name hp.1.inv hp.1.rel hp.2
    refine .of_eq (d := fun _ => recordSet name) ((recordSet_ends (.refl hinv) name).mono
      fun _ _ hq => ⟨hq.inv, C.runs_trans hruns (C.runs_of_rel hq.rel)⟩) fun _ => rfl
  cases byRef with
  | true => exact hdeclare v o ⟨ho, .inl (hrefs rfl)⟩
  | false => exact (copy_ends ho v).bind fun w p ⟨hp, _, hw⟩ => hdeclare w p ⟨hp, .inr hw⟩

theorem texts_during (h : C.During m n) (parts : List Expr) :
    Ends stop (fun _ o => C.During m o) (fun x => parts.mapM fun e => do
      let v ← (P x).eval e
      return (← get).heap.text v) n := by
  refine (Ends.mapM (k := fun _ _ => True) h fun e _ o ho => ?_).mono fun _ _ h => h.1
  refine (hP.eval_during ho e).bind fun v p ⟨hp, _⟩ => ?_
  exact .ok (fun _ => rfl) ⟨hp, trivial, fun _ => id⟩

theorem perform_ends (hn : C.Inv n) {action : Action} (haction : action.RefsOnlyIf refs) :
    Ends stop (fun _ o => C.Inv o ∧ C.Runs none n o) (fun x => perform (P x) action) n := by
  have hn' : C.During n n := .refl hn
  have hruns (o : Machine) (ho : C.During n o) : C.Inv o ∧ C.Runs none n o :=
    ⟨ho.inv, C.runs_of_rel ho.rel⟩
  have hlog (text : String) (o : Machine) (ho : C.During n o) :
      Ends stop (fun _ o => C.Inv o ∧ C.Runs none n o) (fun _ => recordLog text) o :=
    (recordLog_ends ho text).mono fun _ _ hp => hruns _ hp
  cases action with
  | declare name init byRef => exact hP.declaration_ends hn name init haction
  | eval e => exact (hP.discard_during hn' e).mono fun _ _ ho => hruns _ ho
  | log parts => exact (hP.texts_during hn' parts).bind fun texts o ho => hlog _ o ho
  | printf format args =>
    refine (hP.eval_during hn' format).bind fun v o ⟨ho, _⟩ => ?_
    cases v with
    | str format =>
      refine (hP.evals_during ho args).bind fun values p ⟨hp, _⟩ => ?_
      exact .get_bind (.ofExcept_bind fun text _ => hlog _ p hp)
    | _ => exact .fail
  | unsupported text reason => exact .fail

theorem forInit_ends {env : Env} (hn : C.Inv n) {init : Option (Nat × Action)}
    (hinit : ∀ i ∈ init, i.2.RefsOnlyIf refs) :
    Ends stop (fun _ o => C.Inv o ∧ C.Runs none n o) (fun x => forInit (P x) env init) n := by
  cases init with
  | none => exact .pure ⟨hn, C.runs_of_rel (C.refl n)⟩
  | some i =>
    refine (begin_ends hn i.1 false).bind fun _ o ⟨ho, hno⟩ => ?_
    exact (hP.perform_ends ho (hinit i rfl)).mono fun _ _ ⟨hp, hop⟩ => ⟨hp, C.runs_trans hno hop⟩

theorem forCond_ends (hn : C.Inv n) (header : Nat) (cond : Option Expr) :
    Ends stop (fun _ o => C.Inv o ∧ C.Runs none n o) (fun x => forCond (P x) header cond) n := by
  obtain ⟨hline, hruns⟩ := C.setLine header hn
  cases cond with
  | none => exact .ok (fun _ => rfl) ⟨hline, hruns⟩
  | some e =>
    exact .of_eq ((hP.truth_during (.refl hline) e).mono fun _ _ ho =>
      ⟨ho.inv, C.runs_trans hruns (C.runs_of_rel ho.rel)⟩) fun _ => rfl

theorem forNext_ends {env : Env} (hn : C.Inv n) (header : Nat) (update : Option Expr) :
    Ends stop (fun _ o => C.Inv o ∧ C.Runs none n o) (fun x => forNext (P x) env header update) n := by
  obtain ⟨hline, hruns⟩ := C.setLine header hn
  have hcheck (o : Machine) (ho : C.Inv o ∧ C.Runs none n o) :
      Ends stop (fun _ o => C.Inv o ∧ C.Runs none n o) (fun _ => checkEvents env) o :=
    checkEvents_ends.mono fun _ _ hp => hp ▸ ho
  cases update with
  | none => exact .of_eq (hcheck _ ⟨hline, hruns⟩) fun _ => rfl
  | some e =>
    refine .of_eq (d := fun x => discard ((P x).eval e) >>= fun _ => checkEvents env)
      ((hP.discard_during (.refl hline) e).bind fun _ o ho => ?_) fun _ => rfl
    exact hcheck o ⟨ho.inv, C.runs_trans hruns (C.runs_of_rel ho.rel)⟩

theorem returning_ends {env : Env} (hn : C.Inv n) (value : Option Expr) :
    Ends stop (fun flow o => C.Inv o ∧ C.Runs flow.returned? n o)
      (fun x => returning (P x) env value) n := by
  have hreturn (v : Value) (o : Machine) (ho : C.During n o ∧ C.Hand n v) :
      Ends stop (fun (flow : Flow) o => C.Inv o ∧ C.Runs flow.returned? n o)
        (fun _ => get >>= fun s : Machine => recordReturn v s.line >>= fun _ =>
          checkEvents env >>= fun _ => Pure.pure (Flow.ret v)) o := by
    obtain ⟨hinv, hruns⟩ := C.ret ho.1.inv ho.1.rel ho.2
    refine .of_eq (d := fun _ => checkEvents env >>= fun _ => Pure.pure (Flow.ret v))
      (checkEvents_ends.bind fun _ p hp => ?_) fun _ => rfl
    subst hp
    exact .pure ⟨hinv, hruns⟩
  cases value with
  | none => exact hreturn .undefined n ⟨.refl hn, C.hand_scalar rfl⟩
  | some e =>
    exact (hP.eval_during (.refl hn) e).bind fun v o ⟨ho, _, hv⟩ => hreturn v o ⟨ho, hv⟩

theorem runBegun_ends {env : Env} (rounds : Nat) {s : Stmt} (hs : s.RefsOnlyIf refs)
    (hn : C.Inv n) :
    Ends stop (fun flow o => C.Inv o ∧ C.Runs flow.returned? n o)
      (fun x => runBegun (P x) env rounds s) n := by
  have hcheck (n : Machine) (hn : C.Inv n) :
      Ends stop (fun _ o => C.Inv o ∧ C.Runs none n o) (fun _ => checkEvents env) n :=
    checkEvents_ends.mono fun _ _ hp => by rw [hp]; exact ⟨hn, C.runs_of_rel (C.refl n)⟩
  have htruth (cond : Expr) (n : Machine) (hn : C.Inv n) :
      Ends stop (fun _ o => C.Inv o ∧ C.Runs none n o) (fun x => truth (P x) cond) n :=
    (hP.truth_during (.refl hn) cond).mono fun _ _ ho => ⟨ho.inv, C.runs_of_rel ho.rel⟩
  cases s with
  | act line step action =>
    exact (hP.perform_ends hn hs).bind fun _ _ ho => .pure ho
  | ifElse line step cond yes no =>
    refine (htruth cond n hn).bind fun b o ⟨ho, hno⟩ => ?_
    have hbranch {body : List Stmt} (hbody : Stmt.AllRefsOnlyIf refs body) :
        Ends stop (fun flow o => C.Inv o ∧ C.Runs flow.returned? n o)
          (fun x => block (P x) body) o :=
      (hP.block_ends hbody ho).mono fun _ _ ⟨hp, hop⟩ => ⟨hp, C.runs_trans hno hop⟩
    cases b with
    | true => exact hbranch hs.1
    | false => exact hbranch hs.2
  | whileLoop line step cond body =>
    exact repeatWhile_ends (htruth cond) (fun _ => hP.block_ends hs) hcheck rounds hn
  | doWhile line step body cond =>
    refine (hP.block_ends hs hn).bind fun flow o ⟨ho, hno⟩ => ?_
    have hrest (hnone : flow.returned? = none) :
        Ends stop (fun flow o => C.Inv o ∧ C.Runs flow.returned? n o)
          (fun x => checkEvents env >>= fun _ =>
            repeatWhile (truth (P x) cond) (block (P x) body) (checkEvents env) rounds) o := by
      rw [hnone] at hno
      refine (hcheck o ho).bind fun _ p ⟨hp, hop⟩ => ?_
      refine (repeatWhile_ends (htruth cond) (fun _ => hP.block_ends hs) hcheck rounds hp).mono
        fun _ _ ⟨hq, hpq⟩ => ⟨hq, C.runs_trans hno (C.runs_trans hop hpq)⟩
    cases flow with
    | normal => exact hrest rfl
    | continueLoop => exact hrest rfl
    | breakLoop => exact .pure ⟨ho, hno⟩
    | ret v => exact .pure ⟨ho, hno⟩
  | forLoop line step init cond update body =>
    have hrounds : Ends stop (fun (flow : Flow) o => C.Inv o ∧
        C.Runs flow.returned? { n with stack := n.stack.pushScope } o)
        (fun x => forInit (P x) env init >>= fun _ => get >>= fun s : Machine =>
          repeatWhile (forCond (P x) s.line cond) (Exec.block (P x) body)
            (forNext (P x) env s.line update) rounds) { n with stack := n.stack.pushScope } := by
      refine (hP.forInit_ends (C.pushScope hn) hs.1).bind fun _ o ⟨ho, hno⟩ => ?_
      refine .get_bind ?_
      exact (repeatWhile_ends (fun _ hp => hP.forCond_ends hp o.line cond)
        (fun _ => hP.block_ends hs.2) (fun _ hp => hP.forNext_ends hp o.line update) rounds ho).mono
        fun _ _ ⟨hp, hop⟩ => ⟨hp, C.runs_trans hno hop⟩
    refine .of_eq (hrounds.bind fun flow o ⟨ho, hno⟩ => ?_) fun _ => rfl
    exact .ok (fun _ => rfl) (C.popScope hn ho hno)
  | block line step body => exact hP.block_ends hs hn
  | breakLoop line step | continueLoop line step =>
    exact .pure ⟨hn, C.runs_of_rel (C.refl n)⟩
  | ret line step value => exact hP.returning_ends hn value

theorem runWith_ends {env : Env} (rounds : Nat) {s : Stmt} (hs : s.RefsOnlyIf refs)
    (hn : C.Inv n) :
    Ends stop (fun flow o => C.Inv o ∧ C.Runs flow.returned? n o)
      (fun x => runWith (P x) env rounds s) n :=
  (begin_ends hn s.line s.step).bind fun _ _ ⟨ho, hno⟩ =>
    (hP.runBegun_ends rounds hs ho).mono fun _ _ ⟨hp, hop⟩ => ⟨hp, C.runs_trans hno hop⟩

/-! ## Calls -/

omit hP in
/-- The values of the parameters are copies, unless there are references. -/
theorem bindArgs_ends {params : List Instrumented.Param}
    (hparams : ∀ p ∈ params, p.byRef = true → refs = true) (h : C.During m n) (args : List Value) :
    Ends stop (fun vars o => C.During m o ∧ ∀ b ∈ vars, refs = true ∨ C.Pending m o b.2)
      (fun _ => bindArgs params args) n := by
  refine .mapM (k := fun o (b : String × Value) => refs = true ∨ C.Pending m o b.2) h
    fun b hb o ho => ?_
  obtain ⟨param, v⟩ := b
  have hparam := hparams param (List.of_mem_zip hb).1
  cases hr : param.byRef with
  | true =>
    refine .ok (fun _ => by simp only [hr]; rfl) ⟨ho, .inl (hparam hr), fun _ => id⟩
  | false =>
    refine .of_eq ((copy_ends ho v).bind fun w p ⟨hp, hrel, hw⟩ => .ok (a := (param.name, w))
      (fun _ => rfl) ⟨hp, .inr hw, fun b' hb' => ?_⟩) fun _ => by simp only [hr]; rfl
    exact hb'.imp_right fun hpending => C.pending_rel hpending ho.inv hrel

omit hP in
theorem passed_ends {params : List Instrumented.Param}
    (hparams : ∀ p ∈ params, p.byRef = true → refs = true) (h : C.During m n) (args : List Value) :
    Ends stop (C.Passed m) (fun _ => bindArgs params args) n := by
  have hbound : Ends (fun _ => False) (fun vars o => C.During m o ∧ ∀ b ∈ vars, refs = true ∨ C.Pending m o b.2)
      (fun _ => bindArgs params args) n := bindArgs_ends hparams h args
  refine .const fun vars o ho => ?_
  obtain ⟨hduring, hpending⟩ := hbound.of_ok ho
  refine ⟨hduring, hpending, ?_⟩
  cases refs with
  | true => exact .inl rfl
  | false => exact .inr (bindArgs_distinct (fun p hp => Bool.eq_false_iff.mpr fun h =>
      Bool.false_ne_true (hparams p hp h)) ho)

theorem callWith_ends {env : Env} (henv : env.program.RefsOnlyIf refs) (name : String)
    (args : List Value) (hm : C.Inv m) :
    Ends stop (fun v n => C.During m n ∧ C.Hand m v) (fun x => callWith (P x) env name args) m := by
  cases hf : env.program.function? name with
  | none =>
    simp only [callWith, hf, callLibrary]
    cases hl : LibraryFunction.ofName? name with
    | none => exact .fail
    | some f =>
      exact .get_bind (.ofExcept fun v hv => ⟨.refl hm, C.hand_scalar (isList_of_apply hv)⟩)
  | some f =>
    have hfrefs : f.RefsOnlyIf refs := henv.1 f (List.mem_of_find?_eq_some hf)
    obtain ⟨hnoted, hrel⟩ := C.entered (m.noting env name).entered hm
    refine (Exec.callWith_ends hf (fun _ => passed_ends hfrefs.1 ⟨hnoted, hrel⟩ args) fun vars n hn =>
      hP.sequence_ends hfrefs.2 (C.enter f hn.inv hn.rel hn.pending hn.distinct)).mono ?_
    rintro v p ⟨vars, n, flow, o, hn, ⟨ho, hrun⟩, rfl, rfl⟩
    obtain ⟨hinv, hrel', hhand⟩ := C.leave hn.inv hn.rel hn.pending ho hrun
    exact ⟨⟨hinv, hrel'⟩, hhand⟩

/-! ## Everything -/

theorem next {env : Env} (henv : env.program.RefsOnlyIf refs) (rounds : Nat) :
    C.Means stop fun x => (P x).next env rounds where
  eval e _ hm := hP.evalWith_ends e hm
  resolve e _ hm := hP.resolveWith_ends e hm
  call name args _ hm := hP.callWith_ends henv name args hm
  run hs _ hm := hP.runWith_ends rounds hs hm

theorem runEntry_ends {env : Env} (hn : C.Inv n) :
    Ends stop (fun _ o => C.Runs none n o) (fun x => runEntry (P x) env) n := by
  rcases runEntry_cases env n with hstay | ⟨f, -, -, hentry⟩
  · exact .of_eq (.pure (C.runs_of_rel (C.refl n))) fun x => hstay (P x)
  · obtain ⟨hline, hruns⟩ := C.setLine f.line hn
    have hcall : Ends stop (fun _ o => C.Runs none n o)
        (fun x => discard ((P x).call f.name [])) { n with line := f.line } :=
      (hP.call f.name [] hline).bind fun _ _ ho =>
        .pure (C.runs_trans hruns (C.runs_of_rel ho.1.rel))
    exact .of_eq hcall fun x => hentry (P x)

/-- What a program does up to the call of the entry function, and that call. -/
theorem runProgram_ends {env : Env} (henv : env.program.RefsOnlyIf refs) (hm : C.Inv m) :
    Ends stop (fun _ n => ∃ v o, C.Runs v m o ∧ C.Runs none o n) (fun x => runProgram (P x) env) m := by
  have hdriver : Ends stop (fun _ o => C.Inv o ∧ ∃ v, C.Runs v m o)
      (fun x => discard (sequence (P x).run env.program.driver)) m :=
    (hP.sequence_ends henv.2 hm).bind fun flow _ ho => .pure ⟨ho.1, _, ho.2⟩
  refine hdriver.bind fun _ o ho => ?_
  obtain ⟨hinv, v, hrun⟩ := ho
  exact (hP.runEntry_ends hinv).mono fun _ _ hn => ⟨v, o, hrun, hn⟩

theorem attempt_ends {t : Task} (hm : C.Inv m) (ht : ∀ s, t = .run s → s.RefsOnlyIf refs) :
    Ends stop (fun _ _ => True) (fun x => (P x).attempt t) m := by
  cases t with
  | eval e => exact (hP.eval e hm).bind fun _ _ _ => .pure trivial
  | resolve e => exact (hP.resolve e hm).bind fun _ _ _ => .pure trivial
  | call name args => exact (hP.call name args hm).bind fun _ _ _ => .pure trivial
  | run s => exact (hP.run (ht s rfl) hm).bind fun _ _ _ => .pure trivial

end Means

theorem means {env : Env} (henv : env.program.RefsOnlyIf refs) (fuel : Nat) :
    C.Means stop fun _ => meaning env fuel := by
  induction fuel with
  | zero => exact ⟨fun _ _ _ => .outOfFuel, fun _ _ _ => .outOfFuel, fun _ _ _ _ => .outOfFuel,
      fun _ _ _ => .outOfFuel⟩
  | succ fuel ih => exact ih.next henv fuel

theorem eval_of_ok {env : Env} (henv : env.program.RefsOnlyIf refs) {fuel : Nat} {e : Expr}
    {v : Value} (hm : C.Inv m) (h : (meaning env fuel).eval e m = .ok v n) :
    C.During m n ∧ C.Hand m v :=
  have hends : Ends (fun _ => False) (fun v n => C.During m n ∧ C.Hand m v)
      (fun _ => (meaning env fuel).eval e) m := (C.means henv fuel).eval e hm
  hends.of_ok h

/-- What is known of statements that have come to an end. -/
theorem sequence_of_ok {env : Env} (henv : env.program.RefsOnlyIf refs) {fuel : Nat}
    {body : List Stmt} {flow : Flow} (hbody : Stmt.AllRefsOnlyIf refs body) (hm : C.Inv m)
    (h : sequence (meaning env fuel).run body m = .ok flow n) :
    C.Inv n ∧ C.Runs flow.returned? m n :=
  have hends : Ends (fun _ => False) (fun flow n => C.Inv n ∧ C.Runs flow.returned? m n)
      (fun _ => sequence (meaning env fuel).run body) m := (C.means henv fuel).sequence_ends hbody hm
  hends.of_ok h

open Classical in
/-- Stopping at a task is covered: it stops in a state that satisfies the invariant. -/
theorem means_stopAt {p : Meaning} (hp : C.Means (fun _ => False) fun _ => p) (t : Task) (n : Machine) :
    C.Means (fun o => C.Inv o ∧ ∀ s, t = .run s → s.RefsOnlyIf refs) fun x => p.stopAt t n x where
  eval e m hm := (hp.eval e hm).stopIf fun ⟨ht, hn⟩ => ⟨hn ▸ hm, fun _ hs => nomatch ht.symm.trans hs⟩
  resolve e m hm :=
    (hp.resolve e hm).stopIf fun ⟨ht, hn⟩ => ⟨hn ▸ hm, fun _ hs => nomatch ht.symm.trans hs⟩
  call name args m hm :=
    (hp.call name args hm).stopIf fun ⟨ht, hn⟩ => ⟨hn ▸ hm, fun _ hs => nomatch ht.symm.trans hs⟩
  run {s} hs m hm := (hp.run hs hm).stopIf fun ⟨ht, hn⟩ => ⟨hn ▸ hm, fun s' hs' => by
    cases ht.symm.trans hs'
    exact hs⟩

theorem Means.weaken {stop' : Machine → Prop} {P : Halt → Meaning} (hP : C.Means stop P)
    (hs : ∀ o, stop o → stop' o) : C.Means stop' P where
  eval e _ hm := (hP.eval e hm).weaken hs
  resolve e _ hm := (hP.resolve e hm).weaken hs
  call name args _ hm := (hP.call name args hm).weaken hs
  run hr _ hm := (hP.run hr hm).weaken hs

/-- Every state that a run reaches satisfies the invariant. -/
theorem inv_of_reached {env : Env} (henv : env.program.RefsOnlyIf refs)
    (hinit : C.Inv .initial) {fuel : Nat} {t : Task} (h : Reached env fuel t m) : C.Inv m := by
  suffices C.Inv m ∧ ∀ s, t = .run s → s.RefsOnlyIf refs from this.1
  induction h with
  | @start fuel t m h =>
    have hmeans := means_stopAt (C.means henv fuel) t m
    exact (hmeans.runProgram_ends henv hinit).of_stopped h
  | @part fuel s t m n _ h ih =>
    have hmeans := (means_stopAt (C.means henv fuel) t n).next henv fuel
    exact (hmeans.attempt_ends ih.1 ih.2).of_stopped h

end Exec.Contract

end CallTrace
