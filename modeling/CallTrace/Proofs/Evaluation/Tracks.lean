import CallTrace.Proofs.Evaluation.Rules
import CallTrace.Proofs.Tracking

/-! # Tidy programs record up to date

Whatever a tidy program without references does, what is recorded for the innermost call is up to date before
and after it.

* `Machine.Traced L m`: the state is unshared, and tracked with nothing stale.
* `Exec.writeSlot_tracked`, `Exec.recordRoot_tracked`: writing to a variable makes it stale, and recording it then
  makes it up to date. Nothing runs in between.
* `Exec.Tracks stop P`: the computations `P` keep states traced, an expression that names a variable gives what
  belongs to it, and they stop only where `stop` holds.
* `Tracks.next`: a construct does so when its parts do.
* `Exec.tracks`: so everything does, by induction on the fuel.
-/

namespace CallTrace
set_option autoImplicit false

open Instrumented (Expr Place Action Stmt ContainerOp Layout)

/-! ## Statements in a scope -/

namespace Instrumented

/-- A tidy statement without references, in a scope that declares what the statement does. -/
structure Stmt.Fits (L : Layout) (s : Stmt) : Prop where
  refs : s.RefsOnlyIf false
  tidy : s.tidy L
  declared : s.declared ⊆ L.inner

theorem fits_of_mem {L : Layout} {body : List Stmt} (hrefs : Stmt.AllRefsOnlyIf false body)
    (htidy : allTidy L body) (hdeclared : declaredIn body ⊆ L.inner) : ∀ s ∈ body, s.Fits L := by
  induction body with
  | nil =>
    intro s hs
    cases hs
  | cons s rest ih =>
    obtain ⟨hs, hrest⟩ := Bool.and_eq_true_iff.mp htidy
    obtain ⟨hdeclared, hdeclared'⟩ := List.append_subset.mp hdeclared
    intro t ht
    rcases List.mem_cons.mp ht with rfl | ht
    · exact ⟨hrefs.1, hs, hdeclared⟩
    · exact ih hrefs.2 hrest hdeclared' t ht

/-- The statements of a block fit into its scope. -/
theorem fits_block {L : Layout} {body : List Stmt} (hrefs : Stmt.AllRefsOnlyIf false body)
    (htidy : allTidy (L.push (declaredIn body)) body) : ∀ s ∈ body, s.Fits (L.push (declaredIn body)) :=
  fits_of_mem hrefs htidy (List.Subset.refl _)

end Instrumented

/-- No two variables share a list, and what is recorded for the innermost call is up to date. -/
structure Machine.Traced (L : Layout) (m : Machine) : Prop where
  unshared : m.Unshared
  tracked : m.Tracked L none

namespace Exec

variable {stop : Machine → Prop} {L : Layout} {m n : Machine} {x : String} {root : Option String}

/-! ## Values and slots -/

theorem traced_copy (h : m.Traced L) (v : Value) :
    Machine.Traced L { m with heap := (m.heap.copy v).2 } ∧
      unshared.Rel m { m with heap := (m.heap.copy v).2 } := by
  obtain ⟨hinv, hrel, -⟩ := unshared.copy v h.unshared
  have hextends : m.heap.Extends (m.heap.copy v).2 := (Heap.copy_spec v m.heap).1
  exact ⟨⟨hinv, h.tracked.withHeap h.unshared hextends.size hextends.old⟩, hrel⟩

theorem copy_traced (h : m.Traced L) (v : Value) :
    Ends stop (fun _ o => o.Traced L ∧ unshared.Rel m o) (fun _ => Exec.copy v) m :=
  .ok (fun _ => rfl) (traced_copy h v)

theorem copies_traced (h : m.Traced L) (v : Value) (k : Nat) (done : Array Value) :
    Ends stop (fun _ o => o.Traced L) (fun _ => onHeap (Heap.copies v k done)) m := by
  induction k generalizing done m with
  | zero => exact .ok (fun _ => rfl) h
  | succ k ih => exact .of_eq (ih (traced_copy h v).1 (done.push (m.heap.copy v).1)) fun _ => rfl

theorem newList_tracked (h : m.Traced L) (items : Array Value) :
    Ends stop (fun _ o => o.Tracked L none) (fun _ => Exec.newList items) m := by
  have hsize : m.heap.cells.size ≤ (m.heap.alloc items).2.cells.size := by
    rw [Heap.size_alloc]
    exact Nat.le_succ _
  exact .ok (fun _ => rfl) (h.tracked.withHeap h.unshared hsize fun c hc => Heap.items_alloc_of_lt hc items)

theorem lookup_belongs (hm : m.Unshared) (name : String) :
    Ends stop (fun v o => o = m ∧ m.Belongs name v) (fun _ => Exec.lookup name) m := by
  cases hv : m.stack.lookup name with
  | some v => exact .ok (fun _ => lookup_of_some hv) ⟨rfl, hm.belongs_of_lookup hv⟩
  | none => exact .of_eq .fail fun _ => lookup_of_none hv

theorem readSlot_belongs (hm : m.Unshared) {slot : Slot} (hs : m.BelongsSlot x slot) :
    Ends stop (fun v o => o = m ∧ m.Belongs x v) (fun _ => readSlot slot) m := by
  induction slot with
  | var name =>
    obtain rfl : name = x := hs
    exact lookup_belongs hm name
  | item c i =>
    exact .get_bind (.ofExcept fun v hv => ⟨rfl, hm.belongs_itemOf hs hv⟩)
  | char owner i ih =>
    refine (ih hs).bind fun v o ⟨ho, hv⟩ => ?_
    subst ho
    exact .get_bind (.ofExcept fun w hw => ⟨rfl, hm.belongs_itemOf hv hw⟩)

theorem elementSlot_belongs (hm : m.Unshared) {owner : Slot} (hs : m.BelongsSlot x owner) (i : Int) :
    Ends stop (fun slot o => o = m ∧ m.BelongsSlot x slot) (fun _ => elementSlot owner i) m := by
  refine (readSlot_belongs hm hs).bind fun v o ⟨ho, hv⟩ => ?_
  cases v with
  | list c => exact .pure ⟨ho, hv⟩
  | str s => exact .pure ⟨ho, hs⟩
  | _ => exact .fail

/-! ## Writing and recording -/

/-- The variable that a slot belongs to is the only one that writing to the slot makes stale. -/
theorem writeSlot_tracked (h : m.Traced L) {slot : Slot} (hs : m.BelongsSlot x slot) (v : Value) :
    Ends stop (fun _ o => o.Tracked L (some x) ∧ o.recorder = m.recorder) (fun _ => writeSlot slot v) m := by
  induction slot generalizing v with
  | var name =>
    obtain rfl : name = x := hs
    refine .const fun _ o ho => ?_
    unfold writeSlot Exec.assign at ho
    split at ho
    · next s hs =>
      cases ho
      exact ⟨h.tracked.assign hs, rfl⟩
    · cases ho
  | item c i =>
    refine .get_bind (.ofExcept_bind fun k _ => ?_)
    exact .ok (fun _ => rfl) ⟨h.tracked.store h.unshared hs _, rfl⟩
  | char owner i ih =>
    have howner : m.BelongsSlot x owner := hs
    simp only [writeSlot]
    refine (readSlot_belongs h.unshared howner).bind fun w o ho => ?_
    obtain rfl := ho.1
    cases w with
    | str s =>
      exact .ofExcept_bind fun c _ => .ofExcept_bind fun k _ => ih howner _
    | _ => exact .fail

theorem recordSet_tracked (hm : m.recorder.Sound) (h : m.Tracked L (some x)) :
    Ends stop (fun _ o => o.Tracked L none) (fun _ => recordSet x) m := by
  refine .ok (fun _ => rfl) ?_
  show Machine.Tracked (if _ then _ else _) L none
  cases hx : m.stack.local? x with
  | none =>
    rw [CallStack.isLocal_eq, hx]
    exact h.of_not_local hx
  | some v =>
    have hlocal : m.stack.isLocal x := by rw [CallStack.isLocal_eq, hx]; rfl
    rw [if_pos hlocal, CallStack.lookup_of_local? hx]
    exact h.set hm hx (some m.line)

/-- What is recorded after a write to the variable `root` is up to date. -/
theorem recordRoot_tracked (hm : m.recorder.Sound) (h : m.Tracked L root) :
    Ends stop (fun _ o => o.Tracked L none) (fun _ => recordRoot root) m := by
  cases root with
  | none => exact .pure h
  | some x => exact recordSet_tracked hm h

/-- Recording after a write. -/
theorem recordRoot_then {α : Type} (hm : m.recorder.Sound) (h : n.Tracked L root) (he : n.recorder = m.recorder)
    (a : α) : Ends stop (fun _ o => o.Tracked L none) (fun _ => recordRoot root >>= fun _ => Pure.pure a) n :=
  (recordRoot_tracked (he ▸ hm) h).bind fun _ _ ho => .pure ho

/-! ## Operations on containers -/

/-- An operation that changes a list makes nothing stale but the variable that the list belongs to. -/
theorem listOp_tracked (h : m.Traced L) (op : ContainerOp) {c : CellId}
    (hc : op.mutates → ∃ x, root = some x ∧ m.Belongs x (.list c)) (args : List Value) :
    Ends stop (fun _ o => o.Tracked L (if op.mutates then root else none) ∧ o.recorder = m.recorder)
      (fun _ => listOp op c args) m := by
  cases op with
  | append =>
    obtain ⟨x, rfl, hx⟩ := hc rfl
    have hitem : Ends stop (fun _ o => (o.Traced L ∧ unshared.Rel m o) ∧ o.recorder = m.recorder)
        (fun _ => copyFirst args) m := by
      cases args with
      | nil => exact .pure ⟨⟨h, unshared.refl m⟩, rfl⟩
      | cons v rest => exact .ok (fun _ => rfl) ⟨traced_copy h v, rfl⟩
    refine hitem.bind fun item o ⟨⟨ho, hrel⟩, he⟩ => .ok (fun _ => rfl) ⟨?_, he⟩
    exact ho.tracked.store ho.unshared (hx.of_rel hrel) fun items => items.push item
  | removeLast =>
    obtain ⟨x, rfl, hx⟩ := hc rfl
    have hpop : Ends stop (fun _ o => o.Tracked L (some x) ∧ o.recorder = m.recorder)
        (fun _ => if (m.heap.items c).isEmpty then Exec.fail (.emptyContainer "pop_back")
          else modifyHeap (·.update c Array.pop) >>= fun _ => Pure.pure Value.undefined) m := by
      split
      · exact .fail
      · exact .ok (fun _ => rfl) ⟨h.tracked.store h.unshared hx Array.pop, rfl⟩
    exact .of_eq hpop fun _ => rfl
  | length | isEmpty => exact .ok (fun _ => rfl) ⟨h.tracked, rfl⟩
  | back =>
    cases hb : (m.heap.items c).back? with
    | some item =>
      refine .ok (a := item) (fun _ => ?_) ⟨h.tracked, rfl⟩
      simp only [listOp, get_bind, hb]
      rfl
    | none =>
      refine .of_eq (n := m) (d := fun _ => Exec.fail (.emptyContainer "back")) .fail fun _ => ?_
      simp only [listOp, get_bind, hb]
  | substr => exact .fail

/-! ## Calls that begin -/

/-- A call begins with nothing recorded for it. -/
theorem traced_entering {env : Env} {name : String} {f : Instrumented.Function} {args : List Value}
    {vars : List (String × Value)} (hn : unshared.Passed m vars n)
    (hargs : bindArgs f.params args (m.noting env name) = .ok vars n) :
    (n.entering f vars).Traced f.layout := by
  have hnames (b : String × Value) (hb : b ∈ vars) : b.1 ∈ f.layout.base := by
    have hzip : b.1 ∈ (f.params.zip args).map (·.1.name) :=
      (bindArgs_ok hargs).2 ▸ List.mem_map_of_mem hb
    obtain ⟨p, hp, he⟩ := List.mem_map.mp hzip
    exact List.mem_append_left _ (he ▸ List.mem_map_of_mem (List.of_mem_zip hp).1)
  exact ⟨unshared.enter f hn.inv hn.rel hn.pending hn.distinct, .entering f hnames⟩

/-! ## What the parts keep -/

/-- The computations `P` keep what is recorded up to date, unless they return from the call. -/
structure Tracks (stop : Machine → Prop) (P : Halt → Meaning) : Prop where
  covered : unshared.Means (fun _ => True) P
  eval {e : Expr} {L : Layout} {m : Machine} (he : e.named) (h : m.Traced L) :
    Ends stop (fun v n => n.Tracked L none ∧ ∀ x, e.root? = some x → n.Belongs x v) (fun x => (P x).eval e) m
  resolve {e : Expr} {L : Layout} {m : Machine} (he : e.named) (h : m.Traced L) :
    Ends stop (fun slot n => n.Tracked L none ∧ ∃ x, e.root? = some x ∧ n.BelongsSlot x slot)
      (fun x => (P x).resolve e) m
  call (name : String) (args : List Value) {L : Layout} {m : Machine} (h : m.Traced L) :
    Ends stop (fun _ n => n.Tracked L none) (fun x => (P x).call name args) m
  run {s : Stmt} {L : Layout} {m : Machine} (hs : s.Fits L) (h : m.Traced L) :
    Ends stop (fun flow n => flow.returned? = none → n.Tracked L none) (fun x => (P x).run s) m

namespace Tracks

variable {P : Halt → Meaning} (hP : Tracks stop P)
include hP

/-! ### Expressions -/

theorem eval_traced (h : m.Traced L) {e : Expr} (he : e.named) :
    Ends stop (fun v o => o.Traced L ∧ unshared.Rel m o ∧ ∀ x, e.root? = some x → o.Belongs x v)
      (fun x => (P x).eval e) m :=
  ((hP.covered.eval e h.unshared).and (hP.eval he h)).mono
    fun _ _ ⟨⟨hduring, _⟩, htracked, hroot⟩ => ⟨⟨hduring.inv, htracked⟩, hduring.rel, hroot⟩

theorem resolve_traced (h : m.Traced L) {e : Expr} (he : e.named) :
    Ends stop (fun slot o => o.Traced L ∧ ∃ x, e.root? = some x ∧ o.BelongsSlot x slot)
      (fun x => (P x).resolve e) m :=
  ((hP.covered.resolve e h.unshared).and (hP.resolve he h)).mono
    fun _ _ ⟨⟨hduring, _⟩, htracked, hroot⟩ => ⟨⟨hduring.inv, htracked⟩, hroot⟩

theorem call_traced (name : String) (args : List Value) (h : m.Traced L) :
    Ends stop (fun _ o => o.Traced L) (fun x => (P x).call name args) m :=
  ((hP.covered.call name args h.unshared).and (hP.call name args h)).mono
    fun _ _ ⟨⟨hduring, _⟩, htracked⟩ => ⟨hduring.inv, htracked⟩

theorem discard_traced (h : m.Traced L) {e : Expr} (he : e.named) :
    Ends stop (fun _ o => o.Traced L) (fun x => discard ((P x).eval e)) m :=
  (hP.eval_traced h he).bind fun _ _ ⟨ho, _⟩ => .pure ho

theorem truth_traced (h : m.Traced L) {cond : Expr} (he : cond.named) :
    Ends stop (fun _ o => o.Traced L) (fun x => truth (P x) cond) m :=
  (hP.eval_traced h he).bind fun _ _ ⟨ho, _⟩ => .pure ho

theorem evals_traced (h : n.Traced L) (hrel : unshared.Rel m n) {es : List Expr} (hes : Instrumented.allNamed es) :
    Ends stop (fun _ o => o.Traced L ∧ unshared.Rel m o) (fun x => es.mapM (P x).eval) n := by
  refine (Ends.mapM (k := fun _ _ => True) (And.intro h hrel) fun e he o ho => ?_).mono fun _ _ h => h.1
  refine (hP.eval_traced ho.1 (Instrumented.allNamed_iff.mp hes e he)).mono fun _ _ ⟨hp, hrel, _⟩ => ?_
  exact ⟨⟨hp, unshared.trans ho.2 hrel⟩, trivial, fun _ => id⟩

theorem literal_tracked (h : m.Traced L) {items : List Expr} (hitems : Instrumented.allNamed items) :
    Ends stop (fun _ o => o.Tracked L none) (fun x => literal (P x) items) m := by
  have hcopies : Ends stop (fun _ o => o.Traced L)
      (fun x => items.mapM fun item => (P x).eval item >>= fun v => Exec.copy v) m := by
    refine (Ends.mapM (k := fun _ _ => True) h fun item hitem o ho => ?_).mono
      fun _ _ h => h.1
    refine (hP.eval_traced ho (Instrumented.allNamed_iff.mp hitems item hitem)).bind fun v p ⟨hp, _⟩ => ?_
    exact (copy_traced hp v).mono fun _ _ ⟨hq, _⟩ => ⟨hq, trivial, fun _ => id⟩
  exact hcopies.bind fun vs o ho => newList_tracked ho _

theorem filled_tracked (h : m.Traced L) {size fill : Expr} (hsize : size.named) (hfill : fill.named) :
    Ends stop (fun _ o => o.Tracked L none) (fun x => filled (P x) size fill) m := by
  refine (hP.eval_traced h hsize).bind fun v o ⟨ho, _⟩ => ?_
  refine .ofExcept_bind fun k _ => (hP.eval_traced ho hfill).bind fun w q ⟨hq, _⟩ => ?_
  exact (copies_traced hq w k #[]).bind fun ws r hr => newList_tracked hr ws

theorem binary_tracked (h : m.Traced L) (op : BinOp) {left right : Expr} (hleft : left.named)
    (hright : right.named) : Ends stop (fun _ o => o.Tracked L none) (fun x => binary (P x) op left right) m := by
  refine (hP.eval_traced h hleft).bind fun l o ⟨ho, _⟩ => ?_
  refine afterLeft_rule (Q := fun f => Ends stop (fun _ p => p.Tracked L none) (fun x => f (P x)) o) op l right
    (fun b => .pure ho.tracked) ?_ ?_
  · exact (hP.truth_traced ho hright).bind fun _ _ hp => .pure hp.tracked
  · exact (hP.eval_traced ho hright).bind fun r p ⟨hp, _⟩ => .get_bind (.ofExcept fun v hv => hp.tracked)

/-- An item of what belongs to a variable belongs to it. -/
theorem indexing_tracked (h : m.Traced L) {base index : Expr} (hbase : base.named) (hindex : index.named) :
    Ends stop (fun v o => o.Tracked L none ∧ ∀ x, base.root? = some x → o.Belongs x v)
      (fun x => indexing (P x) base index) m := by
  refine (hP.eval_traced h hbase).bind fun container o ⟨ho, _, hroot⟩ => ?_
  refine (hP.eval_traced ho hindex).bind fun i p ⟨hp, hrel, _⟩ => ?_
  refine .ofExcept_bind fun k _ => .get_bind ?_
  exact .ofExcept fun v hv => ⟨hp.tracked, fun x hx => hp.unshared.belongs_itemOf ((hroot x hx).of_rel hrel) hv⟩

omit hP in
theorem stored_traced (h : m.Traced L) {slot : Slot} (hs : m.BelongsSlot x slot) (op : Option BinOp) (v : Value) :
    Ends stop (fun _ o => o.Traced L ∧ unshared.Rel m o) (fun _ => stored slot op v) m := by
  cases op with
  | none => exact copy_traced h v
  | some op =>
    refine (readSlot_belongs h.unshared hs).bind fun old o ⟨ho, _⟩ => ?_
    subst ho
    exact .get_bind (.ofExcept fun w hw => ⟨h, unshared.refl o⟩)

/-- An assignment writes to the variable that it records, whatever its value writes to. -/
theorem assignment_tracked (h : m.Traced L) {target : Place} (op : Option BinOp) {value : Expr}
    (htarget : target.named) (hvalue : value.named) :
    Ends stop (fun _ o => o.Tracked L none) (fun x => assignment (P x) target op value) m := by
  have htarget : target.toExpr.named := (Place.named_toExpr target).trans htarget
  refine (hP.resolve_traced h htarget).bind fun slot o ⟨ho, x, hx, hs⟩ => ?_
  rw [Place.root?_toExpr] at hx
  refine (hP.eval_traced ho hvalue).bind fun v p ⟨hp, hrel, _⟩ => ?_
  refine (stored_traced hp (hs.of_rel hrel) op v).bind fun new q ⟨hq, hrel'⟩ => ?_
  refine (writeSlot_tracked hq ((hs.of_rel hrel).of_rel hrel') new).bind fun _ r ⟨hr, he⟩ => ?_
  rw [hx]
  exact recordRoot_then hq.unshared.sound hr he new

theorem stepping_tracked (h : m.Traced L) {target : Place} (step : Instrumented.Step) (before : Bool)
    (htarget : target.named) :
    Ends stop (fun _ o => o.Tracked L none) (fun x => stepping (P x) target step before) m := by
  have htarget : target.toExpr.named := (Place.named_toExpr target).trans htarget
  refine (hP.resolve_traced h htarget).bind fun slot o ⟨ho, x, hx, hs⟩ => ?_
  rw [Place.root?_toExpr] at hx
  have hupdate : Ends stop (fun _ p => p.Tracked L (some x) ∧ p.recorder = o.recorder)
      (fun _ => updateSlot slot (stepBy step.delta)) o := by
    refine (readSlot_belongs ho.unshared hs).bind fun old p ⟨hp, _⟩ => ?_
    subst hp
    exact .ofExcept_bind fun new _ => (writeSlot_tracked ho hs new).bind fun _ r hr => .pure hr
  refine hupdate.bind fun w p ⟨hp, he⟩ => ?_
  rw [hx]
  exact recordRoot_then ho.unshared.sound hp he _

theorem onString_tracked (h : m.Traced L) (op : ContainerOp) {target : Expr} (htarget : target.named) (s : String)
    (args : List Value) :
    Ends stop (fun _ o => o.Tracked L (if op.mutates then target.root? else none) ∧ o.recorder.Sound)
      (fun x => onString (P x) op target s args) m := by
  have hop : Ends stop (fun (w : Value × Option String) o => o = m ∧ (w.2.isSome → op.mutates))
      (fun _ => Exec.ofExcept (stringOp op s args)) m := by
    refine .ofExcept fun w hw => ⟨rfl, fun hsome => ?_⟩
    obtain ⟨result, changed⟩ := w
    obtain ⟨t, rfl⟩ := Option.isSome_iff_exists.mp hsome
    exact mutates_of_stringOp hw
  refine hop.bind fun w o ⟨ho, hmutates⟩ => ?_
  subst ho
  obtain ⟨result, changed⟩ := w
  cases changed with
  | none => exact .pure ⟨h.tracked.loosen, h.unshared.sound⟩
  | some t =>
    refine (hP.resolve_traced h htarget).bind fun slot p ⟨hp, x, hx, hs⟩ => ?_
    refine (writeSlot_tracked hp hs (.str t)).bind fun _ q ⟨hq, he⟩ => .pure ?_
    rw [if_pos (hmutates rfl), hx]
    exact ⟨hq, he ▸ hp.unshared.sound⟩

/-- An operation that changes a container names a variable, which the container belongs to. -/
theorem operation_tracked (h : m.Traced L) {op : ContainerOp} {target : Expr} {args : List Expr}
    (hnamed : (Expr.container op target args).named) :
    Ends stop (fun _ o => o.Tracked L none) (fun x => operation (P x) op target args) m := by
  obtain ⟨hroot, hparts⟩ := Bool.and_eq_true_iff.mp hnamed
  obtain ⟨htarget, hargs⟩ := Bool.and_eq_true_iff.mp hparts
  refine (hP.eval_traced h htarget).bind fun container o ⟨ho, _, hbelongs⟩ => ?_
  refine (hP.evals_traced ho (unshared.refl o) hargs).bind fun values p ⟨hp, hrel⟩ => ?_
  have hrecord (v : Value) (q : Machine)
      (hq : q.Tracked L (if op.mutates then target.root? else none) ∧ q.recorder.Sound) :
      Ends stop (fun _ o => o.Tracked L none)
        (fun _ => recordRoot (Expr.container op target args).probe? >>= fun _ => Pure.pure v) q :=
    recordRoot_then hq.2 hq.1 rfl v
  cases container with
  | list c =>
    have hc (hmutates : op.mutates) : ∃ x, target.root? = some x ∧ p.Belongs x (.list c) := by
      have hsome : target.root?.isSome := by simpa [hmutates] using hroot
      obtain ⟨x, hx⟩ := Option.isSome_iff_exists.mp hsome
      exact ⟨x, hx, (hbelongs x hx).of_rel hrel⟩
    exact ((listOp_tracked hp op hc values).mono fun _ _ ⟨hq, he⟩ => ⟨hq, he ▸ hp.unshared.sound⟩).bind hrecord
  | str s => exact (hP.onString_tracked hp op htarget s values).bind hrecord
  | _ => exact Ends.bind .fail hrecord

theorem evalWith_tracked (h : m.Traced L) {e : Expr} (he : e.named) :
    Ends stop (fun v n => n.Tracked L none ∧ ∀ x, e.root? = some x → n.Belongs x v)
      (fun x => evalWith (P x) e) m := by
  have hrootless {c : Halt → Exec Value} (hc : Ends stop (fun _ o => o.Tracked L none) c m)
      (hnone : e.root? = none) :
      Ends stop (fun v n => n.Tracked L none ∧ ∀ x, e.root? = some x → n.Belongs x v) c m :=
    hc.mono fun v o ho => ⟨ho, fun x hx => nomatch hnone.symm.trans hx⟩
  cases e with
  | int _ | float _ | bool _ | str _ | undefined => exact .pure ⟨h.tracked, nofun⟩
  | list items => exact hrootless (hP.literal_tracked h he) rfl
  | fill size fill =>
    obtain ⟨hsize, hfill⟩ := Bool.and_eq_true_iff.mp he
    exact hrootless (hP.filled_tracked h hsize hfill) rfl
  | var name =>
    refine (lookup_belongs h.unshared name).mono fun v o ⟨ho, hv⟩ => ?_
    subst ho
    exact ⟨h.tracked, fun x hx => Option.some.inj hx ▸ hv⟩
  | binary op left right =>
    obtain ⟨hleft, hright⟩ := Bool.and_eq_true_iff.mp he
    exact hrootless (hP.binary_tracked h op hleft hright) rfl
  | neg operand =>
    have he : operand.named := he
    refine hrootless ?_ rfl
    exact (hP.eval_traced h he).bind fun v o ⟨ho, _⟩ => .ofExcept fun _ _ => ho.tracked
  | not operand =>
    have he : operand.named := he
    refine hrootless ?_ rfl
    exact (hP.truth_traced h he).bind fun _ _ ho => .pure ho.tracked
  | ternary cond yes no =>
    obtain ⟨hcond, hbranches⟩ := Bool.and_eq_true_iff.mp he
    obtain ⟨hyes, hno⟩ := Bool.and_eq_true_iff.mp hbranches
    refine hrootless ?_ rfl
    refine (hP.truth_traced h hcond).bind fun b o ho => ?_
    cases b with
    | true => exact (hP.eval_traced ho hyes).mono fun _ _ hp => hp.1.tracked
    | false => exact (hP.eval_traced ho hno).mono fun _ _ hp => hp.1.tracked
  | assign target op value =>
    obtain ⟨htarget, hvalue⟩ := Bool.and_eq_true_iff.mp he
    exact hrootless (hP.assignment_tracked h op htarget hvalue) rfl
  | update target step before => exact hrootless (hP.stepping_tracked h step before he) rfl
  | index base index =>
    obtain ⟨hbase, hindex⟩ := Bool.and_eq_true_iff.mp he
    exact hP.indexing_tracked h hbase hindex
  | call name args =>
    refine hrootless ?_ rfl
    exact (hP.evals_traced h (unshared.refl m) he).bind fun values o ⟨ho, _⟩ => hP.call name values ho
  | container op target args => exact hrootless (hP.operation_tracked h he) rfl

theorem resolveWith_tracked (h : m.Traced L) {e : Expr} (he : e.named) :
    Ends stop (fun slot n => n.Tracked L none ∧ ∃ x, e.root? = some x ∧ n.BelongsSlot x slot)
      (fun x => resolveWith (P x) e) m := by
  cases e with
  | var name => exact .pure ⟨h.tracked, name, rfl, rfl⟩
  | index base index =>
    obtain ⟨hbase, hindex⟩ := Bool.and_eq_true_iff.mp he
    refine (hP.resolve_traced h hbase).bind fun owner o ⟨ho, x, hx, hs⟩ => ?_
    refine (hP.eval_traced ho hindex).bind fun i p ⟨hp, hrel, _⟩ => ?_
    refine .ofExcept_bind fun k _ => ?_
    refine (elementSlot_belongs hp.unshared (hs.of_rel hrel) k).mono fun slot r ⟨hr, hslot⟩ => ?_
    subst hr
    exact ⟨hp.tracked, x, hx, hslot⟩
  | _ => exact .fail

/-! ### Statements in order -/

theorem run_traced {s : Stmt} (hs : s.Fits L) (h : m.Traced L) :
    Ends stop (fun flow o => o.Unshared ∧ (flow.returned? = none → o.Tracked L none)) (fun x => (P x).run s) m :=
  ((hP.covered.run hs.refs h.unshared).and (hP.run hs h)).mono fun _ _ ⟨⟨ho, _⟩, htracked⟩ => ⟨ho, htracked⟩

theorem sequence_tracked {body : List Stmt} (hbody : ∀ s ∈ body, s.Fits L) (h : m.Traced L) :
    Ends stop (fun flow o => flow.returned? = none → o.Tracked L none) (fun x => sequence (P x).run body) m := by
  induction body generalizing m with
  | nil => exact .pure fun _ => h.tracked
  | cons s rest ih =>
    refine (hP.run_traced (hbody s List.mem_cons_self) h).bind fun flow o ⟨ho, htracked⟩ => ?_
    cases flow with
    | normal => exact ih (fun t ht => hbody t (List.mem_cons_of_mem s ht)) ⟨ho, htracked rfl⟩
    | breakLoop | continueLoop | ret v => exact .pure htracked

omit hP in
/-- A scope declares names of its own, so what is outside is up to date when it ends. -/
theorem inScope_tracked {c : Halt → Exec Flow} (names : List String) (h : m.Traced L)
    (hc : Machine.Traced (L.push names) { m with stack := m.stack.pushScope } →
      Ends stop (fun flow o => flow.returned? = none → o.Tracked (L.push names) none) c
        { m with stack := m.stack.pushScope }) :
    Ends stop (fun flow o => flow.returned? = none → o.Tracked L none) (fun x => inScope (c x)) m := by
  refine .of_eq ((hc ⟨unshared.pushScope h.unshared, h.tracked.pushScope names⟩).bind fun flow o ho => ?_)
    fun _ => rfl
  exact .ok (fun _ => rfl) fun hnone => (ho hnone).popScope

theorem block_traced {body : List Stmt} (hrefs : Stmt.AllRefsOnlyIf false body)
    (htidy : Instrumented.allTidy (L.push (Instrumented.declaredIn body)) body) (h : m.Traced L) :
    Ends stop (fun flow o => o.Unshared ∧ (flow.returned? = none → o.Tracked L none))
      (fun x => block (P x) body) m := by
  have hblock : Ends stop (fun flow o => flow.returned? = none → o.Tracked L none)
      (fun x => block (P x) body) m :=
    inScope_tracked (Instrumented.declaredIn body) h fun hpush =>
      hP.sequence_tracked (Instrumented.fits_block hrefs htidy) hpush
  exact ((hP.covered.block_ends hrefs h.unshared).and hblock).mono fun _ _ ⟨⟨ho, _⟩, htracked⟩ => ⟨ho, htracked⟩

omit hP in
/-- What is recorded stays up to date through all rounds of a loop, by induction on their number. -/
theorem repeatWhile_tracked {cond : Halt → Exec Bool} {body : Halt → Exec Flow} {next : Halt → Exec Unit}
    (hcond : ∀ n : Machine, n.Traced L → Ends stop (fun _ o => o.Traced L) cond n)
    (hbody : ∀ n : Machine, n.Traced L →
      Ends stop (fun flow o => o.Unshared ∧ (flow.returned? = none → o.Tracked L none)) body n)
    (hnext : ∀ n : Machine, n.Traced L → Ends stop (fun _ o => o.Traced L) next n)
    (rounds : Nat) (h : m.Traced L) :
    Ends stop (fun flow o => flow.returned? = none → o.Tracked L none)
      (fun x => repeatWhile (cond x) (body x) (next x) rounds) m := by
  induction rounds generalizing m with
  | zero => exact .outOfFuel
  | succ rounds ih =>
    refine (hcond m h).bind fun b o ho => ?_
    cases b with
    | false => exact .pure fun _ => ho.tracked
    | true =>
      refine (hbody o ho).bind fun flow p ⟨hp, htracked⟩ => ?_
      have hround (hnone : flow.returned? = none) :
          Ends stop (fun flow o => flow.returned? = none → o.Tracked L none)
            (fun x => next x >>= fun _ => repeatWhile (cond x) (body x) (next x) rounds) p :=
        (hnext p ⟨hp, htracked hnone⟩).bind fun _ q hq => ih hq
      cases flow with
      | normal => exact hround rfl
      | continueLoop => exact hround rfl
      | breakLoop => exact .pure fun _ => htracked rfl
      | ret v => exact .pure nofun

/-! ### Statements -/

omit hP in
theorem traced_setLine (h : m.Traced L) (line : Nat) : Machine.Traced L { m with line } :=
  ⟨(unshared.setLine line h.unshared).1, h.tracked.congr rfl rfl rfl rfl⟩

omit hP in
theorem checkEvents_traced (env : Env) (h : m.Traced L) :
    Ends stop (fun _ o => o.Traced L) (fun _ => checkEvents env) m :=
  checkEvents_ends.mono fun _ _ ho => ho ▸ h

omit hP in
theorem begin_traced (env : Env) (h : m.Traced L) (line : Nat) (step : Bool) :
    Ends stop (fun _ o => o.Traced L) (fun _ => begin env line step) m := by
  have hline := traced_setLine h line
  cases step with
  | false => exact .of_eq (checkEvents_traced env hline) fun _ => rfl
  | true =>
    have hstep := (unshared.step ("Executing line " ++ toString line) line hline.unshared).1
    exact .of_eq (checkEvents_traced env ⟨hstep, hline.tracked.step hline.unshared.sound _ _⟩) fun _ => rfl

/-- A declaration is recorded when the variable has its value. -/
theorem declaration_tracked (h : m.Traced L) {name : String} {init : Expr} (hnamed : init.named)
    (hin : name ∈ L.inner) (hout : name ∉ L.outer) :
    Ends stop (fun _ o => o.Tracked L none) (fun x => declaration (P x) name init false) m := by
  refine (hP.eval_traced h hnamed).bind fun v o ⟨ho, _⟩ => ?_
  refine (copy_traced ho v).bind fun w p ⟨hp, _⟩ => ?_
  have hrecord : Ends stop (fun _ o => o.Tracked L none) (fun _ => recordSet name)
      { p with stack := p.stack.declare name w } :=
    recordSet_tracked hp.unshared.sound (hp.tracked.declare hin hout w)
  exact .of_eq hrecord fun _ => rfl

theorem perform_tracked (h : m.Traced L) {action : Action} (hrefs : action.RefsOnlyIf false)
    (htidy : action.tidy L) (hin : action.declared ⊆ L.inner) :
    Ends stop (fun _ o => o.Tracked L none) (fun x => perform (P x) action) m := by
  obtain ⟨hnamed, hout⟩ := Bool.and_eq_true_iff.mp htidy
  have hlog (text : String) {o : Machine} (ho : o.Traced L) :
      Ends stop (fun _ o => o.Tracked L none) (fun _ => recordLog text) o :=
    .ok (fun _ => rfl) (ho.tracked.congr rfl rfl rfl rfl)
  cases action with
  | declare name init byRef =>
    obtain rfl : byRef = false := Bool.eq_false_iff.mpr fun h => Bool.false_ne_true (hrefs h)
    have hname : name ∉ L.outer := by simpa [Action.declared] using hout
    exact hP.declaration_tracked h (Bool.and_eq_true_iff.mp hnamed).1 (hin (List.mem_singleton_self name)) hname
  | eval e => exact (hP.discard_traced h (Bool.and_eq_true_iff.mp hnamed).1).mono fun _ _ ho => ho.tracked
  | log parts =>
    have htexts : Ends stop (fun _ o => o.Traced L) (fun x => parts.mapM fun e => do
        let v ← (P x).eval e
        return (← get).heap.text v) m := by
      refine (Ends.mapM (k := fun _ _ => True) h fun e he o ho => ?_).mono fun _ _ h => h.1
      refine (hP.eval_traced ho (Instrumented.allNamed_iff.mp hnamed e he)).bind fun v p ⟨hp, _⟩ => ?_
      exact .ok (fun _ => rfl) ⟨hp, trivial, fun _ => id⟩
    exact htexts.bind fun texts o ho => hlog _ ho
  | printf format args =>
    obtain ⟨hformat, hargs⟩ := Bool.and_eq_true_iff.mp hnamed
    refine (hP.eval_traced h hformat).bind fun v o ⟨ho, _⟩ => ?_
    cases v with
    | str format =>
      refine (hP.evals_traced ho (unshared.refl o) hargs).bind fun values p ⟨hp, _⟩ => ?_
      exact .get_bind (.ofExcept_bind fun text _ => hlog _ hp)
    | _ => exact .fail
  | unsupported text reason => exact .fail

theorem forInit_traced (env : Env) (h : m.Traced L) {init : Option (Nat × Action)}
    (hrefs : ∀ i ∈ init, i.2.RefsOnlyIf false) (htidy : ∀ i ∈ init, i.2.tidy L)
    (hin : Instrumented.initDeclared init ⊆ L.inner) :
    Ends stop (fun _ o => o.Traced L) (fun x => forInit (P x) env init) m := by
  have hinit : Ends stop (fun _ o => o.Tracked L none) (fun x => forInit (P x) env init) m := by
    cases init with
    | none => exact .pure h.tracked
    | some i => exact (begin_traced env h i.1 false).bind fun _ o ho =>
        hP.perform_tracked ho (hrefs i rfl) (htidy i rfl) hin
  exact ((hP.covered.forInit_ends h.unshared hrefs).and hinit).mono fun _ _ ⟨⟨ho, _⟩, htracked⟩ => ⟨ho, htracked⟩

theorem forCond_traced (h : m.Traced L) (header : Nat) {cond : Option Expr}
    (hcond : Instrumented.allNamed cond.toList) :
    Ends stop (fun _ o => o.Traced L) (fun x => forCond (P x) header cond) m := by
  have hline := traced_setLine h header
  cases cond with
  | none => exact .ok (fun _ => rfl) hline
  | some e => exact .of_eq (hP.truth_traced hline (Bool.and_eq_true_iff.mp hcond).1) fun _ => rfl

theorem forNext_traced (env : Env) (h : m.Traced L) (header : Nat) {update : Option Expr}
    (hupdate : Instrumented.allNamed update.toList) :
    Ends stop (fun _ o => o.Traced L) (fun x => forNext (P x) env header update) m := by
  have hline := traced_setLine h header
  cases update with
  | none => exact .of_eq (checkEvents_traced env hline) fun _ => rfl
  | some e =>
    refine .of_eq (d := fun x => discard ((P x).eval e) >>= fun _ => checkEvents env)
      ((hP.discard_traced hline (Bool.and_eq_true_iff.mp hupdate).1).bind fun _ o ho => ?_) fun _ => rfl
    exact checkEvents_traced env ho

/-- A return is the end of what is recorded for the call. -/
theorem returning_tracked (env : Env) (h : m.Traced L) {value : Option Expr}
    (hvalue : Instrumented.allNamed value.toList) :
    Ends stop (fun flow o => flow.returned? = none → o.Tracked L none) (fun x => returning (P x) env value) m := by
  have hreturn (v : Value) (o : Machine) :
      Ends stop (fun (flow : Flow) o => flow.returned? = none → o.Tracked L none)
        (fun _ => get >>= fun s : Machine => recordReturn v s.line >>= fun _ =>
          checkEvents env >>= fun _ => Pure.pure (Flow.ret v)) o :=
    .of_eq (d := fun _ => checkEvents env >>= fun _ => Pure.pure (Flow.ret v))
      (checkEvents_ends.bind fun _ p hp => .pure nofun) fun _ => rfl
  cases value with
  | none => exact hreturn .undefined m
  | some e =>
    exact (hP.eval_traced h (Bool.and_eq_true_iff.mp hvalue).1).bind fun v o _ => hreturn v o

theorem runBegun_tracked (env : Env) (rounds : Nat) {s : Stmt} (hs : s.Fits L) (h : m.Traced L) :
    Ends stop (fun flow o => flow.returned? = none → o.Tracked L none) (fun x => runBegun (P x) env rounds s) m := by
  obtain ⟨hrefs, htidy, hdeclared⟩ := hs
  cases s with
  | act line step action =>
    exact (hP.perform_tracked h hrefs htidy hdeclared).bind fun _ _ ho => .pure fun _ => ho
  | ifElse line step cond yes no =>
    obtain ⟨hcond, hbranches⟩ := Bool.and_eq_true_iff.mp htidy
    obtain ⟨hyes, hno⟩ := Bool.and_eq_true_iff.mp hbranches
    refine (hP.truth_traced h hcond).bind fun b o ho => ?_
    cases b with
    | true => exact (hP.block_traced hrefs.1 hyes ho).mono fun _ _ hp => hp.2
    | false => exact (hP.block_traced hrefs.2 hno ho).mono fun _ _ hp => hp.2
  | whileLoop line step cond body =>
    obtain ⟨hcond, hbody⟩ := Bool.and_eq_true_iff.mp htidy
    exact repeatWhile_tracked (fun _ hn => hP.truth_traced hn hcond) (fun _ hn => hP.block_traced hrefs hbody hn)
      (fun _ hn => checkEvents_traced env hn) rounds h
  | doWhile line step body cond =>
    obtain ⟨hcond, hbody⟩ := Bool.and_eq_true_iff.mp htidy
    refine (hP.block_traced hrefs hbody h).bind fun flow o ⟨ho, htracked⟩ => ?_
    have hrest (hnone : flow.returned? = none) :
        Ends stop (fun flow o => flow.returned? = none → o.Tracked L none)
          (fun x => checkEvents env >>= fun _ =>
            repeatWhile (truth (P x) cond) (block (P x) body) (checkEvents env) rounds) o :=
      (checkEvents_traced env ⟨ho, htracked hnone⟩).bind fun _ p hp =>
        repeatWhile_tracked (fun _ hn => hP.truth_traced hn hcond) (fun _ hn => hP.block_traced hrefs hbody hn)
          (fun _ hn => checkEvents_traced env hn) rounds hp
    cases flow with
    | normal => exact hrest rfl
    | continueLoop => exact hrest rfl
    | breakLoop => exact .pure fun _ => htracked rfl
    | ret v => exact .pure nofun
  | forLoop line step init cond update body =>
    obtain ⟨hinit, hrest⟩ := Bool.and_eq_true_iff.mp htidy
    obtain ⟨hheader, hbody⟩ := Bool.and_eq_true_iff.mp hrest
    obtain ⟨hcond, hupdate⟩ := Instrumented.allNamed_append.mp hheader
    refine inScope_tracked (Instrumented.initDeclared init) h fun hpush => ?_
    have hinit' (i : Nat × Action) (hi : i ∈ init) : i.2.tidy (L.push (Instrumented.initDeclared init)) := by
      obtain rfl := Option.mem_def.mp hi
      exact hinit
    refine (hP.forInit_traced env hpush hrefs.1 hinit' (List.Subset.refl _)).bind fun _ o ho => ?_
    refine .get_bind ?_
    exact repeatWhile_tracked (fun _ hn => hP.forCond_traced hn o.line hcond)
      (fun _ hn => hP.block_traced hrefs.2 hbody hn) (fun _ hn => hP.forNext_traced env hn o.line hupdate)
      rounds ho
  | block line step body => exact (hP.block_traced hrefs htidy h).mono fun _ _ hp => hp.2
  | breakLoop line step | continueLoop line step => exact .pure fun _ => h.tracked
  | ret line step value => exact hP.returning_tracked env h htidy

theorem runWith_tracked (env : Env) (rounds : Nat) {s : Stmt} (hs : s.Fits L) (h : m.Traced L) :
    Ends stop (fun flow o => flow.returned? = none → o.Tracked L none) (fun x => runWith (P x) env rounds s) m :=
  (begin_traced env h s.line s.step).bind fun _ _ ho => hP.runBegun_tracked env rounds hs ho

/-! ### Calls -/

/-- A call leaves what is recorded for its caller up to date. -/
theorem callWith_tracked {env : Env} (hrefs : env.program.RefsOnlyIf false) (htidy : env.program.tidy)
    (name : String) (args : List Value) (h : m.Traced L) :
    Ends stop (fun _ n => n.Tracked L none) (fun x => callWith (P x) env name args) m := by
  cases hf : env.program.function? name with
  | none =>
    simp only [callWith, hf, callLibrary]
    cases hl : LibraryFunction.ofName? name with
    | none => exact .fail
    | some f =>
      exact .get_bind (.ofExcept fun _ _ => h.tracked)
  | some f =>
    have hmem : f ∈ env.program.functions := List.mem_of_find?_eq_some hf
    obtain ⟨hparams, hbody⟩ := hrefs.1 f hmem
    have hfits : ∀ s ∈ f.body, s.Fits f.layout := Instrumented.fits_of_mem hbody
      (List.all_eq_true.mp (Bool.and_eq_true_iff.mp htidy).1 f hmem) (List.subset_append_right _ _)
    have hpassed : Ends stop
        (fun vars o => unshared.Passed m vars o ∧ bindArgs f.params args (m.noting env name) = .ok vars o)
        (fun _ => bindArgs f.params args) (m.noting env name) := by
      obtain ⟨hnoted, hrel⟩ := unshared.entered (m.noting env name).entered h.unshared
      have hbound : Ends stop (unshared.Passed m) (fun _ => bindArgs f.params args) (m.noting env name) :=
        Contract.Means.passed_ends hparams ⟨hnoted, hrel⟩ args
      exact hbound.and (.const fun _ _ ho => ho)
    have hran (vars : List (String × Value)) (n : Machine)
        (hn : unshared.Passed m vars n ∧ bindArgs f.params args (m.noting env name) = .ok vars n) :
        Ends stop (fun flow o => o.Unshared ∧ unshared.Runs flow.returned? (n.entering f vars) o)
          (fun x => sequence (P x).run f.body) (n.entering f vars) := by
      have htraced : (n.entering f vars).Traced f.layout := traced_entering hn.1 hn.2
      exact ((hP.covered.sequence_ends hbody htraced.unshared).and (hP.sequence_tracked hfits htraced)).mono
        fun _ _ ho => ho.1
    refine (Exec.callWith_ends hf (fun _ => hpassed) hran).mono ?_
    rintro v p ⟨vars, n, flow, o, ⟨hn, hargs⟩, ⟨ho, hkeeps, hsparing⟩, rfl, rfl⟩
    have hstart : (n.entering f vars).Unshared := (traced_entering hn hargs).unshared
    obtain ⟨⟨heap, hextends, rfl⟩, -⟩ := bindArgs_ok hargs
    obtain ⟨⟨hshape, hconfined⟩, -⟩ := hkeeps
    obtain ⟨hactive, hspares, -⟩ := hsparing.leaving ho.sound ho.shown (m.noting env name).line
    have hitems (g : Frame) (hg : g ∈ m.stack.frames) (c : CellId) (hc : g.Owns m.heap c) :
        o.heap.items c = m.heap.items c :=
      hconfined.items_of_entering (m := m.noting env name) h.unshared.separate hextends hstart.separate hg hc
    exact h.tracked.of_call h.unshared hshape.call.1 (Nat.le_trans hextends.size hconfined.size) hitems hactive
      hspares

/-! ### Everything -/

theorem next {env : Env} (hrefs : env.program.RefsOnlyIf false) (htidy : env.program.tidy) (rounds : Nat) :
    Tracks stop fun x => (P x).next env rounds where
  covered := hP.covered.next hrefs rounds
  eval he h := hP.evalWith_tracked h he
  resolve he h := hP.resolveWith_tracked h he
  call name args _ _ h := hP.callWith_tracked hrefs htidy name args h
  run hs h := hP.runWith_tracked env rounds hs h

end Tracks

/-- Everything in a tidy program without references keeps what is recorded up to date. -/
theorem tracks {env : Env} (hrefs : env.program.RefsOnlyIf false) (htidy : env.program.tidy) (fuel : Nat) :
    Tracks stop fun _ => meaning env fuel := by
  induction fuel with
  | zero => exact ⟨unshared.means hrefs 0, fun _ _ => .outOfFuel, fun _ _ => .outOfFuel,
      fun _ _ _ _ _ => .outOfFuel, fun _ _ => .outOfFuel⟩
  | succ fuel ih => exact ih.next hrefs htidy fuel

/-! ## Runs -/

/-- A task that is tidy in a scope. -/
def Task.Fits (L : Layout) : Task → Prop
  | .eval e => e.named
  | .resolve e => e.named
  | .call _ _ => True
  | .run s => s.Fits L

namespace Tracks

variable {P : Halt → Meaning} {env : Env} {t : Task}

theorem runProgram_ends (hP : Tracks stop P) (hrefs : env.program.RefsOnlyIf false) (htidy : env.program.tidy)
    (hm : m.Unshared) (htop : m.stack.frames = []) :
    Ends stop (fun _ _ => True) (fun x => runProgram (P x) env) m := by
  have hfits : ∀ s ∈ env.program.driver, s.Fits ⟨Instrumented.declaredIn env.program.driver, []⟩ :=
    Instrumented.fits_of_mem hrefs.2 (Bool.and_eq_true_iff.mp htidy).2 (List.Subset.refl _)
  have hdriver : Ends stop (fun _ o => o.Unshared ∧ o.stack.frames = [])
      (fun x => discard (sequence (P x).run env.program.driver)) m := by
    refine ((hP.covered.sequence_ends hrefs.2 hm).and (hP.sequence_tracked hfits ⟨hm, .of_top htop⟩)).bind
      fun flow o ⟨⟨ho, hkeeps, _⟩, _⟩ => .pure ⟨ho, ?_⟩
    have hdepths := (Prod.mk.inj hkeeps.1.1.depths).2
    rw [htop] at hdepths
    exact List.map_eq_nil_iff.mp hdepths
  refine hdriver.bind fun _ o ⟨ho, htop⟩ => ?_
  rcases runEntry_cases env o with hstay | ⟨f, -, -, hentry⟩
  · exact .of_eq (.pure trivial) fun x => hstay (P x)
  · have htraced : Machine.Traced ⟨[], []⟩ { o with line := f.line } := traced_setLine ⟨ho, .of_top htop⟩ f.line
    have hcall : Ends stop (fun _ _ => True) (fun x => discard ((P x).call f.name []))
        { o with line := f.line } := (hP.call f.name [] htraced).bind fun _ _ _ => .pure trivial
    exact .of_eq hcall fun x => hentry (P x)

theorem attempt_ends (hP : Tracks stop P) (ht : t.Fits L) (h : m.Traced L) :
    Ends stop (fun _ _ => True) (fun x => (P x).attempt t) m := by
  cases t with
  | eval e => exact (hP.eval ht h).bind fun _ _ _ => .pure trivial
  | resolve e => exact (hP.resolve ht h).bind fun _ _ _ => .pure trivial
  | call name args => exact (hP.call name args h).bind fun _ _ _ => .pure trivial
  | run s => exact (hP.run ht h).bind fun _ _ _ => .pure trivial

open Classical in
/-- Stopping at a task stops in a state that is traced, in a scope that the task fits. -/
theorem stopAt (hrefs : env.program.RefsOnlyIf false) (htidy : env.program.tidy) (fuel : Nat) (t : Task)
    (n : Machine) :
    Tracks (fun o => ∃ L, o.Traced L ∧ t.Fits L) fun x => (meaning env fuel).stopAt t n x where
  covered := (Contract.means_stopAt (unshared.means hrefs fuel) t n).weaken fun _ _ => trivial
  eval {e L m} he h := ((tracks hrefs htidy fuel).eval he h).stopIf fun ⟨ht, hn⟩ => by
    subst ht hn
    exact ⟨L, h, he⟩
  resolve {e L m} he h := ((tracks hrefs htidy fuel).resolve he h).stopIf fun ⟨ht, hn⟩ => by
    subst ht hn
    exact ⟨L, h, he⟩
  call name args L m h := ((tracks hrefs htidy fuel).call name args h).stopIf fun ⟨ht, hn⟩ => by
    subst ht hn
    exact ⟨L, h, trivial⟩
  run {s L m} hs h := ((tracks hrefs htidy fuel).run hs h).stopIf fun ⟨ht, hn⟩ => by
    subst ht hn
    exact ⟨L, h, hs⟩

end Tracks

theorem unshared_inv_initial : Machine.initial.Unshared :=
  ⟨ownership_inv_initial, .initial, .empty, .empty⟩

/-- In every state that a run of a tidy program without references reaches, what is recorded is up to date. -/
theorem traced_of_reached {env : Env} (hrefs : env.program.RefsOnlyIf false) (htidy : env.program.tidy)
    {fuel : Nat} {t : Task} (h : Reached env fuel t m) : ∃ L, m.Traced L ∧ t.Fits L := by
  induction h with
  | @start fuel t m h =>
    exact ((Tracks.stopAt hrefs htidy fuel t m).runProgram_ends hrefs htidy unshared_inv_initial rfl).of_stopped h
  | @part fuel s t m n _ h ih =>
    obtain ⟨L, hm, hs⟩ := ih
    exact (((Tracks.stopAt hrefs htidy fuel t n).next hrefs htidy fuel).attempt_ends hs hm).of_stopped h

end Exec

end CallTrace
