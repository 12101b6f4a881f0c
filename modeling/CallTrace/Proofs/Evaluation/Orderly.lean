import CallTrace.Proofs.Evaluation.Growing
import CallTrace.Proofs.Evaluation.Scalars

/-! # Every run keeps lists a forest

Only copies that have just been made are stored in lists, so lists stay a forest, whatever a program does with
references.

* `Exec.copy_preserves`, `Exec.writeSlot_preserves`, …: what each thing that a run does preserves, with one
  lemma for each.
* `Exec.Orderly stop P`: what the computations `P` do preserves order, and the values that they give exist.
* `Orderly.next`: what a construct does preserves order when what its parts do does.
* `Exec.orderly_meaning`: so everything does, by induction on the fuel.
* `Exec.ordered_of_reached`: every state that a run reaches is ordered.
-/

namespace CallTrace
set_option autoImplicit false

open Instrumented (Expr Place Action Stmt ContainerOp)

/-- The list that the slot belongs to exists. -/
def Slot.Has (m : Machine) : Slot → Prop
  | .var _ => True
  | .item c _ => m.heap.Has (.list c)
  | .char owner _ => owner.Has m

namespace Exec

/-- The values that a task begins with, besides those of variables. -/
def Task.hand : Task → List Value
  | .call _ args => args
  | _ => []

variable {stop : Machine → Prop} {env : Env} {m n : Machine} {w : Value}

theorem Growing.hasSlot {slot : Slot} (h : Growing m n) (hs : slot.Has m) : slot.Has n := by
  induction slot with
  | var name => trivial
  | item c i => exact h.has hs
  | char owner i ih => exact ih hs

/-! ## Values -/

theorem has_of_itemOf (hn : n.Ordered) {container v : Value} {i : Int}
    (hv : itemOf n.heap container i = .ok v) : n.heap.Has v := by
  rcases itemOf_cases hv with hscalar | ⟨c, -, hmem⟩
  · exact .scalar hscalar
  · exact hn.forest.has_of_mem hmem

theorem lookup_preserves (hn : Growing m n) (name : String) :
    Preserves stop m (fun v o => o = n ∧ n.heap.Has v) (fun _ => lookup name) n := by
  cases hv : n.stack.lookup name with
  | some v => exact .ok (fun _ => lookup_of_some hv) hn ⟨rfl, hn.ordered.vars.lookup hv⟩
  | none => exact .of_eq (.fail hn) fun _ => lookup_of_none hv

theorem copy_preserves (hn : Growing m n) (v : Value) :
    Preserves stop m (fun w o => o.heap.Loose n.heap.cells.size w) (fun _ => Exec.copy v) n := by
  have hcopy := Heap.copy_madeBy v hn.ordered.forest
  have hgrows : n.heap.Grows (n.heap.copy v).2 := hcopy.ext.grows
  exact .ok (fun _ => rfl) (hn.withHeap hcopy.forest hgrows.size (hn.grows.trans hgrows))
    (Heap.copy_loose v hn.ordered.forest)

/-- A list of values that have been made since `m` is a new list. -/
theorem newList_preserves (hn : Growing m n) {items : Array Value}
    (hitems : n.heap.Made m.heap.cells.size items.toList) :
    Preserves stop m (fun v o => o.heap.Has v) (fun _ => newList items) n := by
  obtain ⟨hforest, hmade⟩ := hn.ordered.forest.alloc hitems
  have hsize : n.heap.cells.size ≤ (n.heap.alloc items).2.cells.size := by
    rw [Heap.size_alloc]
    exact Nat.le_succ _
  exact .ok (fun _ => rfl)
    (hn.withHeap hforest hsize (hn.grows.alloc (Nat.le_refl _) hitems))
    (hmade.has (List.mem_singleton_self _))

/-- A loose value may be stored in a list that there was in `m`. -/
theorem store_preserves (hn : Growing m n) {c : CellId} (hc : c < m.heap.cells.size)
    {f : Array Value → Array Value} (hf : Heap.Stores (n.heap.items c) (f (n.heap.items c)) w)
    (hw : n.heap.Loose m.heap.cells.size w) :
    Preserves stop m (fun _ o => o.heap.cells.size = n.heap.cells.size)
      (fun _ => modifyHeap (·.update c f)) n :=
  have hsize := Heap.size_update n.heap c f
  .ok (fun _ => rfl) (hn.withHeap (hn.ordered.forest.update hf hw hc) (Nat.le_of_eq hsize.symm)
    (hn.grows.update hf hw)) hsize

theorem assign_preserves (hn : Growing m n) (hw : n.heap.Has w) (name : String) :
    Preserves stop m (fun _ o => o.heap.cells.size = n.heap.cells.size) (fun _ => assign name w) n := by
  cases hs : n.stack.assign? name w with
  | some s =>
    exact .ok (a := ()) (fun _ => by simp only [assign, hs])
      (hn.withStack (hn.ordered.vars.assign hw hs)) rfl
  | none => exact .error (fun _ => by simp only [assign, hs]; rfl) hn

/-! ## Slots -/

theorem readSlot_preserves (hn : Growing m n) (slot : Slot) :
    Preserves stop m (fun v o => o = n ∧ n.heap.Has v) (fun _ => readSlot slot) n := by
  induction slot with
  | var name => exact lookup_preserves hn name
  | item c i =>
    exact .get_bind (.ofExcept hn fun v hv => ⟨rfl, has_of_itemOf hn.ordered hv⟩)
  | char owner i ih =>
    refine ih.bind fun v o _ ⟨ho, _⟩ => ?_
    subst ho
    exact .get_bind (.ofExcept hn fun w hw => ⟨rfl, has_of_itemOf hn.ordered hw⟩)

theorem elementSlot_preserves (hn : Growing m n) {owner : Slot} (hs : owner.Has n) (i : Int) :
    Preserves stop m (fun slot o => slot.Has o) (fun _ => elementSlot owner i) n := by
  refine (readSlot_preserves hn owner).bind fun v o ho ⟨hon, hv⟩ => ?_
  subst hon
  cases v with
  | list c => exact .pure hn hv
  | str s => exact .pure hn hs
  | _ => exact .fail hn

theorem writeSlot_preserves (hn : Growing m n) {slot : Slot} (hs : slot.Has m)
    (hw : n.heap.Loose m.heap.cells.size w) :
    Preserves stop m (fun _ o => o.heap.cells.size = n.heap.cells.size)
      (fun _ => writeSlot slot w) n := by
  induction slot generalizing w with
  | var name => exact assign_preserves hn hw.has name
  | item c i =>
    refine .get_bind (.ofExcept_bind hn fun k _ => ?_)
    exact store_preserves hn (hs c rfl) (Heap.stores_setIfInBounds _ k w) hw
  | char owner i ih =>
    have howner : owner.Has m := hs
    simp only [writeSlot]
    refine (readSlot_preserves hn owner).bind fun v o _ ⟨ho, _⟩ => ?_
    subst ho
    cases v with
    | str s =>
      refine .ofExcept_bind hn fun c _ => .ofExcept_bind hn fun k _ => ?_
      exact ih howner (.scalar rfl)
    | _ => exact .fail hn

/-- The value of an assignment is loose, so it may be stored. -/
theorem stored_preserves (hn : n.Ordered) (slot : Slot) (op : Option BinOp) (v : Value) :
    Preserves stop n (fun w o => o.heap.Loose n.heap.cells.size w) (fun _ => stored slot op v) n := by
  cases op with
  | none => exact copy_preserves (.refl hn) v
  | some op =>
    refine (readSlot_preserves (.refl hn) slot).bind fun old o _ ⟨ho, _⟩ => ?_
    subst ho
    exact .get_bind (.ofExcept (.refl hn) fun w hw => .scalar (isList_of_binaryOp hw))

theorem updateSlot_preserves (hn : n.Ordered) {slot : Slot} (hs : slot.Has n) (delta : Int) :
    Preserves stop n (fun w o => o.heap.Has w.1 ∧ o.heap.Has w.2)
      (fun _ => updateSlot slot (stepBy delta)) n := by
  refine (readSlot_preserves (.refl hn) slot).bind fun old o _ ⟨ho, hold⟩ => ?_
  subst ho
  refine .ofExcept_bind (.refl hn) fun new hstep => ?_
  have hnew : new.isList = false := isList_of_stepBy hstep
  refine (writeSlot_preserves (.refl hn) hs (.scalar hnew)).bind fun _ q hq _ => ?_
  exact .pure hq ⟨hq.has hold, .scalar hnew⟩

/-! ## Operations on containers -/

theorem listOp_preserves (hn : n.Ordered) {c : CellId} (hc : c < n.heap.cells.size)
    (op : ContainerOp) (args : List Value) :
    Preserves stop n (fun v o => o.heap.Has v) (fun _ => listOp op c args) n := by
  have hstart : Growing n n := .refl hn
  cases op with
  | append =>
    have hitem : Preserves stop n (fun w o => o.heap.Loose n.heap.cells.size w)
        (fun _ => copyFirst args) n := by
      cases args with
      | nil => exact .pure hstart (.scalar rfl)
      | cons v rest => exact copy_preserves hstart v
    refine hitem.bind fun w o ho hw => ?_
    exact (store_preserves ho hc (Heap.stores_push _ w) hw).bind fun _ _ hp _ =>
      .pure hp (.scalar rfl)
  | removeLast =>
    have hpop : Preserves stop n (fun _ o => o.heap.cells.size = n.heap.cells.size)
        (fun _ => modifyHeap (·.update c Array.pop)) n :=
      store_preserves hstart hc (Heap.stores_pop _ .undefined) (.scalar rfl)
    refine .get_bind ?_
    split
    · exact .fail hstart
    · exact hpop.bind fun _ _ ho _ => .pure ho (.scalar rfl)
  | length | isEmpty => exact .ok (fun _ => rfl) hstart (.scalar rfl)
  | back =>
    refine .get_bind ?_
    split
    · next item hb => exact .pure hstart (hn.forest.has_of_mem (Array.mem_of_back? hb))
    · exact .fail hstart
  | substr => exact .fail hstart

/-! ## Expressions -/

/-- What the computations `P` do preserves order, and the values that they give exist. -/
structure Orderly (stop : Machine → Prop) (P : Halt → Meaning) : Prop where
  eval (e : Expr) {m : Machine} (hm : m.Ordered) :
    Preserves stop m (fun v n => n.heap.Has v) (fun x => (P x).eval e) m
  resolve (e : Expr) {m : Machine} (hm : m.Ordered) :
    Preserves stop m (fun slot n => slot.Has n) (fun x => (P x).resolve e) m
  call (name : String) {args : List Value} {m : Machine} (hm : m.Ordered)
    (hargs : ∀ v ∈ args, m.heap.Has v) :
    Preserves stop m (fun v n => n.heap.Has v) (fun x => (P x).call name args) m
  run (s : Stmt) {m : Machine} (hm : m.Ordered) :
    Preserves stop m Flow.Has (fun x => (P x).run s) m

namespace Orderly

variable {P : Halt → Meaning} (hP : Orderly stop P)
include hP

theorem discard_preserves (hn : n.Ordered) (e : Expr) :
    Preserves stop n (fun _ _ => True) (fun x => discard ((P x).eval e)) n :=
  (hP.eval e hn).bind fun _ _ ho _ => .pure ho trivial

theorem truth_preserves (hn : n.Ordered) (cond : Expr) :
    Preserves stop n (fun _ _ => True) (fun x => truth (P x) cond) n :=
  (hP.eval cond hn).bind fun _ _ ho _ => .pure ho trivial

theorem evals_preserves (hn : n.Ordered) (es : List Expr) :
    Preserves stop n (fun vs o => ∀ v ∈ vs, o.heap.Has v) (fun x => es.mapM (P x).eval) n := by
  refine .mapM (.refl hn) (fun _ hv => nomatch hv) fun e _ done o ho hdone => .since ho ?_
  refine (hP.eval e ho.ordered).mono fun v p hp hv u hu => ?_
  rcases List.mem_append.mp hu with hu | hu
  · exact hp.has (hdone u hu)
  · rwa [List.mem_singleton.mp hu]

/-- The copies that have been made for some items stand nowhere while the items after them are evaluated. -/
theorem literal_preserves (hn : n.Ordered) (items : List Expr) :
    Preserves stop n (fun v o => o.heap.Has v) (fun x => literal (P x) items) n := by
  have hcopies : Preserves stop n (fun vs o => o.heap.Made n.heap.cells.size vs)
      (fun x => items.mapM fun item => (P x).eval item >>= fun v => Exec.copy v) n := by
    refine .mapM (.refl hn) .nil fun item _ done o ho hdone => .since ho ?_
    refine (hP.eval item ho.ordered).bind fun v p hp _ => ?_
    refine (copy_preserves hp v).mono fun w q hq hw => ?_
    exact hdone.append hq.grows ho.grows.size (hw.made.of_le hp.grows.size)
  exact hcopies.bind fun vs o ho hvs => newList_preserves ho hvs

theorem filled_preserves (hn : n.Ordered) (size fill : Expr) :
    Preserves stop n (fun v o => o.heap.Has v) (fun x => filled (P x) size fill) n := by
  refine (hP.eval size hn).andThen fun v o ho _ => .ofExcept_bind (.refl ho.ordered) fun k _ => ?_
  refine (hP.eval fill ho.ordered).andThen fun w q hq _ => ?_
  obtain ⟨hgrows, hforest, hmade⟩ := Heap.copies_made w k #[] hq.ordered.forest (.refl q.heap) .nil
  have hcopies : Preserves stop q (fun ws r => r.heap.Made q.heap.cells.size ws.toList)
      (fun _ => onHeap (Heap.copies w k #[])) q :=
    .ok (fun _ => rfl) ((Growing.refl hq.ordered).withHeap hforest hgrows.size hgrows) hmade
  exact hcopies.bind fun ws r hr hws => newList_preserves hr hws

theorem binary_preserves (hn : n.Ordered) (op : BinOp) (left right : Expr) :
    Preserves stop n (fun v o => o.heap.Has v) (fun x => binary (P x) op left right) n := by
  refine (hP.eval left hn).andThen fun l o ho _ => ?_
  refine afterLeft_rule (Q := fun f => Preserves stop o (fun v p => p.heap.Has v) (fun x => f (P x)) o) op l right
    (fun b => .pure (.refl ho.ordered) (.scalar rfl)) ?_ ?_
  · exact (hP.truth_preserves ho.ordered right).bind fun _ _ hp _ => .pure hp (.scalar rfl)
  · refine (hP.eval right ho.ordered).bind fun r p hp _ => ?_
    exact .get_bind (.ofExcept hp fun v hv => .scalar (isList_of_binaryOp hv))

/-- What an assignment stores has been made after the value was found, so it is stored in an older list. -/
theorem assignment_preserves (hn : n.Ordered) (target : Place) (op : Option BinOp) (value : Expr) :
    Preserves stop n (fun v o => o.heap.Has v) (fun x => assignment (P x) target op value) n := by
  refine (hP.resolve target.toExpr hn).andThen fun slot o ho hs => ?_
  refine (hP.eval value ho.ordered).andThen fun v p hp _ => ?_
  refine (stored_preserves hp.ordered slot op v).bind fun new q hq hnew => ?_
  refine (writeSlot_preserves hq (hp.hasSlot hs) hnew).bind fun _ r hr hsize => ?_
  refine (Preserves.still (.recordRoot _) hr).bind fun _ s hs' hheap => .pure hs' ?_
  rw [hheap]
  exact hnew.has.of_size (Nat.le_of_eq hsize.symm)

theorem stepping_preserves (hn : n.Ordered) (target : Place) (step : Instrumented.Step)
    (before : Bool) :
    Preserves stop n (fun v o => o.heap.Has v) (fun x => stepping (P x) target step before) n := by
  refine (hP.resolve target.toExpr hn).andThen fun slot o ho hs => ?_
  refine (updateSlot_preserves ho.ordered hs step.delta).bind fun w p hp ⟨hold, hnew⟩ => ?_
  refine (Preserves.still (.recordRoot _) hp).bind fun _ q hq hheap => .pure hq ?_
  rw [hheap]
  split
  · exact hnew
  · exact hold

theorem indexing_preserves (hn : n.Ordered) (base index : Expr) :
    Preserves stop n (fun v o => o.heap.Has v) (fun x => indexing (P x) base index) n := by
  refine (hP.eval base hn).andThen fun container o ho _ => ?_
  refine (hP.eval index ho.ordered).bind fun i p hp _ => .ofExcept_bind hp fun k _ => ?_
  exact .get_bind (.ofExcept hp fun v hv => has_of_itemOf hp.ordered hv)

theorem onString_preserves (hn : n.Ordered) (op : ContainerOp) (target : Expr) (s : String)
    (args : List Value) :
    Preserves stop n (fun v o => o.heap.Has v) (fun x => onString (P x) op target s args) n := by
  refine .ofExcept_bind (.refl hn) fun w hop => ?_
  obtain ⟨result, changed⟩ := w
  have hw : result.isList = false := isList_of_stringOp hop
  cases changed with
  | none => exact .pure (.refl hn) (.scalar hw)
  | some s =>
    refine (hP.resolve target hn).andThen fun slot p hp hs => ?_
    exact (writeSlot_preserves (.refl hp.ordered) hs (.scalar rfl)).bind fun _ _ hq _ =>
      .pure hq (.scalar hw)

theorem operation_preserves (hn : n.Ordered) (op : ContainerOp) (target : Expr)
    (args : List Expr) :
    Preserves stop n (fun v o => o.heap.Has v) (fun x => operation (P x) op target args) n := by
  refine (hP.eval target hn).andThen fun container o ho hc => ?_
  refine (hP.evals_preserves ho.ordered args).andThen fun values p hp _ => ?_
  have hrecord (v : Value) (q : Machine) (hq : Growing p q) (hv : q.heap.Has v) :
      Preserves stop p (fun v o => o.heap.Has v)
        (fun _ => recordRoot (Expr.container op target args).probe? >>= fun _ => Pure.pure v) q := by
    refine (Preserves.still (.recordRoot _) hq).bind fun _ r hr hheap => .pure hr ?_
    rwa [hheap]
  cases container with
  | list c => exact (listOp_preserves hp.ordered (hp.has hc c rfl) op values).bind hrecord
  | str s => exact (hP.onString_preserves hp.ordered op target s values).bind hrecord
  | _ => exact Preserves.bind (.fail (.refl hp.ordered)) hrecord

theorem evalWith_preserves (e : Expr) (hm : m.Ordered) :
    Preserves stop m (fun v n => n.heap.Has v) (fun x => evalWith (P x) e) m := by
  cases e with
  | int _ | float _ | bool _ | str _ | undefined => exact .pure (.refl hm) (.scalar rfl)
  | list items => exact hP.literal_preserves hm items
  | fill size fill => exact hP.filled_preserves hm size fill
  | var name => exact (lookup_preserves (.refl hm) name).mono fun _ _ _ ⟨ho, hv⟩ => ho ▸ hv
  | binary op left right => exact hP.binary_preserves hm op left right
  | neg operand =>
    exact (hP.eval operand hm).bind fun v o ho _ =>
      .ofExcept ho fun w hw => .scalar (isList_of_negate hw)
  | not operand =>
    exact (hP.truth_preserves hm operand).bind fun _ _ ho _ => .pure ho (.scalar rfl)
  | ternary cond yes no =>
    refine (hP.truth_preserves hm cond).andThen fun b o ho _ => ?_
    cases b with
    | true => exact hP.eval yes ho.ordered
    | false => exact hP.eval no ho.ordered
  | assign target op value => exact hP.assignment_preserves hm target op value
  | update target step before => exact hP.stepping_preserves hm target step before
  | index base index => exact hP.indexing_preserves hm base index
  | call name args =>
    exact (hP.evals_preserves hm args).andThen fun values o ho hvalues =>
      hP.call name ho.ordered hvalues
  | container op target args => exact hP.operation_preserves hm op target args

theorem resolveWith_preserves (e : Expr) (hm : m.Ordered) :
    Preserves stop m (fun slot n => slot.Has n) (fun x => resolveWith (P x) e) m := by
  cases e with
  | var name => exact .pure (.refl hm) trivial
  | index base index =>
    refine (hP.resolve base hm).andThen fun owner o ho hs => ?_
    refine (hP.eval index ho.ordered).bind fun i p hp _ => .ofExcept_bind hp fun k _ => ?_
    exact elementSlot_preserves hp (hp.hasSlot hs) k
  | _ => exact .fail (.refl hm)

/-! ## Statements -/

theorem block_preserves (body : List Stmt) (hn : n.Ordered) :
    Preserves stop n Flow.Has (fun x => block (P x) body) n :=
  .inScope (fun _ ho => .sequence (fun s _ hp => hP.run s hp) body ho) hn

theorem declaration_preserves (hn : n.Ordered) (name : String) (init : Expr) (byRef : Bool) :
    Preserves stop n (fun _ _ => True) (fun x => declaration (P x) name init byRef) n := by
  refine (hP.eval init hn).andThen fun v o ho hv => ?_
  have hdeclare (w : Value) (p : Machine) (hp : Growing o p) (hw : p.heap.Has w) :
      Preserves stop o (fun _ _ => True)
        (fun _ => modifyStack (·.declare name w) >>= fun _ => recordSet name) p :=
    (Preserves.modifyStack hp (hp.ordered.vars.declare hw)).bind fun _ q hq _ =>
      (Preserves.still (.recordSet name) hq).mono fun _ _ _ _ => trivial
  cases byRef with
  | true => exact hdeclare v o (.refl ho.ordered) hv
  | false =>
    exact (copy_preserves (.refl ho.ordered) v).bind fun w p hp hw => hdeclare w p hp hw.has

theorem perform_preserves (hn : n.Ordered) (action : Action) :
    Preserves stop n (fun _ _ => True) (fun x => perform (P x) action) n := by
  cases action with
  | declare name init byRef => exact hP.declaration_preserves hn name init byRef
  | eval e => exact hP.discard_preserves hn e
  | log parts =>
    have htexts : Preserves stop n (fun _ _ => True) (fun x => parts.mapM fun e => do
        let v ← (P x).eval e
        return (← get).heap.text v) n := by
      refine .mapM (.refl hn) trivial fun e _ _ o ho _ => .since ho ?_
      exact (hP.eval e ho.ordered).bind fun v p hp _ => .ok (fun _ => rfl) hp trivial
    exact htexts.andThen fun texts o ho _ => .quiet (.recordLog _) ho.ordered
  | printf format args =>
    refine (hP.eval format hn).andThen fun v o ho _ => ?_
    cases v with
    | str format =>
      refine (hP.evals_preserves ho.ordered args).andThen fun values p hp _ => ?_
      refine .get_bind (.ofExcept_bind (.refl hp.ordered) fun text _ => ?_)
      exact .quiet (.recordLog _) hp.ordered
    | _ => exact .fail (.refl ho.ordered)
  | unsupported text reason => exact .fail (.refl hn)

theorem forInit_preserves (hn : n.Ordered) (init : Option (Nat × Action)) :
    Preserves stop n (fun _ _ => True) (fun x => forInit (P x) env init) n := by
  cases init with
  | none => exact .pure (.refl hn) trivial
  | some i =>
    exact (Preserves.quiet (.begin env i.1 false) hn).andThen fun _ o ho _ =>
      hP.perform_preserves ho.ordered i.2

theorem forCond_preserves (hn : n.Ordered) (header : Nat) (cond : Option Expr) :
    Preserves stop n (fun _ _ => True) (fun x => forCond (P x) header cond) n := by
  refine (Preserves.quiet (.setLine header) hn).andThen fun _ o ho _ => ?_
  cases cond with
  | none => exact .pure (.refl ho.ordered) trivial
  | some e => exact hP.truth_preserves ho.ordered e

theorem forNext_preserves (hn : n.Ordered) (header : Nat) (update : Option Expr) :
    Preserves stop n (fun _ _ => True) (fun x => forNext (P x) env header update) n := by
  refine (Preserves.quiet (.setLine header) hn).andThen fun _ o ho _ => ?_
  cases update with
  | none => exact .quiet (.checkEvents env) ho.ordered
  | some e =>
    exact (hP.discard_preserves ho.ordered e).andThen fun _ p hp _ =>
      .quiet (.checkEvents env) hp.ordered

theorem returning_preserves (hn : n.Ordered) (value : Option Expr) :
    Preserves stop n Flow.Has (fun x => returning (P x) env value) n := by
  have hreturn (v : Value) (o : Machine) (ho : Growing n o) (hv : o.heap.Has v) :
      Preserves stop n Flow.Has (fun _ => get >>= fun s : Machine => recordReturn v s.line >>= fun _ =>
        checkEvents env >>= fun _ => Pure.pure (Flow.ret v)) o := by
    refine .get_bind ((Preserves.still (.recordReturn v o.line) ho).bind fun _ p hp hheap => ?_)
    refine (Preserves.still (.checkEvents env) hp).bind fun _ q hq hheap' => .pure hq fun w hw => ?_
    cases hw
    rwa [hheap', hheap]
  cases value with
  | none => exact hreturn .undefined n (.refl hn) (.scalar rfl)
  | some e => exact (hP.eval e hn).bind hreturn

theorem runBegun_preserves (rounds : Nat) (s : Stmt) (hn : n.Ordered) :
    Preserves stop n Flow.Has (fun x => runBegun (P x) env rounds s) n := by
  have hloop (cond : Expr) (body : List Stmt) (n : Machine) (hn : n.Ordered) :
      Preserves stop n Flow.Has (fun x =>
        repeatWhile (truth (P x) cond) (block (P x) body) (checkEvents env) rounds) n :=
    .repeatWhile (fun _ ho => hP.truth_preserves ho cond) (fun _ ho => hP.block_preserves body ho)
      (fun _ ho => .quiet (.checkEvents env) ho) rounds hn
  have hnone (flow : Flow) (hflow : flow.returned? = none) (n : Machine) : flow.Has n :=
    fun v hv => nomatch hflow.symm.trans hv
  cases s with
  | act line step action =>
    exact (hP.perform_preserves hn action).bind fun _ o ho _ => .pure ho (hnone .normal rfl o)
  | ifElse line step cond yes no =>
    refine (hP.truth_preserves hn cond).andThen fun b o ho _ => ?_
    cases b with
    | true => exact hP.block_preserves yes ho.ordered
    | false => exact hP.block_preserves no ho.ordered
  | whileLoop line step cond body => exact hloop cond body n hn
  | doWhile line step body cond =>
    refine (hP.block_preserves body hn).andThen fun flow o ho hflow => ?_
    have hrest : Preserves stop o Flow.Has (fun x => checkEvents env >>= fun _ =>
        repeatWhile (truth (P x) cond) (block (P x) body) (checkEvents env) rounds) o :=
      (Preserves.quiet (.checkEvents env) ho.ordered).andThen fun _ p hp _ => hloop cond body p hp.ordered
    cases flow with
    | normal | continueLoop => exact hrest
    | breakLoop => exact .pure (.refl ho.ordered) (hnone .normal rfl o)
    | ret v => exact .pure (.refl ho.ordered) hflow
  | forLoop line step init cond update body =>
    refine .inScope (fun o ho => ?_) hn
    refine (hP.forInit_preserves ho init).andThen fun _ p hp _ => ?_
    exact .get_bind (.repeatWhile (fun _ hq => hP.forCond_preserves hq p.line cond)
      (fun _ hq => hP.block_preserves body hq) (fun _ hq => hP.forNext_preserves hq p.line update)
      rounds hp.ordered)
  | block line step body => exact hP.block_preserves body hn
  | breakLoop line step => exact .pure (.refl hn) (hnone .breakLoop rfl n)
  | continueLoop line step => exact .pure (.refl hn) (hnone .continueLoop rfl n)
  | ret line step value => exact hP.returning_preserves hn value

theorem runWith_preserves (rounds : Nat) (s : Stmt) (hn : n.Ordered) :
    Preserves stop n Flow.Has (fun x => runWith (P x) env rounds s) n :=
  (Preserves.quiet (.begin env s.line s.step) hn).andThen fun _ _ ho _ =>
    hP.runBegun_preserves rounds s ho.ordered

/-! ## Calls -/

omit hP in
theorem bindArgs_preserves (hn : n.Ordered) (params : List Instrumented.Param) {args : List Value}
    (hargs : ∀ v ∈ args, n.heap.Has v) :
    Preserves stop n (fun vars o => ∀ b ∈ vars, o.heap.Has b.2) (fun _ => bindArgs params args) n := by
  refine .mapM (.refl hn) (fun _ hb => nomatch hb) fun b hb done o ho hdone => .since ho ?_
  obtain ⟨param, v⟩ := b
  have hv : o.heap.Has v := ho.has (hargs v (List.of_mem_zip hb).2)
  have hadd (w : Value) (p : Machine) (hp : Growing o p) (hw : p.heap.Has w) :
      ∀ b ∈ done ++ [(param.name, w)], p.heap.Has b.2 := by
    intro b hb
    rcases List.mem_append.mp hb with hb | hb
    · exact hp.has (hdone b hb)
    · rwa [List.mem_singleton.mp hb]
  cases hr : param.byRef with
  | true =>
    exact .ok (fun _ => by simp only [hr]; rfl) (.refl ho.ordered)
      (hadd v o (.refl ho.ordered) hv)
  | false =>
    refine .of_eq ((copy_preserves (.refl ho.ordered) v).bind fun w p hp hw =>
      .ok (a := (param.name, w)) (fun _ => rfl) hp (hadd w p hp hw.has)) fun _ => by
        simp only [hr]
        rfl

omit hP in
theorem enter_preserves (hn : n.Ordered) (f : Instrumented.Function) {vars : List (String × Value)}
    (hvars : ∀ b ∈ vars, n.heap.Has b.2) :
    Preserves stop n (fun _ _ => True) (fun _ => enter env f vars) n := by
  unfold enter
  refine Preserves.bind (.still (.modify fun _ => ⟨rfl, rfl⟩) (.refl hn)) fun _ o ho _ => ?_
  refine (Preserves.still (.checkEvents env) ho).bind fun _ p hp _ => ?_
  refine (Preserves.modifyStack hp (hp.ordered.vars.pushFrame f.name)).bind fun _ q hq _ => ?_
  refine (Preserves.modifyStack hq (hq.ordered.vars.declares fun b hb => hq.has (hvars b hb))).bind
    fun _ r hr _ => ?_
  exact .since hr (.quiet (.setLine f.line) hr.ordered)

theorem body_preserves (hn : n.Ordered) (f : Instrumented.Function) :
    Preserves stop n (fun v o => o.heap.Has v) (fun x => body (P x) f) n := by
  refine (Preserves.sequence (fun s _ ho => hP.run s ho) f.body hn).andThen fun flow o ho hflow => ?_
  cases hr : flow.returned? with
  | some v => exact .ok (fun _ => by simp only [finish, hr]; rfl) (.refl ho.ordered) (hflow v hr)
  | none =>
    simp only [finish, hr]
    exact (Preserves.still (.recordReturn .undefined f.endLine) (.refl ho.ordered)).bind
      fun _ _ hp _ => .pure hp (.scalar rfl)

theorem callWith_preserves (name : String) {args : List Value} (hm : m.Ordered)
    (hargs : ∀ v ∈ args, m.heap.Has v) :
    Preserves stop m (fun v n => n.heap.Has v) (fun x => callWith (P x) env name args) m := by
  cases hf : env.program.function? name with
  | none =>
    simp only [callWith, hf, callLibrary]
    cases hl : LibraryFunction.ofName? name with
    | none => exact .fail (.refl hm)
    | some f =>
      exact .get_bind (.ofExcept (.refl hm) fun v hv => .scalar (isList_of_apply hv))
  | some f =>
    simp only [callWith, hf]
    refine (Preserves.still (Still.rules.checkCall env f args) (.refl hm)).bind fun _ n hn _ => ?_
    refine (Preserves.still (.noteEntry env name) hn).andThen fun _ o ho _ => ?_
    refine (bindArgs_preserves ho.ordered f.params fun v hv => ho.has (hargs v hv)).andThen
      fun vars p hp hvars => ?_
    refine .get_bind ((enter_preserves hp.ordered f hvars).andThen fun _ q hq _ => ?_)
    refine (hP.body_preserves hq.ordered f).bind fun v r hr hv => ?_
    refine (Preserves.modifyStack hr hr.ordered.vars.popFrame).bind fun _ s hs hheap => ?_
    exact .ok (fun _ => rfl) (hs.of_eq rfl rfl) (by rwa [hheap])

/-! ## Everything -/

theorem next (env : Env) (rounds : Nat) : Orderly stop fun x => (P x).next env rounds where
  eval e _ hm := hP.evalWith_preserves e hm
  resolve e _ hm := hP.resolveWith_preserves e hm
  call name _ _ hm hargs := hP.callWith_preserves name hm hargs
  run s _ hm := hP.runWith_preserves rounds s hm

theorem runEntry_preserves (hn : n.Ordered) :
    Preserves stop n (fun _ _ => True) (fun x => runEntry (P x) env) n := by
  rcases runEntry_cases env n with hstay | ⟨f, -, -, hentry⟩
  · exact .of_eq (.pure (.refl hn) trivial) fun x => hstay (P x)
  · have hcall : Preserves stop n (fun _ _ => True)
        (fun x => Exec.setLine f.line >>= fun _ => discard ((P x).call f.name [])) n :=
      (Preserves.quiet (.setLine f.line) hn).andThen fun _ o ho _ =>
        have hargs : ∀ v ∈ ([] : List Value), o.heap.Has v := fun _ hv => nomatch hv
        (hP.call f.name ho.ordered hargs).bind fun _ _ hp _ => .pure hp trivial
    exact .of_eq hcall fun x => hentry (P x)

theorem runProgram_preserves (hm : m.Ordered) :
    Preserves stop m (fun _ _ => True) (fun x => runProgram (P x) env) m := by
  have hdriver : Preserves stop m (fun _ _ => True)
      (fun x => discard (sequence (P x).run env.program.driver)) m :=
    (Preserves.sequence (fun s _ ho => hP.run s ho) env.program.driver hm).bind fun _ _ ho _ =>
      .pure ho trivial
  exact hdriver.andThen fun _ o ho _ => hP.runEntry_preserves ho.ordered

theorem attempt_preserves {t : Task} (hm : m.Ordered) (ht : ∀ v ∈ t.hand, m.heap.Has v) :
    Preserves stop m (fun _ _ => True) (fun x => (P x).attempt t) m := by
  cases t with
  | eval e => exact hP.discard_preserves hm e
  | resolve e => exact (hP.resolve e hm).bind fun _ _ ho _ => .pure ho trivial
  | call name args => exact (hP.call name hm ht).bind fun _ _ ho _ => .pure ho trivial
  | run s => exact (hP.run s hm).bind fun _ _ ho _ => .pure ho trivial

end Orderly

theorem orderly_meaning (stop : Machine → Prop) (env : Env) (fuel : Nat) :
    Orderly stop fun _ => meaning env fuel := by
  induction fuel with
  | zero => exact ⟨fun _ _ hm => .outOfFuel (.refl hm), fun _ _ hm => .outOfFuel (.refl hm),
      fun _ _ _ hm _ => .outOfFuel (.refl hm), fun _ _ hm => .outOfFuel (.refl hm)⟩
  | succ fuel ih => exact ih.next env fuel

open Classical in
/-- Stopping at a task preserves order, and the values that the task begins with exist where it stops. -/
theorem orderly_stopAt {p : Meaning} (hp : Orderly (fun _ => False) fun _ => p) (t : Task)
    (n : Machine) : Orderly (fun o => ∀ v ∈ t.hand, o.heap.Has v) fun x => p.stopAt t n x where
  eval e m hm := (hp.eval e hm).stopIf fun ⟨ht, hn⟩ => by
    subst ht hn
    exact ⟨.refl hm, fun _ hv => nomatch hv⟩
  resolve e m hm := (hp.resolve e hm).stopIf fun ⟨ht, hn⟩ => by
    subst ht hn
    exact ⟨.refl hm, fun _ hv => nomatch hv⟩
  call name args m hm hargs := (hp.call name hm hargs).stopIf fun ⟨ht, hn⟩ => by
    subst ht hn
    exact ⟨.refl hm, hargs⟩
  run s m hm := (hp.run s hm).stopIf fun ⟨ht, hn⟩ => by
    subst ht hn
    exact ⟨.refl hm, fun _ hv => nomatch hv⟩

/-- Every state that a run reaches is ordered, and the values that a task begins with exist. -/
theorem ordered_of_reached {fuel : Nat} {t : Task} (h : Reached env fuel t m) :
    m.Ordered ∧ ∀ v ∈ t.hand, m.heap.Has v := by
  induction h with
  | @start fuel t m h =>
    have horderly := orderly_stopAt (orderly_meaning _ env fuel) t m
    obtain ⟨hm, hhand⟩ := (horderly.runProgram_preserves Machine.ordered_initial).of_stopped h
    exact ⟨hm.ordered, hhand⟩
  | @part fuel s t m n _ h ih =>
    have horderly := (orderly_stopAt (orderly_meaning _ env fuel) t n).next env fuel
    obtain ⟨hn, hhand⟩ := (horderly.attempt_preserves ih.1 ih.2).of_stopped h
    exact ⟨hn.ordered, hhand⟩

end Exec

end CallTrace
