import CallTrace.Proofs.Evaluation.Orderly
import CallTrace.Proofs.Evaluation.Tracks
import CallTrace.Proofs.ListForest

/-! # Results of calls

A call gives the list that its body returns, and makes no copy of it. So the result is a value of its own if the list
has been made in the call and has not been stored in anything that is still there.

* `Parented.comparable`: of two lists that reach one cell, one reaches the other.
* `Exec.Independent m v`: no variable shares a list with `v`, so nothing that is done to the lists of `v` changes what
  a variable holds.
* `Exec.rooting`: the contract that variables at top level get only new lists that are no items, whatever a function
  does with references.
* `Exec.independent_call`: when the result of a call is independent.
* `Exec.not_independent_call`: what a function returns by the name of a reference is not.
-/

namespace CallTrace
set_option autoImplicit false

/-! ## Lists that reach one cell -/

namespace Heap

variable {h h' : Heap} {v : Value} {b c d : CellId}

theorem Forest.parented (hf : h.Forest) : h.Parented where
  lt_size _ d hd := hf.has_of_mem hd d rfl
  unique c c' d hd hd' := by
    obtain ⟨i, hi⟩ := Array.getElem?_of_mem hd
    obtain ⟨i', hi'⟩ := Array.getElem?_of_mem hd'
    exact (hf.unique c c' i i' d hi hi').1

theorem Reaches.list (hr : h.Reaches v c) : ∃ d, v = .list d := by
  cases hr with
  | here | item _ _ => exact ⟨_, rfl⟩

/-- Of two lists that reach one cell, one reaches the other. -/
theorem Parented.comparable (hp : h.Parented) (hb : h.Reaches (.list b) c) (hd : h.Reaches (.list d) c) :
    h.Reaches (.list b) d ∨ h.Reaches (.list d) b := by
  generalize hv : Value.list b = v at hb
  induction hb generalizing b with
  | here =>
    cases hv
    exact .inr hd
  | @item e _ w hw hr ih =>
    cases hv
    obtain ⟨x, rfl⟩ := hr.list
    rcases ih hd rfl with hx | hx
    · exact .inl (.item hw hx)
    · by_cases hne : Value.list d = .list x
      · cases hne
        exact .inl (.item hw .here)
      · exact .inr (hp.reaches_of_item hx hw hne)

/-- A list that has been made since has no part that was there. -/
theorem Grows.lt_size_of_reaches (hg : Grows h h') (hr : h'.Reaches (.list b) d) (hd : d < h.cells.size) :
    b < h.cells.size := by
  generalize hv : Value.list b = v at hr
  induction hr generalizing b with
  | here =>
    cases hv
    exact hd
  | @item c d w hw hr ih =>
    cases hv
    cases w with
    | list e =>
      obtain ⟨i, hi⟩ := Array.getElem?_of_mem hw
      exact lt_size_of_mem (hg.edge c i e (ih hd rfl) hi).mem
    | _ => exact absurd hr (Reaches.not_scalar rfl)

end Heap

/-- While a call is active, what is done to the innermost frame leaves the one at top level as it is. -/
theorem CallStack.globals_updateCurrent {s : CallStack} (hs : s.frames ≠ []) (g : Frame → Frame) :
    (s.updateCurrent g).globals = s.globals ∧ (s.updateCurrent g).frames ≠ [] := by
  obtain ⟨globals, frames, k, hk⟩ := s
  cases frames with
  | nil => exact absurd rfl hs
  | cons f rest => exact ⟨rfl, List.cons_ne_nil _ _⟩

namespace Exec

open CallStack (SameShape)
open Instrumented (Expr Stmt)

/-! ## Values of their own -/

/-- No variable of a call or at top level shares a list with the value. So nothing that is done to the lists of the
value and to lists that are made later changes what a variable holds. -/
structure Independent (m : Machine) (v : Value) : Prop where
  unowned : Unowned m.heap m.stack.owners v
  kept : ∀ h : Heap, m.heap.cells.size ≤ h.cells.size →
    (∀ c < m.heap.cells.size, ¬ m.heap.Reaches v c → h.items c = m.heap.items c) →
    ∀ f ∈ m.stack.owners, ∀ w, f.Holds w → h.snapshot w = m.heap.snapshot w

/-- No variable at top level holds the list that the value is, nor a list that it is a part of. -/
def OffGlobals (m : Machine) (v : Value) : Prop :=
  ∀ d, v = .list d → ∀ r, m.heap.Reaches (.list r) d → ¬ m.stack.globals.Holds (.list r)

/-- The list that the value is in `n`, and every list that it is a part of, has been made since `m`. -/
def MadeSince (m n : Machine) (v : Value) : Prop :=
  ∀ d, v = .list d → ∀ r, n.heap.Reaches (.list r) d → m.heap.cells.size ≤ r

variable {env : Env} {m n o : Machine} {v : Value}

theorem Independent.of_unowned (hm : m.Ordered) (hv : Unowned m.heap m.stack.owners v) : Independent m v where
  unowned := hv
  kept h hsize hsame f hf w hw := by
    have hground : m.heap.Grounded w := hm.forest.grounded_of_has (hm.vars f hf w hw)
    refine Heap.snapshot_congr hground hsize fun c hc => hsame c (hground.lt_size hc) fun hr => ?_
    exact hv c hr f hf ⟨w, hw, hc⟩

theorem Independent.offGlobals (h : Independent m v) : OffGlobals m v := by
  rintro d rfl r hr hheld
  exact h.unowned d .here m.stack.globals List.mem_cons_self ⟨.list r, hheld, hr⟩

/-- A list at top level that is no item has no part of a value that is off there. -/
theorem OffGlobals.not_reaches (hv : OffGlobals m v) (hp : m.heap.Parented) {c e : CellId}
    (he : m.stack.globals.Holds (.list e)) (hfree : ¬ m.heap.Stands e) (hr : m.heap.Reaches v c) :
    ¬ m.heap.Reaches (.list e) c := by
  intro hec
  obtain ⟨d, rfl⟩ := hr.list
  rcases hp.comparable hec hr with hed | hde
  · exact hv d rfl e hed he
  · have hsame : Value.list d = .list e := hde.eq_of_not_stands hfree
    exact hv d rfl d .here (hsame ▸ he)

/-! ## Variables at top level -/

/-- A call is active, no list is an item of two lists, and the lists of the variables at top level exist. -/
structure InCall (m : Machine) : Prop where
  active : m.stack.frames ≠ []
  parented : m.heap.Parented
  exist : ∀ d, m.stack.globals.Holds (.list d) → d < m.heap.cells.size

/-- From `m` to `n` no list of `m` has become an item, and the variables at top level have got only lists that have
been made since and are no items. -/
structure Rooting (m n : Machine) : Prop where
  shape : SameShape m.stack n.stack
  size : m.heap.cells.size ≤ n.heap.cells.size
  stands : ∀ d < m.heap.cells.size, n.heap.Stands d → m.heap.Stands d
  globals : ∀ d, n.stack.globals.Holds (.list d) → m.stack.globals.Holds (.list d) ∨
    (m.heap.cells.size ≤ d ∧ d < n.heap.cells.size) ∧ ¬ n.heap.Stands d

/-- In `n`, the value is a copy made since `m` that is neither an item nor held at top level. -/
def Unplaced (m n : Machine) (v : Value) : Prop :=
  ∀ d, v = .list d → ((m.heap.cells.size ≤ d ∧ d < n.heap.cells.size) ∧ ¬ n.heap.Stands d) ∧
    ¬ n.stack.globals.Holds (.list d)

namespace InCall

theorem withHeap (h : InCall m) {heap : Heap} (hp : heap.Parented)
    (hsize : m.heap.cells.size ≤ heap.cells.size) : InCall { m with heap } :=
  ⟨h.active, hp, fun d hd => Nat.lt_of_lt_of_le (h.exist d hd) hsize⟩

theorem elsewhere (h : InCall m) (recorder : Recorder) (line : Nat) (entered : Bool) :
    InCall { m with recorder, line, entered } := ⟨h.active, h.parented, h.exist⟩

theorem updateCurrent (h : InCall m) (g : Frame → Frame) :
    InCall { m with stack := m.stack.updateCurrent g } := by
  obtain ⟨hglobals, hactive⟩ := CallStack.globals_updateCurrent h.active g
  exact ⟨hactive, h.parented, fun d hd => h.exist d (hglobals ▸ hd)⟩

theorem entering (hp : m.heap.Parented) (hexist : ∀ d, m.stack.globals.Holds (.list d) → d < m.heap.cells.size)
    (f : Instrumented.Function) (vars : List (String × Value)) : InCall (m.entering f vars) := by
  obtain ⟨top, hglobals, hframes, -⟩ := CallStack.declares_pushFrame m.stack f.name vars
  exact ⟨fun he => List.cons_ne_nil _ _ (hframes.symm.trans he), hp, fun d hd => hexist d (hglobals ▸ hd)⟩

end InCall

namespace Rooting

theorem refl (m : Machine) : Rooting m m := ⟨.refl _, Nat.le_refl _, fun _ _ => id, fun _ => .inl⟩

theorem trans (h : Rooting m n) (h' : Rooting n o) : Rooting m o where
  shape := h.shape.trans h'.shape
  size := Nat.le_trans h.size h'.size
  stands d hd hs := h.stands d hd (h'.stands d (Nat.lt_of_lt_of_le hd h.size) hs)
  globals d hd := by
    rcases h'.globals d hd with hd | ⟨⟨hle, hlt⟩, hfree⟩
    · rcases h.globals d hd with hd | ⟨⟨hle, hlt⟩, hfree⟩
      · exact .inl hd
      · exact .inr ⟨⟨hle, Nat.lt_of_lt_of_le hlt h'.size⟩, fun hs => hfree (h'.stands d hlt hs)⟩
    · exact .inr ⟨⟨Nat.le_trans h.size hle, hlt⟩, hfree⟩

/-- What is recorded and where the run is does not matter. -/
theorem elsewhere (h : Rooting m n) (recorder : Recorder) (line : Nat) (entered : Bool) :
    Rooting m { n with recorder, line, entered } := ⟨h.shape, h.size, h.stands, h.globals⟩

/-- Lists that have been made since and that no variable at top level holds may become items. -/
theorem withHeap (h : Rooting m n) {heap : Heap} (hsize : n.heap.cells.size ≤ heap.cells.size)
    (hs : ∀ d, heap.Stands d → n.heap.Stands d ∨ m.heap.cells.size ≤ d ∧ ¬ n.stack.globals.Holds (.list d)) :
    Rooting m { n with heap } where
  shape := h.shape
  size := Nat.le_trans h.size hsize
  stands d hd hstands := by
    rcases hs d hstands with hstands | ⟨hle, -⟩
    · exact h.stands d hd hstands
    · exact absurd hle (Nat.not_le_of_lt hd)
  globals d hd := by
    refine (h.globals d hd).imp_right fun ⟨⟨hle, hlt⟩, hfree⟩ => ⟨⟨hle, Nat.lt_of_lt_of_le hlt hsize⟩, ?_⟩
    exact fun hstands => (hs d hstands).elim hfree fun hnot => hnot.2 hd

/-- Lists that have been made since and are no items may be stored at top level. -/
theorem withStack (h : Rooting m n) {s : CallStack} (hshape : SameShape n.stack s)
    (hs : ∀ d, s.globals.Holds (.list d) → n.stack.globals.Holds (.list d) ∨
      (m.heap.cells.size ≤ d ∧ d < n.heap.cells.size) ∧ ¬ n.heap.Stands d) :
    Rooting m { n with stack := s } where
  shape := h.shape.trans hshape
  size := h.size
  stands := h.stands
  globals d hd := (hs d hd).elim (h.globals d) .inr

/-- A call has kept what its body has kept. -/
theorem leaving {f : Instrumented.Function} {vars : List (String × Value)}
    (h : Rooting (m.entering f vars) n) (line : Nat) (v : Option Value) : Rooting m (n.leaving f line v) where
  shape := h.shape.popFrame
  size := h.size
  stands := h.stands
  globals d hd := by
    obtain ⟨-, hglobals, -, -⟩ := CallStack.declares_pushFrame m.stack f.name vars
    have hd : n.stack.globals.Holds (.list d) := CallStack.globals_popFrame n.stack ▸ hd
    exact (h.globals d hd).imp_left fun hd => hglobals ▸ hd

end Rooting

/-- A copy is neither an item nor held at top level. -/
theorem Unplaced.of_copy (hm : InCall m) (v : Value) :
    let n := { m with heap := (m.heap.copy v).2 }
    InCall n ∧ Rooting m n ∧ Unplaced m n (m.heap.copy v).1 := by
  obtain ⟨hparented, hplanted⟩ := Heap.copy_planted v hm.parented
  obtain ⟨hext, hfresh⟩ := Heap.copy_spec v m.heap
  refine ⟨hm.withHeap hparented hext.size, (Rooting.refl m).withHeap hext.size fun d hs => ?_, fun d hd => ?_⟩
  · rcases Nat.lt_or_ge d m.heap.cells.size with hlt | hge
    · exact .inl (hext.stands hlt hs)
    · exact .inr ⟨hge, fun hd => Nat.not_lt_of_le hge (hm.exist d hd)⟩
  · have hle : m.heap.cells.size ≤ d := (hd ▸ hfresh).le_of_list
    obtain ⟨hlt, hfree⟩ := hplanted d (List.mem_singleton.mpr hd.symm)
    exact ⟨⟨⟨hle, hlt⟩, hfree⟩, fun hheld => Nat.not_lt_of_le hle (hm.exist d hheld)⟩

/-- The contract that variables at top level get only new lists that are no items. It is about what happens in
calls: a statement at top level may declare a reference there. -/
def rooting : Contract true where
  Inv := InCall
  Rel := Rooting
  Runs _ := Rooting
  Hand _ _ := True
  Pending := Unplaced
  refl := .refl
  trans := .trans
  hand_scalar _ := trivial
  hand_of_rel _ _ := trivial
  pending_scalar hv := by
    rintro d rfl
    cases hv
  pending_of_rel h hv := fun d hd =>
    have ⟨⟨⟨hle, hlt⟩, hfree⟩, hoff⟩ := hv d hd
    ⟨⟨⟨Nat.le_trans h.size hle, hlt⟩, hfree⟩, hoff⟩
  pending_rel hv _ h := by
    intro d hd
    obtain ⟨⟨⟨hle, hlt⟩, hfree⟩, hoff⟩ := hv d hd
    refine ⟨⟨⟨hle, Nat.lt_of_lt_of_le hlt h.size⟩, fun hs => hfree (h.stands d hlt hs)⟩, fun hheld => ?_⟩
    rcases h.globals d hheld with hheld | ⟨⟨hge, -⟩, -⟩
    · exact hoff hheld
    · exact Nat.not_lt_of_le hge hlt
  hand_of_pending _ := trivial
  lookup _ _ _ := trivial
  item _ _ _ _ := trivial
  copy v hm := Unplaced.of_copy hm v
  newList {m n items} hn h hitems := by
    have hsize : n.heap.cells.size ≤ (n.heap.alloc items).2.cells.size := by
      rw [Heap.size_alloc]
      exact Nat.le_succ _
    have hnew (d : CellId) (hd : .list d ∈ items) := hitems _ hd d rfl
    have hparented := hn.parented.alloc fun d hd => ⟨(hnew d hd).1.1.2, (hnew d hd).1.2⟩
    refine ⟨hn.withHeap hparented hsize, h.withHeap hsize fun d hs => ?_, trivial⟩
    exact (Heap.stands_alloc hs).imp_right fun hd => ⟨(hnew d hd).1.1.1, (hnew d hd).2⟩
  store {m n c f} hn h _ hf := by
    have hsize : n.heap.cells.size ≤ (n.heap.update c f).cells.size :=
      Nat.le_of_eq (Heap.size_update n.heap c f).symm
    have hnew (d : CellId) (hd : .list d ∈ f (n.heap.items c)) := (hf _ hd).imp_right fun hp => hp d rfl
    have hparented := hn.parented.update fun d hd =>
      (hnew d hd).imp_right fun hp => ⟨hp.1.1.2, hp.1.2⟩
    refine ⟨hn.withHeap hparented hsize, h.withHeap hsize fun d hs => ?_⟩
    rcases Heap.stands_update hs with hs | hd
    · exact .inl hs
    · exact (hnew d hd).imp (fun hd => ⟨c, hd⟩) fun hp => ⟨hp.1.1.1, hp.2⟩
  assign {m n name v s} hn h hv hs := by
    have hshape : SameShape n.stack s := .assign hs
    have hglobals (d : CellId) (hd : s.globals.Holds (.list d)) : n.stack.globals.Holds (.list d) ∨
        (m.heap.cells.size ≤ d ∧ d < n.heap.cells.size) ∧ ¬ n.heap.Stands d := by
      rcases CallStack.assign_cases hs with rfl | rfl
      · exact .inl ((CallStack.globals_updateCurrent hn.active _).1 ▸ hd)
      · exact (Frame.holds_of_assign hd).imp_right fun he => (hv d he.symm).1
    have hactive : s.frames ≠ [] := by
      rcases CallStack.assign_cases hs with rfl | rfl
      · exact (CallStack.globals_updateCurrent hn.active _).2
      · exact hn.active
    exact ⟨⟨hactive, hn.parented, fun d hd => (hglobals d hd).elim (hn.exist d) fun hnew => hnew.1.2⟩,
      h.withStack hshape hglobals⟩
  set _ _ hm := ⟨hm.elsewhere _ _ _, (Rooting.refl _).elsewhere _ _ _⟩
  log _ hm := ⟨hm.elsewhere _ _ _, (Rooting.refl _).elsewhere _ _ _⟩
  entered _ hm := ⟨hm.elsewhere _ _ _, (Rooting.refl _).elsewhere _ _ _⟩
  runs_of_rel := id
  runs_trans := .trans
  setLine _ hm := ⟨hm.elsewhere _ _ _, (Rooting.refl _).elsewhere _ _ _⟩
  step _ _ hm := ⟨hm.elsewhere _ _ _, (Rooting.refl _).elsewhere _ _ _⟩
  declare {m n v} name hn h _ :=
    ⟨hn.updateCurrent _, h.withStack (.declare _ name v) fun _ hd =>
      .inl ((CallStack.globals_updateCurrent hn.active _).1 ▸ hd)⟩
  pushScope hm := hm.updateCurrent _
  popScope {m n v} hm hn h := by
    refine ⟨hn.updateCurrent _, h.shape.scope, h.size, h.stands, fun d hd => ?_⟩
    have hd : n.stack.globals.Holds (.list d) := (CallStack.globals_updateCurrent hn.active _).1 ▸ hd
    exact (h.globals d hd).imp_left fun hd => (CallStack.globals_updateCurrent hm.active _).1 ▸ hd
  ret hn h _ := ⟨hn.elsewhere _ _ _, h.elsewhere _ _ _⟩
  enter f vars hn _ _ _ := .entering hn.parented hn.exist f vars
  leave {m n o f vars v} hn h _ ho hrun := by
    have hleaving : Rooting n (o.leaving f n.line v) := Rooting.leaving hrun n.line v
    have hactive : (o.leaving f n.line v).stack.frames ≠ [] := by
      have hframes : (o.leaving f n.line v).stack.frames = n.stack.frames := hrun.shape.call.1
      rw [hframes]
      exact hn.active
    have hglobals : (o.leaving f n.line v).stack.globals = o.stack.globals := CallStack.globals_popFrame o.stack
    exact ⟨⟨hactive, ho.parented, fun d hd => ho.exist d (hglobals ▸ hd)⟩, h.trans hleaving, trivial⟩

/-! ## Calls -/

section

variable {fuel : Nat} {name : String} {args : List Value} {f : Instrumented.Function}

/-- A call gives the frames of all calls back as they were, and a variable at top level has either the list that it
had or a new one that is no item. -/
theorem rooting_of_call (hm : m.Ordered) (hargs : ∀ v ∈ args, m.heap.Has v)
    (hf : env.program.function? name = some f) (hc : (meaning env fuel).call name args m = .ok v n) :
    n.stack.frames = m.stack.frames ∧ ∀ d, n.stack.globals.Holds (.list d) →
      m.stack.globals.Holds (.list d) ∨ m.heap.cells.size ≤ d ∧ ¬ n.heap.Stands d := by
  cases fuel with
  | zero => cases hc
  | succ fuel =>
    obtain ⟨vars, o, flow, b, -, hbind, hbody, -, rfl⟩ := callWith_ok hf hc
    have hnoted : (m.noting env name).Ordered := ⟨hm.forest, hm.vars⟩
    have hbound : Preserves (fun _ => False) (m.noting env name) (fun vars o => ∀ b ∈ vars, o.heap.Has b.2)
        (fun _ => bindArgs f.params args) (m.noting env name) :=
      Orderly.bindArgs_preserves hnoted f.params hargs
    have ho : o.Ordered := (hbound.of_ok hbind).1.ordered
    have hstart : InCall (o.entering f vars) := .entering ho.forest.parented
      (fun d hd => ho.vars o.stack.globals List.mem_cons_self _ hd d rfl) f vars
    obtain ⟨-, hrun⟩ := rooting.sequence_of_ok env.program.refsOnlyIf_true
      (Instrumented.Stmt.allRefsOnlyIf_true f.body)
      hstart hbody
    obtain ⟨⟨heap, hextends, rfl⟩, -⟩ := bindArgs_ok hbind
    refine ⟨hrun.shape.call.1, fun d hd => ?_⟩
    refine ((Rooting.leaving hrun _ _).globals d hd).imp_right fun ⟨⟨hle, _⟩, hfree⟩ => ⟨?_, hfree⟩
    exact Nat.le_trans hextends.size hle

/-- In a program without references no frame of a call that goes on shares a list with the result. -/
theorem unowned_frames_of_call (hrefs : env.program.RefsOnlyIf false) (hm : ownership.Inv m)
    (hf : env.program.function? name = some f) (hc : (meaning env fuel).call name args m = .ok v n) :
    Unowned n.heap n.stack.frames v := by
  cases fuel with
  | zero => cases hc
  | succ fuel =>
    obtain ⟨vars, o, flow, b, -, hbind, hbody, rfl, rfl⟩ := callWith_ok hf hc
    have hnoted : ownership.Inv (m.noting env name) := hm
    have hmem := List.mem_of_find?_eq_some hf
    obtain ⟨hkeeps, hitems⟩ := items_of_body hrefs hmem hnoted hbind hbody
    have hbound : Ends (fun _ => False) (ownership.Passed (m.noting env name))
        (fun _ => bindArgs f.params args) (m.noting env name) :=
      Contract.Means.passed_ends (hrefs.1 f hmem).1 (.refl hnoted) args
    have hpassed := hbound.of_ok hbind
    have hstart := ownership.enter f hpassed.inv hpassed.rel hpassed.pending hpassed.distinct
    obtain ⟨⟨heap, hextends, rfl⟩, -⟩ := bindArgs_ok hbind
    intro c hr g hg howns
    have hg : g ∈ m.stack.frames := hkeeps.1.1.call.1 ▸ hg
    have howns : g.Owns m.heap c := (Separate.owns_congr (hitems g hg)).mp howns
    have hlt : c < m.heap.cells.size := hm.lt_size (List.mem_cons_of_mem _ hg) howns
    -- What the body has returned it could get at when it started, and it could not get at the caller's cells.
    have hdistant : ¬ (Machine.entering { m.noting env name with heap } f vars).stack.Accesses heap c := by
      have htail : g ∈ (Machine.entering { m.noting env name with heap } f vars).stack.frames.tail := by
        obtain ⟨top, -, hframes, -⟩ := CallStack.declares_pushFrame m.stack f.name vars
        exact (congrArg List.tail hframes : _) ▸ hg
      exact CallStack.not_accesses_of_tail hstart htail
        ((Separate.owns_congr fun d hd => hextends.old d (hm.lt_size (List.mem_cons_of_mem _ hg) hd)).mpr howns)
    cases hv : flow.returned? with
    | none => exact Heap.Reaches.not_scalar rfl (hv ▸ hr)
    | some w =>
      have hr : b.heap.Reaches w c := by
        rw [hv] at hr
        exact hr
      have hr : heap.Reaches w c := hkeeps.1.2.reaches hr (Nat.lt_of_lt_of_le hlt hextends.size)
      cases w with
      | list d =>
        obtain ⟨u, hu, hd⟩ := hkeeps.2 (.list d) hv d rfl (hr.lt_size (Nat.lt_of_lt_of_le hlt hextends.size))
        exact hdistant ⟨u, hu, hd.trans hr⟩
      | _ => exact absurd hr (Heap.Reaches.not_scalar rfl)

/-- When the result of a call has been made in the call, or the program has no references, it is a value of its own
unless a variable at top level holds it or holds a list that it is a part of. -/
theorem independent_call {k : Nat} (hreached : Reached env k (.call name args) m)
    (hf : env.program.function? name = some f) (hc : (meaning env fuel).call name args m = .ok v n)
    (hown : MadeSince m n v ∨ env.program.RefsOnlyIf false) : Independent n v ↔ OffGlobals n v := by
  obtain ⟨hm, hargs⟩ := ordered_of_reached hreached
  have hgrowing : Growing m n := (((orderly_meaning (fun _ => False) env fuel).call name hm hargs).of_ok hc).1
  have hparented := hgrowing.ordered.forest.parented
  obtain ⟨hframes, hglobals⟩ := rooting_of_call hm hargs hf hc
  refine ⟨Independent.offGlobals, fun hoff => .of_unowned hgrowing.ordered ?_⟩
  rcases hown with hmade | hrefs
  · rintro c hr g hg ⟨w, hw, hwc⟩
    obtain ⟨d, rfl⟩ := hr.list
    obtain ⟨e, rfl⟩ := hwc.list
    -- What the variables held when the call began is older than the result and everything around it.
    have hnew : ¬ e < m.heap.cells.size := by
      intro hlt
      rcases hparented.comparable hwc hr with hed | hde
      · exact Nat.not_lt_of_le (hmade d rfl e hed) hlt
      · exact Nat.not_lt_of_le (hmade d rfl d .here) (hgrowing.grows.lt_size_of_reaches hde hlt)
    rcases List.mem_cons.mp hg with rfl | hg
    · rcases hglobals e hw with hheld | ⟨-, hfree⟩
      · exact hnew (hm.vars _ List.mem_cons_self _ hheld e rfl)
      · exact hoff.not_reaches hparented hw hfree hr hwc
    · rw [hframes] at hg
      exact hnew (hm.vars g (List.mem_cons_of_mem _ hg) _ hw e rfl)
  · have hshared : m.Unshared := unshared.inv_of_reached hrefs unshared_inv_initial hreached
    have hends : Ends (fun _ => False) (fun v n => unshared.During m n ∧ unshared.Hand m v)
        (fun _ => (meaning env fuel).call name args) m := (unshared.means hrefs fuel).call name args hshared
    have hrooted : n.Rooted := (hends.of_ok hc).1.inv.rooted
    have hfree : Unowned n.heap n.stack.frames v := unowned_frames_of_call hrefs hshared.separate hf hc
    intro c hr g hg howns
    rcases List.mem_cons.mp hg with rfl | hg
    · obtain ⟨w, hw, hwc⟩ := howns
      obtain ⟨e, rfl⟩ := hwc.list
      have hslot : .list e ∈ n.stack.slots := CallStack.mem_slots.mpr ⟨_, List.mem_cons_self, hw⟩
      exact hoff.not_reaches hparented hw (hrooted.free e hslot) hr hwc
    · exact hfree c hr g hg howns

end

/-! ## A function that returns its parameter -/

/-- The statement that passes the list of `passingMain`. -/
def passStatement : Stmt := .act 6 true (.eval (.call "pass" [.var "xs"]))

/-- An entry function with a list that it passes to a function. -/
def passingMain : Instrumented.Function where
  name := "main"
  params := []
  body := [declareList, passStatement]
  line := 4
  endLine := 7

/-- A function that returns its parameter, which is a reference or not, and `passingMain`, which calls it. -/
def passingEnv (byRef : Bool) : Env where
  program :=
    { functions := [⟨"pass", [⟨"ys", byRef⟩], [.ret 2 true (some (.var "ys"))], 1, 3⟩, passingMain]
      driver := []
      degradations := [] }
  config := .default

/-- The state in which the list has been declared. -/
def declaredState (byRef : Bool) : Machine :=
  (((meaning (passingEnv byRef) 8).attempt (.run declareList))).after
    (Machine.starting (passingEnv byRef) passingMain)

/-- The state in which the function is called. -/
def passingState (byRef : Bool) : Machine := (begin (passingEnv byRef) 6 true).after (declaredState byRef)

theorem reached_passingState (byRef : Bool) :
    Reached (passingEnv byRef) 6 (.call "pass" [.list 1]) (passingState byRef) := by
  have hdeclared : (meaning (passingEnv byRef) 8).run declareList (Machine.starting (passingEnv byRef) passingMain) =
      .ok .normal (declaredState byRef) := by
    cases byRef <;> with_unfolding_all rfl
  have hstatement : Reached (passingEnv byRef) 8 (.run passStatement) (declaredState byRef) :=
    reached_statement [declareList] rfl (by cases byRef <;> rfl) rfl (by cases byRef <;> decide)
      (by cases byRef <;> decide) rfl (by simp [declareList, passStatement]) (bind_of_ok hdeclared)
  have hbegin : begin (passingEnv byRef) 6 true (declaredState byRef) = .ok () (passingState byRef) := by
    cases byRef <;> with_unfolding_all rfl
  have hargs : [Expr.var "xs"].mapM (meaning (passingEnv byRef) 6).eval (passingState byRef) =
      .ok [.list 1] (passingState byRef) := by
    cases byRef <;> with_unfolding_all rfl
  exact reached_call hstatement hbegin hargs

/-- What the function returns when its parameter is no reference shares nothing with the list of its caller. -/
theorem independent_call_passingState :
    ∃ d n, (meaning (passingEnv false) 6).call "pass" [.list 1] (passingState false) = .ok (.list d) n ∧
      (∃ g ∈ n.stack.frames, g.Holds (.list 1)) ∧ Independent n (.list d) := by
  have hrefs : (passingEnv false).program.RefsOnlyIf false := by
    simp [passingEnv, passingMain, declareList, passStatement, Instrumented.Program.RefsOnlyIf,
      Instrumented.Function.RefsOnlyIf, Stmt.AllRefsOnlyIf, Stmt.RefsOnlyIf, Instrumented.Action.RefsOnlyIf]
  obtain ⟨d, n, hc, hglobals, g, hg, hx⟩ : ∃ d n,
      (meaning (passingEnv false) 6).call "pass" [.list 1] (passingState false) = .ok (.list d) n ∧
        n.stack.globals = .new "<global>" ∧
        ∃ g, n.stack.frames.head? = some g ∧ g.lookup "xs" = some (.list 1) := by
    with_unfolding_all exact ⟨_, _, rfl, rfl, _, rfl, rfl⟩
  have hoff : OffGlobals n (.list d) := fun _ _ r _ hheld => Frame.not_holds_new _ (hglobals ▸ hheld)
  exact ⟨d, n, hc, ⟨g, List.mem_of_mem_head? hg, Frame.holds_of_lookup hx⟩,
    (independent_call (reached_passingState false) rfl hc (.inr hrefs)).mpr hoff⟩

/-- What it returns when its parameter is a reference is the list of its caller. -/
theorem not_independent_call :
    ¬ ∀ (env : Env) (k fuel : Nat) (name : String) (args : List Value) (f : Instrumented.Function) (m n : Machine)
      (v : Value), Reached env k (.call name args) m → env.program.function? name = some f →
      (meaning env fuel).call name args m = .ok v n → Independent n v := by
  intro h
  obtain ⟨n, hc, g, hg, hx⟩ : ∃ n,
      (meaning (passingEnv true) 6).call "pass" [.list 1] (passingState true) = .ok (.list 1) n ∧
        ∃ g, n.stack.frames.head? = some g ∧ g.lookup "xs" = some (.list 1) := by
    with_unfolding_all exact ⟨_, rfl, _, rfl, rfl⟩
  have hown := h _ 6 6 _ _ _ _ n _ (reached_passingState true) rfl hc
  exact hown.unowned 1 .here g (List.mem_cons_of_mem _ (List.mem_of_mem_head? hg))
    ⟨.list 1, Frame.holds_of_lookup hx, .here⟩

end Exec

end CallTrace
