import CallTrace.Proofs.Evaluation.Covered
import CallTrace.Proofs.Ownership

/-! # A call leaves the variables of its callers alone

A program without references copies every list that it stores. So no cell is shared between frames, and a
call can get at no cell of its callers.

* `Exec.Confined`: a computation changes only cells that the innermost call can get at, and new ones, and
  gives it no way to get at others.
* `Exec.ownership`: the contract that the frames are separate and everything is confined.
* `Exec.snapshot_call`: so a call changes no value of a variable of its callers.
-/

namespace CallTrace
set_option autoImplicit false

open Instrumented (Stmt)

namespace Exec

open CallStack (SameShape)

/-! ## Confined computations -/

/-- From `m` to `n` no list that there was in `m` has been stored anew, and the only cells that have changed are
ones that the innermost call could get at. -/
structure Confined (m n : Machine) : Prop where
  size : m.heap.cells.size ≤ n.heap.cells.size
  edges : ∀ c d, d < m.heap.cells.size → .list d ∈ n.heap.items c → .list d ∈ m.heap.items c
  holds : ∀ d, d < m.heap.cells.size → n.stack.Holds (.list d) → m.stack.Holds (.list d)
  kept : ∀ c, c < m.heap.cells.size → ¬ m.stack.Accesses m.heap c → n.heap.items c = m.heap.items c

namespace Confined

variable {m n o : Machine} {v : Value} {c d : CellId}

theorem refl (m : Machine) : Confined m m :=
  ⟨Nat.le_refl _, fun _ _ _ => id, fun _ _ => id, fun _ _ _ => rfl⟩

/-- What was there and can be reached could be reached before. -/
theorem reaches (h : Confined m n) (hr : n.heap.Reaches v d) (hd : d < m.heap.cells.size) :
    m.heap.Reaches v d := by
  induction hr with
  | here => exact .here
  | @item c d v hv hr ih =>
    have hr' := ih hd
    cases v with
    | list e => exact .item (h.edges c e (hr'.lt_size hd) hv) hr'
    | _ => exact absurd hr' (Heap.Reaches.not_scalar rfl)

theorem accesses (h : Confined m n) (hc : n.stack.Accesses n.heap c) (hlt : c < m.heap.cells.size) :
    m.stack.Accesses m.heap c := by
  obtain ⟨v, hv, hr⟩ := hc
  have hr' := h.reaches hr hlt
  cases v with
  | list e => exact ⟨.list e, h.holds e (hr'.lt_size hlt) hv, hr'⟩
  | _ => exact absurd hr' (Heap.Reaches.not_scalar rfl)

theorem trans (h : Confined m n) (h' : Confined n o) : Confined m o where
  size := Nat.le_trans h.size h'.size
  edges c d hd hm := h.edges c d hd (h'.edges c d (Nat.lt_of_lt_of_le hd h.size) hm)
  holds d hd hm := h.holds d hd (h'.holds d (Nat.lt_of_lt_of_le hd h.size) hm)
  kept c hc hm := by
    rw [h'.kept c (Nat.lt_of_lt_of_le hc h.size) fun hn => hm (h.accesses hn hc), h.kept c hc hm]

/-- Other variables, which hold no list of `m` that they could not get at. -/
theorem withStack (h : Confined m n) {s : CallStack}
    (hs : ∀ d, s.Holds (.list d) → n.stack.Holds (.list d) ∨ m.heap.cells.size ≤ d) :
    Confined m { n with stack := s } where
  size := h.size
  edges := h.edges
  holds d hd hm := h.holds d hd ((hs d hm).resolve_right (Nat.not_le_of_lt hd))
  kept := h.kept

/-- What is recorded and where the run is does not matter. -/
theorem elsewhere (h : Confined m n) (recorder : Recorder) (line : Nat) (entered : Bool) :
    Confined m { n with recorder, line, entered } :=
  ⟨h.size, h.edges, h.holds, h.kept⟩

theorem of_extends {heap : Heap} (e : m.heap.Extends heap) : Confined m { m with heap } where
  size := e.size
  edges c d hd hm := by
    rcases Nat.lt_or_ge c m.heap.cells.size with hc | hc
    · rw [← e.old c hc]
      exact hm
    · exact absurd (e.new c hc d hm) (Nat.not_le_of_lt hd)
  holds _ _ := id
  kept c hc _ := e.old c hc

theorem alloc (h : Confined m n) {items : Array Value}
    (hitems : ∀ v ∈ items, n.heap.Fresh m.heap.cells.size v) :
    Confined m { n with heap := (n.heap.alloc items).2 } where
  size := by
    rw [Heap.size_alloc]
    exact Nat.le_succ_of_le h.size
  edges c d hd hm := by
    by_cases hc : c = n.heap.cells.size
    · subst hc
      rw [Heap.items_alloc_new] at hm
      exact absurd (hitems _ hm).le_of_list (Nat.not_le_of_lt hd)
    · rw [Heap.items_alloc_of_ne hc] at hm
      exact h.edges c d hd hm
  holds := h.holds
  kept c hc hm := by
    rw [Heap.items_alloc_of_lt (Nat.lt_of_lt_of_le hc h.size), h.kept c hc hm]

/-- New items in a cell that the innermost call can get at, or that is new. -/
theorem update (h : Confined m n) (hc : c < m.heap.cells.size → m.stack.Accesses m.heap c)
    {f : Array Value → Array Value}
    (hf : ∀ v ∈ f (n.heap.items c), v ∈ n.heap.items c ∨ n.heap.Fresh m.heap.cells.size v) :
    Confined m { n with heap := n.heap.update c f } where
  size := by
    rw [Heap.size_update]
    exact h.size
  edges c' d hd hm := by
    by_cases he : c' = c
    · subst he
      have hlt := Heap.lt_size_of_mem hm
      rw [Heap.size_update] at hlt
      rw [Heap.items_update_self hlt] at hm
      rcases hf _ hm with hm | hfresh
      · exact h.edges c' d hd hm
      · exact absurd hfresh.le_of_list (Nat.not_le_of_lt hd)
    · rw [Heap.items_update_of_ne he] at hm
      exact h.edges c' d hd hm
  holds := h.holds
  kept c' hc' hm := by
    have he : c' ≠ c := fun he => hm (by rw [he] at hc' ⊢; exact hc hc')
    rw [Heap.items_update_of_ne he, h.kept c' hc' hm]

theorem kept_of_tail (h : Confined m n) (hm : Separate m.heap m.stack.owners) {f : Frame}
    (hf : f ∈ m.stack.frames.tail) (hc : f.Owns m.heap c) : n.heap.items c = m.heap.items c :=
  h.kept c (hm.lt_size (List.mem_cons_of_mem _ (List.mem_of_mem_tail hf)) hc)
    (CallStack.not_accesses_of_tail hm hf hc)

/-- A call whose parameters have new values, whose body is confined. -/
theorem call {f : Instrumented.Function} {vars : List (String × Value)} (h : Confined m n)
    (hvars : ∀ b ∈ vars, n.heap.Fresh m.heap.cells.size b.2) (h' : Confined (n.entering f vars) o)
    (hshape : SameShape (n.entering f vars).stack o.stack) (line : Nat) (v : Option Value) :
    Confined m (o.leaving f line v) where
  size := Nat.le_trans h.size h'.size
  edges c d hd hm := h.edges c d hd (h'.edges c d (Nat.lt_of_lt_of_le hd h.size) hm)
  holds d hd hm := by
    refine h.holds d hd ?_
    rcases hm with hm | ⟨g, hg, hm⟩
    · have hm : o.stack.globals.Holds (.list d) := by
        rw [← CallStack.globals_popFrame]
        exact hm
      rcases CallStack.holds_of_call (h'.holds d (Nat.lt_of_lt_of_le hd h.size) (.inl hm)) with
        hn | ⟨b, hb, he⟩
      · exact hn
      · exact absurd (he ▸ hvars b hb).le_of_list (Nat.not_le_of_lt hd)
    · exact .inr ⟨g, hshape.call.1 ▸ hg, hm⟩
  kept c hc hm := by
    refine (h'.kept c (Nat.lt_of_lt_of_le hc h.size) ?_).trans (h.kept c hc hm)
    rintro ⟨w, hw, hr⟩
    rcases CallStack.holds_of_call hw with hw | ⟨b, hb, rfl⟩
    · exact hm (h.accesses ⟨w, hw, hr⟩ hc)
    · exact Nat.not_le_of_lt hc ((hvars b hb).le c hr)

end Confined

/-! ## The contract -/

/-- An expression that begins in `m` may have `v` at hand: a list that the innermost call can get at, or a
new one. -/
def AtHand (m : Machine) (v : Value) : Prop :=
  ∀ d, v = .list d → d < m.heap.cells.size → m.stack.Accesses m.heap d

/-- In `n`, the value `v` has been copied since `m` and has not been stored. -/
def Unstored (m n : Machine) (v : Value) : Prop :=
  n.heap.Fresh m.heap.cells.size v ∧ Unowned n.heap n.stack.owners v

/-- A statement keeps the shape of the variables, is confined, and returns what it may have at hand. -/
def Keeps (v : Option Value) (m n : Machine) : Prop :=
  (SameShape m.stack n.stack ∧ Confined m n) ∧ ∀ w, v = some w → AtHand m w

section

variable {m n o : Machine} {v : Value}

theorem AtHand.of_confined (h : Confined m n) (hv : AtHand n v) : AtHand m v :=
  fun d he hd => h.accesses (hv d he (Nat.lt_of_lt_of_le hd h.size)) hd

theorem AtHand.of_unstored (hv : Unstored m n v) : AtHand m v := by
  rintro d rfl hd
  exact absurd hv.1.le_of_list (Nat.not_le_of_lt hd)

theorem AtHand.of_holds (h : Confined m n) (hv : n.stack.Holds v) : AtHand m v := by
  rintro d rfl hd
  exact ⟨.list d, h.holds d hd hv, .here⟩

theorem AtHand.item {c : CellId} (h : Confined m n) (hc : AtHand m (.list c))
    (hv : v ∈ n.heap.items c) : AtHand m v := by
  rintro d rfl hd
  have hm : Value.list d ∈ m.heap.items c := h.edges c d hd hv
  obtain ⟨w, hw, hr⟩ := hc c rfl (Heap.lt_size_of_mem hm)
  exact ⟨w, hw, hr.trans (.item hm .here)⟩

/-- A value that has not been stored is neither changed nor stored by a confined computation. -/
theorem Unstored.of_confined (hv : Unstored m n v) (hn : Separate n.heap n.stack.owners)
    (hshape : SameShape n.stack o.stack) (h : Confined n o) : Unstored m o v := by
  obtain ⟨hfresh, hfree⟩ := hv
  have hsame (d : CellId) (hd : n.heap.Reaches v d) : o.heap.items d = n.heap.items d := by
    refine h.kept d (hfresh.grounded.lt_size hd) fun haccess => ?_
    obtain ⟨f, hf, howns⟩ := haccess.owner
    exact hfree d hd f hf howns
  have hreaches (d : CellId) : o.heap.Reaches v d ↔ n.heap.Reaches v d := Heap.Reaches.congr hsame
  refine ⟨⟨hfresh.grounded.congr h.size hsame, fun d hd => hfresh.le d ((hreaches d).mp hd)⟩, ?_⟩
  intro d hd f hf howns
  have hd := (hreaches d).mp hd
  rcases CallStack.owners_cases hf howns with haccess | htail
  · obtain ⟨g, hg, howns⟩ := (h.accesses haccess (hfresh.grounded.lt_size hd)).owner
    exact hfree d hd g hg howns
  · rw [hshape.tail] at htail
    have hmem : f ∈ n.stack.owners := List.mem_cons_of_mem _ (List.mem_of_mem_tail htail)
    exact hfree d hd f hmem
      ((Separate.owns_congr fun c hc => h.kept_of_tail hn htail hc).mp howns)

/-- What the body of a call has at hand was at hand before it, or is new. -/
theorem AtHand.of_call {f : Instrumented.Function} {vars : List (String × Value)} (h : Confined m n)
    (hvars : ∀ b ∈ vars, n.heap.Fresh m.heap.cells.size b.2) (hv : AtHand (n.entering f vars) v) :
    AtHand m v := by
  intro d he hd
  obtain ⟨w, hw, hr⟩ := hv d he (Nat.lt_of_lt_of_le hd h.size)
  rcases CallStack.holds_of_call hw with hw | ⟨b, hb, rfl⟩
  · exact h.accesses ⟨w, hw, hr⟩ hd
  · exact absurd ((hvars b hb).le d hr) (Nat.not_le_of_lt hd)

end

/-- The contract that the frames are separate, and that everything is confined to what the innermost call can
get at. -/
def ownership : Contract false where
  Inv m := Separate m.heap m.stack.owners
  Rel m n := SameShape m.stack n.stack ∧ Confined m n
  Runs := Keeps
  Hand := AtHand
  Pending := Unstored
  refl m := ⟨.refl m.stack, .refl m⟩
  trans h h' := ⟨h.1.trans h'.1, h.2.trans h'.2⟩
  hand_scalar hv := by
    rintro d rfl
    cases hv
  hand_of_rel h hv := hv.of_confined h.2
  pending_scalar hv := ⟨.scalar hv, fun _ hr => absurd hr (Heap.Reaches.not_scalar hv)⟩
  pending_of_rel h hv := ⟨hv.1.of_le h.2.size, hv.2⟩
  pending_rel hv hn h := hv.of_confined hn h.1 h.2
  hand_of_pending hv := .of_unstored hv
  lookup _ h hv := .of_holds h.2 (CallStack.holds_of_lookup hv)
  item _ h hc hv := hc.item h.2 hv
  copy {m} v hm :=
    have ⟨e, hfresh⟩ := Heap.copy_spec v m.heap
    ⟨hm.of_extends e, ⟨.refl m.stack, .of_extends e⟩, hfresh, hm.unowned_of_extends e hfresh.le⟩
  newList {m n items} hn h hitems := by
    refine ⟨hn.congr ?_ fun f hf c hc => Heap.items_alloc_of_lt (hn.lt_size hf hc) items,
      ⟨h.1, h.2.alloc fun v hv => (hitems v hv).1⟩, ?_⟩
    · rw [Heap.size_alloc]
      exact Nat.le_succ _
    · rintro d he hd
      obtain rfl : n.heap.cells.size = d := Value.list.inj he
      exact absurd h.2.size (Nat.not_le_of_lt hd)
  store hn h hc hf :=
    ⟨hn.update fun v hv => (hf v hv).imp_right fun hp => ⟨hp.1.grounded, hp.2⟩,
      h.1, h.2.update (hc _ rfl) fun v hv => (hf v hv).imp_right And.left⟩
  assign hn h hv hs := by
    refine ⟨CallStack.separate_assign hn ⟨hv.1.grounded, hv.2⟩ hs, h.1.trans (.assign hs),
      h.2.withStack fun d hd => ?_⟩
    rcases CallStack.holds_of_assign hs hd with hd | rfl
    · exact .inl hd
    · exact .inr hv.1.le_of_list
  set {m} _ _ hm := ⟨hm, .refl m.stack, (Confined.refl m).elsewhere _ _ _⟩
  log {m} _ hm := ⟨hm, .refl m.stack, (Confined.refl m).elsewhere _ _ _⟩
  entered {m} _ hm := ⟨hm, .refl m.stack, (Confined.refl m).elsewhere _ _ _⟩
  runs_of_rel h := ⟨h, fun _ hw => nomatch hw⟩
  runs_trans h h' := ⟨⟨h.1.1.trans h'.1.1, h.1.2.trans h'.1.2⟩,
    fun w hw => (h'.2 w hw).of_confined h.1.2⟩
  setLine {m} _ hm :=
    ⟨hm, ⟨.refl m.stack, (Confined.refl m).elsewhere _ _ _⟩, fun _ hw => nomatch hw⟩
  step {m} _ _ hm :=
    ⟨hm, ⟨.refl m.stack, (Confined.refl m).elsewhere _ _ _⟩, fun _ hw => nomatch hw⟩
  declare name hn h hv := by
    have hv := hv.resolve_left Bool.false_ne_true
    refine ⟨CallStack.separate_declare hn ⟨hv.1.grounded, hv.2⟩,
      ⟨h.1.trans (.declare _ name _), h.2.withStack fun d hd => ?_⟩, fun _ hw => nomatch hw⟩
    rcases CallStack.holds_of_declare hd with hd | rfl
    · exact .inl hd
    · exact .inr hv.1.le_of_list
  pushScope hm := CallStack.separate_pushScope hm
  popScope {m n v} _ hn hrun := by
    have hpush : Confined m { m with stack := m.stack.pushScope } :=
      (Confined.refl m).withStack fun d hd => .inl (CallStack.holds_pushScope.mp hd)
    refine ⟨CallStack.separate_popScope hn, ⟨hrun.1.1.scope, ?_⟩,
      fun w hw => (hrun.2 w hw).of_confined hpush⟩
    exact (hpush.trans hrun.1.2).withStack fun d hd => .inl (CallStack.holds_of_popScope hd)
  ret {m n v} hn h hv := by
    refine ⟨hn, ⟨h.1, h.2.elsewhere _ _ _⟩, fun w hw => ?_⟩
    cases hw
    exact hv
  enter f vars hn _ hvars _ := CallStack.separate_call hn fun b hb =>
    have hv := (hvars b hb).resolve_left Bool.false_ne_true
    ⟨hv.1.grounded, hv.2⟩
  leave {m n o f vars v} _ h hvars ho hrun := by
    have hfresh (b : String × Value) (hb : b ∈ vars) : n.heap.Fresh m.heap.cells.size b.2 :=
      ((hvars b hb).resolve_left Bool.false_ne_true).1
    refine ⟨CallStack.separate_popFrame ho, ⟨h.1.trans hrun.1.1.popFrame,
      h.2.call hfresh hrun.1.2 hrun.1.1 n.line v⟩, ?_⟩
    cases v with
    | none => exact fun _ he => nomatch he
    | some w => exact (hrun.2 w rfl).of_call h.2 hfresh

theorem ownership_inv_initial : ownership.Inv .initial :=
  (Separate.nil _).cons fun _ hv => absurd hv (Frame.not_holds_new _)

/-! ## Calls -/

/-- What begins as the body of a call and is confined changes no cell of the callers' variables. -/
theorem Confined.items_of_entering {m b : Machine} {heap : Heap} {f : Instrumented.Function}
    {vars : List (String × Value)} {g : Frame} {c : CellId} (hm : ownership.Inv m) (hextends : m.heap.Extends heap)
    (hstart : ownership.Inv (Machine.entering { m with heap } f vars))
    (h : Confined (Machine.entering { m with heap } f vars) b) (hg : g ∈ m.stack.frames)
    (hc : g.Owns m.heap c) : b.heap.items c = m.heap.items c := by
  have hgm : g ∈ m.stack.owners := List.mem_cons_of_mem _ hg
  have hold (d : CellId) (hd : g.Owns m.heap d) : heap.items d = m.heap.items d :=
    hextends.old d (hm.lt_size hgm hd)
  have htail : g ∈ (Machine.entering { m with heap } f vars).stack.frames.tail := by
    obtain ⟨top, -, hframes, -⟩ := CallStack.declares_pushFrame m.stack f.name vars
    have hentering : (Machine.entering { m with heap } f vars).stack.frames = top :: m.stack.frames :=
      hframes
    rw [hentering]
    exact hg
  rw [h.kept_of_tail hstart htail ((Separate.owns_congr hold).mpr hc)]
  exact hold c hc

/-- In a program without references, the body of a call changes no cell of the callers' variables. -/
theorem items_of_body {env : Env} (hrefs : env.program.RefsOnlyIf false) {m o b : Machine}
    {f : Instrumented.Function} (hf : f ∈ env.program.functions) {args : List Value}
    {vars : List (String × Value)} {fuel : Nat} {flow : Flow} (hm : ownership.Inv m)
    (hargs : bindArgs f.params args m = .ok vars o)
    (hbody : sequence (meaning env fuel).run f.body (o.entering f vars) = .ok flow b) :
    Keeps flow.returned? (o.entering f vars) b ∧
      ∀ g ∈ m.stack.frames, ∀ c, g.Owns m.heap c → b.heap.items c = m.heap.items c := by
  obtain ⟨hparams, hstmts⟩ := hrefs.1 f hf
  have hbound : Ends (fun _ => False) (ownership.Passed m) (fun _ => bindArgs f.params args) m :=
    Contract.Means.passed_ends hparams (.refl hm) args
  have hpassed := hbound.of_ok hargs
  obtain ⟨⟨heap, hextends, rfl⟩, -⟩ := bindArgs_ok hargs
  have hstart := ownership.enter f hpassed.inv hpassed.rel hpassed.pending hpassed.distinct
  obtain ⟨-, hkeeps⟩ := ownership.sequence_of_ok hrefs hstmts hstart hbody
  exact ⟨hkeeps, fun g hg c hc => hkeeps.1.2.items_of_entering hm hextends hstart hg hc⟩

/-- In a program without references, a call that gives a value, from any state that a run reaches, gives the
frames of all calls back as they were, and the values that they hold have the snapshots that they had. -/
theorem snapshot_call {env : Env} (hrefs : env.program.RefsOnlyIf false) {k : Nat} {task : Task}
    {m : Machine} (hreached : Reached env k task m) {fuel : Nat} {name : String} {args : List Value}
    {f : Instrumented.Function} {v : Value} {n : Machine} (hf : env.program.function? name = some f)
    (hc : (meaning env fuel).call name args m = .ok v n) :
    n.stack.frames = m.stack.frames ∧
      ∀ g ∈ m.stack.frames, ∀ w, g.Holds w → n.heap.snapshot w = m.heap.snapshot w := by
  cases fuel with
  | zero => cases hc
  | succ fuel =>
    have hm : ownership.Inv m := ownership.inv_of_reached hrefs ownership_inv_initial hreached
    obtain ⟨vars, o, flow, b, -, hargs, hbody, rfl, rfl⟩ := callWith_ok hf hc
    have hnoted : ownership.Inv (m.noting env name) := hm
    obtain ⟨hkeeps, hitems⟩ := items_of_body hrefs (List.mem_of_find?_eq_some hf) hnoted hargs hbody
    obtain ⟨⟨heap, hextends, rfl⟩, -⟩ := bindArgs_ok hargs
    refine ⟨hkeeps.1.1.call.1, fun g hg w hw => ?_⟩
    have hground : m.heap.Grounded w := hm.grounded g (List.mem_cons_of_mem _ hg) w hw
    exact Heap.snapshot_congr hground (Nat.le_trans hextends.size hkeeps.1.2.size)
      fun c hc => hitems g hg c ⟨w, hw, hc⟩

/-! ## An example -/

/-- The statement that declares the list of `growingMain`. -/
def declareList : Stmt := .act 5 true (.declare "xs" (.list [.int 1]) false)

/-- The statement that passes the list to a function. -/
def passList : Stmt := .act 6 true (.eval (.call "grow" [.var "xs"]))

/-- An entry function with a list that it passes to a function. -/
def growingMain : Instrumented.Function where
  name := "main"
  params := []
  body := [declareList, passList]
  line := 4
  endLine := 7

/-- The program with `growingMain` and the function that it calls, which adds an item to its parameter. -/
def growingEnv : Env where
  program :=
    { functions := [⟨"grow", [⟨"ys", false⟩],
        [.act 2 true (.eval (.container .append (.var "ys") [.int 2]))], 1, 3⟩, growingMain]
      driver := []
      degradations := [] }
  config := .default

/-- The state in which the body of `growingMain` starts. -/
def growingStart : Machine :=
  (Machine.noting { Machine.initial with line := 4 } growingEnv "main").entering growingMain []

/-- The state in which the list has been declared. -/
def growingState : Machine :=
  match (meaning growingEnv 8).run declareList growingStart with
  | .ok _ m | .error _ m => m

theorem reached_growingState : Reached growingEnv 8 (.run passList) growingState := by
  have hne : passList ∉ [declareList] := by
    rw [List.mem_singleton]
    rintro ⟨⟩
  exact reached_statement [declareList] rfl rfl rfl (by decide) (by decide) rfl hne (by with_unfolding_all rfl)

theorem snapshot_call_growingState :
    ∃ v n, (meaning growingEnv 8).call "grow" [.list 1] growingState = .ok v n ∧
      (∃ g ∈ growingState.stack.frames, g.Holds (.list 1)) ∧
      n.heap.snapshot (.list 1) = .list [.int 1] := by
  have hrefs : growingEnv.program.RefsOnlyIf false := by
    simp [growingEnv, growingMain, declareList, passList, Instrumented.Program.RefsOnlyIf,
      Instrumented.Function.RefsOnlyIf, Stmt.AllRefsOnlyIf, Stmt.RefsOnlyIf,
      Instrumented.Action.RefsOnlyIf]
  obtain ⟨v, n, hc⟩ : ∃ v n, (meaning growingEnv 8).call "grow" [.list 1] growingState = .ok v n := by
    with_unfolding_all exact ⟨_, _, rfl⟩
  obtain ⟨g, hg, hx⟩ : ∃ g, growingState.stack.frames.head? = some g ∧ g.lookup "xs" = some (.list 1) := by
    with_unfolding_all exact ⟨_, rfl, rfl⟩
  have hg : g ∈ growingState.stack.frames := List.mem_of_mem_head? hg
  have hholds : g.Holds (.list 1) := Frame.holds_of_lookup hx
  refine ⟨v, n, hc, ⟨g, hg, hholds⟩, ?_⟩
  have hsnapshot : growingState.heap.snapshot (.list 1) = .list [.int 1] := by with_unfolding_all rfl
  exact ((snapshot_call hrefs reached_growingState rfl hc).2 g hg _ hholds).trans hsnapshot

end Exec

end CallTrace
