import CallTrace.Proofs.Tidy
import CallTrace.Proofs.Unshared

/-! # Recorded variables that are up to date

What is recorded for the innermost call follows its variables, one write behind at most.

* `Machine.Belongs m x v`: of the variables of the innermost call, only `x` can reach the list `v`. So a write to
  the list can change what `x` holds and nothing else.
* `Frame.Laid f L`: the scopes of a frame declare what a layout says and hide nothing.
* `Machine.Tracked m L stale`: what is recorded is up to date for every variable but `stale`. Writing to something
  that belongs to `x` makes `x` stale, and recording `x` makes it up to date again.
-/

namespace CallTrace
set_option autoImplicit false

open Instrumented (Layout)

/-! ## To which variable a list belongs -/

/-- In one table, a list is the value of one name. -/
theorem DistinctLists.name_eq {xs : Assoc Value} (h : DistinctLists xs.values) {x y : String} {c : CellId}
    (hx : (x, .list c) ∈ xs) (hy : (y, .list c) ∈ xs) : x = y := by
  induction xs with
  | nil => cases hx
  | cons entry rest ih =>
    obtain ⟨hhead, hrest⟩ := List.pairwise_cons.mp h
    have hvalue {z : String} (hz : (z, Value.list c) ∈ rest) : Value.list c ∈ Assoc.values rest :=
      List.mem_map.mpr ⟨_, hz, rfl⟩
    rcases List.mem_cons.mp hx with rfl | hx' <;> rcases List.mem_cons.mp hy with he | hy'
    · exact (Prod.mk.inj he).1.symm
    · exact absurd rfl (hhead _ (hvalue hy') c rfl)
    · subst he
      exact absurd rfl (hhead _ (hvalue hx') c rfl)
    · exact ih hrest hx' hy'

namespace CallStack

variable {s : CallStack} {x : String} {v : Value}

theorem exists_of_local? (h : s.local? x = some v) : ∃ f, s.frames.head? = some f ∧ f.lookup x = some v :=
  Option.bind_eq_some_iff.mp h

theorem lookup_of_local? (h : s.local? x = some v) : s.lookup x = some v := by
  obtain ⟨globals, frames, n, hn⟩ := s
  cases frames with
  | nil => cases h
  | cons f rest =>
    have hx : f.lookup x = some v := h
    show (f.lookup x).or (globals.lookup x) = some v
    rw [hx]
    rfl

/-- A value that is looked up is that of a local variable or of one at top level. -/
theorem lookup_cases (h : s.lookup x = some v) : s.local? x = some v ∨ s.globals.lookup x = some v := by
  obtain ⟨globals, frames, n, hn⟩ := s
  cases frames with
  | nil => exact .inr h
  | cons f rest =>
    rcases Option.or_eq_some_iff.mp h with h | ⟨-, h⟩
    · exact .inl h
    · exact .inr h

theorem mem_slots_of_local? (h : s.local? x = some v) : v ∈ s.slots := by
  obtain ⟨f, hf, hx⟩ := exists_of_local? h
  exact mem_slots.mpr ⟨f, List.mem_cons_of_mem _ (List.mem_of_mem_head? hf), Frame.holds_of_lookup hx⟩

end CallStack

namespace Machine

/-- Of the variables of the innermost call, only `x` can reach the list, and it exists. -/
def Belongs (m : Machine) (x : String) (v : Value) : Prop :=
  ∀ c, v = .list c → c < m.heap.cells.size ∧
    ∀ y w, m.stack.local? y = some w → m.heap.Reaches w c → y = x

variable {m n : Machine} {x y : String} {v w : Value} {c : CellId}

theorem Belongs.scalar (hv : v.isList = false) : m.Belongs x v := by
  rintro c rfl
  cases hv

/-- No expression gives another variable a list that belongs to one. -/
theorem Belongs.of_rel (hv : m.Belongs x v) (h : Exec.unshared.Rel m n) : n.Belongs x v := by
  obtain ⟨⟨-, hconfined⟩, hsteady⟩ := h
  intro c hc
  obtain ⟨hlt, honly⟩ := hv c hc
  refine ⟨Nat.lt_of_lt_of_le hlt hsteady.size, fun y w hy hr => ?_⟩
  have hr' := hconfined.reaches hr hlt
  cases w with
  | list d => exact honly y _ (hsteady.values y d (hr'.lt_size hlt) hy) hr'
  | _ => exact absurd hr' (Heap.Reaches.not_scalar rfl)

namespace Unshared

theorem grounded_local (hm : m.Unshared) (hx : m.stack.local? x = some v) : m.heap.Grounded v := by
  obtain ⟨f, hf, hv⟩ := CallStack.exists_of_local? hx
  exact hm.separate.grounded f (List.mem_cons_of_mem _ (List.mem_of_mem_head? hf)) v (Frame.holds_of_lookup hv)

theorem name_eq (hm : m.Unshared) (hx : m.stack.local? x = some (.list c))
    (hy : m.stack.local? y = some (.list c)) : x = y := by
  obtain ⟨f, hf, hx⟩ := CallStack.exists_of_local? hx
  obtain ⟨g, hg, hy⟩ := CallStack.exists_of_local? hy
  obtain rfl := Option.some.inj (hf.symm.trans hg)
  have hmem : f ∈ m.stack.owners := List.mem_cons_of_mem _ (List.mem_of_mem_head? hf)
  have hdistinct : DistinctLists f.vars.values := by
    have hslots : f.slots.Sublist m.stack.slots := 
      List.sublist_flatten_of_mem (List.mem_map_of_mem hmem)
    exact hm.rooted.distinct.subperm ((List.sublist_append_left _ _).trans hslots).subperm
  exact hdistinct.name_eq (Assoc.mem_of_lookup hx) (Assoc.mem_of_lookup hy)

/-- The value of a variable belongs to it: a list of a variable is no item, and no other variable has it. -/
theorem belongs_of_lookup (hm : m.Unshared) (hx : m.stack.lookup x = some v) : m.Belongs x v := by
  rintro c rfl
  rcases CallStack.lookup_cases hx with hlocal | hglobal
  · have hslot := CallStack.mem_slots_of_local? hlocal
    refine ⟨hm.lt_size hslot, fun y w hy hr => ?_⟩
    obtain rfl := hr.eq_of_not_stands (hm.rooted.free c hslot)
    exact hm.name_eq hy hlocal
  · -- What is at top level is reached from no frame.
    have hholds := Frame.holds_of_lookup hglobal
    refine ⟨(hm.separate.grounded _ List.mem_cons_self _ hholds).lt_size .here, fun y w hy hr => ?_⟩
    obtain ⟨f, hf, hw⟩ := CallStack.exists_of_local? hy
    exact absurd ⟨w, Frame.holds_of_lookup hw, hr⟩ ((List.pairwise_cons.mp hm.separate.disjoint).1 f
      (List.mem_of_mem_head? hf) c ⟨_, hholds, .here⟩)

theorem belongs_item (hm : m.Unshared) (hc : m.Belongs x (.list c)) (hv : v ∈ m.heap.items c) :
    m.Belongs x v := by
  rintro d rfl
  obtain ⟨-, honly⟩ := hc c rfl
  refine ⟨hm.rooted.parented.lt_size c d hv, fun y w hy hr => ?_⟩
  refine honly y w hy (hm.rooted.parented.reaches_of_item hr hv ?_)
  rintro rfl
  exact hm.rooted.free d (CallStack.mem_slots_of_local? hy) ⟨c, hv⟩

theorem belongs_itemOf (hm : m.Unshared) (hc : m.Belongs x v) {i : Int}
    (hw : itemOf m.heap v i = .ok w) : m.Belongs x w := by
  rcases itemOf_cases hw with hscalar | ⟨c, rfl, hmem⟩
  · exact .scalar hscalar
  · exact hm.belongs_item hc hmem

end Unshared

/-- What is written to a slot goes to the variable `x`, or into a list that belongs to it. -/
def BelongsSlot (m : Machine) (x : String) : Slot → Prop
  | .var name => name = x
  | .item c _ => m.Belongs x (.list c)
  | .char owner _ => BelongsSlot m x owner

theorem BelongsSlot.of_rel {slot : Slot} (h : m.BelongsSlot x slot) (hrel : Exec.unshared.Rel m n) :
    n.BelongsSlot x slot := by
  induction slot with
  | var name => exact h
  | item c i => exact Belongs.of_rel h hrel
  | char owner i ih => exact ih h

end Machine

/-! ## Frames and layouts -/

namespace Frame

/-- The scopes of a frame declare what a layout says, and hide nothing; and every variable is declared in one of
them or in the function itself. -/
structure Laid (f : Frame) (L : Layout) : Prop where
  nodup : f.vars.names.Nodup
  scopes : List.Forall₂ (fun s names => s.shadowed = [] ∧ s.declared ⊆ names) f.scopes L.blocks
  bound : ∀ x, (f.lookup x).isSome → x ∈ L.base ∨ ∃ s ∈ f.scopes, x ∈ s.declared

variable {f : Frame} {L : Layout} {x y : String} {v : Value}

theorem lookup_declare_of_ne (f : Frame) (h : y ≠ x) (v : Value) : (f.declare x v).lookup y = f.lookup y :=
  Assoc.lookup_put_of_ne h v f.vars

namespace Laid

theorem new (name : String) (base : List String) : (Frame.new name).Laid ⟨base, []⟩ :=
  ⟨List.nodup_nil, .nil, fun _ hx => nomatch hx⟩

theorem assign (h : f.Laid L) (hx : (f.lookup x).isSome) (v : Value) : (f.assign x v).Laid L where
  nodup := Assoc.nodup_names_put h.nodup x v
  scopes := h.scopes
  bound y hy := h.bound y (by
    have hsame : ((f.assign x v).lookup y).isSome = (f.lookup y).isSome := Assoc.isSome_lookup_put hx v y
    rwa [← hsame])

theorem mem_flatten_of_declared {scopes : List Scope} {blocks : List (List String)}
    (h : List.Forall₂ (fun s names => s.shadowed = [] ∧ s.declared ⊆ names) scopes blocks) {s : Scope}
    (hs : s ∈ scopes) (hx : x ∈ s.declared) : x ∈ blocks.flatten := by
  induction h with
  | nil => cases hs
  | cons hhead _ ih =>
    rcases List.mem_cons.mp hs with rfl | hs
    · exact List.mem_append_left _ (hhead.2 hx)
    · exact List.mem_append_right _ (ih hs)

/-- A bound name that no scope around the innermost one declares is declared in the innermost one. -/
theorem declared_of_bound {s : Scope} {rest : List Scope} (h : f.Laid L) (hscopes : f.scopes = s :: rest)
    (hout : x ∉ L.outer) (hx : (f.lookup x).isSome) : x ∈ s.declared := by
  obtain ⟨fname, vars, scopes⟩ := f
  obtain ⟨base, blocks⟩ := L
  obtain rfl : scopes = s :: rest := hscopes
  obtain ⟨-, hscopes, hbound⟩ := h
  cases hscopes with
  | cons hs hrest =>
    rcases hbound x hx with hbase | ⟨t, ht, hxt⟩
    · exact absurd (List.mem_append_left _ hbase) hout
    · rcases List.mem_cons.mp ht with rfl | ht
      · exact hxt
      · exact absurd (List.mem_append_right _ (mem_flatten_of_declared hrest ht hxt)) hout

/-- A name of the innermost scope that no scope around it declares hides nothing. -/
theorem declare (h : f.Laid L) (hin : x ∈ L.inner) (hout : x ∉ L.outer) (v : Value) :
    (f.declare x v).Laid L := by
  obtain ⟨fname, vars, scopes⟩ := f
  obtain ⟨base, blocks⟩ := L
  have hnodup : (vars.put x v).names.Nodup := Assoc.nodup_names_put h.nodup x v
  have hother {y : String} (hy : (List.lookup y (vars.put x v)).isSome) (hne : y ≠ x) :
      (List.lookup y vars).isSome := by rwa [Assoc.lookup_put_of_ne hne] at hy
  cases h.scopes with
  | nil =>
    refine ⟨hnodup, .nil, fun y hy => ?_⟩
    by_cases hne : y = x
    · exact .inl (hne ▸ hin)
    · exact h.bound y (hother hy hne)
  | @cons s names rest blocks hs hrest =>
    cases hx : List.lookup x vars with
    | none =>
      have hdeclare : Frame.declare ⟨fname, vars, s :: rest⟩ x v =
          ⟨fname, vars.put x v, { s with declared := s.declared ++ [x] } :: rest⟩ := by
        simp only [Frame.declare, Frame.lookup, hx]
      rw [hdeclare]
      refine ⟨hnodup, .cons ⟨hs.1, ?_⟩ hrest, fun y hy => ?_⟩
      · exact List.append_subset.mpr ⟨hs.2, fun y hy => List.mem_singleton.mp hy ▸ hin⟩
      · by_cases hne : y = x
        · exact .inr ⟨_, List.mem_cons_self, List.mem_append_right _ (List.mem_singleton.mpr hne)⟩
        · rcases h.bound y (hother hy hne) with hbase | ⟨t, ht, hyt⟩
          · exact .inl hbase
          · rcases List.mem_cons.mp ht with rfl | ht
            · exact .inr ⟨_, List.mem_cons_self, List.mem_append_left _ hyt⟩
            · exact .inr ⟨t, List.mem_cons_of_mem _ ht, hyt⟩
    | some old =>
      have hmem : x ∈ s.declared := h.declared_of_bound rfl hout (Option.isSome_of_eq_some hx)
      have hdeclare : Frame.declare ⟨fname, vars, s :: rest⟩ x v =
          ⟨fname, vars.put x v, s :: rest⟩ := by
        simp only [Frame.declare, Frame.lookup, hx, if_pos hmem]
      rw [hdeclare]
      refine ⟨hnodup, .cons hs hrest, fun y hy => ?_⟩
      by_cases hne : y = x
      · exact .inr ⟨s, List.mem_cons_self, hne ▸ hmem⟩
      · exact h.bound y (hother hy hne)

theorem pushScope (h : f.Laid L) (names : List String) : f.pushScope.Laid (L.push names) where
  nodup := h.nodup
  scopes := .cons ⟨rfl, List.nil_subset _⟩ h.scopes
  bound x hx := (h.bound x hx).imp_right fun ⟨s, hs, hxs⟩ => ⟨s, List.mem_cons_of_mem _ hs, hxs⟩

theorem lookup_popScope {names : List String} (h : f.Laid (L.push names)) (x : String) :
    ∃ s rest, f.scopes = s :: rest ∧ f.popScope.scopes = rest ∧
      f.popScope.lookup x = if x ∈ s.declared then none else f.lookup x := by
  obtain ⟨fname, vars, scopes⟩ := f
  obtain ⟨hnodup, hscopes, -⟩ := h
  cases hscopes with
  | @cons s _ rest _ hs hrest =>
    refine ⟨s, rest, rfl, rfl, ?_⟩
    have hkept := Assoc.lookup_removes hnodup s.declared x
    simpa only [Frame.popScope, Frame.lookup, hs.1, List.foldl_nil] using hkept

theorem popScope {names : List String} (h : f.Laid (L.push names)) : f.popScope.Laid L := by
  have hlookup := h.lookup_popScope
  obtain ⟨fname, vars, scopes⟩ := f
  obtain ⟨hnodup, hscopes, hbound⟩ := h
  cases hscopes with
  | @cons s _ rest _ hs hrest =>
    refine ⟨Assoc.nodup_names_puts (Assoc.nodup_names_removes hnodup _) _, hrest, fun x hx => ?_⟩
    obtain ⟨s', rest', hcons, -, hx'⟩ := hlookup x
    obtain ⟨rfl, rfl⟩ := List.cons.inj hcons
    rw [hx'] at hx
    split at hx
    · cases hx
    · next hnot =>
      refine (hbound x hx).imp_right fun ⟨t, ht, hxt⟩ => ?_
      rcases List.mem_cons.mp ht with rfl | ht
      · exact absurd hxt hnot
      · exact ⟨t, ht, hxt⟩

/-- The variables that are left when a scope ends have the values that they had. -/
theorem lookup_of_popScope {names : List String} (h : f.Laid (L.push names))
    (hx : f.popScope.lookup x = some v) : f.lookup x = some v := by
  obtain ⟨s, rest, -, -, he⟩ := h.lookup_popScope x
  rw [he] at hx
  split at hx
  · cases hx
  · exact hx

end Laid

end Frame

/-! ## Tracked states -/

namespace Machine

/-- The scopes of the innermost call are laid out as `L` says, and what is recorded for the call is up to date
for each of its variables, unless it is the variable `stale`. -/
structure Tracked (m : Machine) (L : Layout) (stale : Option String) : Prop where
  laid : ∀ f ∈ m.stack.frames.head?, f.Laid L
  current : ∀ a, m.recorder.Latest a → ∀ x v w, a.locals.get? x = some v → m.stack.local? x = some w →
    stale ≠ some x → v = m.heap.snapshot w

namespace Tracked

variable {m n : Machine} {L : Layout} {stale stale' : Option String} {x : String} {v : Value}

theorem of_top (h : m.stack.frames = []) : m.Tracked L stale where
  laid f hf := by
    rw [h] at hf
    cases hf
  current a _ x v w _ hw := by
    rw [CallStack.local?, h] at hw
    cases hw

/-- It is enough that nothing new has been recorded and that the variables have their values. -/
theorem of_kept (h : m.Tracked L stale) {L' : Layout} (hlaid : ∀ f ∈ n.stack.frames.head?, f.Laid L')
    (hlatest : ∀ a, n.recorder.Latest a → m.recorder.Latest a)
    (hkept : ∀ y w, n.stack.local? y = some w → stale' ≠ some y →
      m.stack.local? y = some w ∧ stale ≠ some y ∧ n.heap.snapshot w = m.heap.snapshot w) :
    n.Tracked L' stale' where
  laid := hlaid
  current a ha y v w hv hw hne := by
    obtain ⟨hw', hne', hsame⟩ := hkept y w hw hne
    rw [hsame]
    exact h.current a (hlatest a ha) y v w hv hw' hne'

theorem congr (h : m.Tracked L stale) (hheap : n.heap = m.heap) (hstack : n.stack = m.stack)
    (hactive : n.recorder.active = m.recorder.active) (hframes : n.recorder.frames = m.recorder.frames) :
    n.Tracked L stale := by
  refine h.of_kept (hstack ▸ h.laid) (fun a ⟨ha, hs⟩ => ⟨hactive ▸ ha, hframes ▸ hs⟩) fun y w hw hne => ?_
  exact ⟨hstack ▸ hw, hne, by rw [hheap]⟩

/-- A variable that may be stale may also be up to date. -/
theorem loosen (h : m.Tracked L none) : m.Tracked L stale :=
  h.of_kept h.laid (fun _ => id) fun y _ hw _ => ⟨hw, (Option.some_ne_none y).symm, rfl⟩

/-- New cells change no variable. -/
theorem withHeap (h : m.Tracked L stale) (hm : m.Unshared) {heap : Heap}
    (hsize : m.heap.cells.size ≤ heap.cells.size)
    (hold : ∀ c, c < m.heap.cells.size → heap.items c = m.heap.items c) :
    Machine.Tracked { m with heap } L stale := by
  refine h.of_kept h.laid (fun _ => id) fun y w hw hne => ⟨hw, hne, ?_⟩
  have hground : m.heap.Grounded w := hm.grounded_local hw
  exact Heap.snapshot_congr hground hsize fun c hc => hold c (hground.lt_size hc)

/-- Recording a step changes nothing that is recorded for a variable. -/
theorem step (h : m.Tracked L stale) (hsound : m.recorder.Sound) (message : String) (line : Option Nat) :
    Machine.Tracked { m with recorder := m.recorder.step message line } L stale := by
  rcases hsound.step_cases message line with ⟨-, he⟩ | ⟨a, -, he⟩ <;> rw [he]
  · exact h
  · exact h.congr rfl rfl rfl rfl

/-! ### Writing -/

/-- Storing in a list that belongs to a variable. -/
theorem store (h : m.Tracked L none) (hm : m.Unshared) {c : CellId} (hc : m.Belongs x (.list c))
    (f : Array Value → Array Value) :
    Machine.Tracked { m with heap := m.heap.update c f } L (some x) := by
  refine h.of_kept h.laid (fun _ => id) fun y w hw hne => ⟨hw, (Option.some_ne_none y).symm, ?_⟩
  refine Heap.snapshot_congr (hm.grounded_local hw) (Nat.le_of_eq (Heap.size_update m.heap c f).symm)
    fun d hd => Heap.items_update_of_ne ?_ f
  rintro rfl
  exact hne (congrArg some ((hc d rfl).2 y w hw hd).symm)

theorem assign (h : m.Tracked L none) {s : CallStack} (hs : m.stack.assign? x v = some s) :
    Machine.Tracked { m with stack := s } L (some x) := by
  have hlaid (f : Frame) (hf : f ∈ s.frames.head?) : f.Laid L := by
    obtain ⟨heap, ⟨globals, frames, depth, hdepth⟩, recorder, line, entered⟩ := m
    unfold CallStack.assign? at hs
    split at hs
    · next hlocal =>
      obtain rfl := Option.some.inj hs
      cases frames with
      | nil => cases hf
      | cons g rest =>
        obtain rfl := Option.some.inj hf
        exact (h.laid g rfl).assign hlocal v
    · split at hs
      · obtain rfl := Option.some.inj hs
        exact h.laid f hf
      · cases hs
  refine h.of_kept hlaid (fun _ => id) fun y w hw hne => ⟨?_, (Option.some_ne_none y).symm, rfl⟩
  exact (CallStack.local?_assign hs hw).resolve_right fun he => hne (congrArg some he.1.symm)

theorem declare (h : m.Tracked L none) (hin : x ∈ L.inner) (hout : x ∉ L.outer) (v : Value) :
    Machine.Tracked { m with stack := m.stack.declare x v } L (some x) := by
  obtain ⟨heap, ⟨globals, frames, depth, hdepth⟩, recorder, line, entered⟩ := m
  cases frames with
  | nil => exact .of_top rfl
  | cons f rest =>
    refine h.of_kept (fun g hg => ?_) (fun _ => id) fun y w hw hne => ⟨?_, (Option.some_ne_none y).symm, rfl⟩
    · obtain rfl := Option.some.inj hg
      exact (h.laid f rfl).declare hin hout v
    · have hy : y ≠ x := fun he => hne (congrArg some he.symm)
      have hw : (f.declare x v).lookup y = some w := hw
      rwa [f.lookup_declare_of_ne hy] at hw

/-- Recording a variable makes it up to date. -/
theorem set (h : m.Tracked L (some x)) (hsound : m.recorder.Sound) (hx : m.stack.local? x = some v)
    (line : Option Nat) :
    Machine.Tracked { m with recorder := m.recorder.set x (m.heap.snapshot v) line } L none where
  laid := h.laid
  current b hb y u w hu hw _ := by
    rcases hsound.set_cases x (m.heap.snapshot v) line with ⟨hnil, he⟩ | ⟨a, ha, he⟩
    · have hb : (m.recorder.set x (m.heap.snapshot v) line).Latest b := hb
      rw [he] at hb
      obtain ⟨rest, hactive⟩ := hb.active
      cases hactive.symm.trans hnil
    · have hb : (m.recorder.set x (m.heap.snapshot v) line).Latest b := hb
      rw [he] at hb
      have hid : b.id = a.id := by
        obtain ⟨rest, hactive⟩ := ha.active
        obtain ⟨rest', hactive'⟩ := hb.active
        rw [Recorder.active_assigned, hactive] at hactive'
        exact (List.cons.inj hactive').1.symm
      have hstored := hb.stored
      rw [Recorder.frames_assigned, hid,
        Array.getElem?_setIfInBounds_self_of_lt (Array.getElem?_eq_some_iff.mp ha.stored).1] at hstored
      obtain rfl := Option.some.inj hstored
      have hu : (a.locals.insert x (m.heap.snapshot v)).get? y = some u := hu
      by_cases hy : y = x
      · subst hy
        rw [Bindings.get?_insert_self] at hu
        obtain rfl := Option.some.inj (hx.symm.trans hw)
        exact (Option.some.inj hu).symm
      · rw [Bindings.get?_insert_of_ne hy] at hu
        exact h.current a ha y u w hu hw fun he => hy (Option.some.inj he).symm

/-- A variable that the call does not have is not stale. -/
theorem of_not_local (h : m.Tracked L (some x)) (hx : m.stack.local? x = none) : m.Tracked L none := by
  refine h.of_kept h.laid (fun _ => id) fun y w hw _ => ⟨hw, fun he => ?_, rfl⟩
  obtain rfl := Option.some.inj he
  cases hx.symm.trans hw

/-! ### Scopes -/

theorem pushScope (h : m.Tracked L none) (names : List String) :
    Machine.Tracked { m with stack := m.stack.pushScope } (L.push names) none := by
  obtain ⟨heap, ⟨globals, frames, depth, hdepth⟩, recorder, line, entered⟩ := m
  cases frames with
  | nil => exact .of_top rfl
  | cons f rest =>
    refine h.of_kept (fun g hg => ?_) (fun _ => id) fun y w hw hne => ⟨hw, hne, rfl⟩
    obtain rfl := Option.some.inj hg
    exact (h.laid f rfl).pushScope names

theorem popScope {names : List String} (h : m.Tracked (L.push names) none) :
    Machine.Tracked { m with stack := m.stack.popScope } L none := by
  obtain ⟨heap, ⟨globals, frames, depth, hdepth⟩, recorder, line, entered⟩ := m
  cases frames with
  | nil => exact .of_top rfl
  | cons f rest =>
    have hf : f.Laid (L.push names) := h.laid f rfl
    refine h.of_kept (fun g hg => ?_) (fun _ => id) fun y w hw hne => ⟨hf.lookup_of_popScope hw, hne, rfl⟩
    obtain rfl := Option.some.inj hg
    exact hf.popScope

/-! ### Calls -/

theorem laid_declares {base : List String} {vars : List (String × Value)} (hvars : ∀ b ∈ vars, b.1 ∈ base)
    {s : CallStack} (hs : ∀ f ∈ s.frames.head?, f.Laid ⟨base, []⟩) :
    ∀ f ∈ (vars.foldl (fun s (name, v) => s.declare name v) s).frames.head?, f.Laid ⟨base, []⟩ := by
  induction vars generalizing s with
  | nil => exact hs
  | cons b vars ih =>
    refine ih (fun b' hb' => hvars b' (List.mem_cons_of_mem b hb')) fun f hf => ?_
    obtain ⟨globals, frames, depth, hdepth⟩ := s
    cases frames with
    | nil => cases hf
    | cons g rest =>
      obtain rfl := Option.some.inj hf
      exact (hs g rfl).declare (hvars b List.mem_cons_self) List.not_mem_nil b.2

/-- Nothing has been recorded for a call that begins. -/
theorem entering (f : Instrumented.Function) {vars : List (String × Value)} {base : List String}
    (hvars : ∀ b ∈ vars, b.1 ∈ base) : (n.entering f vars).Tracked ⟨base, []⟩ none where
  laid := by
    refine laid_declares hvars fun g hg => ?_
    obtain rfl := Option.some.inj hg
    exact .new f.name base
  current a ha x v w hv _ _ := by
    obtain ⟨⟨rest, hactive⟩, hstored⟩ := ha
    have hid : n.recorder.frames.size = a.id := (List.cons.inj hactive).1
    have hframes : (n.entering f vars).recorder.frames = n.recorder.frames.push (n.recorder.newFrame f.name
        (vars.map fun (name, v) => (name, n.heap.snapshot v))) := Recorder.frames_call ..
    rw [hframes, ← hid, Array.getElem?_push_size] at hstored
    obtain rfl := Option.some.inj hstored
    cases hv

/-- A call that gives the frames back and changes neither the variables nor what is recorded for them. -/
theorem of_call (h : m.Tracked L none) (hm : m.Unshared) {name : String} {args : List (String × Snapshot)}
    {line : Option Nat} (hframes : n.stack.frames = m.stack.frames)
    (hsize : m.heap.cells.size ≤ n.heap.cells.size)
    (hitems : ∀ f ∈ m.stack.frames, ∀ c, f.Owns m.heap c → n.heap.items c = m.heap.items c)
    (hactive : n.recorder.active = m.recorder.active)
    (hspares : (m.recorder.call name args line).Spares n.recorder) : n.Tracked L none := by
  refine h.of_kept (hframes ▸ h.laid) (fun a ⟨⟨rest, ha⟩, hstored⟩ => ?_) fun y w hw hne => ?_
  · rw [hactive] at ha
    have hid : a.id < m.recorder.frames.size := hm.sound.active_lt _ (ha ▸ List.mem_cons_self)
    exact ⟨⟨rest, ha⟩, (hspares.getElem?_of_call hid).symm.trans hstored⟩
  · have hw : m.stack.local? y = some w := by rwa [CallStack.local?, hframes] at hw
    refine ⟨hw, hne, Heap.snapshot_congr (hm.grounded_local hw) hsize fun c hc => ?_⟩
    obtain ⟨f, hf, hy⟩ := CallStack.exists_of_local? hw
    exact hitems f (List.mem_of_mem_head? hf) c ⟨w, Frame.holds_of_lookup hy, hc⟩

end Tracked

end Machine

end CallTrace
