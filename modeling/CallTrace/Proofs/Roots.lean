import CallTrace.Proofs.Heap.Parents
import CallTrace.Proofs.Evaluation.Call
import CallTrace.Proofs.Ownership

/-! # A list of a variable is its own

* `Frame.slots`, `CallStack.slots`: the values of all variables, one for each, also of those that are hidden.
* `Machine.Rooted`: a list that a variable has is no item of a list, and no other variable has it.
* `slots_declare`, `slots_popScope`, …: what each thing that is done to variables does to their values. So the
  variables stay rooted when they get only lists that are no items and that no variable has
  (`Machine.Rooted.withStack`).
-/

namespace CallTrace
set_option autoImplicit false

/-! ## Different lists -/

namespace DistinctLists

variable {vs ws : List Value}

theorem perm (h : DistinctLists vs) (hp : vs.Perm ws) : DistinctLists ws :=
  List.Pairwise.perm h hp fun hvw c hw hv => hvw c hv hw

theorem subperm (h : DistinctLists vs) (hs : ws.Subperm vs) : DistinctLists ws := by
  obtain ⟨us, hp, hsub⟩ := hs
  exact DistinctLists.perm (List.Pairwise.sublist hsub h) hp

/-- Values that are no lists of `vs` may be added. -/
theorem append (h : DistinctLists vs) (h' : DistinctLists ws) (hnew : ∀ c, .list c ∈ ws → .list c ∉ vs) :
    DistinctLists (ws ++ vs) := by
  refine List.pairwise_append.mpr ⟨h', h, ?_⟩
  rintro v hv w hw c rfl rfl
  exact hnew c hv hw

end DistinctLists

/-! ## The values of a frame -/

namespace Assoc

def values {α : Type} (xs : Assoc α) : List α := xs.map (·.2)

variable {α : Type}

/-- Giving a name a value adds the value, and takes the old one away if there is one. -/
theorem values_put (name : String) (value : α) (xs : Assoc α) :
    ((List.lookup name xs).toList ++ (put name value xs).values).Perm (value :: xs.values) := by
  induction xs with
  | nil => exact .refl _
  | cons x rest ih =>
    obtain ⟨n, v⟩ := x
    by_cases hn : n = name
    · subst hn
      rw [put, if_pos rfl, List.lookup_cons_self]
      exact .swap _ _ _
    · rw [put, if_neg hn, lookup_cons_of_ne (Ne.symm hn)]
      have hcons : (values ((n, v) :: put name value rest)) = v :: (put name value rest).values := rfl
      rw [hcons]
      exact List.perm_middle.trans ((ih.cons v).trans (.swap _ _ _))

theorem values_put_subperm (name : String) (value : α) (xs : Assoc α) :
    (put name value xs).values.Subperm (value :: xs.values) :=
  (List.sublist_append_right _ _).subperm.trans (values_put name value xs).subperm

theorem values_removes (names : List String) (xs : Assoc α) :
    (names.foldl (fun xs name => xs.remove name) xs).values.Sublist xs.values := by
  have hremove (name : String) (xs : Assoc α) : (xs.remove name).Sublist xs := by
    induction xs with
    | nil => exact .refl _
    | cons x rest ih =>
      rw [remove]
      split
      · exact List.sublist_cons_self _ _
      · exact ih.cons_cons _
  induction names generalizing xs with
  | nil => exact .refl _
  | cons name names ih => exact (ih (xs.remove name)).trans ((hremove name xs).map _)

theorem values_puts (entries : Assoc α) (xs : Assoc α) :
    (entries.foldl (fun xs (name, value) => xs.put name value) xs).values.Subperm
      (entries.values ++ xs.values) := by
  induction entries generalizing xs with
  | nil => exact .refl _
  | cons x entries ih =>
    have hput := (List.subperm_append_left (values entries)).mpr (values_put_subperm x.1 x.2 xs)
    exact (ih (xs.put x.1 x.2)).trans (hput.trans List.perm_middle.subperm)

end Assoc

namespace Frame

/-- The values of the variables, and those that come back when a scope ends. -/
def slots (f : Frame) : List Value := f.vars.values ++ f.scopes.flatMap (·.shadowed.values)

variable {f : Frame} {v : Value}

theorem mem_slots : v ∈ f.slots ↔ f.Holds v := by
  simp [slots, Holds, Assoc.values]

theorem slots_assign (f : Frame) (name : String) (v : Value) : (f.assign name v).slots.Subperm (v :: f.slots) :=
  (List.subperm_append_right _).mpr (Assoc.values_put_subperm name v f.vars)

theorem slots_declare (f : Frame) (name : String) (v : Value) :
    (f.declare name v).slots.Subperm (v :: f.slots) := by
  have hput := Assoc.values_put name v f.vars
  have hplain := (List.subperm_append_right (f.scopes.flatMap (·.shadowed.values))).mpr
    (Assoc.values_put_subperm name v f.vars)
  unfold declare slots
  cases hscopes : f.scopes with
  | nil =>
    rw [hscopes] at hplain
    exact hplain
  | cons s rest =>
    rw [hscopes] at hplain
    dsimp only
    cases hold : f.lookup name with
    | none => exact hplain
    | some old =>
      dsimp only
      split
      · exact hplain
      · have hold' : List.lookup name f.vars = some old := hold
        rw [hold'] at hput
        have hmoved := hput.append_right ((s :: rest).flatMap (·.shadowed.values))
        refine (List.Perm.trans ?_ hmoved).subperm
        simp only [List.flatMap_cons, Assoc.values, List.map_append, List.map_cons, List.map_nil,
          Option.toList_some, List.cons_append, List.nil_append, List.append_assoc]
        rw [← List.append_assoc, ← List.append_assoc]
        exact List.perm_middle

theorem slots_popScope (f : Frame) : f.popScope.slots.Subperm f.slots := by
  unfold popScope
  cases hscopes : f.scopes with
  | nil => exact .refl _
  | cons s rest =>
    have hvars := (Assoc.values_puts s.shadowed (s.declared.foldl (fun vars name => vars.remove name) f.vars)).trans
      ((List.subperm_append_left s.shadowed.values).mpr (Assoc.values_removes s.declared f.vars).subperm)
    refine ((List.subperm_append_right (rest.flatMap (·.shadowed.values))).mpr hvars).trans
      (List.Perm.subperm ?_)
    rw [slots, hscopes, List.flatMap_cons, ← List.append_assoc]
    exact List.perm_append_comm.append_right _

end Frame

/-! ## The values of all frames -/

namespace CallStack

/-- The values of all variables, also of those that are hidden and those of callers. -/
def slots (s : CallStack) : List Value := s.owners.flatMap Frame.slots

variable {s t : CallStack} {v : Value} {name : String}

theorem mem_slots : v ∈ s.slots ↔ ∃ f ∈ s.owners, f.Holds v := by
  simp [slots, Frame.mem_slots]

theorem slots_updateCurrent {g : Frame → Frame} (vs : List Value)
    (hg : ∀ f, (g f).slots.Subperm (vs ++ f.slots)) : (s.updateCurrent g).slots.Subperm (vs ++ s.slots) := by
  obtain ⟨globals, frames, n, hn⟩ := s
  cases frames with
  | nil => simpa [slots, owners, updateCurrent] using hg globals
  | cons f rest =>
    have hf := (List.subperm_append_left globals.slots).mpr
      ((List.subperm_append_right (rest.flatMap Frame.slots)).mpr (hg f))
    refine List.Subperm.trans (List.Perm.subperm ?_) (hf.trans (List.Perm.subperm ?_))
    · simp [slots, owners, updateCurrent]
    · have hswap : (globals.slots ++ vs).Perm (vs ++ globals.slots) := List.perm_append_comm
      simpa only [slots, owners, List.flatMap_cons, List.append_assoc] using
        hswap.append_right (f.slots ++ rest.flatMap Frame.slots)

theorem slots_declare (s : CallStack) (name : String) (v : Value) :
    (s.declare name v).slots.Subperm (v :: s.slots) :=
  slots_updateCurrent [v] fun f => f.slots_declare name v

theorem slots_assign (h : s.assign? name v = some t) : t.slots.Subperm (v :: s.slots) := by
  rcases assign_cases h with rfl | rfl
  · exact slots_updateCurrent [v] fun f => f.slots_assign name v
  · exact (List.subperm_append_right (s.frames.flatMap Frame.slots)).mpr (s.globals.slots_assign name v)

theorem slots_pushScope (s : CallStack) : s.pushScope.slots.Subperm s.slots :=
  slots_updateCurrent [] fun f => .refl f.slots

theorem slots_popScope (s : CallStack) : s.popScope.slots.Subperm s.slots :=
  slots_updateCurrent [] fun f => f.slots_popScope

theorem slots_popFrame (s : CallStack) : s.popFrame.slots.Subperm s.slots := by
  obtain ⟨globals, frames, n, hn⟩ := s
  cases frames with
  | nil => exact .refl _
  | cons f rest =>
    refine List.Sublist.subperm ?_
    simp only [slots, owners, popFrame, List.flatMap_cons]
    exact (List.sublist_append_right _ _).append_left _

theorem slots_declares (s : CallStack) (vars : List (String × Value)) :
    (vars.foldl (fun s (name, v) => s.declare name v) s).slots.Subperm (vars.map (·.2) ++ s.slots) := by
  induction vars generalizing s with
  | nil => exact .refl _
  | cons b vars ih =>
    have hdeclare := (List.subperm_append_left (vars.map (·.2))).mpr (s.slots_declare b.1 b.2)
    exact (ih (s.declare b.1 b.2)).trans (hdeclare.trans List.perm_middle.subperm)

end CallStack

/-! ## Roots -/

/-- A list that a variable has is no item of a list, and no other variable has it. -/
structure Machine.Rooted (m : Machine) : Prop where
  parented : m.heap.Parented
  free : ∀ d, .list d ∈ m.stack.slots → ¬ m.heap.Stands d
  distinct : DistinctLists m.stack.slots

namespace Machine.Rooted

variable {m : Machine} {s : CallStack}

theorem initial : Machine.initial.Rooted := ⟨.empty, fun _ hd => (nomatch hd), .nil⟩

/-- Variables may get lists that are no items and that no variable has. -/
theorem withStack (h : m.Rooted) (vs : List Value) (hs : s.slots.Subperm (vs ++ m.stack.slots))
    (hvs : DistinctLists vs) (hnew : ∀ d, .list d ∈ vs → .list d ∉ m.stack.slots ∧ ¬ m.heap.Stands d) :
    Machine.Rooted { m with stack := s } where
  parented := h.parented
  free d hd := by
    rcases List.mem_append.mp (hs.subset hd) with hd | hd
    · exact (hnew d hd).2
    · exact h.free d hd
  distinct := (h.distinct.append hvs fun d hd => (hnew d hd).1).subperm hs

/-- Lists that are no items and that no variable has may become items. -/
theorem withHeap (h : m.Rooted) {heap : Heap} (hp : heap.Parented)
    (hnew : ∀ d, heap.Stands d → m.heap.Stands d ∨ .list d ∉ m.stack.slots) :
    Machine.Rooted { m with heap } where
  parented := hp
  free d hd hs := (hnew d hs).elim (h.free d hd) fun hnot => hnot hd
  distinct := h.distinct

/-- Only the heap and the variables matter. -/
theorem elsewhere (h : m.Rooted) (recorder : Recorder) (line : Nat) (entered : Bool) :
    Machine.Rooted { m with recorder, line, entered } := ⟨h.parented, h.free, h.distinct⟩

end Machine.Rooted

end CallTrace
