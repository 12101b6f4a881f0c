import CallTrace.Proofs.Scopes
import Mathlib.Data.List.Induction
import Mathlib.Data.List.Nodup

/-! # The names that a frame lists

A frame lists its variables in the order in which they became visible. Which names are visible is said by
the chain of tables, without the notes that a frame keeps about its open scopes.

* `ScopeOp.Visible`, `ScopeOp.ShownSince`: a name is visible after some operations; it is so since one of
  them, before which it was not.
* `Frame.Represents.names_step`: an operation leaves the listed names that stay visible in their order, and
  a name that it makes visible comes behind them.
* `Slots`: the values in a table and the order of the names in a list of its own, which a scope that ends
  updates apart from each other. `Slots.locals_after`: it lists what a frame lists.
* `Frame.lists_visible`: a frame lists each visible variable once and nothing else, in the order of the
  operations since which they are visible, and a scope that has ended leaves the names as they were.
-/

namespace CallTrace
set_option autoImplicit false

/-! ## Visible names -/

namespace Chain

/-- The names that each table has, the innermost first. -/
def names : Chain → List (List String)
  | base vars => [vars.names]
  | scope vars outer => vars.names :: outer.names

theorem names_ne_nil (c : Chain) : c.names ≠ [] := by
  cases c with
  | base vars => exact List.cons_ne_nil _ _
  | scope vars outer => exact List.cons_ne_nil _ _

theorem isSome_lookup_iff {c : Chain} {name : String} :
    (c.lookup name).isSome ↔ ∃ table ∈ c.names, name ∈ table := by
  induction c with
  | base vars =>
    rw [lookup, names, Assoc.isSome_lookup_iff]
    simp
  | scope vars outer ih =>
    rw [lookup, names, Option.isSome_or, Bool.or_eq_true, Assoc.isSome_lookup_iff, ih]
    simp

theorem names_overwrite (c : Chain) (name : String) (value : Value) :
    (c.overwrite name value).names = c.names := by
  induction c with
  | base vars =>
    rw [overwrite]
    split
    · next hmem => exact congrArg ([·]) (Assoc.names_put_of_mem (Assoc.isSome_lookup_iff.mp hmem) value)
    · rfl
  | scope vars outer ih =>
    rw [overwrite]
    split
    · next hmem =>
      exact congrArg (· :: outer.names) (Assoc.names_put_of_mem (Assoc.isSome_lookup_iff.mp hmem) value)
    · exact congrArg (vars.names :: ·) ih

/-- Which names a declaration leaves depends on the names that were there. -/
theorem names_put_congr {vars vars' : Assoc Value} (h : vars.names = vars'.names) (name : String)
    (value : Value) : (vars.put name value).names = (vars'.put name value).names := by
  by_cases hmem : name ∈ vars.names
  · rw [Assoc.names_put_of_mem hmem, Assoc.names_put_of_mem (h ▸ hmem), h]
  · rw [Assoc.names_put_of_not_mem hmem, Assoc.names_put_of_not_mem (h ▸ hmem), h]

theorem names_declareSpilling (c : Chain) (name : String) (value : Value) :
    (c.declareSpilling name value).names = (c.declare name value).names := by
  cases c with
  | base vars => rfl
  | scope vars outer =>
    rw [declareSpilling, declare]
    cases List.lookup name vars with
    | none => rfl
    | some old => exact congrArg (_ :: ·) (outer.names_overwrite name old)

theorem names_declare_congr {c e : Chain} (h : c.names = e.names) (name : String) (value : Value) :
    (c.declare name value).names = (e.declare name value).names := by
  cases c with
  | base vars =>
    cases e with
    | base vars' => exact congrArg ([·]) (names_put_congr (List.cons.inj h).1 name value)
    | scope vars' outer' => exact absurd (List.cons.inj h).2.symm outer'.names_ne_nil
  | scope vars outer =>
    cases e with
    | base vars' => exact absurd (List.cons.inj h).2 outer.names_ne_nil
    | scope vars' outer' =>
      obtain ⟨hvars, houter⟩ := List.cons.inj h
      rw [declare, declare, names, names, names_put_congr hvars name value, houter]

theorem names_popScope_congr {c e : Chain} (h : c.names = e.names) : c.popScope.names = e.popScope.names := by
  cases c with
  | base vars =>
    cases e with
    | base vars' => exact h
    | scope vars' outer' => exact absurd (List.cons.inj h).2.symm outer'.names_ne_nil
  | scope vars outer =>
    cases e with
    | base vars' => exact absurd (List.cons.inj h).2 outer.names_ne_nil
    | scope vars' outer' => exact (List.cons.inj h).2

/-- Step lemma: the values that spill over change no names. -/
theorem names_step_spilling {c e : Chain} (h : c.names = e.names) (op : ScopeOp) :
    (spilling.step c op).names = (plain.step e op).names := by
  cases op with
  | pushScope => exact congrArg ([] :: ·) h
  | popScope => exact names_popScope_congr h
  | declare name value => exact (c.names_declareSpilling name value).trans (names_declare_congr h name value)
  | overwrite name value =>
    exact ((c.names_overwrite name value).trans h).trans (e.names_overwrite name value).symm
  | lookup name => exact h

theorem names_after_spilling {c e : Chain} (h : c.names = e.names) (ops : List ScopeOp) :
    (spilling.after c ops).names = (plain.after e ops).names := by
  induction ops generalizing c e with
  | nil => exact h
  | cons op ops ih => exact ih (names_step_spilling h op)

/-- What a chain shows stays visible in the scopes that are opened inside. -/
theorem Within.isSome_lookup {c e : Chain} {opened : List (List String)} (h : c.Within opened e)
    {name : String} (hname : (c.lookup name).isSome) : (e.lookup name).isSome := by
  induction h with
  | here => exact hname
  | scope _ _ ih => simp [lookup, ih]

end Chain

namespace ScopeOp

/-- The name can be looked up after the operations, from the outermost scope on. -/
def Visible (ops : List ScopeOp) (name : String) : Prop :=
  ((Chain.plain.after (.base []) ops).lookup name).isSome = true

/-- The name became visible by the operation at the index and has been visible since. -/
structure ShownSince (ops : List ScopeOp) (name : String) (i : Nat) : Prop where
  lt : i < ops.length
  hidden : ¬ Visible (ops.take i) name
  shown : ∀ j, i < j → j ≤ ops.length → Visible (ops.take j) name

variable {ops more : List ScopeOp} {name : String} {i j : Nat}

theorem not_visible_nil (name : String) : ¬ Visible [] name := nofun

theorem ShownSince.visible (h : ShownSince ops name i) : Visible ops name := by
  have hall := h.shown ops.length h.lt (Nat.le_refl _)
  rwa [List.take_length] at hall

theorem ShownSince.unique (hi : ShownSince ops name i) (hj : ShownSince ops name j) : i = j := by
  rcases Nat.lt_trichotomy i j with hlt | heq | hgt
  · exact absurd (hi.shown j hlt (Nat.le_of_lt hj.lt)) hj.hidden
  · exact heq
  · exact absurd (hj.shown i hgt (Nat.le_of_lt hi.lt)) hi.hidden

/-- Operations that leave a name visible throughout do not change since when it is. -/
theorem ShownSince.append (h : ShownSince ops name i)
    (hmore : ∀ some_more, some_more <+: more → Visible (ops ++ some_more) name) :
    ShownSince (ops ++ more) name i where
  lt := by
    rw [List.length_append]
    exact Nat.lt_add_right _ h.lt
  hidden := by
    rw [List.take_append_of_le_length (Nat.le_of_lt h.lt)]
    exact h.hidden
  shown k hik hk := by
    rcases Nat.le_total k ops.length with hle | hge
    · rw [List.take_append_of_le_length hle]
      exact h.shown k hik hle
    · obtain ⟨d, rfl⟩ := Nat.exists_eq_add_of_le hge
      rw [List.take_length_add_append]
      exact hmore _ (List.take_prefix d more)

theorem ShownSince.concat {op : ScopeOp} (h : ShownSince ops name i) (hop : Visible (ops ++ [op]) name) :
    ShownSince (ops ++ [op]) name i := by
  refine h.append fun some_more hsome => ?_
  rcases List.prefix_cons_iff.mp hsome with rfl | ⟨rest, rfl, hrest⟩
  · rw [List.append_nil]
    exact h.visible
  · rw [List.prefix_nil.mp hrest]
    exact hop

theorem shownSince_concat {op : ScopeOp} (hbefore : ¬ Visible ops name) (hop : Visible (ops ++ [op]) name) :
    ShownSince (ops ++ [op]) name ops.length where
  lt := by simp
  hidden := by
    rw [List.take_left]
    exact hbefore
  shown k hik hk := by
    have hall : k = (ops ++ [op]).length := by
      rw [List.length_append, List.length_singleton] at hk ⊢
      omega
    rw [hall, List.take_length]
    exact hop

theorem exists_shownSince (h : Visible ops name) : ∃ i, ShownSince ops name i := by
  induction ops using List.reverseRecOn with
  | nil => exact absurd h (not_visible_nil name)
  | append_singleton ops op ih =>
    by_cases hbefore : Visible ops name
    · obtain ⟨i, hi⟩ := ih hbefore
      exact ⟨i, hi.concat h⟩
    · exact ⟨ops.length, shownSince_concat hbefore h⟩

/-- What is visible before a scope begins is visible for as long as the scope is open. -/
theorem Visible.inside (h : Visible ops name) {inside : List ScopeOp}
    (hstays : ∀ before, before <+: inside → opened before ≠ []) :
    Visible (ops ++ pushScope :: inside) name := by
  rw [Visible, Scoping.after_append]
  unfold Visible at h
  generalize Chain.plain.after (.base []) ops = c at h
  have hfresh : c.Within [[]] (.scope [] c) := .scope (fun _ => by simp) .here
  obtain ⟨c', hc', hrun⟩ := hfresh.after hstays
  have hkept : (c'.lookup name).isSome := (hrun name).1.trans h
  exact hc'.isSome_lookup hkept

theorem visible_matched {inside : List ScopeOp} (h : Matched inside) :
    Visible (ops ++ (pushScope :: inside ++ [popScope])) name ↔ Visible ops name := by
  have hsame := (Chain.Within.of_matched h (Chain.plain.after (.base []) ops) name).1
  rw [Visible, Visible, Scoping.after_append, hsame]

/-- A scope that ends leaves since when the names outside are visible. -/
theorem ShownSince.matched (h : ShownSince ops name i) {inside : List ScopeOp} (hinside : Matched inside) :
    ShownSince (ops ++ (pushScope :: inside ++ [popScope])) name i := by
  refine h.append fun some_more hsome => ?_
  rcases List.prefix_concat_iff.mp hsome with rfl | hin
  · exact (visible_matched hinside).mpr h.visible
  · rcases List.prefix_cons_iff.mp hin with rfl | ⟨begun, rfl, hbegun⟩
    · rw [List.append_nil]
      exact h.visible
    · exact h.visible.inside fun before hb => hinside.stays before (hb.trans hbegun)

end ScopeOp

/-! ## The order of the names -/

namespace Assoc

theorem names_removes {xs : Assoc Value} (h : xs.names.Nodup) (gone : List String) :
    (gone.foldl (fun xs n => remove n xs) xs).names = xs.names.filter (· ∉ gone) := by
  induction gone generalizing xs with
  | nil => exact (List.filter_eq_self.mpr fun _ _ => decide_eq_true List.not_mem_nil).symm
  | cons n gone ih =>
    have hrest : (remove n xs).names.Nodup := by
      rw [names_remove]
      exact h.erase n
    rw [List.foldl_cons, ih hrest, names_remove, h.erase_eq_filter, List.filter_filter]
    exact List.filter_congr fun m _ => by grind

theorem names_puts_of_mem {xs entries : Assoc Value} (h : ∀ x ∈ entries, x.1 ∈ xs.names) :
    (entries.foldl (fun xs (n, v) => put n v xs) xs).names = xs.names := by
  induction entries generalizing xs with
  | nil => rfl
  | cons x entries ih =>
    have hhead := names_put_of_mem (h x List.mem_cons_self) x.2
    rw [List.foldl_cons, ih, hhead]
    intro y hy
    rw [hhead]
    exact h y (List.mem_cons_of_mem _ hy)

end Assoc

/-- A value that comes back belongs to a name that the scope did not bring in. -/
theorem Scope.Undoes.of_mem_shadowed {s : Scope} {vars : Assoc Value} {outer : Chain}
    (h : s.Undoes vars outer) {x : String × Value} (hx : x ∈ s.shadowed) :
    x.1 ∉ s.declared ∧ (List.lookup x.1 vars).isSome := by
  have hnoted : (List.lookup x.1 s.shadowed.reverse).isSome := by
    rw [Assoc.isSome_lookup_iff]
    exact List.mem_map_of_mem (List.mem_reverse.mpr hx)
  rw [h.shadowed] at hnoted
  split at hnoted
  · next hvars =>
    refine ⟨fun hin => ?_, hvars⟩
    rw [((h.declared x.1).mp hin).2] at hnoted
    exact Bool.false_ne_true hnoted
  · exact absurd hnoted Bool.false_ne_true

namespace Frame.Represents

variable {f : Frame} {c : Chain}

theorem mem_names_iff (h : f.Represents c) {name : String} :
    name ∈ f.vars.names ↔ (c.lookup name).isSome := by
  rw [← h.lookup, Frame.lookup, Assoc.isSome_lookup_iff]

/-- When a scope ends, the values that come back belong to names that are still listed. -/
theorem mem_names_of_shadowed (h : f.Represents c) {s : Scope} {rest : List Scope}
    (hs : f.scopes = s :: rest) {x : String × Value} (hx : x ∈ s.shadowed) :
    x.1 ∈ (s.declared.foldl (fun vars name => vars.remove name) f.vars).names := by
  have hscopes := h.scopes
  rw [hs] at hscopes
  cases hscopes with
  | @scope _ _ table outer hundoes hrest =>
    obtain ⟨hnot, htable⟩ := hundoes.of_mem_shadowed hx
    rw [Assoc.names_removes h.nodup, List.mem_filter, h.mem_names_iff]
    refine ⟨?_, decide_eq_true hnot⟩
    rw [Chain.lookup, Option.isSome_or, htable]
    rfl

theorem names_popScope (h : f.Represents c) {s : Scope} {rest : List Scope} (hs : f.scopes = s :: rest) :
    f.popScope.vars.names = f.vars.names.filter (· ∉ s.declared) := by
  unfold Frame.popScope
  rw [hs]
  exact (Assoc.names_puts_of_mem fun _ hx => h.mem_names_of_shadowed hs hx).trans
    (Assoc.names_removes h.nodup s.declared)

/-- Step lemma: the names that stay keep their order, and at most one comes behind them, which was not
listed. -/
theorem names_step (h : f.Represents c) (op : ScopeOp) :
    ∃ (kept : List String) (fresh : Option String),
      (scoping.step f op).vars.names = kept ++ fresh.toList ∧ kept.Sublist f.vars.names ∧
        ∀ name ∈ fresh, name ∉ f.vars.names := by
  have hsame (g : Frame) (hg : g.vars.names.Sublist f.vars.names) :
      ∃ (kept : List String) (fresh : Option String), g.vars.names = kept ++ fresh.toList ∧
        kept.Sublist f.vars.names ∧ ∀ name ∈ fresh, name ∉ f.vars.names :=
    ⟨g.vars.names, none, (List.append_nil _).symm, hg, nofun⟩
  cases op with
  | pushScope => exact hsame _ (List.Sublist.refl _)
  | popScope =>
    cases hs : f.scopes with
    | nil =>
      refine hsame f.popScope ?_
      rw [Frame.popScope, hs]
    | cons s rest =>
      refine hsame f.popScope ?_
      rw [h.names_popScope hs]
      exact List.filter_sublist
  | declare name value =>
    by_cases hmem : name ∈ f.vars.names
    · refine hsame (f.declare name value) ?_
      exact (Assoc.names_put_of_mem hmem value) ▸ List.Sublist.refl _
    · exact ⟨f.vars.names, some name, Assoc.names_put_of_not_mem hmem value, List.Sublist.refl _,
        fun other ho => Option.mem_some.mp ho ▸ hmem⟩
  | overwrite name value =>
    refine hsame (scoping.overwrite f name value) ?_
    change (if (f.lookup name).isSome then f.assign name value else f).vars.names.Sublist _
    split
    · next hseen =>
      have hmem : name ∈ f.vars.names := Assoc.isSome_lookup_iff.mp hseen
      exact (Assoc.names_put_of_mem hmem value) ▸ List.Sublist.refl _
    · exact List.Sublist.refl _
  | lookup name => exact hsame _ (List.Sublist.refl _)

end Frame.Represents

namespace Frame

/-- The frame after operations from the outermost scope on. -/
abbrev ofOps (fname : String) (ops : List ScopeOp) : Frame := scoping.after (.new fname) ops

theorem mem_names_ofOps (fname : String) {ops : List ScopeOp} {name : String} :
    name ∈ (ofOps fname ops).vars.names ↔ ScopeOp.Visible ops name := by
  rw [((Represents.new fname).after ops).mem_names_iff, ScopeOp.Visible, Chain.isSome_lookup_iff,
    Chain.isSome_lookup_iff, Chain.names_after_spilling rfl]

/-- Run lemma, by induction on the operations from the last one: a name that comes last has become visible
last. -/
theorem pairwise_names_ofOps (fname : String) (ops : List ScopeOp) :
    (ofOps fname ops).vars.names.Pairwise fun m n =>
      ∃ i j, ScopeOp.ShownSince ops m i ∧ ScopeOp.ShownSince ops n j ∧ i < j := by
  induction ops using List.reverseRecOn with
  | nil => exact List.Pairwise.nil
  | append_singleton ops op ih =>
    have hstep : ofOps fname (ops ++ [op]) = scoping.step (ofOps fname ops) op :=
      Scoping.after_append scoping (.new fname) ops [op]
    obtain ⟨kept, fresh, hnames, hkept, hfresh⟩ :=
      ((Represents.new fname).after ops).names_step op
    rw [← hstep] at hnames
    have hshown (name : String) (hname : name ∈ kept ++ fresh.toList) : ScopeOp.Visible (ops ++ [op]) name :=
      (mem_names_ofOps fname).mp (hnames ▸ hname)
    rw [hnames, List.pairwise_append]
    refine ⟨?_, ?_, fun m hm n hn => ?_⟩
    · refine (ih.sublist hkept).imp_of_mem fun hm hn ⟨i, j, hi, hj, hlt⟩ => ?_
      exact ⟨i, j, hi.concat (hshown _ (List.mem_append_left _ hm)),
        hj.concat (hshown _ (List.mem_append_left _ hn)), hlt⟩
    · cases fresh with
      | none => exact List.Pairwise.nil
      | some name => exact List.pairwise_singleton _ name
    · obtain ⟨i, hi⟩ := ScopeOp.exists_shownSince ((mem_names_ofOps fname).mp (hkept.subset hm))
      have hnew : ¬ ScopeOp.Visible ops n := fun hv =>
        hfresh n (Option.mem_toList.mp hn) ((mem_names_ofOps fname).mpr hv)
      exact ⟨i, ops.length, hi.concat (hshown m (List.mem_append_left _ hm)),
        ScopeOp.shownSince_concat hnew (hshown n (List.mem_append_right _ hn)), hi.lt⟩

/-- A scope whose operations are matched leaves the listed names as they were. -/
theorem names_ofOps_matched (fname : String) (before : List ScopeOp) {inside : List ScopeOp}
    (h : ScopeOp.Matched inside) :
    (ofOps fname (before ++ (.pushScope :: inside ++ [.popScope]))).vars.names =
      (ofOps fname before).vars.names := by
  let through := before ++ (.pushScope :: inside ++ [.popScope])
  have hnodup (ops : List ScopeOp) : (ofOps fname ops).vars.names.Nodup :=
    ((Represents.new fname).after ops).nodup
  have hperm : (ofOps fname through).vars.names.Perm (ofOps fname before).vars.names := by
    rw [List.perm_ext_iff_of_nodup (hnodup through) (hnodup before)]
    intro name
    rw [mem_names_ofOps, mem_names_ofOps]
    exact ScopeOp.visible_matched h
  -- both lists are in the order of the operations since which the names are visible
  refine hperm.eq_of_pairwise ?_ (pairwise_names_ofOps fname through)
    ((pairwise_names_ofOps fname before).imp fun ⟨i, j, hi, hj, hlt⟩ =>
      ⟨i, j, hi.matched h, hj.matched h, hlt⟩)
  rintro m n - - ⟨i, j, hi, hj, hij⟩ ⟨i', j', hi', hj', hij'⟩
  obtain rfl := hi.unique hj'
  obtain rfl := hj.unique hi'
  exact absurd hij (Nat.lt_asymm hij')

end Frame

/-! ## The order in a list of its own -/

/-- The variables of one call: the value of each name, the order of the names beside it, and the open
scopes. -/
structure Slots where
  value : String → Option Value
  order : List String
  scopes : List Scope

namespace Slots

def empty : Slots := ⟨fun _ => none, [], []⟩

/-- The names of the order that have a value. -/
def locals (s : Slots) : Assoc Value := s.order.filterMap fun name => (s.value name).map (name, ·)

def set (s : Slots) (name : String) (value : Value) : Slots :=
  { s with value := fun other => if other = name then some value else s.value other }

/-- Takes away a value, and the last place of the name in the order. -/
def drop (s : Slots) (name : String) : Slots :=
  { s with
    value := fun other => if other = name then none else s.value other
    order := (s.order.reverse.erase name).reverse }

def pushScope (s : Slots) : Slots := { s with scopes := ⟨[], []⟩ :: s.scopes }

def popScope (s : Slots) : Slots :=
  match s.scopes with
  | [] => s
  | scope :: rest =>
    let restored := scope.shadowed.foldl (fun s (name, value) => s.set name value) (scope.declared.foldl drop s)
    { restored with scopes := rest }

def declare (s : Slots) (name : String) (value : Value) : Slots :=
  match s.scopes with
  | [] => { s.set name value with order := if (s.value name).isSome then s.order else s.order ++ [name] }
  | scope :: rest =>
    match s.value name with
    | none =>
      { s.set name value with
        order := s.order ++ [name]
        scopes := { scope with declared := scope.declared ++ [name] } :: rest }
    | some old =>
      if name ∈ scope.declared then s.set name value
      else
        { s.set name value with
          scopes := { scope with shadowed := scope.shadowed ++ [(name, old)] } :: rest }

def overwrite (s : Slots) (name : String) (value : Value) : Slots :=
  if (s.value name).isSome then s.set name value else s

def scoping : Scoping Slots := ⟨pushScope, popScope, declare, overwrite, value⟩

/-- Both keep the same values, order and open scopes. -/
structure Mirrors (s : Slots) (f : Frame) : Prop where
  value : ∀ name, s.value name = f.lookup name
  order : s.order = f.vars.names
  scopes : s.scopes = f.scopes

namespace Mirrors

variable {s : Slots} {f : Frame} {c : Chain}

theorem locals_eq (h : s.Mirrors f) (hnodup : f.vars.names.Nodup) : s.locals = f.vars := by
  rw [locals, h.order, Assoc.names, List.filterMap_map]
  have hentry : ∀ x ∈ f.vars, (s.value x.1).map (x.1, ·) = some x := fun x hx => by
    rw [h.value, Frame.lookup, Assoc.lookup_of_mem hnodup hx, Option.map_some]
  exact (List.filterMap_congr hentry).trans List.filterMap_some

theorem set_value (h : s.Mirrors f) (name : String) (value : Value) (other : String) :
    (s.set name value).value other = (f.assign name value).lookup other := by
  by_cases ho : other = name
  · subst ho
    exact (if_pos rfl).trans (Assoc.lookup_put_self other value f.vars).symm
  · exact (if_neg ho).trans ((h.value other).trans (Assoc.lookup_put_of_ne ho value f.vars).symm)

theorem set (h : s.Mirrors f) {name : String} (hmem : name ∈ f.vars.names) (value : Value) :
    (s.set name value).Mirrors (f.assign name value) where
  value := h.set_value name value
  order := h.order.trans (Assoc.names_put_of_mem hmem value).symm
  scopes := h.scopes

theorem drop (h : s.Mirrors f) (hnodup : f.vars.names.Nodup) (name : String) :
    (s.drop name).Mirrors { f with vars := f.vars.remove name } where
  value other := by
    by_cases ho : other = name
    · subst ho
      exact (if_pos rfl).trans (Assoc.lookup_remove_self hnodup).symm
    · exact (if_neg ho).trans ((h.value other).trans (Assoc.lookup_remove_of_ne ho f.vars).symm)
  order := by
    have hreverse : (s.order.reverse.erase name).reverse = s.order.erase name := by
      have hs : s.order.Nodup := h.order ▸ hnodup
      rw [(List.nodup_reverse.mpr hs).erase_eq_filter, hs.erase_eq_filter, List.filter_reverse,
        List.reverse_reverse]
    exact hreverse.trans ((congrArg (·.erase name) h.order).trans (Assoc.names_remove name f.vars).symm)
  scopes := h.scopes

theorem drops (h : s.Mirrors f) (hnodup : f.vars.names.Nodup) (gone : List String) :
    (gone.foldl Slots.drop s).Mirrors
      { f with vars := gone.foldl (fun vars name => vars.remove name) f.vars } := by
  induction gone generalizing s f with
  | nil => exact h
  | cons name gone ih =>
    have hrest : (f.vars.remove name).names.Nodup := by
      rw [Assoc.names_remove]
      exact hnodup.erase name
    exact ih (h.drop hnodup name) hrest

theorem sets (h : s.Mirrors f) {entries : Assoc Value} (hmem : ∀ x ∈ entries, x.1 ∈ f.vars.names) :
    (entries.foldl (fun s (name, value) => s.set name value) s).Mirrors
      { f with vars := entries.foldl (fun vars (name, value) => vars.put name value) f.vars } := by
  induction entries generalizing s f with
  | nil => exact h
  | cons x entries ih =>
    obtain ⟨hx, hrest⟩ := List.forall_mem_cons.mp hmem
    refine ih (h.set hx x.2) fun y hy => ?_
    exact (Assoc.names_put_of_mem hx x.2).symm ▸ hrest y hy

theorem popScope (h : s.Mirrors f) (hf : f.Represents c) : s.popScope.Mirrors f.popScope := by
  rw [Slots.popScope, Frame.popScope, h.scopes]
  cases hs : f.scopes with
  | nil => exact h
  | cons scope rest =>
    have hrestored := (h.drops hf.nodup scope.declared).sets fun _ hx => hf.mem_names_of_shadowed hs hx
    exact ⟨hrestored.value, hrestored.order, rfl⟩

theorem declare (h : s.Mirrors f) (name : String) (value : Value) :
    (s.declare name value).Mirrors (f.declare name value) := by
  have hset := h.set_value name value
  have hmem : (f.lookup name).isSome ↔ name ∈ f.vars.names := Assoc.isSome_lookup_iff
  rw [Slots.declare, Frame.declare, h.scopes, h.value]
  cases hscopes : f.scopes with
  | nil =>
    refine ⟨hset, ?_, h.scopes.trans hscopes⟩
    by_cases hin : name ∈ f.vars.names
    · exact (if_pos (hmem.mpr hin)).trans (h.order.trans (Assoc.names_put_of_mem hin value).symm)
    · rw [Assoc.names_put_of_not_mem hin, ← h.order]
      exact if_neg fun hseen => hin (hmem.mp hseen)
  | cons scope rest =>
    cases hlookup : f.lookup name with
    | none =>
      have hin : name ∉ f.vars.names := fun hin => by simp [hlookup] at hmem; exact hmem hin
      refine ⟨hset, ?_, rfl⟩
      rw [Assoc.names_put_of_not_mem hin, ← h.order]
    | some old =>
      have hin : name ∈ f.vars.names := hmem.mp (Option.isSome_of_eq_some hlookup)
      have horder : (s.set name value).order = (f.vars.put name value).names :=
        h.order.trans (Assoc.names_put_of_mem hin value).symm
      by_cases hown : name ∈ scope.declared
      · simp only [if_pos hown]
        exact ⟨hset, horder, h.scopes.trans hscopes⟩
      · simp only [if_neg hown]
        exact ⟨hset, horder, rfl⟩

theorem overwrite (h : s.Mirrors f) (name : String) (value : Value) :
    (s.overwrite name value).Mirrors (Frame.scoping.overwrite f name value) := by
  change Mirrors (if (s.value name).isSome then s.set name value else s)
    (if (f.lookup name).isSome then f.assign name value else f)
  rw [h.value]
  split
  · next hseen => exact h.set (Assoc.isSome_lookup_iff.mp hseen) value
  · exact h

theorem step (h : s.Mirrors f) (hf : f.Represents c) (op : ScopeOp) :
    (scoping.step s op).Mirrors (Frame.scoping.step f op) := by
  cases op with
  | pushScope => exact ⟨h.value, h.order, congrArg (Scope.mk [] [] :: ·) h.scopes⟩
  | popScope => exact h.popScope hf
  | declare name value => exact h.declare name value
  | overwrite name value => exact h.overwrite name value
  | lookup name => exact h

theorem after (h : s.Mirrors f) (hf : f.Represents c) (ops : List ScopeOp) :
    (scoping.after s ops).Mirrors (Frame.scoping.after f ops) := by
  induction ops generalizing s f c with
  | nil => exact h
  | cons op ops ih => exact ih (h.step hf op) (hf.step op)

end Mirrors

/-- Values and order that are updated apart stay in step: what is listed is what a frame lists. -/
theorem locals_after (fname : String) (ops : List ScopeOp) :
    (scoping.after empty ops).locals = (Frame.ofOps fname ops).vars := by
  have hnew : empty.Mirrors (.new fname) := ⟨fun _ => rfl, rfl, rfl⟩
  exact (hnew.after (.new fname) ops).locals_eq ((Frame.Represents.new fname).after ops).nodup

end Slots

/-- A frame lists each visible variable once and nothing else, with the value that a look-up finds, in the
order in which they became visible for the last time; values and order may be kept apart. A scope whose
operations are matched leaves the names in the order from before it began. -/
theorem Frame.lists_visible (fname : String) (ops : List ScopeOp) :
    let f := scoping.after (.new fname) ops
    f.vars.names.Nodup ∧
    (∀ name, name ∈ f.vars.names ↔ ScopeOp.Visible ops name) ∧
    (∀ name value, (name, value) ∈ f.vars ↔ f.lookup name = some value) ∧
    (f.vars.names.Pairwise fun m n =>
      ∃ i j, ScopeOp.ShownSince ops m i ∧ ScopeOp.ShownSince ops n j ∧ i < j) ∧
    (Slots.scoping.after .empty ops).locals = f.vars ∧
    ∀ inside, ScopeOp.Matched inside →
      (scoping.after f (.pushScope :: inside ++ [.popScope])).vars.names = f.vars.names := by
  intro f
  have hnodup : f.vars.names.Nodup := ((Represents.new fname).after ops).nodup
  refine ⟨hnodup, fun name => mem_names_ofOps fname, fun name value => ?_, pairwise_names_ofOps fname ops,
    Slots.locals_after fname ops, fun inside hmatched => ?_⟩
  · exact ⟨Assoc.lookup_of_mem hnodup, Assoc.mem_of_lookup⟩
  · rw [← Scoping.after_append]
    exact names_ofOps_matched fname ops hmatched

/-- A name that leaves with its scope and comes again behind another one, with an end of no scope. -/
def comingAgain : List ScopeOp :=
  [.declare "a" (.int 1), .pushScope, .declare "b" (.int 2), .popScope, .popScope, .declare "c" (.int 3),
    .declare "b" (.int 4), .declare "b" (.int 5)]

/-- A scope that declares a visible name twice and has a scope of its own. -/
def insideTwice : List ScopeOp :=
  [.declare "a" (.int 6), .declare "a" (.int 7), .pushScope, .declare "d" (.int 8), .popScope,
    .overwrite "c" (.int 9)]

theorem lists_visible_comingAgain :
    ScopeOp.Matched insideTwice ∧
    let f := Frame.scoping.after (.new "f") comingAgain
    f.vars.names = ["a", "c", "b"] ∧
    (f.vars.names.Pairwise fun m n =>
      ∃ i j, ScopeOp.ShownSince comingAgain m i ∧ ScopeOp.ShownSince comingAgain n j ∧ i < j) ∧
    (Frame.scoping.after f (.pushScope :: insideTwice ++ [.popScope])).vars.names = f.vars.names := by
  have hmatched : ScopeOp.Matched insideTwice := by
    refine ⟨fun before hb => ?_, rfl⟩
    have hopen : ∀ n < 7, ScopeOp.opened (insideTwice.take n) ≠ [] := by decide
    rw [List.prefix_iff_eq_take.mp hb]
    exact hopen _ (Nat.lt_succ_of_le hb.length_le)
  have h := Frame.lists_visible "f" comingAgain
  exact ⟨hmatched, rfl, h.2.2.2.1, h.2.2.2.2.2 insideTwice hmatched⟩

end CallTrace
