import CallTrace.Scope

/-! # Scopes as a chain of tables

A frame has one flat table and notes for every open scope what to take back when it ends. `Chain` is what
this stands for: one table for each scope, and a name means the variable of the innermost scope that
declares it.

* `ScopeOp`, `Scoping`: what is done with scopes, and what a sequence of it answers.
* `Chain.plain`, `Chain.spilling`: the chain of tables, and the one that a frame implements whatever it is
  asked. They differ where a scope declares a name again while it hides a variable of that name: then the
  hidden variable takes the value that the declaration replaces.
* `Frame.Represents`: the flat table shows what the chain shows, and the notes of each open scope are what
  separates its table from the scopes outside. Every operation keeps it.
* `answers_eq_plain`: without such a repeated declaration a frame answers as the plain chain does, and a
  scope that has ended leaves the variables outside as they were, up to what was assigned to them.
-/

namespace CallTrace
set_option autoImplicit false

/-! ## Operations -/

inductive ScopeOp where
  | pushScope
  | popScope
  | declare (name : String) (value : Value)
  | overwrite (name : String) (value : Value)
  | lookup (name : String)

/-- Something that keeps variables in scopes. Overwriting a name that is not there does nothing. -/
structure Scoping (σ : Type) where
  pushScope : σ → σ
  popScope : σ → σ
  declare : σ → String → Value → σ
  overwrite : σ → String → Value → σ
  lookup : σ → String → Option Value

namespace Scoping

variable {σ : Type} (S : Scoping σ)

def step (s : σ) : ScopeOp → σ
  | .pushScope => S.pushScope s
  | .popScope => S.popScope s
  | .declare name value => S.declare s name value
  | .overwrite name value => S.overwrite s name value
  | .lookup _ => s

/-- What an operation gives: a look-up, also the one that an overwriting goes through, what it finds. -/
def answer (s : σ) : ScopeOp → Option Value
  | .lookup name => S.lookup s name
  | .overwrite name _ => S.lookup s name
  | _ => none

def after (s : σ) (ops : List ScopeOp) : σ := ops.foldl S.step s

def answers (s : σ) : List ScopeOp → List (Option Value)
  | [] => []
  | op :: ops => S.answer s op :: answers (S.step s op) ops

theorem after_append (s : σ) (ops rest : List ScopeOp) :
    S.after s (ops ++ rest) = S.after (S.after s ops) rest := List.foldl_append

end Scoping

def Frame.scoping : Scoping Frame where
  pushScope := pushScope
  popScope := popScope
  declare := declare
  overwrite f name value := if (f.lookup name).isSome then f.assign name value else f
  lookup := lookup

/-! ## Chains -/

/-- The tables of the scopes, the innermost first. The last one is never left. -/
inductive Chain where
  | base (vars : Assoc Value)
  | scope (vars : Assoc Value) (outer : Chain)

namespace Chain

def lookup : Chain → String → Option Value
  | base vars, name => List.lookup name vars
  | scope vars outer, name => (List.lookup name vars).or (outer.lookup name)

def popScope : Chain → Chain
  | base vars => base vars
  | scope _ outer => outer

def declare : Chain → String → Value → Chain
  | base vars, name, value => base (vars.put name value)
  | scope vars outer, name, value => scope (vars.put name value) outer

def overwrite : Chain → String → Value → Chain
  | base vars, name, value => if (List.lookup name vars).isSome then base (vars.put name value) else base vars
  | scope vars outer, name, value =>
    if (List.lookup name vars).isSome then scope (vars.put name value) outer
    else scope vars (outer.overwrite name value)

/-- Declares a name; a value that the innermost scope has under it moves to the variable that it hides. -/
def declareSpilling : Chain → String → Value → Chain
  | base vars, name, value => base (vars.put name value)
  | scope vars outer, name, value =>
    scope (vars.put name value)
      (match List.lookup name vars with
        | some old => outer.overwrite name old
        | none => outer)

def plain : Scoping Chain := ⟨scope [], popScope, declare, overwrite, lookup⟩

def spilling : Scoping Chain := ⟨scope [], popScope, declareSpilling, overwrite, lookup⟩

/-! Looking up after overwriting. -/

theorem lookup_overwrite (c : Chain) (name : String) (value : Value) (other : String) :
    (c.overwrite name value).lookup other =
      if other = name ∧ (c.lookup name).isSome then some value else c.lookup other := by
  induction c with
  | base vars =>
    by_cases hmem : (List.lookup name vars).isSome
    · by_cases ho : other = name
      · subst ho
        simp [overwrite, lookup, hmem]
      · simp [overwrite, lookup, hmem, ho, Assoc.lookup_put_of_ne ho]
    · simp [overwrite, lookup, hmem]
  | scope vars outer ih =>
    by_cases hmem : (List.lookup name vars).isSome
    · by_cases ho : other = name
      · subst ho
        simp [overwrite, lookup, hmem]
      · simp [overwrite, lookup, hmem, ho, Assoc.lookup_put_of_ne ho]
    · by_cases ho : other = name
      · subst ho
        have hnone : List.lookup other vars = none := Option.not_isSome_iff_eq_none.mp hmem
        simp [overwrite, lookup, hnone, ih]
      · simp [overwrite, lookup, hmem, ih, ho]

theorem isSome_lookup_overwrite (c : Chain) (name : String) (value : Value) (other : String) :
    ((c.overwrite name value).lookup other).isSome = (c.lookup other).isSome := by
  rw [lookup_overwrite]
  split
  · next h => rw [h.1, h.2, Option.isSome_some]
  · rfl

theorem lookup_overwrite_of_ne (c : Chain) {name other : String} (h : other ≠ name) (value : Value) :
    (c.overwrite name value).lookup other = c.lookup other := by
  rw [lookup_overwrite, if_neg fun e => h e.1]

/-- What moves to an outer variable is hidden by the declaration. -/
theorem lookup_declareSpilling (c : Chain) (name : String) (value : Value) (other : String) :
    (c.declareSpilling name value).lookup other = if other = name then some value else c.lookup other := by
  by_cases ho : other = name
  · subst ho
    rw [if_pos rfl]
    cases c with
    | base vars => exact Assoc.lookup_put_self other value vars
    | scope vars outer =>
      rw [declareSpilling, lookup, Assoc.lookup_put_self]
      rfl
  · rw [if_neg ho]
    cases c with
    | base vars => exact Assoc.lookup_put_of_ne ho value vars
    | scope vars outer =>
      rw [declareSpilling, lookup, lookup, Assoc.lookup_put_of_ne ho]
      cases List.lookup name vars with
      | none => rfl
      | some old => rw [lookup_overwrite_of_ne outer ho]

end Chain

/-! ## What the notes of a scope say -/

/-- The notes of a scope with some table separate it from the scopes outside: they list the names that
only the scope has, and give every other name of its table the value that the name has outside. -/
structure Scope.Undoes (s : Scope) (vars : Assoc Value) (outer : Chain) : Prop where
  declared : ∀ name, name ∈ s.declared ↔ (List.lookup name vars).isSome ∧ outer.lookup name = none
  shadowed : ∀ name, List.lookup name s.shadowed.reverse =
    if (List.lookup name vars).isSome then outer.lookup name else none

/-- The notes of the open scopes lead from each table of a chain to the next. -/
inductive Chain.UndoneBy : Chain → List Scope → Prop
  | base (vars : Assoc Value) : UndoneBy (.base vars) []
  | scope {s : Scope} {rest : List Scope} {vars : Assoc Value} {outer : Chain} :
      s.Undoes vars outer → UndoneBy outer rest → UndoneBy (.scope vars outer) (s :: rest)

/-- The notes depend on which names the table has, and not on their values. -/
theorem Scope.Undoes.congr {s : Scope} {vars vars' : Assoc Value} {outer outer' : Chain}
    (h : s.Undoes vars outer)
    (hvars : ∀ name, (List.lookup name vars').isSome = (List.lookup name vars).isSome)
    (hnone : ∀ name, outer'.lookup name = none ↔ outer.lookup name = none)
    (houter : ∀ name, (List.lookup name vars).isSome → outer'.lookup name = outer.lookup name) :
    s.Undoes vars' outer' where
  declared name := by rw [h.declared, hvars, hnone]
  shadowed name := by
    rw [h.shadowed, hvars]
    split
    · next hn => rw [houter name hn]
    · rfl

/-- Noting a name that neither the table nor the scopes outside have. -/
theorem Scope.Undoes.adding {s : Scope} {vars : Assoc Value} {outer : Chain} {name : String}
    (h : s.Undoes vars outer) (hname : outer.lookup name = none) (value : Value) :
    Scope.Undoes { s with declared := s.declared ++ [name] } (vars.put name value) outer where
  declared other := by
    by_cases ho : other = name
    · subst ho
      simp [hname]
    · simp [ho, h.declared, Assoc.lookup_put_of_ne ho]
  shadowed other := by
    by_cases ho : other = name
    · subst ho
      simp [hname, h.shadowed]
    · rw [h.shadowed, Assoc.lookup_put_of_ne ho]

/-- Noting the value that a name has outside. -/
theorem Scope.Undoes.covering {s : Scope} {vars : Assoc Value} {outer outer' : Chain} {name : String}
    {old : Value} (h : s.Undoes vars outer) (hseen : (outer.lookup name).isSome)
    (hold : outer'.lookup name = some old)
    (hsame : ∀ other, other ≠ name → outer'.lookup other = outer.lookup other) (value : Value) :
    Scope.Undoes { s with shadowed := s.shadowed ++ [(name, old)] } (vars.put name value) outer' where
  declared other := by
    by_cases ho : other = name
    · subst ho
      have hnot : other ∉ s.declared := fun hd => by simp [((h.declared other).mp hd).2] at hseen
      simp [hold, hnot]
    · rw [h.declared, Assoc.lookup_put_of_ne ho, hsame other ho]
  shadowed other := by
    rw [List.reverse_append, List.reverse_singleton, List.singleton_append]
    by_cases ho : other = name
    · subst ho
      rw [List.lookup_cons_self, Assoc.lookup_put_self, hold]
      rfl
    · rw [Assoc.lookup_cons_of_ne ho, h.shadowed, Assoc.lookup_put_of_ne ho, hsame other ho]

/-- Overwriting changes a value and no notes. -/
theorem Chain.UndoneBy.overwrite {c : Chain} {scopes : List Scope} (h : c.UndoneBy scopes) (name : String)
    (value : Value) : (c.overwrite name value).UndoneBy scopes := by
  induction h with
  | base vars =>
    unfold Chain.overwrite
    split
    · exact .base _
    · exact .base _
  | @scope s rest vars outer hs hrest ih =>
    by_cases hmem : (List.lookup name vars).isSome
    · rw [Chain.overwrite, if_pos hmem]
      exact .scope (hs.congr (Assoc.isSome_lookup_put hmem value) (fun _ => .rfl) fun _ _ => rfl) hrest
    · rw [Chain.overwrite, if_neg hmem]
      have hnone (other : String) :
          (outer.overwrite name value).lookup other = none ↔ outer.lookup other = none := by
        rw [← Option.not_isSome_iff_eq_none, ← Option.not_isSome_iff_eq_none,
          Chain.isSome_lookup_overwrite]
      have hsame (other : String) (ho : (List.lookup other vars).isSome) :
          (outer.overwrite name value).lookup other = outer.lookup other :=
        outer.lookup_overwrite_of_ne (fun e => hmem (by rwa [← e])) value
      exact .scope (hs.congr (fun _ => rfl) hnone hsame) ih

/-! ## Frames represent chains -/

structure Frame.Represents (f : Frame) (c : Chain) : Prop where
  nodup : f.vars.names.Nodup
  lookup : ∀ name, f.lookup name = c.lookup name
  scopes : c.UndoneBy f.scopes

namespace Frame.Represents

variable {f : Frame} {c : Chain}

theorem new (name : String) : (Frame.new name).Represents (.base []) :=
  ⟨List.nodup_nil, fun _ => rfl, .base []⟩

theorem pushScope (h : f.Represents c) : f.pushScope.Represents (.scope [] c) where
  nodup := h.nodup
  lookup := h.lookup
  scopes := .scope ⟨fun _ => by simp, fun _ => rfl⟩ h.scopes

theorem popScope (h : f.Represents c) : f.popScope.Represents c.popScope := by
  obtain ⟨fname, vars, scopes⟩ := f
  obtain ⟨hnodup, hlookup, hscopes⟩ := h
  cases hscopes with
  | base vars => exact ⟨hnodup, hlookup, .base vars⟩
  | @scope s rest table outer hs hrest =>
    refine ⟨Assoc.nodup_names_puts (Assoc.nodup_names_removes hnodup _) _, fun name => ?_, hrest⟩
    have hname : List.lookup name vars = (List.lookup name table).or (outer.lookup name) := hlookup name
    change List.lookup name (s.shadowed.foldl _ (s.declared.foldl _ vars)) = outer.lookup name
    rw [Assoc.lookup_puts, Assoc.lookup_removes hnodup, hs.shadowed]
    cases htable : List.lookup name table with
    | none =>
      have hkept : name ∉ s.declared := fun hd => by simpa [htable] using ((hs.declared name).mp hd).1
      simp [hkept, hname, htable]
    | some value =>
      cases houter : outer.lookup name with
      | none => simp [(hs.declared name).mpr ⟨by rw [htable]; rfl, houter⟩]
      | some old => simp

theorem overwrite (h : f.Represents c) (name : String) (value : Value) :
    (scoping.overwrite f name value).Represents (c.overwrite name value) := by
  have hscopes := h.scopes.overwrite name value
  by_cases hmem : (f.lookup name).isSome
  · have hassigned : scoping.overwrite f name value = f.assign name value := if_pos hmem
    rw [hassigned]
    refine ⟨Assoc.nodup_names_put h.nodup name value, fun other => ?_, hscopes⟩
    rw [Chain.lookup_overwrite, ← h.lookup, ← h.lookup]
    by_cases ho : other = name
    · subst ho
      rw [if_pos ⟨rfl, hmem⟩]
      exact Assoc.lookup_put_self other value f.vars
    · rw [if_neg fun e => ho e.1]
      exact Assoc.lookup_put_of_ne ho value f.vars
  · have hkept : scoping.overwrite f name value = f := if_neg hmem
    rw [hkept]
    refine ⟨h.nodup, fun other => ?_, hscopes⟩
    rw [Chain.lookup_overwrite, if_neg fun e => hmem (h.lookup name ▸ e.2), h.lookup]

/-- A declaration notes a name that is new to the frame, and the value of one that is there unless the
scope itself brought the name in. -/
theorem declare (h : f.Represents c) (name : String) (value : Value) :
    (f.declare name value).Represents (c.declareSpilling name value) := by
  obtain ⟨hnodup, hlookup, hscopes⟩ := h
  refine ⟨Assoc.nodup_names_put hnodup name value, fun other => ?_, ?_⟩
  · rw [Chain.lookup_declareSpilling]
    by_cases ho : other = name
    · subst ho
      rw [if_pos rfl]
      exact Assoc.lookup_put_self other value f.vars
    · rw [if_neg ho, ← hlookup]
      exact Assoc.lookup_put_of_ne ho value f.vars
  obtain ⟨fname, vars, scopes⟩ := f
  cases hscopes with
  | base table => exact .base _
  | @scope s rest table outer hs hrest =>
    have hname : Frame.lookup ⟨fname, vars, s :: rest⟩ name =
        (List.lookup name table).or (outer.lookup name) := hlookup name
    cases houter : outer.lookup name with
    | none =>
      cases htable : List.lookup name table with
      | none =>
        rw [htable, houter] at hname
        simp only [Frame.declare, Chain.declareSpilling, hname, htable]
        exact .scope (hs.adding houter value) hrest
      | some old =>
        rw [htable] at hname
        have hseen : (List.lookup name table).isSome := Option.isSome_of_eq_some htable
        have hin : name ∈ s.declared := (hs.declared name).mpr ⟨hseen, houter⟩
        simp only [Frame.declare, Chain.declareSpilling, hname, htable, Option.some_or, if_pos hin]
        have hsame (other : String) : (outer.overwrite name old).lookup other = outer.lookup other := by
          rw [Chain.lookup_overwrite, houter, if_neg fun e => Bool.false_ne_true e.2]
        exact .scope (hs.congr (Assoc.isSome_lookup_put hseen value) (fun other => by rw [hsame])
          fun other _ => hsame other) (hrest.overwrite name old)
    | some hidden =>
      have hnot : name ∉ s.declared := fun hd => by simp [((hs.declared name).mp hd).2] at houter
      have hseen : (outer.lookup name).isSome := Option.isSome_of_eq_some houter
      cases htable : List.lookup name table with
      | none =>
        rw [htable, houter] at hname
        simp only [Frame.declare, Chain.declareSpilling, hname, htable, Option.none_or, if_neg hnot]
        exact .scope (hs.covering hseen houter (fun _ _ => rfl) value) hrest
      | some old =>
        -- the value that is replaced is noted after the one outside, and comes back in its place
        rw [htable] at hname
        simp only [Frame.declare, Chain.declareSpilling, hname, htable, Option.some_or, if_neg hnot]
        have hspilled : (outer.overwrite name old).lookup name = some old := by
          rw [Chain.lookup_overwrite, if_pos ⟨rfl, hseen⟩]
        exact .scope (hs.covering hseen hspilled (fun _ ho => outer.lookup_overwrite_of_ne ho old) value)
          (hrest.overwrite name old)

theorem step (h : f.Represents c) (op : ScopeOp) :
    (scoping.step f op).Represents (Chain.spilling.step c op) := by
  cases op with
  | pushScope => exact h.pushScope
  | popScope => exact h.popScope
  | declare name value => exact h.declare name value
  | overwrite name value => exact h.overwrite name value
  | lookup name => exact h

theorem after (h : f.Represents c) (ops : List ScopeOp) :
    (scoping.after f ops).Represents (Chain.spilling.after c ops) := by
  induction ops generalizing f c with
  | nil => exact h
  | cons op ops ih => exact ih (h.step op)

theorem answer (h : f.Represents c) (op : ScopeOp) : scoping.answer f op = Chain.spilling.answer c op := by
  cases op with
  | lookup name => exact h.lookup name
  | overwrite name value => exact h.lookup name
  | _ => rfl

theorem answers (h : f.Represents c) (ops : List ScopeOp) :
    scoping.answers f ops = Chain.spilling.answers c ops := by
  induction ops generalizing f c with
  | nil => rfl
  | cons op ops ih => rw [Scoping.answers, Scoping.answers, h.answer op, ih (h.step op)]

end Frame.Represents

/-- A frame answers as the spilling chain does, whatever it is asked. -/
theorem Frame.answers_eq_spilling (name : String) (ops : List ScopeOp) :
    scoping.answers (.new name) ops = Chain.spilling.answers (.base []) ops :=
  (Represents.new name).answers ops

/-! ## Where nothing is hidden twice by one scope -/

namespace Chain

/-- The innermost scope declares a name again that it has and hides. -/
def Rehides : Chain → ScopeOp → Prop
  | scope vars outer, .declare name _ => (List.lookup name vars).isSome ∧ (outer.lookup name).isSome
  | _, _ => False

def Tidy : Chain → List ScopeOp → Prop
  | _, [] => True
  | c, op :: ops => ¬ c.Rehides op ∧ (plain.step c op).Tidy ops

theorem overwrite_of_lookup_none {c : Chain} {name : String} (h : c.lookup name = none) (value : Value) :
    c.overwrite name value = c := by
  induction c with
  | base vars =>
    have hvars : List.lookup name vars = none := h
    simp [overwrite, hvars]
  | scope vars outer ih =>
    obtain ⟨hvars, houter⟩ := Option.or_eq_none_iff.mp h
    simp [overwrite, hvars, ih houter]

theorem step_of_not_rehides {c : Chain} {op : ScopeOp} (h : ¬ c.Rehides op) :
    spilling.step c op = plain.step c op := by
  cases op with
  | declare name value =>
    cases c with
    | base vars => rfl
    | scope vars outer =>
      change (scope vars outer).declareSpilling name value = (scope vars outer).declare name value
      rw [declareSpilling, declare]
      cases hvars : List.lookup name vars with
      | none => rfl
      | some old =>
        have houter : outer.lookup name = none :=
          Option.not_isSome_iff_eq_none.mp fun e => h ⟨Option.isSome_of_eq_some hvars, e⟩
        exact congrArg (scope _) (overwrite_of_lookup_none houter old)
  | _ => rfl

theorem after_of_tidy {c : Chain} {ops : List ScopeOp} (h : c.Tidy ops) :
    spilling.after c ops = plain.after c ops := by
  induction ops generalizing c with
  | nil => rfl
  | cons op ops ih =>
    change spilling.after (spilling.step c op) ops = plain.after (plain.step c op) ops
    rw [step_of_not_rehides h.1, ih h.2]

theorem answers_of_tidy {c : Chain} {ops : List ScopeOp} (h : c.Tidy ops) :
    spilling.answers c ops = plain.answers c ops := by
  induction ops generalizing c with
  | nil => rfl
  | cons op ops ih =>
    have hhead : spilling.answer c op = plain.answer c op := by cases op <;> rfl
    rw [Scoping.answers, Scoping.answers, step_of_not_rehides h.1, ih h.2, hhead]

theorem tidy_append {c : Chain} {ops rest : List ScopeOp} (h : c.Tidy (ops ++ rest)) : c.Tidy ops := by
  induction ops generalizing c with
  | nil => exact trivial
  | cons op ops ih => exact ⟨h.1, ih h.2⟩

end Chain

/-! ## What a scope leaves behind -/

namespace ScopeOp

/-- What an operation does to the lists of the names that the open scopes declare. -/
def track : List (List String) → ScopeOp → List (List String)
  | opened, pushScope => [] :: opened
  | opened, popScope => opened.tail
  | names :: opened, declare name _ => (name :: names) :: opened
  | opened, _ => opened

/-- The names that the scopes declare that are open after operations in a fresh scope, its own last. -/
def opened (ops : List ScopeOp) : List (List String) := ops.foldl track [[]]

/-- The operations never leave the scope they begin in, and leave every other one that they open. -/
structure Matched (ops : List ScopeOp) : Prop where
  stays : ∀ before, before <+: ops → opened before ≠ []
  returns : (opened ops).length = 1

/-- The value is assigned to the name while no scope that is open declares the name. -/
def Assigns (ops : List ScopeOp) (start : List (List String)) (name : String) (value : Value) : Prop :=
  ∃ before after, ops = before ++ overwrite name value :: after ∧
    ∀ names ∈ before.foldl track start, name ∉ names

end ScopeOp

/-- A chain that has been extended by open scopes with certain names. -/
inductive Chain.Within (c : Chain) : List (List String) → Chain → Prop
  | here : Within c [] c
  | scope {names : List String} {opened : List (List String)} {vars : Assoc Value} {outer : Chain} :
      (∀ name, name ∈ names ↔ (List.lookup name vars).isSome) → Within c opened outer →
      Within c (names :: opened) (.scope vars outer)

namespace Chain.Within

variable {c e : Chain} {opened : List (List String)}

theorem overwrite (h : c.Within opened e) (name : String) (value : Value) :
    ∃ c', Within c' opened (e.overwrite name value) ∧
      (c' = c ∨ (∀ names ∈ opened, name ∉ names) ∧ c' = c.overwrite name value) := by
  induction h with
  | here => exact ⟨_, .here, .inr ⟨fun _ hm => absurd hm List.not_mem_nil, rfl⟩⟩
  | @scope names opened vars outer hnames hout ih =>
    by_cases hmem : (List.lookup name vars).isSome
    · rw [Chain.overwrite, if_pos hmem]
      exact ⟨c, .scope (fun other => by rw [hnames, Assoc.isSome_lookup_put hmem]) hout, .inl rfl⟩
    · rw [Chain.overwrite, if_neg hmem]
      obtain ⟨c', hc', hkept⟩ := ih
      refine ⟨c', .scope hnames hc', hkept.imp_right fun ⟨hnot, he⟩ => ⟨fun ns hns => ?_, he⟩⟩
      rcases List.mem_cons.mp hns with rfl | hns
      · exact fun hin => hmem ((hnames name).mp hin)
      · exact hnot ns hns

/-- The chain outside changes when a name is overwritten that no open scope declares, and then only. -/
theorem step (h : c.Within opened e) (hopen : opened ≠ []) (op : ScopeOp) :
    ∃ c', Within c' (ScopeOp.track opened op) (plain.step e op) ∧
      (c' = c ∨ ∃ name value, op = .overwrite name value ∧ (∀ names ∈ opened, name ∉ names) ∧
        c' = c.overwrite name value) := by
  cases h with
  | here => exact absurd rfl hopen
  | @scope names rest vars outer hnames hout =>
    have hwhole : c.Within (names :: rest) (.scope vars outer) := .scope hnames hout
    cases op with
    | pushScope => exact ⟨c, .scope (fun _ => by simp) hwhole, .inl rfl⟩
    | popScope => exact ⟨c, hout, .inl rfl⟩
    | declare name value =>
      refine ⟨c, .scope (fun other => ?_) hout, .inl rfl⟩
      by_cases ho : other = name
      · subst ho
        simp
      · simp [ho, hnames, Assoc.lookup_put_of_ne ho]
    | overwrite name value =>
      obtain ⟨c', hc', hkept⟩ := hwhole.overwrite name value
      exact ⟨c', hc', hkept.imp_right fun ⟨hnot, he⟩ => ⟨name, value, rfl, hnot, he⟩⟩
    | lookup name => exact ⟨c, hwhole, .inl rfl⟩

/-- Run lemma: while the scopes stay open, a variable outside keeps its value or gets one that is assigned
to it while no open scope declares its name. -/
theorem after {ops : List ScopeOp} (h : c.Within opened e)
    (hstays : ∀ before, before <+: ops → before.foldl ScopeOp.track opened ≠ []) :
    ∃ c', Within c' (ops.foldl ScopeOp.track opened) (plain.after e ops) ∧
      ∀ name, (c'.lookup name).isSome = (c.lookup name).isSome ∧ (c'.lookup name = c.lookup name ∨
        ∃ value, ScopeOp.Assigns ops opened name value ∧ c'.lookup name = some value) := by
  induction ops generalizing c e opened with
  | nil => exact ⟨c, h, fun name => ⟨rfl, .inl rfl⟩⟩
  | cons op ops ih =>
    obtain ⟨c₁, hc₁, hstep⟩ := h.step (hstays [] List.nil_prefix) op
    obtain ⟨c₂, hc₂, hrun⟩ := ih hc₁ fun before hb =>
      hstays (op :: before) (List.cons_prefix_cons.mpr ⟨rfl, hb⟩)
    refine ⟨c₂, hc₂, fun name => ?_⟩
    have hlater (value : Value) (ha : ScopeOp.Assigns ops (ScopeOp.track opened op) name value) :
        ScopeOp.Assigns (op :: ops) opened name value := by
      obtain ⟨before, after, rfl, hnot⟩ := ha
      exact ⟨op :: before, after, rfl, hnot⟩
    obtain ⟨hsome, hvalue⟩ := hrun name
    rcases hstep with rfl | ⟨other, value, rfl, hnot, rfl⟩
    · exact ⟨hsome, hvalue.imp_right fun ⟨v, ha, hv⟩ => ⟨v, hlater v ha, hv⟩⟩
    · refine ⟨hsome.trans (c.isSome_lookup_overwrite other value name), ?_⟩
      rcases hvalue with hsame | ⟨v, ha, hv⟩
      · rw [hsame, Chain.lookup_overwrite]
        split
        · next ho =>
          obtain ⟨rfl, -⟩ := ho
          exact .inr ⟨value, ⟨[], ops, rfl, hnot⟩, rfl⟩
        · exact .inl rfl
      · exact .inr ⟨v, hlater v ha, hv⟩

/-- A matched sequence of operations in a fresh scope, and the end of the scope. -/
theorem of_matched {ops : List ScopeOp} (h : ScopeOp.Matched ops) (c : Chain) (name : String) :
    let again := plain.after c (.pushScope :: ops ++ [.popScope])
    (again.lookup name).isSome = (c.lookup name).isSome ∧ (again.lookup name = c.lookup name ∨
      ∃ value, ScopeOp.Assigns ops [[]] name value ∧ again.lookup name = some value) := by
  have hfresh : c.Within [[]] (.scope [] c) := .scope (fun _ => by simp) .here
  obtain ⟨c', hc', hrun⟩ := hfresh.after h.stays
  have hagain : plain.after c (.pushScope :: ops ++ [.popScope]) = c' := by
    have hend : plain.after c (.pushScope :: ops ++ [.popScope]) =
        (plain.after (.scope [] c) ops).popScope := Scoping.after_append plain (.scope [] c) ops [.popScope]
    have hlength : (ops.foldl ScopeOp.track [[]]).length = 1 := h.returns
    rw [hend]
    generalize ops.foldl ScopeOp.track [[]] = left at hc' hlength
    generalize plain.after (.scope [] c) ops = e at hc'
    cases hc' with
    | here => cases hlength
    | scope _ hout =>
      cases hout with
      | here => rfl
      | scope _ _ => cases hlength
  rw [hagain]
  exact hrun name

end Chain.Within

/-- Where no scope declares a name again that it has and hides, a frame answers as a chain of tables. When
a scope ends whose operations are matched, the names that are visible are those from before it began, and
each has the value from then or one that was assigned to it while no scope opened since declared it. -/
theorem Frame.answers_eq_plain (fname : String) (ops : List ScopeOp)
    (htidy : Chain.Tidy (.base []) ops) :
    scoping.answers (.new fname) ops = Chain.plain.answers (.base []) ops ∧
    ∀ before inside after, ops = before ++ .pushScope :: inside ++ .popScope :: after →
      ScopeOp.Matched inside → ∀ name,
      let outside := scoping.after (.new fname) before
      let again := scoping.after outside (.pushScope :: inside ++ [.popScope])
      (again.lookup name).isSome = (outside.lookup name).isSome ∧
      (again.lookup name = outside.lookup name ∨
        ∃ value, ScopeOp.Assigns inside [[]] name value ∧ again.lookup name = some value) := by
  refine ⟨(answers_eq_spilling fname ops).trans (Chain.answers_of_tidy htidy), ?_⟩
  rintro before inside after rfl hmatched name outside again
  have hshown (some_ops : List ScopeOp) (h : Chain.Tidy (.base []) some_ops) (name : String) :
      (scoping.after (.new fname) some_ops).lookup name =
        (Chain.plain.after (.base []) some_ops).lookup name := by
    rw [← Chain.after_of_tidy h]
    exact ((Represents.new fname).after some_ops).lookup name
  have houter : Chain.Tidy (.base []) before := by
    rw [List.append_assoc] at htidy
    exact Chain.tidy_append htidy
  have hinner : Chain.Tidy (.base []) (before ++ (.pushScope :: inside ++ [.popScope])) := by
    have hall : Chain.Tidy (.base []) ((before ++ (.pushScope :: inside ++ [.popScope])) ++ after) := by
      simpa using htidy
    exact Chain.tidy_append hall
  have hagain : again = scoping.after (.new fname) (before ++ (.pushScope :: inside ++ [.popScope])) :=
    (Scoping.after_append scoping (.new fname) before _).symm
  rw [hagain, hshown _ hinner, hshown _ houter, Scoping.after_append]
  exact Chain.Within.of_matched hmatched _ name

/-- What is done in the scope of `hidingOnce`. -/
def insideOnce : List ScopeOp := [.declare "x" (.int 2), .overwrite "x" (.int 3), .lookup "x"]

/-- An outer variable, hidden in a scope by one that is assigned to, and assigned to after that. -/
def hidingOnce : List ScopeOp :=
  [.declare "x" (.int 1)] ++ .pushScope :: insideOnce ++
    .popScope :: [.lookup "x", .overwrite "x" (.int 4), .lookup "x"]

theorem answers_eq_plain_hidingOnce :
    Chain.Tidy (.base []) hidingOnce ∧ ScopeOp.Matched insideOnce ∧
    Frame.scoping.answers (.new "f") hidingOnce = Chain.plain.answers (.base []) hidingOnce ∧
    let outside := Frame.scoping.after (.new "f") [.declare "x" (.int 1)]
    ((Frame.scoping.after outside (.pushScope :: insideOnce ++ [.popScope])).lookup "x").isSome =
      (outside.lookup "x").isSome := by
  have htidy : Chain.Tidy (.base []) hidingOnce := by simp [hidingOnce, insideOnce, Chain.Tidy, Chain.Rehides,
    Chain.plain, Scoping.step, Chain.declare, Chain.overwrite, Chain.popScope, Chain.lookup, Assoc.put]
  have hmatched : ScopeOp.Matched insideOnce := by
    refine ⟨fun before hb => ?_, rfl⟩
    simp only [insideOnce, List.prefix_cons_iff, List.prefix_nil] at hb
    rcases hb with rfl | ⟨_, rfl, rfl | ⟨_, rfl, rfl | ⟨_, rfl, rfl⟩⟩⟩ <;>
      simp [ScopeOp.opened, ScopeOp.track]
  obtain ⟨hanswers, hscope⟩ := Frame.answers_eq_plain "f" hidingOnce htidy
  exact ⟨htidy, hmatched, hanswers,
    (hscope [.declare "x" (.int 1)] insideOnce [.lookup "x", .overwrite "x" (.int 4), .lookup "x"] rfl
      hmatched "x").1⟩

/-- An outer variable, hidden in a scope by a variable that is declared twice there. -/
def hidingTwice : List ScopeOp :=
  [.declare "x" (.int 1), .pushScope, .declare "x" (.int 2), .declare "x" (.int 3), .popScope, .lookup "x"]

/-- The frame finds the value of the first declaration inside, the chain the one outside. -/
theorem not_all_answers_eq_plain : ¬ ∀ (fname : String) (ops : List ScopeOp),
    Frame.scoping.answers (.new fname) ops = Chain.plain.answers (.base []) ops := by
  intro hall
  have hframe : Frame.scoping.answers (.new "f") hidingTwice =
      [none, none, none, none, none, some (.int 2)] := rfl
  have hchain : Chain.plain.answers (.base []) hidingTwice =
      [none, none, none, none, none, some (.int 1)] := rfl
  have h := hall "f" hidingTwice
  rw [hframe, hchain] at h
  cases h

end CallTrace
