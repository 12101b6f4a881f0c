/-! # Names with values

* `Assoc`: names with values, in the order in which the names came to have one.
* `Assoc.put`: gives a name a value. A name that has one keeps its place; a new one comes last.
* `Assoc.remove`: takes a name away.

A look-up after `put` and `remove` is stated for the name itself and for every other name, and so is what
they do to the order of the names.
-/

namespace CallTrace
set_option autoImplicit false

abbrev Assoc (α : Type) := List (String × α)

namespace Assoc

variable {α : Type}

def names (xs : Assoc α) : List String := xs.map (·.1)

def put (name : String) (value : α) : Assoc α → Assoc α
  | [] => [(name, value)]
  | (n, v) :: rest => if n = name then (n, value) :: rest else (n, v) :: put name value rest

def remove (name : String) : Assoc α → Assoc α
  | [] => []
  | (n, v) :: rest => if n = name then rest else (n, v) :: remove name rest

/-! ## Looking up -/

theorem lookup_cons_of_ne {name other : String} (h : other ≠ name) (value : α) (xs : Assoc α) :
    List.lookup other ((name, value) :: xs) = List.lookup other xs := by
  have hb : (other == name) = false := beq_eq_false_iff_ne.mpr h
  simp [List.lookup_cons, hb]

@[simp] theorem lookup_put_self (name : String) (value : α) (xs : Assoc α) :
    List.lookup name (put name value xs) = some value := by
  induction xs with
  | nil => exact List.lookup_cons_self
  | cons x rest ih =>
    obtain ⟨n, v⟩ := x
    by_cases h : n = name
    · subst h
      simp only [put, if_true]
      exact List.lookup_cons_self
    · rw [put, if_neg h, lookup_cons_of_ne (fun e => h e.symm), ih]

theorem lookup_put_of_ne {name other : String} (h : other ≠ name) (value : α) (xs : Assoc α) :
    List.lookup other (put name value xs) = List.lookup other xs := by
  induction xs with
  | nil => exact lookup_cons_of_ne h value []
  | cons x rest ih =>
    obtain ⟨n, v⟩ := x
    by_cases hn : n = name
    · subst hn
      rw [put, if_pos rfl, lookup_cons_of_ne h, lookup_cons_of_ne h]
    · rw [put, if_neg hn]
      by_cases ho : other = n
      · subst ho
        rw [List.lookup_cons_self, List.lookup_cons_self]
      · rw [lookup_cons_of_ne ho, lookup_cons_of_ne ho, ih]

theorem lookup_remove_of_ne {name other : String} (h : other ≠ name) (xs : Assoc α) :
    List.lookup other (remove name xs) = List.lookup other xs := by
  induction xs with
  | nil => rfl
  | cons x rest ih =>
    obtain ⟨n, v⟩ := x
    by_cases hn : n = name
    · subst hn
      rw [remove, if_pos rfl, lookup_cons_of_ne h]
    · rw [remove, if_neg hn]
      by_cases ho : other = n
      · subst ho
        rw [List.lookup_cons_self, List.lookup_cons_self]
      · rw [lookup_cons_of_ne ho, lookup_cons_of_ne ho, ih]

/-! ## Entries -/

theorem mem_put {name : String} {value : α} {xs : Assoc α} {x : String × α}
    (h : x ∈ put name value xs) : x ∈ xs ∨ x = (name, value) := by
  induction xs with
  | nil => exact .inr (List.mem_singleton.mp h)
  | cons y rest ih =>
    obtain ⟨n, v⟩ := y
    by_cases hn : n = name
    · rw [put, if_pos hn] at h
      rcases List.mem_cons.mp h with rfl | h
      · exact .inr (by rw [hn])
      · exact .inl (List.mem_cons_of_mem _ h)
    · rw [put, if_neg hn] at h
      rcases List.mem_cons.mp h with rfl | h
      · exact .inl List.mem_cons_self
      · exact (ih h).imp_left (List.mem_cons_of_mem _)

theorem mem_of_mem_remove {name : String} {xs : Assoc α} {x : String × α}
    (h : x ∈ remove name xs) : x ∈ xs := by
  induction xs with
  | nil => exact h
  | cons y rest ih =>
    obtain ⟨n, v⟩ := y
    by_cases hn : n = name
    · rw [remove, if_pos hn] at h
      exact List.mem_cons_of_mem _ h
    · rw [remove, if_neg hn] at h
      rcases List.mem_cons.mp h with rfl | h
      · exact List.mem_cons_self
      · exact List.mem_cons_of_mem _ (ih h)

theorem mem_of_lookup {name : String} {value : α} {xs : Assoc α}
    (h : List.lookup name xs = some value) : (name, value) ∈ xs := by
  induction xs with
  | nil => cases h
  | cons y rest ih =>
    obtain ⟨n, v⟩ := y
    by_cases hn : name = n
    · subst hn
      rw [List.lookup_cons_self] at h
      obtain rfl := Option.some.inj h
      exact List.mem_cons_self
    · rw [lookup_cons_of_ne hn] at h
      exact List.mem_cons_of_mem _ (ih h)

theorem lookup_of_mem {name : String} {value : α} {xs : Assoc α} (hnodup : xs.names.Nodup)
    (h : (name, value) ∈ xs) : List.lookup name xs = some value := by
  induction xs with
  | nil => cases h
  | cons y rest ih =>
    obtain ⟨hnew, hrest⟩ := List.nodup_cons.mp hnodup
    rcases List.mem_cons.mp h with rfl | h
    · exact List.lookup_cons_self
    · have hname : name ∈ rest.map (·.1) := List.mem_map_of_mem h
      have hne : name ≠ y.1 := by
        rintro rfl
        exact hnew hname
      exact (lookup_cons_of_ne hne y.2 rest).trans (ih hrest h)

/-! ## Order -/

theorem names_put_of_mem {name : String} {xs : Assoc α} (h : name ∈ xs.names) (value : α) :
    (put name value xs).names = xs.names := by
  induction xs with
  | nil => cases h
  | cons x rest ih =>
    obtain ⟨n, v⟩ := x
    by_cases hn : n = name
    · rw [put, if_pos hn]
      rfl
    · have hr : name ∈ names rest := by
        cases h with
        | head => exact absurd rfl hn
        | tail _ hr => exact hr
      rw [put, if_neg hn]
      exact congrArg (n :: ·) (ih hr)

theorem names_put_of_not_mem {name : String} {xs : Assoc α} (h : name ∉ xs.names) (value : α) :
    (put name value xs).names = xs.names ++ [name] := by
  induction xs with
  | nil => rfl
  | cons x rest ih =>
    obtain ⟨n, v⟩ := x
    have hn : n ≠ name := fun e => h (e ▸ List.mem_cons_self)
    have hr : name ∉ names rest := fun e => h (List.mem_cons_of_mem _ e)
    rw [put, if_neg hn]
    exact congrArg (n :: ·) (ih hr)

theorem nodup_names_put {xs : Assoc α} (h : xs.names.Nodup) (name : String) (value : α) :
    (put name value xs).names.Nodup := by
  by_cases hm : name ∈ xs.names
  · rw [names_put_of_mem hm]
    exact h
  · rw [names_put_of_not_mem hm]
    exact List.nodup_append.mpr
      ⟨h, by simp, fun a ha b hb e => hm (by rw [← List.mem_singleton.mp hb, ← e]; exact ha)⟩

theorem names_remove (name : String) (xs : Assoc α) :
    (remove name xs).names = xs.names.erase name := by
  induction xs with
  | nil => rfl
  | cons x rest ih =>
    obtain ⟨n, v⟩ := x
    by_cases hn : n = name
    · subst hn
      rw [remove, if_pos rfl]
      exact (List.erase_cons_head n (names rest)).symm
    · have hb : (n == name) = false := beq_eq_false_iff_ne.mpr hn
      rw [remove, if_neg hn]
      change n :: (remove name rest).names = (n :: names rest).erase name
      rw [List.erase_cons, hb, ih]
      rfl

/-! ## Names that have a value -/

theorem isSome_lookup_put {xs : Assoc α} {name : String} (h : (List.lookup name xs).isSome)
    (value : α) (other : String) :
    (List.lookup other (put name value xs)).isSome = (List.lookup other xs).isSome := by
  by_cases ho : other = name
  · subst ho
    rw [lookup_put_self, h, Option.isSome_some]
  · rw [lookup_put_of_ne ho]

theorem isSome_lookup_iff {name : String} {xs : Assoc α} :
    (List.lookup name xs).isSome ↔ name ∈ xs.names := by
  rw [List.lookup_isSome_iff, names, List.mem_map]
  simp only [beq_iff_eq, eq_comm (a := name)]

theorem lookup_remove_self {name : String} {xs : Assoc α} (h : xs.names.Nodup) :
    List.lookup name (remove name xs) = none := by
  rw [← Option.not_isSome_iff_eq_none, isSome_lookup_iff, names_remove]
  exact h.not_mem_erase

theorem lookup_removes {xs : Assoc α} (h : xs.names.Nodup) (gone : List String) (name : String) :
    List.lookup name (gone.foldl (fun xs n => remove n xs) xs) =
      if name ∈ gone then none else List.lookup name xs := by
  induction gone generalizing xs with
  | nil => rfl
  | cons n gone ih =>
    have hrest : (remove n xs).names.Nodup := by
      rw [names_remove]
      exact h.erase n
    rw [List.foldl_cons, ih hrest]
    by_cases hn : name = n
    · subst hn
      simp [lookup_remove_self h]
    · simp [hn, lookup_remove_of_ne hn]

theorem nodup_names_removes {xs : Assoc α} (h : xs.names.Nodup) (gone : List String) :
    (gone.foldl (fun xs n => remove n xs) xs).names.Nodup := by
  induction gone generalizing xs with
  | nil => exact h
  | cons n gone ih =>
    refine ih ?_
    rw [names_remove]
    exact h.erase n

/-- Of several values for one name the last one stays. -/
theorem lookup_puts (xs entries : Assoc α) (name : String) :
    List.lookup name (entries.foldl (fun xs (n, v) => put n v xs) xs) =
      (List.lookup name entries.reverse).or (List.lookup name xs) := by
  induction entries generalizing xs with
  | nil => rfl
  | cons x entries ih =>
    obtain ⟨n, v⟩ := x
    rw [List.foldl_cons, ih, List.reverse_cons, List.lookup_append, Option.or_assoc]
    by_cases hn : name = n
    · subst hn
      rw [lookup_put_self, List.lookup_cons_self]
      rfl
    · rw [lookup_put_of_ne hn, lookup_cons_of_ne hn]
      rfl

theorem nodup_names_puts {xs : Assoc α} (h : xs.names.Nodup) (entries : Assoc α) :
    (entries.foldl (fun xs (n, v) => put n v xs) xs).names.Nodup := by
  induction entries generalizing xs with
  | nil => exact h
  | cons x entries ih => exact ih (nodup_names_put h x.1 x.2)

end Assoc

end CallTrace
