import CallTrace.Proofs.Heap.Copy

/-! # Lists that are items of lists

* `Heap.Stands h d`: the list `d` is an item of a list.
* `Heap.Parented h`: items exist, and no list is an item of two lists.
* `Parented.alloc`, `Parented.update`, `Parented.copy`: this stays so when only lists that stand nowhere become
  items. A copy is such a list.
* `Reaches.last`: what a value reaches is the value itself or an item of something that it reaches. So from a
  list that stands nowhere only the list itself is reached (`Reaches.eq_of_not_stands`).
-/

namespace CallTrace
set_option autoImplicit false

namespace Heap

/-- The list is an item of a list. -/
def Stands (h : Heap) (d : CellId) : Prop := ∃ c, Value.list d ∈ h.items c

/-- Items exist, and no list is an item of two lists. -/
structure Parented (h : Heap) : Prop where
  lt_size : ∀ c d, Value.list d ∈ h.items c → d < h.cells.size
  unique : ∀ c c' d, Value.list d ∈ h.items c → Value.list d ∈ h.items c' → c = c'

variable {h h' : Heap} {v : Value} {c d : CellId} {items : Array Value}

/-! ## Reaching -/

theorem Reaches.last (hr : h.Reaches v d) : v = .list d ∨ ∃ c, h.Reaches v c ∧ .list d ∈ h.items c := by
  induction hr with
  | here => exact .inl rfl
  | @item c d v hv hr ih =>
    rcases ih with rfl | ⟨c', hc', hd⟩
    · exact .inr ⟨c, .here, hv⟩
    · exact .inr ⟨c', .item hv hc', hd⟩

theorem Reaches.eq_of_not_stands (hr : h.Reaches v d) (hd : ¬ h.Stands d) : v = .list d :=
  hr.last.resolve_right fun ⟨c, _, hc⟩ => hd ⟨c, hc⟩

/-- What reaches an item of a list, and is not the item itself, reaches the list. -/
theorem Parented.reaches_of_item (hp : h.Parented) (hr : h.Reaches v d) (hd : .list d ∈ h.items c)
    (hne : v ≠ .list d) : h.Reaches v c := by
  obtain ⟨c', hc', hd'⟩ := hr.last.resolve_left hne
  exact hp.unique c c' d hd hd' ▸ hc'

/-! ## Storing -/

theorem Extends.stands (e : Extends h h') (hd : d < h.cells.size) (hs : h'.Stands d) : h.Stands d := by
  obtain ⟨c, hc⟩ := hs
  rcases Nat.lt_or_ge c h.cells.size with hlt | hge
  · exact ⟨c, e.old c hlt ▸ hc⟩
  · exact absurd (e.new c hge d hc) (Nat.not_le_of_lt hd)

theorem stands_alloc (hs : (h.alloc items).2.Stands d) : h.Stands d ∨ .list d ∈ items := by
  obtain ⟨c, hc⟩ := hs
  by_cases hne : c = h.cells.size
  · subst hne
    rw [items_alloc_new] at hc
    exact .inr hc
  · rw [items_alloc_of_ne hne] at hc
    exact .inl ⟨c, hc⟩

theorem stands_update {f : Array Value → Array Value} (hs : (h.update c f).Stands d) :
    h.Stands d ∨ .list d ∈ f (h.items c) := by
  obtain ⟨c', hc'⟩ := hs
  by_cases hne : c' = c
  · subst hne
    have hlt := lt_size_of_mem hc'
    rw [size_update] at hlt
    rw [items_update_self hlt] at hc'
    exact .inr hc'
  · rw [items_update_of_ne hne] at hc'
    exact .inl ⟨c', hc'⟩

namespace Parented

theorem empty : Parented .empty where
  lt_size c _ hd := absurd (lt_size_of_mem hd) (Nat.not_lt_zero c)
  unique c _ _ hd := absurd (lt_size_of_mem hd) (Nat.not_lt_zero c)

theorem alloc (hp : h.Parented) (hitems : ∀ d, .list d ∈ items → d < h.cells.size ∧ ¬ h.Stands d) :
    (h.alloc items).2.Parented where
  lt_size c d hd := by
    rw [size_alloc]
    rcases stands_alloc ⟨c, hd⟩ with ⟨c', hc'⟩ | hd
    · exact Nat.lt_succ_of_lt (hp.lt_size c' d hc')
    · exact Nat.lt_succ_of_lt (hitems d hd).1
  unique c c' d hd hd' := by
    by_cases hc : c = h.cells.size <;> by_cases hc' : c' = h.cells.size
    · rw [hc, hc']
    · subst hc
      rw [items_alloc_new] at hd
      rw [items_alloc_of_ne hc'] at hd'
      exact absurd ⟨c', hd'⟩ (hitems d hd).2
    · subst hc'
      rw [items_alloc_of_ne hc] at hd
      rw [items_alloc_new] at hd'
      exact absurd ⟨c, hd⟩ (hitems d hd').2
    · rw [items_alloc_of_ne hc] at hd
      rw [items_alloc_of_ne hc'] at hd'
      exact hp.unique c c' d hd hd'

theorem update {f : Array Value → Array Value} (hp : h.Parented)
    (hf : ∀ d, .list d ∈ f (h.items c) → .list d ∈ h.items c ∨ d < h.cells.size ∧ ¬ h.Stands d) :
    (h.update c f).Parented where
  lt_size c' d hd := by
    rw [size_update]
    rcases stands_update ⟨c', hd⟩ with ⟨c', hc'⟩ | hd
    · exact hp.lt_size c' d hc'
    · exact (hf d hd).elim (hp.lt_size c d) And.left
  unique c₁ c₂ d h₁ h₂ := by
    have hitem {c' : CellId} (hd : .list d ∈ (h.update c f).items c') :
        .list d ∈ h.items c' ∨ c' = c ∧ ¬ h.Stands d := by
      by_cases hne : c' = c
      · subst hne
        have hlt := lt_size_of_mem hd
        rw [size_update] at hlt
        rw [items_update_self hlt] at hd
        exact (hf d hd).imp_right fun hnew => ⟨rfl, hnew.2⟩
      · rw [items_update_of_ne hne] at hd
        exact .inl hd
    rcases hitem h₁ with hold₁ | ⟨hc₁, hfree⟩ <;> rcases hitem h₂ with hold₂ | ⟨hc₂, hfree'⟩
    · exact hp.unique c₁ c₂ d hold₁ hold₂
    · exact absurd ⟨c₁, hold₁⟩ hfree'
    · exact absurd ⟨c₂, hold₂⟩ hfree
    · rw [hc₁, hc₂]

end Parented

/-! ## Copies -/

/-- Making some values has left a heap with `Parented` in which they stand nowhere. -/
def Planted (vs : List Value) (h : Heap) : Prop :=
  h.Parented ∧ ∀ d, .list d ∈ vs → d < h.cells.size ∧ ¬ h.Stands d

theorem Planted.alloc (hp : Planted items.toList h) :
    Planted [(h.alloc items).1] (h.alloc items).2 := by
  have hitems (d : CellId) (hd : .list d ∈ items) : d < h.cells.size ∧ ¬ h.Stands d :=
    hp.2 d (Array.mem_toList_iff.mpr hd)
  refine ⟨hp.1.alloc hitems, fun d hd => ?_⟩
  obtain rfl : d = h.cells.size := Value.list.inj (List.mem_singleton.mp hd)
  refine ⟨by rw [size_alloc]; exact Nat.lt_succ_self _, fun hs => ?_⟩
  rcases stands_alloc hs with ⟨c, hc⟩ | hd
  · exact Nat.lt_irrefl _ (hp.1.lt_size c _ hc)
  · exact Nat.lt_irrefl _ (hitems _ hd).1

theorem mapM_planted {f : Value → StateM Heap Value} (hf : ∀ v h, Copied h (f v h))
    (hplanted : ∀ v (h : Heap), h.Parented → Planted [(f v h).1] (f v h).2) (vs : List Value)
    (h : Heap) (hp : h.Parented) : Planted (vs.mapM f h).1 (vs.mapM f h).2 := by
  induction vs generalizing h with
  | nil => exact ⟨hp, fun _ hd => nomatch hd⟩
  | cons v vs ih =>
    rw [mapM_cons_eq]
    have hv := hplanted v h hp
    have hvs := ih (f v h).2 hv.1
    have hext : Extends (f v h).2 (vs.mapM f (f v h).2).2 := (mapM_copied hf vs _).1
    refine ⟨hvs.1, fun d hd => ?_⟩
    rcases List.mem_cons.mp hd with hd | hd
    · obtain ⟨hlt, hfree⟩ := hv.2 d (List.mem_singleton.mpr hd)
      exact ⟨Nat.lt_of_lt_of_le hlt hext.size, fun hs => hfree (hext.stands hlt hs)⟩
    · exact hvs.2 d hd

theorem planted_scalar (hp : h.Parented) (hv : v.isList = false) : Planted [v] h := by
  refine ⟨hp, fun d hd => ?_⟩
  rw [← List.mem_singleton.mp hd] at hv
  cases hv

theorem copyWith_planted (fuel : Nat) (v : Value) (h : Heap) (hp : h.Parented) :
    Planted [(copyWith fuel v h).1] (copyWith fuel v h).2 := by
  induction fuel generalizing v h with
  | zero =>
    cases v with
    | list c =>
      have hnone : Planted (#[] : Array Value).toList h := ⟨hp, fun _ hd => nomatch hd⟩
      exact hnone.alloc
    | _ => exact planted_scalar hp rfl
  | succ fuel ih =>
    cases v with
    | list c =>
      have hitems := mapM_planted (copyWith_spec fuel) ih (h.items c).toList h hp
      have hplanted : Planted ((h.items c).toList.mapM (copyWith fuel) h).1.toArray.toList
        ((h.items c).toList.mapM (copyWith fuel) h).2 := hitems
      rw [copyWith_list]
      exact hplanted.alloc
    | _ => exact planted_scalar hp rfl

/-- A copy stands nowhere. -/
theorem copy_planted (v : Value) (hp : h.Parented) : Planted [(h.copy v).1] (h.copy v).2 :=
  copyWith_planted h.cells.size v h hp

end Heap

end CallTrace
