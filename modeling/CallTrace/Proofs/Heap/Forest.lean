import CallTrace.Proofs.Heap.Copy

/-! # Lists form a forest

* `Heap.Edge h c i d`: the list `d` stands at position `i` of the list `c`.
* `Heap.Forest h`: every list is grounded, and stands at one position of one list at most.
* `Heap.Made h k vs`: the lists among `vs` have been made since there were `k` cells, and stand nowhere.
* `Heap.Loose h k w`: the value `w` has been made so, and it reaches no older list.
* `Heap.Grows h h'`: no list that there was has got a new place.
* `Forest.alloc`, `Forest.update`, `Forest.copy`: a forest stays one when lists that stand nowhere are stored. A
  copy is such a list.
-/

namespace CallTrace
set_option autoImplicit false

namespace Heap

/-- The list `d` stands at position `i` of the list `c`. -/
def Edge (h : Heap) (c : CellId) (i : Nat) (d : CellId) : Prop := (h.items c)[i]? = some (.list d)

/-- Every list is grounded, and stands at one position of one list at most. -/
structure Forest (h : Heap) : Prop where
  grounded : ∀ c < h.cells.size, h.Grounded (.list c)
  unique : ∀ c c' i i' d, h.Edge c i d → h.Edge c' i' d → c = c' ∧ i = i'

/-- The cell of the value exists, if it is a list. -/
def Has (h : Heap) (v : Value) : Prop := ∀ c, v = .list c → c < h.cells.size

/-- The cells of `h` are still there, and none of them has got a new place. -/
structure Grows (h h' : Heap) : Prop where
  size : h.cells.size ≤ h'.cells.size
  edge : ∀ c i d, d < h.cells.size → h'.Edge c i d → h.Edge c i d

/-- The lists among some values have been made since there were `k` cells, stand nowhere, and are
different. -/
structure Made (h : Heap) (k : Nat) (vs : List Value) : Prop where
  root : ∀ d, .list d ∈ vs → k ≤ d ∧ d < h.cells.size ∧ ∀ c i, ¬ h.Edge c i d
  apart : vs.Pairwise fun v w => ∀ d, v = .list d → w ≠ .list d

/-- A value that has been made since there were `k` cells, stands nowhere, and reaches no older list. -/
structure Loose (h : Heap) (k : Nat) (w : Value) : Prop where
  made : h.Made k [w]
  apart : ∀ c < k, ¬ h.Reaches w c

/-- New items are the old ones where they were, and at most at one position the value `w`. -/
def Stores (old new : Array Value) (w : Value) : Prop :=
  ∃ k : Nat, ∀ (i : Nat) (v : Value), new[i]? = some v → old[i]? = some v ∨ i = k ∧ v = w

variable {h h' h'' : Heap} {v w : Value} {vs ws : List Value} {c d : CellId} {i k : Nat}
  {items : Array Value}

theorem Has.scalar (hv : v.isList = false) : h.Has v := by
  rintro c rfl
  cases hv

theorem Has.of_size (hv : h.Has v) (hsize : h.cells.size ≤ h'.cells.size) : h'.Has v :=
  fun c hc => Nat.lt_of_lt_of_le (hv c hc) hsize

theorem Edge.mem (he : h.Edge c i d) : .list d ∈ h.items c := Array.mem_of_getElem? he

namespace Forest

theorem empty : Forest .empty where
  grounded c hc := absurd hc (Nat.not_lt_zero c)
  unique c c' i i' d he := by
    have hm := lt_size_of_mem he.mem
    exact absurd hm (Nat.not_lt_zero c)

theorem grounded_of_has (hf : h.Forest) (hv : h.Has v) : h.Grounded v := by
  cases v with
  | list c => exact hf.grounded c (hv c rfl)
  | _ => exact .scalar rfl

/-- The items of lists exist. -/
theorem has_of_mem (hf : h.Forest) (hv : v ∈ h.items c) : h.Has v := by
  rintro d rfl
  exact (hf.grounded c (lt_size_of_mem hv)).lt_size (.item hv .here)

theorem lt_size_of_edge (hf : h.Forest) (he : h.Edge c i d) : d < h.cells.size :=
  hf.has_of_mem he.mem d rfl

/-- No list holds itself. -/
theorem acyclic (hf : h.Forest) (hv : v ∈ h.items c) : ¬ h.Reaches v c :=
  (hf.grounded c (lt_size_of_mem hv)).irrefl .here hv

end Forest

/-! ## Growth -/

namespace Grows

theorem refl (h : Heap) : Grows h h := ⟨Nat.le_refl _, fun _ _ _ _ => id⟩

theorem trans (hg : Grows h h') (hg' : Grows h' h'') : Grows h h'' where
  size := Nat.le_trans hg.size hg'.size
  edge c i d hd he := hg.edge c i d hd (hg'.edge c i d (Nat.lt_of_lt_of_le hd hg.size) he)

end Grows

theorem Extends.grows (he : Extends h h') : Grows h h' where
  size := he.size
  edge c i d hd hedge := by
    rcases Nat.lt_or_ge c h.cells.size with hc | hc
    · rwa [Edge, ← he.old c hc]
    · exact absurd (he.new c hc d hedge.mem) (Nat.not_le_of_lt hd)

/-! ## Lists that stand nowhere -/

namespace Made

theorem nil : Made h k [] where
  root _ hd := nomatch hd
  apart := List.Pairwise.nil

theorem scalar (hw : w.isList = false) : Made h k [w] := by
  refine ⟨fun d hd => ?_, List.pairwise_singleton _ _⟩
  rw [← List.mem_singleton.mp hd] at hw
  cases hw

theorem has (hm : Made h k vs) (hv : v ∈ vs) : h.Has v := by
  rintro d rfl
  exact (hm.root d hv).2.1

theorem of_le {l : Nat} (hm : Made h k vs) (hl : l ≤ k) : Made h l vs :=
  ⟨fun d hd => ⟨Nat.le_trans hl (hm.root d hd).1, (hm.root d hd).2⟩, hm.apart⟩

/-- What has been made later is different from what was made before, which still stands nowhere. -/
theorem append (hm : Made h k vs) (hg : Grows h h') (hk : k ≤ h.cells.size)
    (hm' : Made h' h.cells.size ws) : Made h' k (vs ++ ws) where
  root d hd := by
    rcases List.mem_append.mp hd with hd | hd
    · obtain ⟨hle, hlt, hfree⟩ := hm.root d hd
      exact ⟨hle, Nat.lt_of_lt_of_le hlt hg.size, fun c i he => hfree c i (hg.edge c i d hlt he)⟩
    · obtain ⟨hle, hrest⟩ := hm'.root d hd
      exact ⟨Nat.le_trans hk hle, hrest⟩
  apart := by
    refine List.pairwise_append.mpr ⟨hm.apart, hm'.apart, ?_⟩
    rintro v hv w hw d rfl rfl
    exact Nat.lt_irrefl d (Nat.lt_of_lt_of_le (hm.root d hv).2.1 (hm'.root d hw).1)

/-- A list stands at one of the positions only. -/
theorem unique (hm : Made h k vs) {j : Nat} (hi : vs[i]? = some (.list d))
    (hj : vs[j]? = some (.list d)) : i = j := by
  obtain ⟨hi', hvi⟩ := List.getElem?_eq_some_iff.mp hi
  obtain ⟨hj', hvj⟩ := List.getElem?_eq_some_iff.mp hj
  have hapart := List.pairwise_iff_getElem.mp hm.apart
  rcases Nat.lt_trichotomy i j with hlt | heq | hlt
  · exact absurd hvj (hapart i j hi' hj' hlt d hvi)
  · exact heq
  · exact absurd hvi (hapart j i hj' hi' hlt d hvj)

end Made

theorem Loose.scalar (hw : w.isList = false) : Loose h k w :=
  ⟨.scalar hw, fun _ _ hr => Reaches.not_scalar hw hr⟩

theorem Loose.has (hw : Loose h k w) : h.Has w := hw.made.has (List.mem_singleton_self w)

/-! ## New lists -/

theorem edge_alloc_of_ne (hc : c ≠ h.cells.size) : (h.alloc items).2.Edge c i d ↔ h.Edge c i d := by
  rw [Edge, Edge, items_alloc_of_ne hc]

theorem edge_alloc_new : (h.alloc items).2.Edge h.cells.size i d ↔ items[i]? = some (.list d) := by
  rw [Edge, items_alloc_new]

/-- Lists that stand nowhere may be the items of a new list, which then stands nowhere. -/
theorem Forest.alloc (hf : h.Forest) (hm : h.Made k items.toList) :
    (h.alloc items).2.Forest ∧ (h.alloc items).2.Made h.cells.size [(h.alloc items).1] := by
  have hitem {i : Nat} {d : CellId} (hd : items[i]? = some (.list d)) :
      k ≤ d ∧ d < h.cells.size ∧ ∀ c i, ¬ h.Edge c i d :=
    hm.root d (Array.mem_toList_iff.mpr (Array.mem_of_getElem? hd))
  refine ⟨⟨fun c hc => ?_, fun c c' i i' d he he' => ?_⟩, fun d hd => ?_, List.pairwise_singleton _ _⟩
  · rw [size_alloc] at hc
    rcases Nat.lt_succ_iff_lt_or_eq.mp hc with hc | rfl
    · exact grounded_alloc (hf.grounded c hc)
    · refine .list (by rw [size_alloc]; exact Nat.lt_succ_self _) fun v hv => ?_
      rw [items_alloc_new] at hv
      exact grounded_alloc (hf.grounded_of_has (hm.has (Array.mem_toList_iff.mpr hv)))
  · by_cases hc : c = h.cells.size <;> by_cases hc' : c' = h.cells.size
    · subst hc hc'
      rw [edge_alloc_new] at he he'
      rw [← Array.getElem?_toList] at he he'
      exact ⟨rfl, hm.unique he he'⟩
    · subst hc
      rw [edge_alloc_new] at he
      rw [edge_alloc_of_ne hc'] at he'
      exact absurd he' ((hitem he).2.2 c' i')
    · subst hc'
      rw [edge_alloc_of_ne hc] at he
      rw [edge_alloc_new] at he'
      exact absurd he ((hitem he').2.2 c i)
    · rw [edge_alloc_of_ne hc] at he
      rw [edge_alloc_of_ne hc'] at he'
      exact hf.unique c c' i i' d he he'
  · obtain rfl : d = h.cells.size := Value.list.inj (List.mem_singleton.mp hd)
    refine ⟨Nat.le_refl _, by rw [size_alloc]; exact Nat.lt_succ_self _, fun c i he => ?_⟩
    by_cases hc : c = h.cells.size
    · subst hc
      rw [edge_alloc_new] at he
      exact Nat.lt_irrefl _ (hitem he).2.1
    · rw [edge_alloc_of_ne hc] at he
      exact Nat.lt_irrefl _ (hf.lt_size_of_edge he)

theorem Grows.alloc (hg : Grows h h') (hk : h.cells.size ≤ k) (hm : h'.Made k items.toList) :
    Grows h (h'.alloc items).2 where
  size := by
    rw [size_alloc]
    exact Nat.le_succ_of_le hg.size
  edge c i d hd he := by
    by_cases hc : c = h'.cells.size
    · subst hc
      rw [edge_alloc_new] at he
      have hle := (hm.root d (Array.mem_toList_iff.mpr (Array.mem_of_getElem? he))).1
      exact absurd (Nat.le_trans hk hle) (Nat.not_le_of_lt hd)
    · rw [edge_alloc_of_ne hc] at he
      exact hg.edge c i d hd he

/-! ## New items -/

theorem stores_push (old : Array Value) (w : Value) : Stores old (old.push w) w := by
  refine ⟨old.size, fun i v hv => ?_⟩
  rw [Array.getElem?_push] at hv
  split at hv
  · next hi => exact .inr ⟨hi, (Option.some.inj hv).symm⟩
  · exact .inl hv

theorem stores_setIfInBounds (old : Array Value) (k : Nat) (w : Value) :
    Stores old (old.setIfInBounds k w) w := by
  refine ⟨k, fun i v hv => ?_⟩
  rw [Array.getElem?_setIfInBounds] at hv
  split at hv
  · next hi =>
    split at hv
    · exact .inr ⟨hi.symm, (Option.some.inj hv).symm⟩
    · cases hv
  · exact .inl hv

theorem stores_pop (old : Array Value) (w : Value) : Stores old old.pop w := by
  refine ⟨0, fun i v hv => .inl ?_⟩
  rw [Array.getElem?_pop] at hv
  split at hv
  · exact hv
  · cases hv

/-- A place after new items have been stored is an old one, or that of the new item. -/
theorem edge_update {f : Array Value → Array Value} (hf : Stores (h.items c) (f (h.items c)) w) :
    ∃ k, ∀ c' i d, (h.update c f).Edge c' i d → h.Edge c' i d ∨ c' = c ∧ i = k ∧ w = .list d := by
  obtain ⟨k, hk⟩ := hf
  refine ⟨k, fun c' i d he => ?_⟩
  by_cases hc : c' = c
  · subst hc
    have hlt := lt_size_of_mem he.mem
    rw [size_update] at hlt
    rw [Edge, items_update_self hlt] at he
    exact (hk i _ he).imp_right fun ⟨hi, hv⟩ => ⟨rfl, hi, hv.symm⟩
  · rw [Edge, items_update_of_ne hc] at he
    exact .inl he

/-- A loose value may be stored in a list that is older than it. -/
theorem Forest.update {f : Array Value → Array Value} (hf : h.Forest)
    (hs : Stores (h.items c) (f (h.items c)) w) (hw : h.Loose k w) (hc : c < k) :
    (h.update c f).Forest where
  grounded c' hc' := by
    rw [size_update] at hc'
    have hground : (h.update c f).Grounded w :=
      (hf.grounded_of_has hw.has).update_of_not_reaches (hw.apart c hc)
    refine (hf.grounded c' hc').update fun v hv => ?_
    obtain ⟨i, hi⟩ := Array.getElem?_of_mem hv
    obtain ⟨k, hk⟩ := hs
    rcases hk i v hi with hold | ⟨-, rfl⟩
    · exact .inl (Array.mem_of_getElem? hold)
    · exact .inr hground
  unique c₁ c₂ i₁ i₂ d h₁ h₂ := by
    obtain ⟨k, hk⟩ := edge_update hs
    have hfree (hd : w = .list d) : ∀ c i, ¬ h.Edge c i d :=
      (hw.made.root d (hd ▸ List.mem_singleton_self w)).2.2
    -- What is stored stood nowhere, so no old place is one of it, and there is only one new place.
    rcases hk c₁ i₁ d h₁ with hold₁ | ⟨rfl, rfl, hd⟩ <;>
      rcases hk c₂ i₂ d h₂ with hold₂ | ⟨rfl, rfl, hd'⟩
    · exact hf.unique c₁ c₂ i₁ i₂ d hold₁ hold₂
    · exact absurd hold₁ (hfree hd' c₁ i₁)
    · exact absurd hold₂ (hfree hd c₂ i₂)
    · exact ⟨rfl, rfl⟩

theorem Grows.update {f : Array Value → Array Value} (hg : Grows h h')
    (hs : Stores (h'.items c) (f (h'.items c)) w) (hw : h'.Loose h.cells.size w) :
    Grows h (h'.update c f) where
  size := by
    rw [size_update]
    exact hg.size
  edge c' i d hd he := by
    obtain ⟨k, hk⟩ := edge_update hs
    rcases hk c' i d he with he | ⟨-, -, rfl⟩
    · exact hg.edge c' i d hd he
    · exact absurd (hw.made.root d (List.mem_singleton_self _)).1 (Nat.not_le_of_lt hd)

/-! ## Copies -/

/-- Making some values has left a forest, in which they stand nowhere. -/
structure MadeBy (h : Heap) (vs : List Value) (h' : Heap) : Prop where
  ext : Extends h h'
  forest : h'.Forest
  made : h'.Made h.cells.size vs

theorem mapM_madeBy {f : Value → StateM Heap Value}
    (hf : ∀ v (h : Heap), h.Forest → MadeBy h [(f v h).1] (f v h).2) (vs : List Value)
    (h : Heap) (hforest : h.Forest) : MadeBy h (vs.mapM f h).1 (vs.mapM f h).2 := by
  induction vs generalizing h with
  | nil => exact ⟨.refl h, hforest, .nil⟩
  | cons v vs ih =>
    rw [mapM_cons_eq]
    have hv := hf v h hforest
    have hvs := ih (f v h).2 hv.forest
    exact ⟨hv.ext.trans hvs.ext, hvs.forest,
      hv.made.append hvs.ext.grows hv.ext.size hvs.made⟩

theorem madeBy_scalar (hf : h.Forest) (hw : w.isList = false) : MadeBy h [w] h :=
  ⟨.refl h, hf, .scalar hw⟩

theorem copyWith_madeBy (fuel : Nat) (v : Value) (h : Heap) (hf : h.Forest) :
    MadeBy h [(copyWith fuel v h).1] (copyWith fuel v h).2 := by
  induction fuel generalizing v h with
  | zero =>
    cases v with
    | list c =>
      have hnone : h.Made h.cells.size (#[] : Array Value).toList := .nil
      obtain ⟨hforest, hmade⟩ := hf.alloc hnone
      exact ⟨(copyWith_spec 0 (.list c) h).1, hforest, hmade⟩
    | _ => exact madeBy_scalar hf rfl
  | succ fuel ih =>
    cases v with
    | list c =>
      have hext : Extends h (copyWith (fuel + 1) (.list c) h).2 := (copyWith_spec _ _ h).1
      have hitems := mapM_madeBy ih (h.items c).toList h hf
      have hmade : Made _ h.cells.size ((h.items c).toList.mapM (copyWith fuel) h).1.toArray.toList :=
        hitems.made
      obtain ⟨hforest, hmade⟩ := hitems.forest.alloc hmade
      rw [copyWith_list] at hext ⊢
      exact ⟨hext, hforest, hmade.of_le hitems.ext.size⟩
    | _ => exact madeBy_scalar hf rfl

theorem copy_madeBy (v : Value) (hf : h.Forest) : MadeBy h [(h.copy v).1] (h.copy v).2 :=
  copyWith_madeBy h.cells.size v h hf

theorem copy_loose (v : Value) (hf : h.Forest) : (h.copy v).2.Loose h.cells.size (h.copy v).1 where
  made := (copy_madeBy v hf).made
  apart c hc hr := Nat.not_le_of_lt hc ((copy_spec v h).2.le c hr)

/-- Some copies of a value, after others that have been made. -/
theorem copies_made {h₀ : Heap} (v : Value) (n : Nat) (done : Array Value) (hf : h.Forest)
    (hg : Grows h₀ h) (hm : h.Made h₀.cells.size done.toList) :
    Grows h₀ (copies v n done h).2 ∧ (copies v n done h).2.Forest ∧
      (copies v n done h).2.Made h₀.cells.size (copies v n done h).1.toList := by
  induction n generalizing done h with
  | zero => exact ⟨hg, hf, hm⟩
  | succ n ih =>
    have hcopy := copy_madeBy v hf
    refine ih (done.push (h.copy v).1) hcopy.forest (hg.trans hcopy.ext.grows) ?_
    rw [Array.toList_push]
    exact hm.append hcopy.ext.grows hg.size hcopy.made

end Heap

end CallTrace
