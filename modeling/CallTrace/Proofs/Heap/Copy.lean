import CallTrace.Proofs.Heap.Reach

/-! # Copies

* `Heap.Extends h h'`: the cells of `h` are the same in `h'`, and the new ones hold no list of `h`.
* `Heap.Fresh h k v`: the value `v` is grounded and all of its cells are new since there were `k` cells.
* `Heap.copy_spec`: a copy extends the heap, and is fresh. So it shares no cell with anything that was there.
-/

namespace CallTrace
set_option autoImplicit false

namespace Heap

/-- The cells that there were are the same, and the new ones hold none of them. -/
structure Extends (h h' : Heap) : Prop where
  size : h.cells.size ≤ h'.cells.size
  old : ∀ c < h.cells.size, h'.items c = h.items c
  new : ∀ c, h.cells.size ≤ c → ∀ d, Value.list d ∈ h'.items c → h.cells.size ≤ d

/-- A grounded value without cells below `k`. -/
structure Fresh (h : Heap) (k : Nat) (v : Value) : Prop where
  grounded : h.Grounded v
  le : ∀ c, h.Reaches v c → k ≤ c

variable {h h' : Heap} {v : Value} {c : CellId} {k : Nat} {items : Array Value}

/-! ## Extensions -/

namespace Extends

theorem refl (h : Heap) : Extends h h := by
  refine ⟨Nat.le_refl _, fun _ _ => rfl, fun c hc d hd => ?_⟩
  exact absurd (lt_size_of_mem hd) (Nat.not_lt_of_le hc)

theorem trans {h'' : Heap} (e : Extends h h') (e' : Extends h' h'') : Extends h h'' := by
  refine ⟨Nat.le_trans e.size e'.size, fun c hc => ?_, fun c hc d hd => ?_⟩
  · rw [e'.old c (Nat.lt_of_lt_of_le hc e.size), e.old c hc]
  · rcases Nat.lt_or_ge c h'.cells.size with hlt | hge
    · rw [e'.old c hlt] at hd
      exact e.new c hc d hd
    · exact Nat.le_trans e.size (e'.new c hge d hd)

theorem reaches_iff (e : Extends h h') (hg : h.Grounded v) : h'.Reaches v c ↔ h.Reaches v c :=
  Reaches.congr fun d hd => e.old d (hg.lt_size hd)

theorem grounded (e : Extends h h') (hg : h.Grounded v) : h'.Grounded v :=
  hg.congr e.size fun d hd => e.old d (hg.lt_size hd)

theorem fresh (e : Extends h h') (hf : h.Fresh k v) : h'.Fresh k v :=
  ⟨e.grounded hf.grounded, fun c hc => hf.le c ((e.reaches_iff hf.grounded).mp hc)⟩

end Extends

theorem Fresh.scalar (hv : v.isList = false) : h.Fresh k v :=
  ⟨.scalar hv, fun _ hr => absurd hr (Reaches.not_scalar hv)⟩

theorem Fresh.le_of_list (hf : h.Fresh k (.list c)) : k ≤ c := hf.le c .here

theorem Fresh.of_le {l : Nat} (hf : h.Fresh k v) (hl : l ≤ k) : h.Fresh l v :=
  ⟨hf.grounded, fun c hc => Nat.le_trans hl (hf.le c hc)⟩

/-! ## New lists -/

theorem items_alloc_of_ne (hc : c ≠ h.cells.size) : (h.alloc items).2.items c = h.items c := by
  rcases Nat.lt_or_ge c h.cells.size with hlt | hge
  · exact items_alloc_of_lt hlt items
  · have hge' : (h.alloc items).2.cells.size ≤ c := by
      rw [size_alloc]
      exact Nat.lt_of_le_of_ne hge (Ne.symm hc)
    rw [items_eq_empty hge, items_eq_empty hge']

theorem grounded_alloc (hg : h.Grounded v) : (h.alloc items).2.Grounded v :=
  hg.congr (by rw [size_alloc]; exact Nat.le_succ _) fun _ hd => items_alloc_of_lt (hg.lt_size hd) items

theorem reaches_alloc (hg : h.Grounded v) : (h.alloc items).2.Reaches v c ↔ h.Reaches v c :=
  Reaches.congr fun _ hd => items_alloc_of_lt (hg.lt_size hd) items

theorem fresh_alloc (hk : k ≤ h.cells.size) (hitems : ∀ v ∈ items, h.Fresh k v) :
    (h.alloc items).2.Fresh k (h.alloc items).1 := by
  constructor
  · refine .list (by rw [size_alloc]; exact Nat.lt_succ_self _) fun v hv => ?_
    rw [items_alloc_new] at hv
    exact grounded_alloc (hitems v hv).grounded
  · intro c hr
    cases hr with
    | here => exact hk
    | item hv hr =>
      rw [items_alloc_new] at hv
      exact (hitems _ hv).le c ((reaches_alloc (hitems _ hv).grounded).mp hr)

theorem Extends.alloc {h₀ : Heap} (e : Extends h₀ h) (hitems : ∀ v ∈ items, h.Fresh h₀.cells.size v) :
    Extends h₀ (h.alloc items).2 := by
  refine ⟨by rw [size_alloc]; exact Nat.le_succ_of_le e.size, fun c hc => ?_, fun c hc d hd => ?_⟩
  · rw [items_alloc_of_lt (Nat.lt_of_lt_of_le hc e.size), e.old c hc]
  · by_cases hne : c = h.cells.size
    · subst hne
      rw [items_alloc_new] at hd
      exact (hitems _ hd).le_of_list
    · rw [items_alloc_of_ne hne] at hd
      exact e.new c hc d hd

/-! ## Copies -/

/-- What making a value and a heap from the heap `h` has to fulfil. -/
def Copied (h : Heap) (r : Value × Heap) : Prop := Extends h r.2 ∧ r.2.Fresh h.cells.size r.1

theorem mapM_cons_eq {f : Value → StateM Heap Value} (v : Value) (vs : List Value) (h : Heap) :
    (v :: vs).mapM f h = ((f v h).1 :: (vs.mapM f (f v h).2).1, (vs.mapM f (f v h).2).2) := by
  rw [List.mapM_cons]
  rfl

theorem mapM_copied {f : Value → StateM Heap Value} (hf : ∀ v h, Copied h (f v h)) (vs : List Value)
    (h : Heap) : Extends h (vs.mapM f h).2 ∧ ∀ w ∈ (vs.mapM f h).1, (vs.mapM f h).2.Fresh h.cells.size w := by
  induction vs generalizing h with
  | nil => exact ⟨.refl h, fun _ hw => nomatch hw⟩
  | cons v vs ih =>
    rw [mapM_cons_eq]
    obtain ⟨e, hfresh⟩ := hf v h
    obtain ⟨e', hrest⟩ := ih (f v h).2
    refine ⟨e.trans e', fun w hw => ?_⟩
    rcases List.mem_cons.mp hw with rfl | hw
    · exact e'.fresh hfresh
    · exact (hrest w hw).of_le e.size

/-- The items of a list are copied one after the other, and then stored in a new cell. -/
theorem copyWith_list (fuel : Nat) (c : CellId) (h : Heap) :
    copyWith (fuel + 1) (.list c) h =
      ((h.items c).toList.mapM (copyWith fuel) h).2.alloc
        ((h.items c).toList.mapM (copyWith fuel) h).1.toArray := by
  simp only [copyWith, Array.mapM_eq_mapM_toList]
  rfl

theorem copyWith_spec (fuel : Nat) (v : Value) (h : Heap) : Copied h (copyWith fuel v h) := by
  induction fuel generalizing v h with
  | zero =>
    cases v with
    | list c =>
      have hitems : ∀ v ∈ (#[] : Array Value), h.Fresh h.cells.size v := by simp
      exact ⟨(Extends.refl h).alloc hitems, fresh_alloc (Nat.le_refl _) hitems⟩
    | _ => exact ⟨.refl h, .scalar rfl⟩
  | succ fuel ih =>
    cases v with
    | list c =>
      obtain ⟨e, hfresh⟩ := mapM_copied ih (h.items c).toList h
      have hitems : ∀ v ∈ ((h.items c).toList.mapM (copyWith fuel) h).1.toArray,
          ((h.items c).toList.mapM (copyWith fuel) h).2.Fresh h.cells.size v :=
        fun v hv => hfresh v (List.mem_toArray.mp hv)
      rw [copyWith_list]
      exact ⟨e.alloc hitems, fresh_alloc e.size hitems⟩
    | _ => exact ⟨.refl h, .scalar rfl⟩

/-- A copy shares no cell with anything that there was. -/
theorem copy_spec (v : Value) (h : Heap) : Copied h (h.copy v) := copyWith_spec h.cells.size v h

end Heap

end CallTrace
