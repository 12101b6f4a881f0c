import CallTrace.Proofs.Heap.Copy

/-! # Walks through a value

The walks that record a value, write it, copy it and compare it take fuel for every list that they enter.

* `Heap.Walks h v`: none of them uses more fuel than there are cells, so each comes to its end.
* `Grounded.walks`: this is so for a grounded value.
-/

namespace CallTrace
set_option autoImplicit false

namespace Heap

variable {h h' : Heap} {v w : Value} {k fuel : Nat}

/-! ## Texts and comparisons -/

theorem textWith_of_scalar (hv : v.isList = false) (fuel : Nat) :
    h.textWith fuel v = v.scalarText := by
  cases v with
  | list c => cases hv
  | _ => simp only [textWith]

theorem textWith_of_shallow (hs : h.Shallow k v) (hle : k ≤ fuel) :
    h.textWith fuel v = h.textWith k v := by
  induction hs generalizing fuel with
  | scalar hv => rw [textWith_of_scalar hv, textWith_of_scalar hv]
  | list _ ih =>
    obtain ⟨fuel, rfl⟩ : ∃ l, fuel = l + 1 := ⟨fuel - 1, by omega⟩
    have hitems := List.map_congr_left fun v hv =>
      ih v (Array.mem_toList_iff.mp hv) (Nat.le_of_succ_le_succ hle)
    simp only [textWith, hitems]

/-- A value whose cells stay the same has the same text. -/
theorem text_congr (hg : h.Grounded v) (hsize : h.cells.size ≤ h'.cells.size)
    (hsame : ∀ c < h.cells.size, h'.items c = h.items c) : h'.text v = h.text v := by
  have hwith (fuel : Nat) : h'.textWith fuel v = h.textWith fuel v := by
    induction hg generalizing fuel with
    | scalar hv => rw [textWith_of_scalar hv, textWith_of_scalar hv]
    | @list c hc _ ih =>
      cases fuel with
      | zero => simp only [textWith]
      | succ fuel =>
        have hitems := List.map_congr_left fun v hv => ih v (Array.mem_toList_iff.mp hv) fuel
        simp only [textWith, hsame c hc, hitems]
  rw [text, text, hwith]
  exact textWith_of_shallow hg.shallow hsize

theorem equalWith_of_scalar (hv : v.isList = false) (fuel : Nat) :
    h.equalWith fuel v w = v.scalarEq w := by
  cases v with
  | list c => cases hv
  | _ => simp only [equalWith]

theorem equalWith_list_of_scalar {c : CellId} (hw : w.isList = false) (fuel : Nat) :
    h.equalWith fuel (.list c) w = (Value.list c).scalarEq w := by
  cases w with
  | list c => cases hw
  | _ => cases fuel <;> simp only [equalWith]

/-- Two lists are equal when they have the same length and equal items in the same order. -/
theorem equalWith_list (fuel : Nat) (c d : CellId) :
    h.equalWith (fuel + 1) (.list c) (.list d) = ((h.items c).size == (h.items d).size &&
      ((h.items c).toList.zip (h.items d).toList).all fun p => h.equalWith fuel p.1 p.2) := rfl

/-- A comparison goes no deeper than the value on its left. -/
theorem equalWith_of_shallow (hs : h.Shallow k v) (w : Value) (hle : k ≤ fuel) :
    h.equalWith fuel v w = h.equalWith k v w := by
  induction hs generalizing fuel w with
  | scalar hv => rw [equalWith_of_scalar hv, equalWith_of_scalar hv]
  | @list k c _ ih =>
    cases hw : w.isList with
    | false => rw [equalWith_list_of_scalar hw, equalWith_list_of_scalar hw]
    | true =>
      obtain ⟨d, rfl⟩ : ∃ d, w = .list d := by
        cases w with
        | list d => exact ⟨d, rfl⟩
        | _ => cases hw
      obtain ⟨fuel, rfl⟩ : ∃ l, fuel = l + 1 := ⟨fuel - 1, by omega⟩
      have hitems : ((h.items c).toList.zip (h.items d).toList).all
            (fun p => h.equalWith fuel p.1 p.2) =
          ((h.items c).toList.zip (h.items d).toList).all (fun p => h.equalWith k p.1 p.2) := by
        rw [Bool.eq_iff_iff, List.all_eq_true, List.all_eq_true]
        refine forall₂_congr fun p hp => ?_
        have hx : p.1 ∈ h.items c := Array.mem_toList_iff.mp (List.of_mem_zip hp).1
        rw [ih p.1 hx p.2 (Nat.le_of_succ_le_succ hle)]
      rw [equalWith_list, equalWith_list, hitems]

/-! ## Copies -/

theorem copyWith_of_scalar (hv : v.isList = false) (fuel : Nat) : copyWith fuel v = pure v := by
  cases v with
  | list c => cases hv
  | _ => simp only [copyWith]

/-- More fuel makes no difference for a copy, which may have been preceded by others. -/
theorem copyWith_of_shallow {h₀ : Heap} (hs : h₀.Shallow k v) (hg : h₀.Grounded v)
    (he : Extends h₀ h) (hle : k ≤ fuel) : copyWith fuel v h = copyWith k v h := by
  induction hs generalizing fuel h with
  | scalar hv => rw [copyWith_of_scalar hv, copyWith_of_scalar hv]
  | @list k c _ ih =>
    obtain ⟨fuel, rfl⟩ : ∃ l, fuel = l + 1 := ⟨fuel - 1, by omega⟩
    cases hg with
    | scalar hv => cases hv
    | list hc hground =>
      have hmapM (vs : List Value) (hvs : ∀ v ∈ vs, v ∈ h₀.items c) (h : Heap) (he : Extends h₀ h) :
          vs.mapM (copyWith fuel) h = vs.mapM (copyWith k) h := by
        induction vs generalizing h with
        | nil => rfl
        | cons v vs ihs =>
          have hv : v ∈ h₀.items c := hvs v List.mem_cons_self
          have hone := ih v hv (hground v hv) he (Nat.le_of_succ_le_succ hle)
          have hrest := ihs (fun w hw => hvs w (List.mem_cons_of_mem v hw)) (copyWith k v h).2
            (he.trans (copyWith_spec k v h).1)
          rw [mapM_cons_eq, mapM_cons_eq, hone, hrest]
      have hitems := hmapM (h.items c).toList
        (fun v hv => he.old c hc ▸ Array.mem_toList_iff.mp hv) h he
      rw [copyWith_list, copyWith_list, hitems]

/-! ## All walks -/

/-- The walks through a value come to their end: its lists are nested no deeper than there are cells, and more
fuel than that makes no difference. -/
structure Walks (h : Heap) (v : Value) : Prop where
  shallow : h.Shallow h.cells.size v
  snapshot : ∀ fuel, h.cells.size ≤ fuel → h.snapshotWith fuel v = h.snapshot v
  text : ∀ fuel, h.cells.size ≤ fuel → h.textWith fuel v = h.text v
  copy : ∀ fuel, h.cells.size ≤ fuel → copyWith fuel v h = h.copy v
  equal : ∀ w fuel, h.cells.size ≤ fuel → h.equalWith fuel v w = h.equal v w

theorem Grounded.walks (hg : h.Grounded v) : h.Walks v where
  shallow := hg.shallow
  snapshot _ hle := snapshotWith_of_shallow hg.shallow hle
  text _ hle := textWith_of_shallow hg.shallow hle
  copy _ hle := copyWith_of_shallow hg.shallow hg (.refl h) hle
  equal w _ hle := equalWith_of_shallow hg.shallow w hle

end Heap

end CallTrace
