import CallTrace.Heap
import Mathlib.Data.List.Perm.Subperm

/-! # What a value holds

* `Heap.Reaches h v c`: the cell `c` is the one of the value `v`, or one of something that it holds.
* `Heap.Grounded h v`: every cell that `v` reaches exists, and no list in it holds itself.
* `Reaches.congr`, `Grounded.congr`, `snapshot_congr`: what a value holds depends on nothing but the cells that
  it reaches.
* `Heap.Shallow h k v`: the lists of `v` are nested no deeper than `k`. A grounded value is nested no deeper than
  there are cells (`Grounded.shallow`), so its snapshot needs no more fuel than that.
-/

namespace CallTrace
set_option autoImplicit false

namespace Heap

/-- The cells of a value and of everything that it holds. -/
inductive Reaches (h : Heap) : Value → CellId → Prop where
  | here {c : CellId} : Reaches h (.list c) c
  | item {c d : CellId} {v : Value} (hv : v ∈ h.items c) (hd : Reaches h v d) : Reaches h (.list c) d

/-- A value whose cells exist and whose lists do not hold themselves. -/
inductive Grounded (h : Heap) : Value → Prop where
  | scalar {v : Value} (hv : v.isList = false) : Grounded h v
  | list {c : CellId} (hc : c < h.cells.size) (hitems : ∀ v ∈ h.items c, Grounded h v) :
      Grounded h (.list c)

variable {h h' : Heap} {v w : Value} {c d : CellId}

/-! ## Reaching -/

theorem Reaches.not_scalar (hv : v.isList = false) : ¬ h.Reaches v c := by
  intro hr
  cases hr with
  | here | item _ _ => cases hv

theorem Reaches.trans (hr : h.Reaches v c) (hr' : h.Reaches (.list c) d) : h.Reaches v d := by
  induction hr with
  | here => exact hr'
  | item hv _ ih => exact .item hv (ih hr')

/-- A list from which an existing cell can be reached exists. -/
theorem Reaches.lt_size (hr : h.Reaches (.list c) d) (hd : d < h.cells.size) : c < h.cells.size := by
  cases hr with
  | here => exact hd
  | item hv _ => exact lt_size_of_mem hv

theorem Grounded.lt_size (hg : h.Grounded v) (hr : h.Reaches v c) : c < h.cells.size := by
  induction hr with
  | here =>
    cases hg with
    | scalar hv => cases hv
    | list hc _ => exact hc
  | item hv _ ih =>
    cases hg with
    | scalar hs => cases hs
    | list _ hitems => exact ih (hitems _ hv)

/-- A list inside a grounded value does not hold itself. -/
theorem Grounded.irrefl (hg : h.Grounded v) (hr : h.Reaches v c) (hw : w ∈ h.items c) :
    ¬ h.Reaches w c := by
  induction hg generalizing c w with
  | scalar hv => exact absurd hr (Reaches.not_scalar hv)
  | list hc hitems ih =>
    cases hr with
    | here => exact fun hback => ih w hw hback hw hback
    | item hv hd => exact ih _ hv hd hw

/-! ## Cells that stay the same -/

theorem Reaches.congr (hsame : ∀ d, h.Reaches v d → h'.items d = h.items d) :
    h'.Reaches v c ↔ h.Reaches v c := by
  constructor
  · intro hr
    induction hr with
    | here => exact .here
    | item hv _ ih =>
      rw [hsame _ .here] at hv
      exact .item hv (ih fun d hd => hsame d (.item hv hd))
  · intro hr
    induction hr with
    | here => exact .here
    | item hv _ ih =>
      refine .item ?_ (ih fun d hd => hsame d (.item hv hd))
      rw [hsame _ .here]
      exact hv

theorem Grounded.congr (hg : h.Grounded v) (hsize : h.cells.size ≤ h'.cells.size)
    (hsame : ∀ d, h.Reaches v d → h'.items d = h.items d) : h'.Grounded v := by
  induction hg with
  | scalar hv => exact .scalar hv
  | list hc _ ih =>
    refine .list (Nat.lt_of_lt_of_le hc hsize) fun v hv => ?_
    rw [hsame _ .here] at hv
    exact ih v hv fun d hd => hsame d (.item hv hd)

/-! ## Cells that are changed -/

theorem mem_of_mem_pop {items : Array Value} (hv : v ∈ items.pop) : v ∈ items := by
  rw [← Array.mem_toList_iff, Array.toList_pop] at hv
  exact Array.mem_toList_iff.mp (List.dropLast_subset _ hv)

/-- What is reached after new values have been stored in the cell `c`. -/
theorem reaches_update {f : Array Value → Array Value} {p : Value → Prop}
    (hnew : ∀ w ∈ f (h.items c), w ∈ h.items c ∨ p w) (hr : (h.update c f).Reaches v d) :
    h.Reaches v d ∨ h.Reaches v c ∧ ∃ w, p w ∧ h.Reaches w d := by
  induction hr with
  | here => exact .inl .here
  | @item c' d v hv _ ih =>
    have hold (hv : v ∈ h.items c') : h.Reaches (.list c') d ∨
        h.Reaches (.list c') c ∧ ∃ w, p w ∧ h.Reaches w d :=
      ih.imp (.item hv) (And.imp_left (.item hv))
    by_cases hc : c' = c
    · subst hc
      have hlt : c' < h.cells.size := by
        have hlt := lt_size_of_mem hv
        rwa [size_update] at hlt
      rw [items_update_self hlt] at hv
      rcases hnew v hv with hv | hv
      · exact hold hv
      · rcases ih with hr | ⟨-, hw⟩
        · exact .inr ⟨.here, v, hv, hr⟩
        · exact .inr ⟨.here, hw⟩
    · rw [items_update_of_ne hc] at hv
      exact hold hv

theorem Grounded.update {f : Array Value → Array Value}
    (hnew : ∀ w ∈ f (h.items c), w ∈ h.items c ∨ (h.update c f).Grounded w) (hg : h.Grounded v) :
    (h.update c f).Grounded v := by
  induction hg with
  | scalar hv => exact .scalar hv
  | @list c' hc' _ ih =>
    refine .list (by rw [size_update]; exact hc') fun v hv => ?_
    by_cases hc : c' = c
    · subst hc
      rw [items_update_self hc'] at hv
      exact (hnew v hv).elim (ih v) id
    · rw [items_update_of_ne hc] at hv
      exact ih v hv

/-- A value that does not reach a cell does not change with it. -/
theorem Grounded.update_of_not_reaches {f : Array Value → Array Value} (hg : h.Grounded v)
    (hc : ¬ h.Reaches v c) : (h.update c f).Grounded v :=
  hg.congr (Nat.le_of_eq (size_update h c f).symm) fun d hd =>
    have hne : d ≠ c := fun he => hc (he ▸ hd)
    items_update_of_ne hne f

/-! ## Depth -/

/-- The lists of a value are nested no deeper than `k`. -/
inductive Shallow (h : Heap) : Nat → Value → Prop where
  | scalar {k : Nat} {v : Value} (hv : v.isList = false) : Shallow h k v
  | list {k : Nat} {c : CellId} (hitems : ∀ v ∈ h.items c, Shallow h k v) :
      Shallow h (k + 1) (.list c)

/-- A grounded value is nested no deeper than there are cells. `above` are the cells on the way to the value:
they are not reached again, so the lists below them are nested no deeper than there are other cells. -/
theorem Grounded.shallow_of_above (hg : h.Grounded v) {above : List CellId} (hnodup : above.Nodup)
    (habove : ∀ c ∈ above, c < h.cells.size ∧ ¬ h.Reaches v c) {k : Nat}
    (hle : h.cells.size ≤ above.length + k) : h.Shallow k v := by
  induction hg generalizing above k with
  | scalar hv => exact .scalar hv
  | @list c hc hitems ih =>
    have hnodup' : (c :: above).Nodup :=
      List.nodup_cons.mpr ⟨fun hm => (habove c hm).2 .here, hnodup⟩
    have hlength : (c :: above).length ≤ h.cells.size := by
      have hsub : c :: above ⊆ List.range h.cells.size := by
        intro d hd
        rcases List.mem_cons.mp hd with rfl | hd
        · exact List.mem_range.mpr hc
        · exact List.mem_range.mpr (habove d hd).1
      have hle := (hnodup'.subperm hsub).length_le
      rwa [List.length_range] at hle
    have habove' (v : Value) (hv : v ∈ h.items c) (d : CellId) (hd : d ∈ c :: above) :
        d < h.cells.size ∧ ¬ h.Reaches v d := by
      rcases List.mem_cons.mp hd with rfl | hd
      · exact ⟨hc, (Grounded.list hc hitems).irrefl .here hv⟩
      · exact ⟨(habove d hd).1, fun hr => (habove d hd).2 (.item hv hr)⟩
    rw [List.length_cons] at hlength
    obtain ⟨k, rfl⟩ : ∃ l, k = l + 1 := ⟨k - 1, by omega⟩
    refine .list fun v hv => ih v hv hnodup' (habove' v hv) ?_
    rw [List.length_cons]
    omega

theorem Grounded.shallow (hg : h.Grounded v) : h.Shallow h.cells.size v :=
  hg.shallow_of_above List.nodup_nil (fun _ hc => nomatch hc) (by simp)

/-! ## Snapshots -/

theorem snapshotWith_of_scalar (hv : v.isList = false) (fuel fuel' : Nat) :
    h.snapshotWith fuel v = h'.snapshotWith fuel' v := by
  cases v with
  | list c => cases hv
  | _ => simp only [snapshotWith]

/-- More fuel makes no difference. -/
theorem snapshotWith_of_shallow {k : Nat} (hs : h.Shallow k v) {fuel : Nat} (hle : k ≤ fuel) :
    h.snapshotWith fuel v = h.snapshotWith k v := by
  induction hs generalizing fuel with
  | scalar hv => exact snapshotWith_of_scalar hv fuel _
  | list _ ih =>
    obtain ⟨fuel, rfl⟩ : ∃ l, fuel = l + 1 := ⟨fuel - 1, by omega⟩
    simp only [snapshotWith, Snapshot.list.injEq]
    exact List.map_congr_left fun v hv => ih v (Array.mem_toList_iff.mp hv) (Nat.le_of_succ_le_succ hle)

theorem snapshotWith_congr {fuel : Nat} (hsame : ∀ d, h.Reaches v d → h'.items d = h.items d) :
    h'.snapshotWith fuel v = h.snapshotWith fuel v := by
  induction fuel generalizing v with
  | zero =>
    cases v with
    | list c => simp only [snapshotWith]
    | _ => exact snapshotWith_of_scalar rfl 0 0
  | succ fuel ih =>
    cases v with
    | list c =>
      simp only [snapshotWith, hsame c .here, Snapshot.list.injEq]
      refine List.map_congr_left fun v hv => ih fun d hd => hsame d (.item ?_ hd)
      exact Array.mem_toList_iff.mp hv
    | _ => exact snapshotWith_of_scalar rfl _ _

/-- A value whose cells stay the same has the same snapshot. -/
theorem snapshot_congr (hg : h.Grounded v) (hsize : h.cells.size ≤ h'.cells.size)
    (hsame : ∀ d, h.Reaches v d → h'.items d = h.items d) : h'.snapshot v = h.snapshot v := by
  rw [snapshot, snapshot, snapshotWith_congr hsame]
  exact snapshotWith_of_shallow hg.shallow hsize

end Heap

end CallTrace
