import CallTrace.Arithmetic
import CallTrace.Proofs.Heap.Forest
import CallTrace.Proofs.Heap.Walk
import Mathlib

/-! # Copies are faithful and separate

* `Heap.Acyclic h`: the items of lists exist, and no list holds itself. Then every value is grounded.
* `snapshotWith_copyWith`: a copy has the snapshot of its original.
* `equalWith_of_snapshotWith_eq`: values with the same snapshot are equal unless they hold a NaN.
* `reaches_of_new`: every cell that a copy has added is a cell of the copy.
* `Heap.Edits handles h h'`: appends, removals and writes of items through some handles and those that they
  lead to. `Apart`: nothing that the handles reach is a cell of a value; edits keep that and the snapshot.
* `Heap.copy_faithful_separate`: all of this for one copy.
-/

namespace CallTrace
set_option autoImplicit false

/-- A float that is not a NaN is equal to itself. -/
theorem beq_self_of_not_isNaN {x : Float} (hx : x.isNaN = false) : (x == x) = true := by
  rw [Float.isNaN_eq_decide_eq_nan, decide_eq_false_iff_not] at hx
  exact Float.beq_self_iff.mpr hx

namespace Heap

variable {h h' h₀ h₁ : Heap} {v w : Value} {c d : CellId} {k : Nat} {handles : CellId → Prop}

/-! ## Acyclic heaps -/

/-- The items of lists exist, and no list can be reached from one of its own items. -/
structure Acyclic (h : Heap) : Prop where
  has : ∀ c, ∀ v ∈ h.items c, h.Has v
  irrefl : ∀ c, ∀ v ∈ h.items c, ¬ h.Reaches v c

namespace Acyclic

/-- The cell `d` is inside the list `c`. -/
def Inside (h : Heap) (d c : Fin h.cells.size) : Prop := ∃ v ∈ h.items c, h.Reaches v d

theorem wellFounded_inside (hh : h.Acyclic) : WellFounded (Inside h) := by
  have htrans : IsTrans (Fin h.cells.size) (Inside h) :=
    ⟨fun _ _ _ ⟨_, hv, hd⟩ ⟨w, hw, hc⟩ => ⟨w, hw, hc.trans (.item hv hd)⟩⟩
  have hirrefl : Std.Irrefl (Inside h) := ⟨fun c ⟨v, hv, hr⟩ => hh.irrefl c v hv hr⟩
  exact Finite.wellFounded_of_trans_of_irrefl (Inside h)

/-- By induction on what is inside a list: there are finitely many cells, and none is inside itself. -/
theorem grounded (hh : h.Acyclic) (hv : h.Has v) : h.Grounded v := by
  have hlist (c : Fin h.cells.size) : h.Grounded (.list c) := by
    induction c using hh.wellFounded_inside.induction with
    | _ c ih =>
      refine .list c.isLt fun w hw => ?_
      cases w with
      | list d => exact ih ⟨d, hh.has c _ hw d rfl⟩ ⟨_, hw, .here⟩
      | _ => exact .scalar rfl
  cases v with
  | list c => exact hlist ⟨c, hv c rfl⟩
  | _ => exact .scalar rfl

/-- Where lists hold only lists that are older than they are, no list holds itself. -/
theorem of_older (holder : ∀ c d, .list d ∈ h.items c → d < c) : h.Acyclic where
  has c v hv d hd := by
    subst hd
    exact Nat.lt_trans (holder c d hv) (lt_size_of_mem hv)
  irrefl c v hv hr := by
    have hle {w : Value} {d : CellId} (hr : h.Reaches w d) : ∀ e, w = .list e → d ≤ e := by
      induction hr with
      | here => exact fun e he => Nat.le_of_eq (Value.list.inj he)
      | @item c' d v hv hd ih =>
        rintro e ⟨rfl⟩
        cases v with
        | list e' => exact Nat.le_trans (ih e' rfl) (Nat.le_of_lt (holder c' e' hv))
        | _ => exact absurd hd (Reaches.not_scalar rfl)
    cases v with
    | list d => exact Nat.not_lt_of_le (hle hr d rfl) (holder c d hv)
    | _ => exact Reaches.not_scalar rfl hr

end Acyclic

/-! ## The snapshot of a copy -/

theorem snapshotWith_list (fuel : Nat) (c : CellId) :
    h.snapshotWith (fuel + 1) (.list c) = .list ((h.items c).toList.map (h.snapshotWith fuel)) := by
  rw [snapshotWith]

/-- The snapshot of a new list is made of those of its items. -/
theorem snapshotWith_alloc {items : Array Value} (hitems : ∀ v ∈ items, h.Grounded v) (fuel : Nat) :
    (h.alloc items).2.snapshotWith (fuel + 1) (h.alloc items).1 =
      .list (items.toList.map (h.snapshotWith fuel)) := by
  have hlist := (h.alloc items).2.snapshotWith_list fuel h.cells.size
  rw [items_alloc_new] at hlist
  refine hlist.trans (congrArg Snapshot.list (List.map_congr_left fun v hv => ?_))
  have hg := hitems v (Array.mem_toList_iff.mp hv)
  exact snapshotWith_congr fun d hd => items_alloc_of_lt (hg.lt_size hd) items

theorem Extends.snapshotWith_eq (e : Extends h h') (hg : h.Grounded v) (fuel : Nat) :
    h'.snapshotWith fuel v = h.snapshotWith fuel v :=
  snapshotWith_congr fun d hd => e.old d (hg.lt_size hd)

/-- Copies that are made one after the other: each keeps the snapshot that it had when it was made. -/
theorem snapshotWith_mapM_copyWith {fuel : Nat} {vs : List Value}
    (hone : ∀ v ∈ vs, ∀ h, Extends h₀ h →
      (copyWith fuel v h).2.snapshotWith fuel (copyWith fuel v h).1 = h₀.snapshotWith fuel v)
    (e : Extends h₀ h) :
    (vs.mapM (copyWith fuel) h).1.map ((vs.mapM (copyWith fuel) h).2.snapshotWith fuel) =
      vs.map (h₀.snapshotWith fuel) := by
  induction vs generalizing h with
  | nil => rfl
  | cons v vs ih =>
    obtain ⟨e₁, hfresh⟩ := copyWith_spec fuel v h
    obtain ⟨e₂, -⟩ := mapM_copied (copyWith_spec fuel) vs (copyWith fuel v h).2
    have hhead := (e₂.snapshotWith_eq hfresh.grounded fuel).trans (hone v List.mem_cons_self h e)
    have htail := ih (fun w hw => hone w (List.mem_cons_of_mem v hw)) (e.trans e₁)
    rw [mapM_cons_eq, List.map_cons, List.map_cons, hhead, htail]

/-- By induction on the fuel, with copies that have been made before. -/
theorem snapshotWith_copyWith (hg : h₀.Grounded v) (fuel : Nat) (e : Extends h₀ h) :
    (copyWith fuel v h).2.snapshotWith fuel (copyWith fuel v h).1 = h₀.snapshotWith fuel v := by
  induction fuel generalizing v h with
  | zero =>
    cases v with
    | list c => rfl
    | _ => rfl
  | succ fuel ih =>
    cases hg with
    | scalar hv =>
      rw [copyWith_of_scalar hv]
      exact snapshotWith_of_scalar hv _ _
    | @list c hc hitems =>
      have hcopies := mapM_copied (copyWith_spec fuel) (h.items c).toList h
      have hall := snapshotWith_mapM_copyWith
        (fun w hw h e => ih (hitems w (Array.mem_toList_iff.mp hw)) e) e
      rw [copyWith_list, snapshotWith_alloc, snapshotWith_list, e.old c hc, hall]
      exact fun v hv => (hcopies.2 v (List.mem_toArray.mp hv)).grounded

theorem snapshot_copy (hg : h.Grounded v) : (h.copy v).2.snapshot (h.copy v).1 = h.snapshot v := by
  obtain ⟨e, -⟩ := copy_spec v h
  have hcopy : copyWith (h.copy v).2.cells.size v h = h.copy v := hg.walks.copy _ e.size
  have hsame := snapshotWith_copyWith hg (h.copy v).2.cells.size (.refl h)
  rw [hcopy, hg.walks.snapshot _ e.size] at hsame
  exact hsame

/-! ## Equality with a copy -/

/-- A value and everything that it holds. -/
inductive Contains (h : Heap) : Value → Value → Prop
  | self (v : Value) : Contains h v v
  | item {c : CellId} {v w : Value} (hv : v ∈ h.items c) (hw : Contains h v w) : Contains h (.list c) w

/-- No float in the value is a NaN. -/
def NoNaN (h : Heap) (v : Value) : Prop := ∀ x, h.Contains v (.float x) → x.isNaN = false

/-- It is enough that the value and the items of all lists are no NaN. -/
theorem NoNaN.of_items (hv : ∀ x, v = .float x → x.isNaN = false)
    (hitems : ∀ c, ∀ w ∈ h.items c, ∀ x, w = .float x → x.isNaN = false) : h.NoNaN v := by
  intro x hx
  generalize hfloat : Value.float x = w at hx
  induction hx with
  | self v => exact hv x hfloat.symm
  | item hm _ ih => exact ih (hitems _ _ hm) hfloat

theorem NoNaN.item (hn : h.NoNaN (.list c)) (hv : v ∈ h.items c) : h.NoNaN v :=
  fun x hx => hn x (.item hv hx)

theorem Extends.noNaN (e : Extends h h') (hg : h.Grounded v) (hn : h.NoNaN v) : h'.NoNaN v := by
  intro x hx
  refine hn x ?_
  clear hn
  generalize Value.float x = w at hx
  induction hx with
  | self v => exact .self v
  | @item c v w hv _ ih =>
    cases hg with
    | scalar hs => cases hs
    | list hc hitems =>
      rw [e.old c hc] at hv
      exact .item hv (ih (hitems v hv))

theorem scalarEq_self (hv : v.isList = false) (hn : h.NoNaN v) : v.scalarEq v = true := by
  cases v with
  | undefined => rfl
  | bool b => exact beq_self_eq_true b
  | int n => exact beq_self_eq_true n
  | float x => exact beq_self_of_not_isNaN (hn x (.self _))
  | str s => exact beq_self_eq_true s
  | list c => cases hv

theorem eq_of_snapshotWith_eq_scalar {fuel : Nat} (hv : v.isList = false)
    (heq : h.snapshotWith fuel w = h.snapshotWith fuel v) : w = v := by
  cases v with
  | list c => cases hv
  | _ => cases w <;> cases fuel <;> simp_all [snapshotWith]

/-- Items at the same position have the same snapshot. -/
theorem snapshot_eq_of_mem_zip {f : Value → Snapshot} {xs ys : List Value} (h : xs.map f = ys.map f)
    {p : Value × Value} (hp : p ∈ xs.zip ys) : f p.1 = f p.2 := by
  obtain ⟨i, hi, rfl⟩ := List.getElem_of_mem hp
  have hx : i < (xs.map f).length := by
    rw [List.length_map]
    exact Nat.lt_of_lt_of_le hi (by rw [List.length_zip]; exact Nat.min_le_left _ _)
  have hat := List.getElem_of_eq h hx
  rw [List.getElem_map, List.getElem_map] at hat
  rw [List.getElem_zip]
  exact hat

/-- By induction on how lists are nested: values with the same snapshot have the same kind, and lists the
same number of items. -/
theorem equalWith_of_snapshotWith_eq (hs : h.Shallow k v) (hn : h.NoNaN v)
    (heq : h.snapshotWith k w = h.snapshotWith k v) :
    h.equalWith k v w = true ∧ h.equalWith k w v = true := by
  induction hs generalizing w with
  | @scalar k v hv =>
    obtain rfl := eq_of_snapshotWith_eq_scalar hv heq
    rw [equalWith_of_scalar hv]
    exact ⟨scalarEq_self hv hn, scalarEq_self hv hn⟩
  | @list k c _ ih =>
    cases w with
    | list d =>
      rw [snapshotWith_list, snapshotWith_list, Snapshot.list.injEq] at heq
      have hsize : (h.items d).size = (h.items c).size := by
        have hlength := congrArg List.length heq
        rwa [List.length_map, List.length_map] at hlength
      have hitem {v : Value} (hv : v ∈ (h.items c).toList) : v ∈ h.items c := Array.mem_toList_iff.mp hv
      rw [equalWith_list, equalWith_list, hsize, beq_self_eq_true, Bool.true_and, Bool.true_and,
        List.all_eq_true, List.all_eq_true]
      constructor
      · intro p hp
        have hv := hitem (List.of_mem_zip hp).1
        exact (ih p.1 hv (hn.item hv) (snapshot_eq_of_mem_zip heq.symm hp).symm).1
      · intro p hp
        have hv := hitem (List.of_mem_zip hp).2
        exact (ih p.2 hv (hn.item hv) (snapshot_eq_of_mem_zip heq hp)).2
    | _ => simp [snapshotWith] at heq

/-- A copy is equal to its original, whichever is on the left. -/
theorem equal_copy (hg : h.Grounded v) (hn : h.NoNaN v) :
    (h.copy v).2.equal (h.copy v).1 v = true ∧ (h.copy v).2.equal v (h.copy v).1 = true := by
  obtain ⟨e, -⟩ := copy_spec v h
  have hsnapshot : (h.copy v).2.snapshot (h.copy v).1 = (h.copy v).2.snapshot v :=
    (snapshot_copy hg).trans (snapshot_congr hg e.size fun d hd => e.old d (hg.lt_size hd)).symm
  exact (equalWith_of_snapshotWith_eq (e.grounded hg).shallow (e.noNaN hg hn) hsnapshot).symm

/-! ## The cells of a copy -/

/-- What copies add belongs to one of them. -/
theorem reaches_of_new_mapM {fuel : Nat} {vs : List Value}
    (hone : ∀ v h c, h.cells.size ≤ c → c < (copyWith fuel v h).2.cells.size →
      (copyWith fuel v h).2.Reaches (copyWith fuel v h).1 c)
    (hc : h.cells.size ≤ c) (hlt : c < (vs.mapM (copyWith fuel) h).2.cells.size) :
    ∃ w ∈ (vs.mapM (copyWith fuel) h).1, (vs.mapM (copyWith fuel) h).2.Reaches w c := by
  induction vs generalizing h with
  | nil => exact absurd hlt (Nat.not_lt_of_le hc)
  | cons v vs ih =>
    obtain ⟨-, hfresh⟩ := copyWith_spec fuel v h
    obtain ⟨e, -⟩ := mapM_copied (copyWith_spec fuel) vs (copyWith fuel v h).2
    rw [mapM_cons_eq] at hlt ⊢
    rcases Nat.lt_or_ge c (copyWith fuel v h).2.cells.size with hfirst | hlater
    · exact ⟨_, List.mem_cons_self, (e.reaches_iff hfresh.grounded).mpr (hone v h c hc hfirst)⟩
    · obtain ⟨w, hw, hr⟩ := ih hlater hlt
      exact ⟨w, List.mem_cons_of_mem _ hw, hr⟩

/-- Every cell that a copy adds is one of its own. -/
theorem reaches_of_new (fuel : Nat) (v : Value) (h : Heap) (c : CellId) (hc : h.cells.size ≤ c)
    (hlt : c < (copyWith fuel v h).2.cells.size) : (copyWith fuel v h).2.Reaches (copyWith fuel v h).1 c := by
  induction fuel generalizing v h c with
  | zero =>
    cases v with
    | list d =>
      have hcopy : copyWith 0 (.list d) h = h.alloc #[] := by rw [copyWith]; rfl
      rw [hcopy, size_alloc] at hlt
      rw [hcopy, Nat.le_antisymm (Nat.le_of_lt_succ hlt) hc]
      exact .here
    | _ => exact absurd hlt (Nat.not_lt_of_le hc)
  | succ fuel ih =>
    cases v with
    | list d =>
      have hnew (hinner : c < ((h.items d).toList.mapM (copyWith fuel) h).2.cells.size) :=
        reaches_of_new_mapM ih hc hinner
      obtain ⟨-, hfresh⟩ := mapM_copied (copyWith_spec fuel) (h.items d).toList h
      rw [copyWith_list] at hlt ⊢
      rw [size_alloc] at hlt
      generalize (h.items d).toList.mapM (copyWith fuel) h = r at hlt hnew hfresh ⊢
      rcases Nat.lt_succ_iff_lt_or_eq.mp hlt with hinner | rfl
      · obtain ⟨w, hw, hr⟩ := hnew hinner
        refine .item ?_ ((reaches_alloc (hfresh w hw).grounded).mpr hr)
        rw [items_alloc_new]
        exact List.mem_toArray.mpr hw
      · exact .here
    | _ => exact absurd hlt (Nat.not_lt_of_le hc)

/-- What was there leads to no new cell. -/
theorem Extends.lt_of_reaches (e : Extends h h') (hh : h.Acyclic) (hc : c < h.cells.size)
    (hr : h'.Reaches (.list c) d) : d < h.cells.size := by
  have hg : h.Grounded (.list c) := hh.grounded fun _ he => Value.list.inj he ▸ hc
  exact hg.lt_size ((e.reaches_iff hg).mp hr)

/-! ## Later edits -/

/-- A value that is about to be stored, with the heap in which it is: one that is no list, or a copy made
for this. -/
inductive Stored (h : Heap) : Value → Heap → Prop
  | scalar {v : Value} (hv : v.isList = false) : Stored h v h
  | copy (v : Value) : Stored h (h.copy v).1 (h.copy v).2

/-- Appends, removals of the last item and writes of an item, through handles and through others that they
lead to. -/
inductive Edits : (CellId → Prop) → Heap → Heap → Prop
  | done {handles : CellId → Prop} {h : Heap} : Edits handles h h
  | take {handles : CellId → Prop} {h h' : Heap} {c d : CellId} (hc : handles c)
      (hd : h.Reaches (.list c) d) (rest : Edits (fun e => handles e ∨ e = d) h h') : Edits handles h h'
  | append {handles : CellId → Prop} {h h₁ h' : Heap} {c : CellId} {v : Value} (hc : handles c)
      (hv : Stored h v h₁) (rest : Edits handles (h₁.update c (·.push v)) h') : Edits handles h h'
  | removeLast {handles : CellId → Prop} {h h' : Heap} {c : CellId} (hc : handles c)
      (rest : Edits handles (h.update c Array.pop) h') : Edits handles h h'
  | write {handles : CellId → Prop} {h h₁ h' : Heap} {c : CellId} {v : Value} (i : Nat) (hc : handles c)
      (hv : Stored h v h₁) (rest : Edits handles (h₁.update c (·.setIfInBounds i v)) h') :
      Edits handles h h'

/-- The value `b` is grounded, and the handles lead to cells that exist and are not its own. -/
structure Apart (h : Heap) (handles : CellId → Prop) (b : Value) : Prop where
  grounded : h.Grounded b
  apart : ∀ c, handles c → ∀ d, h.Reaches (.list c) d → d < h.cells.size ∧ ¬ h.Reaches b d

namespace Apart

variable {b : Value}

theorem take (ha : h.Apart handles b) (hc : handles c) (hd : h.Reaches (.list c) d) :
    h.Apart (fun e => handles e ∨ e = d) b where
  grounded := ha.grounded
  apart e he x hx := by
    rcases he with he | rfl
    · exact ha.apart e he x hx
    · exact ha.apart c hc x (hd.trans hx)

/-- More cells, which are neither the value's nor within reach of the handles. -/
theorem of_extends (ha : h.Apart handles b) (e : Extends h h') : h'.Apart handles b where
  grounded := e.grounded ha.grounded
  apart c hc d hd := by
    have hold : h.Reaches (.list c) d :=
      (Reaches.congr fun x hx => e.old x (ha.apart c hc x hx).1).mp hd
    obtain ⟨hlt, hnot⟩ := ha.apart c hc d hold
    exact ⟨Nat.lt_of_lt_of_le hlt e.size, fun hr => hnot ((e.reaches_iff ha.grounded).mp hr)⟩

/-- Step lemma: other items in a list that a handle leads to. -/
theorem update (ha : h.Apart handles b) (hc : handles c) {f : Array Value → Array Value}
    (hnew : ∀ w ∈ f (h.items c), w ∈ h.items c ∨
      ∀ d, h.Reaches w d → d < h.cells.size ∧ ¬ h.Reaches b d) : (h.update c f).Apart handles b := by
  have hnot : ¬ h.Reaches b c := (ha.apart c hc c .here).2
  have hsame : ∀ d, h.Reaches b d → (h.update c f).items d = h.items d :=
    fun d hd => items_update_of_ne (fun he : d = c => hnot (he ▸ hd)) f
  refine ⟨ha.grounded.update_of_not_reaches hnot, fun e he d hd => ?_⟩
  rw [size_update, Reaches.congr hsame]
  rcases reaches_update hnew hd with hr | ⟨-, w, hw, hr⟩
  · exact ha.apart e he d hr
  · exact hw d hr

theorem of_stored (ha : h.Apart handles b) (hv : Stored h v h₁) :
    Extends h h₁ ∧ ∀ d, h₁.Reaches v d → d < h₁.cells.size ∧ ¬ h₁.Reaches b d := by
  cases hv with
  | scalar hv => exact ⟨.refl h, fun d hd => absurd hd (Reaches.not_scalar hv)⟩
  | copy v =>
    obtain ⟨e, hfresh⟩ := copy_spec v h
    refine ⟨e, fun d hd => ⟨hfresh.grounded.lt_size hd, fun hb => ?_⟩⟩
    have hold := ha.grounded.lt_size ((e.reaches_iff ha.grounded).mp hb)
    exact Nat.not_lt_of_le (hfresh.le d hd) hold

/-- Storing a value in a list that a handle leads to. -/
theorem store (ha : h.Apart handles b) (hc : handles c) (hv : Stored h v h₁)
    {f : Array Value → Array Value} (hf : ∀ items, ∀ w ∈ f items, w ∈ items ∨ w = v) :
    (h₁.update c f).Apart handles b := by
  obtain ⟨e, hfresh⟩ := ha.of_stored hv
  refine (ha.of_extends e).update hc fun w hw => ?_
  rcases hf _ w hw with hw | rfl
  · exact .inl hw
  · exact .inr hfresh

/-- An edit through a handle changes no cell of the value. -/
theorem snapshot_store (ha : h.Apart handles b) (hc : handles c) (hv : Stored h v h₁)
    (f : Array Value → Array Value) : (h₁.update c f).snapshot b = h.snapshot b := by
  obtain ⟨e, -⟩ := ha.of_stored hv
  refine snapshot_congr ha.grounded (by rw [size_update]; exact e.size) fun d hd => ?_
  have hne : d ≠ c := fun he => (ha.apart c hc c .here).2 (he ▸ hd)
  rw [items_update_of_ne hne, e.old d (ha.grounded.lt_size hd)]

end Apart

/-- Run lemma, by induction on the edits: the value stays apart from the handles, so none of its cells
changes. -/
theorem Edits.snapshot_eq {b : Value} (hedits : Edits handles h h') (ha : h.Apart handles b) :
    h'.snapshot b = h.snapshot b := by
  induction hedits with
  | done => rfl
  | take hc hd _ ih => exact ih (ha.take hc hd)
  | @append _ _ _ _ _ v hc hv _ ih =>
    have hpush (items : Array Value) (w : Value) (hw : w ∈ items.push v) := Array.mem_push.mp hw
    exact (ih (ha.store hc hv hpush)).trans (ha.snapshot_store hc hv _)
  | @removeLast _ h _ _ hc _ ih =>
    have hnone : Stored h .undefined h := .scalar rfl
    have hpop (items : Array Value) (w : Value) (hw : w ∈ items.pop) : w ∈ items ∨ w = .undefined :=
      .inl (mem_of_mem_pop hw)
    exact (ih (ha.store hc hnone hpop)).trans (ha.snapshot_store hc hnone _)
  | @write _ _ _ _ _ v i hc hv _ ih =>
    have hset (items : Array Value) (w : Value) (hw : w ∈ items.setIfInBounds i v) :=
      Array.mem_or_eq_of_mem_setIfInBounds hw
    exact (ih (ha.store hc hv hset)).trans (ha.snapshot_store hc hv _)

/-! ## One copy -/

/-- In a heap of acyclic lists a copy leaves the lists as they are. It has the snapshot of the original, is
equal to it unless a NaN is in it, and its cells are new and within reach of nothing else. So later edits
through lists that were there do not change the copy, and edits through the copy do not change the
original. -/
theorem copy_faithful_separate (hh : h.Acyclic) (hv : h.Has v) :
    let r := h.copy v
    (∀ c < h.cells.size, r.2.items c = h.items c) ∧
    r.2.snapshot r.1 = h.snapshot v ∧
    (h.NoNaN v → binaryOp r.2 .eq r.1 v = .ok (.bool true) ∧ binaryOp r.2 .eq v r.1 = .ok (.bool true)) ∧
    (∀ c, r.2.Reaches r.1 c → h.cells.size ≤ c ∧ c < r.2.cells.size ∧
      ∀ d, r.2.Reaches (.list d) c → r.2.Reaches r.1 d) ∧
    (∀ h', Edits (· < h.cells.size) r.2 h' → h'.snapshot r.1 = h.snapshot v) ∧
    (∀ h', Edits (r.2.Reaches r.1) r.2 h' → h'.snapshot v = h.snapshot v) := by
  intro r
  have hg : h.Grounded v := hh.grounded hv
  obtain ⟨e, hfresh⟩ : Copied h r := copy_spec v h
  have hsnapshot : r.2.snapshot r.1 = h.snapshot v := snapshot_copy hg
  refine ⟨e.old, hsnapshot, fun hn => ?_, fun c hc => ⟨hfresh.le c hc, hfresh.grounded.lt_size hc, ?_⟩,
    fun h' hedits => ?_, fun h' hedits => ?_⟩
  · obtain ⟨hleft, hright⟩ := equal_copy hg hn
    exact ⟨congrArg (Except.ok ∘ Value.bool) hleft, congrArg (Except.ok ∘ Value.bool) hright⟩
  · intro d hd
    have hnew : h.cells.size ≤ d := by
      refine Nat.le_of_not_lt fun hlt => ?_
      exact Nat.not_lt_of_le (hfresh.le c hc) (e.lt_of_reaches hh hlt hd)
    exact reaches_of_new _ v h d hnew (hd.lt_size (hfresh.grounded.lt_size hc))
  · have ha : r.2.Apart (· < h.cells.size) r.1 := by
      refine ⟨hfresh.grounded, fun c hc d hd => ?_⟩
      have hlt := e.lt_of_reaches hh hc hd
      exact ⟨Nat.lt_of_lt_of_le hlt e.size, fun hr => Nat.not_lt_of_le (hfresh.le d hr) hlt⟩
    exact (hedits.snapshot_eq ha).trans hsnapshot
  · have ha : r.2.Apart (r.2.Reaches r.1) v := by
      refine ⟨e.grounded hg, fun c hc d hd => ⟨hfresh.grounded.lt_size (hc.trans hd), fun hr => ?_⟩⟩
      exact Nat.not_lt_of_le (hfresh.le d (hc.trans hd)) (hg.lt_size ((e.reaches_iff hg).mp hr))
    have hkept : r.2.snapshot v = h.snapshot v :=
      snapshot_congr hg e.size fun d hd => e.old d (hg.lt_size hd)
    exact (hedits.snapshot_eq ha).trans hkept

/-- A list that holds another one twice. -/
def holdingTwice : Heap := ⟨#[#[.int 1, .str "a"], #[.list 0, .float 0.5, .list 0]]⟩

theorem mem_items_holdingTwice (hv : v ∈ holdingTwice.items c) :
    v = .int 1 ∨ v = .str "a" ∨ c = 1 ∧ v = .list 0 ∨ v = .float 0.5 := by
  have hzero : holdingTwice.items 0 = #[.int 1, .str "a"] := rfl
  have hone : holdingTwice.items 1 = #[.list 0, .float 0.5, .list 0] := rfl
  match c, lt_size_of_mem hv with
  | 0, _ =>
    rw [hzero] at hv
    grind
  | 1, _ =>
    rw [hone] at hv
    grind

theorem acyclic_holdingTwice : holdingTwice.Acyclic := by
  refine .of_older fun c d hd => ?_
  rcases mem_items_holdingTwice hd with h | h | ⟨rfl, h⟩ | h <;> cases h
  exact Nat.one_pos

theorem noNaN_holdingTwice : holdingTwice.NoNaN (.list 1) := by
  refine .of_items nofun fun c w hw x hx => ?_
  subst hx
  rcases mem_items_holdingTwice hw with h | h | ⟨-, h⟩ | h <;> cases h
  decide +kernel

/-- Its copy, the cell 4, holds two lists. -/
def holdingCopies : Heap := ⟨holdingTwice.cells ++
  #[#[.int 1, .str "a"], #[.int 1, .str "a"], #[.list 2, .float 0.5, .list 3]]⟩

theorem copy_faithful_separate_holdingTwice :
    holdingTwice.Acyclic ∧ holdingTwice.Has (.list 1) ∧ holdingTwice.NoNaN (.list 1) ∧
    holdingTwice.copy (.list 1) = (.list 4, holdingCopies) ∧
    binaryOp holdingCopies .eq (.list 4) (.list 1) = .ok (.bool true) ∧
    (∀ d, holdingCopies.Reaches (.list d) 3 → holdingCopies.Reaches (.list 4) d) ∧
    ((holdingCopies.update 0 (·.push (.int 7))).update 1 Array.pop).snapshot (.list 4) =
      holdingTwice.snapshot (.list 1) ∧
    (holdingCopies.update 3 (·.setIfInBounds 0 (.int 7))).snapshot (.list 1) =
      holdingTwice.snapshot (.list 1) := by
  have hhas : holdingTwice.Has (.list 1) := fun c hc => Value.list.inj hc ▸ Nat.lt_succ_self 1
  have hcopy : holdingTwice.copy (.list 1) = (.list 4, holdingCopies) := by with_unfolding_all rfl
  obtain ⟨-, -, hequal, hcells, hold, hnew⟩ := copy_faithful_separate acyclic_holdingTwice hhas
  rw [hcopy] at hequal hcells hold hnew
  have hfour : holdingCopies.items 4 = #[.list 2, .float 0.5, .list 3] := rfl
  have hthree : holdingCopies.Reaches (.list 4) 3 := .item (v := .list 3) (by simp [hfour]) .here
  refine ⟨acyclic_holdingTwice, hhas, noNaN_holdingTwice, hcopy, (hequal noNaN_holdingTwice).1,
    (hcells 3 hthree).2.2, ?_, ?_⟩
  · exact hold _ (.append (c := 0) (by decide) (.scalar rfl) (.removeLast (c := 1) (by decide) .done))
  · exact hnew _ (.write 0 hthree (.scalar rfl) .done)

end Heap

end CallTrace
