import CallTrace.Container
import CallTrace.Library

/-! # Operators give no lists

Every operator, every library function and every operation on a string has a value that is complete in
itself. Lists come only from variables, from items of lists (`itemOf_cases`), and from copies.
-/

namespace CallTrace
set_option autoImplicit false

open Instrumented (ContainerOp)

theorem isList_of_checked {n : Int} {operation : String} {v : Value}
    (h : checked n operation = .ok v) : v.isList = false := by
  unfold checked at h
  split at h
  · cases h
    rfl
  · cases h

theorem isList_of_intArith {op : BinOp} {a b : Int} {result : Except Cause Value} {v : Value}
    (h : intArith op a b = some result) (hv : result = .ok v) : v.isList = false := by
  subst hv
  cases op
  case add | sub | mul => exact isList_of_checked (Option.some.inj h)
  case div =>
    have h := Option.some.inj h
    split at h
    · cases h
    · exact isList_of_checked h
  case mod =>
    have h := Option.some.inj h
    split at h
    · cases h
    · split at h
      · cases h
        rfl
      · cases h
  all_goals cases h

theorem isList_of_arith {op : BinOp} {l r v : Value} (h : arith op l r = .ok v) :
    v.isList = false := by
  unfold arith at h
  split at h
  · split at h
    · next hi => exact isList_of_intArith hi h
    · cases h
  · split at h
    · split at h
      · cases h
        rfl
      · cases h
    · cases h

theorem isList_of_addValues {l r v : Value} (h : addValues l r = .ok v) : v.isList = false := by
  unfold addValues at h
  split at h
  · split at h
    · cases h
    · cases h
      rfl
  · exact isList_of_arith h

theorem isList_of_binaryOp {h : Heap} {op : BinOp} {l r v : Value}
    (hv : binaryOp h op l r = .ok v) : v.isList = false := by
  cases op
  case add => exact isList_of_addValues hv
  case sub | mul | div | mod =>
    simp only [binaryOp] at hv
    exact isList_of_arith hv
  case lt | le | gt | ge =>
    simp only [binaryOp] at hv
    cases hc : compareValues _ l r with
    | ok o =>
      rw [hc] at hv
      cases hv
      rfl
    | error e =>
      rw [hc] at hv
      cases hv
  all_goals
    cases hv
    rfl

theorem isList_of_negate {v w : Value} (h : negate v = .ok w) : w.isList = false := by
  unfold negate at h
  split at h
  · cases h
    rfl
  · split at h
    · exact isList_of_checked h
    · cases h

theorem isList_of_absolute {v w : Value} (h : absolute v = .ok w) : w.isList = false := by
  unfold absolute at h
  split at h
  · cases h
    rfl
  · split at h
    · exact isList_of_checked h
    · cases h

theorem isList_of_stepBy {delta : Int} {v w : Value} (h : stepBy delta v = .ok w) :
    w.isList = false := by
  unfold stepBy at h
  split at h
  · cases h
    rfl
  · split at h
    · exact isList_of_checked h
    · cases h

theorem isList_of_compareValues {op : BinOp} {a b : Value} {o : Ordering}
    (h : compareValues op a b = .ok o) : a.isList = false ∧ b.isList = false := by
  cases a <;> cases b <;> first | exact ⟨rfl, rfl⟩ | cases h

theorem isList_of_apply {h : Heap} {f : LibraryFunction} {args : List Value} {v : Value}
    (hv : f.apply h args = .ok v) : v.isList = false := by
  unfold LibraryFunction.apply at hv
  split at hv
  · next a b =>
    cases hc : compareValues .lt a b with
    | error e => simp [hc, bind, Except.bind] at hv
    | ok o =>
      obtain ⟨ha, hb⟩ := isList_of_compareValues hc
      simp only [hc, bind, Except.bind, pure, Except.pure, Except.ok.injEq] at hv
      subst hv
      split <;> assumption
  · next a b =>
    cases hc : compareValues .lt a b with
    | error e => simp [hc, bind, Except.bind] at hv
    | ok o =>
      obtain ⟨ha, hb⟩ := isList_of_compareValues hc
      simp only [hc, bind, Except.bind, pure, Except.pure, Except.ok.injEq] at hv
      subst hv
      split <;> assumption
  · exact isList_of_absolute hv
  · cases hv
    rfl
  · cases hv

/-- An item of a container is complete in itself, or one of the items of a list. -/
theorem itemOf_cases {h : Heap} {container v : Value} {i : Int} (hv : itemOf h container i = .ok v) :
    v.isList = false ∨ ∃ c, container = .list c ∧ v ∈ h.items c := by
  cases container with
  | list c =>
    simp only [itemOf] at hv
    cases hp : position i (h.items c).size with
    | error e => simp [hp, bind, Except.bind] at hv
    | ok k =>
      have hk : k < (h.items c).size := by
        unfold position at hp
        split at hp
        · next hi =>
          cases hp
          omega
        · cases hp
      simp only [hp, bind, Except.bind, pure, Except.pure, Except.ok.injEq] at hv
      refine .inr ⟨c, rfl, ?_⟩
      rw [← hv, Array.getD_eq_getD_getElem?, Array.getElem?_eq_getElem hk]
      exact Array.getElem_mem hk
  | str s =>
    simp only [itemOf] at hv
    cases hp : position i s.length with
    | error e => simp [hp, bind, Except.bind] at hv
    | ok k =>
      simp only [hp, bind, Except.bind, pure, Except.pure, Except.ok.injEq] at hv
      subst hv
      exact .inl rfl
  | _ => cases hv

theorem isList_of_stringOp {op : ContainerOp} {s : String} {args : List Value} {v : Value}
    {changed : Option String} (h : stringOp op s args = .ok (v, changed)) : v.isList = false := by
  cases op with
  | append =>
    simp only [stringOp] at h
    split at h
    · next w rest =>
      cases hc : charOf w with
      | error e => simp [hc, bind, Except.bind] at h
      | ok c =>
        simp only [hc, bind, Except.bind, pure, Except.pure, Except.ok.injEq, Prod.mk.injEq] at h
        rw [← h.1]
        rfl
    · cases h
  | removeLast =>
    simp only [stringOp] at h
    split at h
    · cases h
    · cases h
      rfl
  | length | isEmpty =>
    cases h
    rfl
  | back =>
    simp only [stringOp] at h
    split at h
    · cases h
      rfl
    · cases h
  | substr =>
    simp only [stringOp] at h
    cases hc : substring s args with
    | error e => simp [hc, bind, Except.bind] at h
    | ok t =>
      simp only [hc, bind, Except.bind, pure, Except.pure, Except.ok.injEq, Prod.mk.injEq] at h
      rw [← h.1]
      rfl

end CallTrace
