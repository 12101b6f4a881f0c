import CallTrace.Evaluation

/-! # Partial results

* `Supported r`: a partial result does not fail because something is outside the language. Operators,
  operations on strings, library functions and formats never do.
-/

namespace CallTrace
set_option autoImplicit false

open Instrumented (ContainerOp)

/-- A partial result that does not fail because something is outside the language. -/
def Supported {α : Type} (r : Except Cause α) : Prop :=
  ∀ text reason, r ≠ .error (.unsupported text reason)

namespace Supported

variable {α β : Type}

theorem ok (a : α) : Supported (.ok a) := fun _ _ h => nomatch h

theorem bind {r : Except Cause α} {f : α → Except Cause β} (h : Supported r)
    (hf : ∀ a, Supported (f a)) : Supported (r >>= f) := by
  cases r with
  | ok a => exact hf a
  | error cause => exact fun text reason he => h text reason (congrArg _ (Except.error.inj he))

theorem map {r : Except Cause α} (f : α → β) (h : Supported r) : Supported (r.map f) := by
  cases r with
  | ok a => exact ok _
  | error cause => exact fun text reason he => h text reason (congrArg _ (Except.error.inj he))

end Supported

/-! ## Operators and functions -/

theorem supported_checked (n : Int) (operation : String) : Supported (checked n operation) := by
  unfold checked
  split <;> exact fun _ _ h => nomatch h

theorem supported_intArith {op : BinOp} {a b : Int} {r : Except Cause Value}
    (h : intArith op a b = some r) : Supported r := by
  cases op
  case add | sub | mul =>
    cases h
    exact supported_checked _ _
  case div =>
    cases h
    split
    · exact fun _ _ h => nomatch h
    · exact supported_checked _ _
  case mod =>
    cases h
    split
    · exact fun _ _ h => nomatch h
    · split <;> exact fun _ _ h => nomatch h
  all_goals cases h

theorem supported_arith (op : BinOp) (l r : Value) : Supported (arith op l r) := by
  unfold arith
  split
  · split
    · next h => exact supported_intArith h
    · exact fun _ _ h => nomatch h
  · split
    · split <;> exact fun _ _ h => nomatch h
    · exact fun _ _ h => nomatch h

theorem supported_compareValues (op : BinOp) (l r : Value) : Supported (compareValues op l r) := by
  unfold compareValues
  split
  · exact .ok _
  · split
    · exact .ok _
    · split <;> exact fun _ _ h => nomatch h

theorem supported_binaryOp (h : Heap) (op : BinOp) (l r : Value) :
    Supported (binaryOp h op l r) := by
  cases op
  case add =>
    show Supported (addValues l r)
    unfold addValues
    split
    · split <;> exact fun _ _ h => nomatch h
    · exact supported_arith _ l r
  case sub | mul | div | mod =>
    simp only [binaryOp]
    exact supported_arith _ l r
  case lt | le | gt | ge => exact (supported_compareValues _ l r).map _
  all_goals exact .ok _

/-- A number that is no float is changed as an integer. -/
theorem supported_onInt {v : Value} {f : Int → Except Cause Value} (hf : ∀ n, Supported (f n)) :
    Supported (match v.int? with
      | some n => f n
      | none => .error (.typeMismatch "number" v.kindName)) := by
  split
  · exact hf _
  · exact fun _ _ h => nomatch h

theorem supported_negate (v : Value) : Supported (negate v) := by
  unfold negate
  split
  · exact .ok _
  · exact supported_onInt fun _ => supported_checked _ _

theorem supported_absolute (v : Value) : Supported (absolute v) := by
  unfold absolute
  split
  · exact .ok _
  · exact supported_onInt fun _ => supported_checked _ _

theorem supported_stepBy (delta : Int) (v : Value) : Supported (stepBy delta v) := by
  unfold stepBy
  split
  · exact .ok _
  · exact supported_onInt fun _ => supported_checked _ _

theorem supported_apply (h : Heap) (f : LibraryFunction) (args : List Value) :
    Supported (f.apply h args) := by
  unfold LibraryFunction.apply
  split
  · exact (supported_compareValues _ _ _).bind fun _ => .ok _
  · exact (supported_compareValues _ _ _).bind fun _ => .ok _
  · exact supported_absolute _
  · exact .ok _
  · exact fun _ _ h => nomatch h

theorem supported_position (index : Int) (size : Nat) : Supported (position index size) := by
  unfold position
  split <;> exact fun _ _ h => nomatch h

theorem supported_itemOf (h : Heap) (container : Value) (index : Int) :
    Supported (itemOf h container index) := by
  unfold itemOf
  split
  · exact (supported_position _ _).bind fun _ => .ok _
  · exact (supported_position _ _).bind fun _ => .ok _
  · exact fun _ _ h => nomatch h

theorem supported_charOf (v : Value) : Supported (charOf v) := by
  unfold charOf
  dsimp only
  split <;> exact fun _ _ h => nomatch h

theorem supported_intOf (expected : String) (v : Value) : Supported (intOf expected v) := by
  unfold intOf
  split <;> exact fun _ _ h => nomatch h

theorem supported_fillSize (v : Value) : Supported (Exec.fillSize v) := by
  refine (supported_intOf _ v).bind fun n => ?_
  split <;> exact fun _ _ h => nomatch h

theorem supported_substring (s : String) (args : List Value) : Supported (substring s args) := by
  refine (supported_intOf _ _).bind fun pos => ?_
  by_cases hpos : pos < 0 ∨ (s.length : Int) < pos
  · rw [if_pos hpos]
    exact fun _ _ h => nomatch h
  · rw [if_neg hpos]
    dsimp only
    split
    · exact (supported_intOf _ _).bind fun _ => .ok _
    · exact .ok _

theorem supported_stringOp (op : ContainerOp) (s : String) (args : List Value) :
    Supported (stringOp op s args) := by
  cases op <;> simp only [stringOp]
  case append =>
    split
    · exact (supported_charOf _).bind fun _ => .ok _
    · exact fun _ _ h => nomatch h
  case removeLast => split <;> exact fun _ _ h => nomatch h
  case back => split <;> exact fun _ _ h => nomatch h
  case substr => exact (supported_substring s args).bind fun _ => .ok _
  all_goals exact .ok _

namespace Printf

theorem supported_directive (h : Heap) (letter : Char) (places : Option Nat) (vs : List Value) :
    Supported (directive h letter places vs) := by
  have htext (v : Value) : Supported (directiveText h letter places v) := by
    unfold directiveText
    repeat' split
    all_goals exact fun _ _ h => nomatch h
  unfold directive
  split
  · exact .ok _
  · split
    · exact fun _ _ h => nomatch h
    · exact (htext _).map _

theorem supported_formatFrom (h : Heap) (mode : Mode) (cs : List Char) (vs : List Value)
    (done : String) : Supported (formatFrom h mode cs vs done) := by
  have herror {letter : Char} {places : Option Nat} {vs : List Value} {cause : Cause}
      (he : directive h letter places vs = .error cause) :
      Supported (.error cause : Except Cause String) := fun text reason hc => by
    cases hc
    exact supported_directive h letter places vs text reason he
  fun_induction formatFrom h mode cs vs done
  case case1 => exact .ok _
  case case2 => exact fun _ _ h => nomatch h
  all_goals first | assumption | exact herror ‹_›

end Printf

end CallTrace
