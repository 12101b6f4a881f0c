import CallTrace.Proofs.Increments

/-! # Integer arithmetic

Programs hold the integers from -2^63 to 2^63 - 1. Each operator on them, wherever it is evaluated, gives the
result that it has in the integers or fails; none wraps around.

* `Division`: a quotient cut toward zero and its remainder. The quotients and remainders of what programs hold
  can be held, but for the one of the least integer by -1 (`division_of_inRange`).
* `Exactly`, `Arithmetic`: how a computation of one integer ends, and how one with each of the five operators
  does, whatever is done with the result.
* `binaryOp_closed`: on integers an operator gives what can be held or fails in one of three ways.
* `Exec.integer_arithmetic`: operators, `abs`, steps by one and compound assignments.
-/

namespace CallTrace
set_option autoImplicit false

open Instrumented (Expr Place Step)

/-! ## What can be held -/

theorem inRange_iff {n : Int} : inRange n ↔ minInt ≤ n ∧ n ≤ maxInt := by
  rw [inRange, Bool.and_eq_true, decide_eq_true_eq, decide_eq_true_eq]

/-- `q` and `r` are the quotient of `a` by `b`, cut toward zero, and its remainder, and programs can hold both. -/
structure Division (a b q r : Int) : Prop where
  sum : a = q * b + r
  below : r.natAbs < b.natAbs
  sign : r = 0 ∨ r.sign = a.sign
  quotient_fits : inRange q
  remainder_fits : inRange r

section

variable {a b : Int}

/-- Of all quotients only that of the least integer by -1 is too great. -/
theorem inRange_tdiv (ha : inRange a) (hpair : ¬ (a = minInt ∧ b = -1)) : inRange (a.tdiv b) := by
  rw [inRange_iff, minInt, maxInt] at ha ⊢
  have habs : (a.tdiv b).natAbs = a.natAbs / b.natAbs := Int.natAbs_tdiv a b
  by_cases hsmall : b.natAbs < 2
  · have hunit : b = 0 ∨ b = 1 ∨ b = -1 := by omega
    rcases hunit with rfl | rfl | rfl
    · simp
    · simpa using ha
    · have hne : a ≠ minInt := by simpa using hpair
      rw [minInt] at hne
      rw [Int.tdiv_neg, Int.tdiv_one]
      omega
  · have hhalf : a.natAbs / b.natAbs ≤ a.natAbs / 2 := Nat.div_le_div_left (by omega) (by decide)
    omega

theorem inRange_tmod (ha : inRange a) : inRange (a.tmod b) := by
  rw [inRange_iff, minInt, maxInt] at ha ⊢
  have habs : (a.tmod b).natAbs = a.natAbs % b.natAbs := Int.natAbs_tmod a b
  have hle : a.natAbs % b.natAbs ≤ a.natAbs := Nat.mod_le _ _
  have hnonneg : 0 ≤ a → 0 ≤ a.tmod b := Int.tmod_nonneg b
  have hnonpos : a ≤ 0 → 0 ≤ -a.tmod b := by
    intro h
    rw [← Int.neg_tmod]
    apply Int.tmod_nonneg
    omega
  rw [← habs] at hle
  omega

theorem division_of_inRange (ha : inRange a) (hb : b ≠ 0) (hpair : ¬ (a = minInt ∧ b = -1)) :
    Division a b (a.tdiv b) (a.tmod b) := by
  constructor
  case sum => exact (Int.tdiv_mul_add_tmod a b).symm
  case below =>
    rw [Int.natAbs_tmod]
    apply Nat.mod_lt
    omega
  case sign =>
    by_cases hdvd : b ∣ a
    · left
      exact Int.dvd_iff_tmod_eq_zero.mp hdvd
    · right
      rw [Int.sign_tmod, if_neg hdvd]
  case quotient_fits => exact inRange_tdiv ha hpair
  case remainder_fits => exact inRange_tmod ha

end

/-- The quotient of the least integer by -1 is too great. -/
theorem not_inRange_of_least : ¬ inRange (minInt.tdiv (-1)) := by decide

/-! ## Computations of integers -/

namespace Exec

/-- A computation of the integer `n` from the state `m` on: it goes on as `done n` if programs can hold `n`, and
otherwise it fails for an overflow and changes nothing. -/
structure Exactly (n : Int) (text : String) (done : Int → Exec Value) (m : Machine)
    (result : EStateM.Result Halt Machine Value) : Prop where
  fits : inRange n → result = done n m
  overflows : ¬ inRange n → result = .error (.failed ⟨.overflow text, m.line⟩) m

/-- Computations from the state `m` on with the arithmetic operators on `a` and `b`, which go on as `done` with their
results. -/
structure Arithmetic (a b : Int) (done : Int → Exec Value) (m : Machine)
    (result : BinOp → EStateM.Result Halt Machine Value) : Prop where
  sum : Exactly (a + b) (overflowText .add a b) done m (result .add)
  difference : Exactly (a - b) (overflowText .sub a b) done m (result .sub)
  product : Exactly (a * b) (overflowText .mul a b) done m (result .mul)
  /-- Nothing is divided by zero. -/
  by_zero : b = 0 → result .div = .error (.failed ⟨.divisionByZero, m.line⟩) m ∧
    result .mod = .error (.failed ⟨.moduloByZero, m.line⟩) m
  /-- The least integer is not divided by -1. -/
  least : a = minInt → b = -1 → ∀ op ∈ [BinOp.div, .mod],
    result op = .error (.failed ⟨.overflow (overflowText op a b), m.line⟩) m
  /-- Everything else is. -/
  quotient : b ≠ 0 → ¬ (a = minInt ∧ b = -1) → ∃ q r, Division a b q r ∧ result .div = done q m ∧ result .mod = done r m

section

variable {a b n : Int} {text : String} {done : Int → Exec Value} {m : Machine}
  {result : EStateM.Result Halt Machine Value} {results : BinOp → EStateM.Result Halt Machine Value}
  {e : Except Cause Value}

/-- How a computation goes on with what an operator on values gives. -/
structure Continues (e : Except Cause Value) (done : Int → Exec Value) (m : Machine)
    (result : EStateM.Result Halt Machine Value) : Prop where
  ok : ∀ n, e = .ok (.int n) → result = done n m
  error : ∀ cause, e = .error cause → result = .error (.failed ⟨cause, m.line⟩) m

theorem Continues.exactly (h : Continues (checked n text) done m result) : Exactly n text done m result where
  fits hfits := h.ok n (by rw [checked, if_pos hfits])
  overflows hfits := h.error _ (by rw [checked, if_neg hfits])

/-- What follows the operators on integers that programs hold is arithmetic. -/
theorem arithmetic_of_continues (ha : inRange a)
    (h : ∀ op e, intArith op a b = some e → Continues e done m (results op)) : Arithmetic a b done m results := by
  constructor
  case sum => exact (h .add _ rfl).exactly
  case difference => exact (h .sub _ rfl).exactly
  case product => exact (h .mul _ rfl).exactly
  case by_zero =>
    intro hb
    constructor
    · apply (h .div _ rfl).error
      rw [if_pos hb]
    · apply (h .mod _ rfl).error
      rw [if_pos hb]
  case least =>
    rintro rfl rfl op hop
    have hout : ¬ inRange (minInt.tdiv (-1)) := not_inRange_of_least
    simp only [List.mem_cons, List.not_mem_nil, or_false] at hop
    rcases hop with rfl | rfl
    · apply (h .div _ rfl).error
      rw [if_neg (by decide), checked, if_neg hout]
      rfl
    · apply (h .mod _ rfl).error
      rw [if_neg (by decide), if_neg hout]
      rfl
  case quotient =>
    intro hb hpair
    have hfits : inRange (a.tdiv b) := inRange_tdiv ha hpair
    refine ⟨a.tdiv b, a.tmod b, division_of_inRange ha hb hpair, ?_, ?_⟩
    · apply (h .div _ rfl).ok
      rw [if_neg hb, checked, if_pos hfits]
    · apply (h .mod _ rfl).ok
      rw [if_neg hb, if_pos hfits]

/-! ## Operators -/

/-- What operators on integers end with: an integer that programs can hold, a truth value, or one of three errors. -/
inductive Closed : EStateM.Result Halt Machine Value → Prop where
  | int (n : Int) (m : Machine) (h : inRange n) : Closed (.ok (.int n) m)
  | bool (b : Bool) (m : Machine) : Closed (.ok (.bool b) m)
  | overflow (text : String) (line : Nat) (m : Machine) : Closed (.error (.failed ⟨.overflow text, line⟩) m)
  | division (line : Nat) (m : Machine) : Closed (.error (.failed ⟨.divisionByZero, line⟩) m)
  | modulo (line : Nat) (m : Machine) : Closed (.error (.failed ⟨.moduloByZero, line⟩) m)

theorem closed_checked (n : Int) (text : String) (m : Machine) : Closed (ofExcept (checked n text) m) := by
  by_cases h : inRange n
  · rw [checked, if_pos h]
    apply Closed.int n m h
  · rw [checked, if_neg h]
    apply Closed.overflow

theorem closed_intArith {op : BinOp} (ha : inRange a) (m : Machine) (he : intArith op a b = some e) :
    Closed (ofExcept e m) := by
  cases op <;> cases he
  case add | sub | mul => apply closed_checked
  case div =>
    by_cases hb : b = 0
    · rw [if_pos hb]
      apply Closed.division
    · rw [if_neg hb]
      apply closed_checked
  case mod =>
    by_cases hb : b = 0
    · rw [if_pos hb]
      apply Closed.modulo
    · by_cases hfits : inRange (a.tdiv b)
      · rw [if_neg hb, if_pos hfits]
        apply Closed.int _ _ (inRange_tmod ha)
      · rw [if_neg hb, if_neg hfits]
        apply Closed.overflow

/-- On integers every operator that needs both operands is closed. -/
theorem closed_binaryOp {l r : Value} (hl : l.int? = some a) (hr : r.int? = some b) (ha : inRange a) (h : Heap)
    (op : BinOp) (m : Machine) : Closed (ofExcept (binaryOp h op l r) m) := by
  cases hop : intArith op a b with
  | some e =>
    rw [binaryOp_of_int hl hr h hop]
    exact closed_intArith ha m hop
  | none =>
    cases op
    case add | sub | mul | div | mod => cases hop
    case eq | ne | and | or => apply Closed.bool
    case lt | le | gt | ge =>
      simp only [binaryOp, compareValues, hl, hr, Except.map]
      apply Closed.bool

theorem continues_ofExcept (e : Except Cause Value) (m : Machine) :
    Continues e (fun n => pure (.int n)) m (ofExcept e m) where
  ok n he := by rw [he]; rfl
  error cause he := by rw [he]; rfl

/-- Stores an integer in a slot and records the variable that owns it. -/
def storing (slot : Slot) (root : Option String) (value : Int → Value) (n : Int) : Exec Value := do
  writeSlot slot (.int n)
  recordRoot root
  return value n

/-- A replacement of what is in a slot follows what the operator gives. -/
theorem continues_replacing {slot : Slot} {old : Value} (f : Value → Except Cause Value) (root : Option String)
    (before : Bool) (hold : slot.content m = .ok old) :
    Continues (f old) (storing slot root fun n => if before then .int n else old) m (replacing slot f root before m) := by
  have hread := readSlot_of_ok hold
  constructor
  case ok =>
    intro n hf
    simp only [replacing, storing, updateSlot, bind_assoc, bind_of_ok hread, hf, pure_bind]
    rfl
  case error =>
    intro cause hf
    simp only [replacing, updateSlot, bind_assoc, bind_of_ok hread, hf]
    rfl

end

/-! ## Evaluation -/

/-- An expression has the value `a`, an integer or a truth value that programs can hold, and leads to `n`. -/
structure Evaluates (env : Env) (fuel : Nat) (e : Expr) (m : Machine) (a : Int) (n : Machine) : Prop where
  value : ∃ v, (meaning env fuel).eval e m = .ok v n ∧ v.int? = some a
  fits : inRange a

/-- A slot holds `a`, an integer or a truth value that programs can hold. -/
structure Holds (slot : Slot) (m : Machine) (a : Int) : Prop where
  value : ∃ v, slot.content m = .ok v ∧ v.int? = some a
  fits : inRange a

section

variable {env : Env} {fuel : Nat} {m n o : Machine} {left right e : Expr} {a b : Int} {slot : Slot} {target : Place}

theorem binary_of_ok {op : BinOp} {l r : Value} (hop : op ≠ .and ∧ op ≠ .or)
    (hl : (meaning env fuel).eval left m = .ok l n) (hr : (meaning env fuel).eval right n = .ok r o) :
    (meaning env (fuel + 1)).eval (.binary op left right) m = ofExcept (binaryOp o.heap op l r) o := by
  refine (bind_of_ok hl).trans ?_
  cases op
  case and => exact absurd rfl hop.1
  case or => exact absurd rfl hop.2
  all_goals exact bind_of_ok hr

theorem arithmetic_binary (hl : Evaluates env fuel left m a n) (hr : Evaluates env fuel right n b o) :
    Arithmetic a b (fun k => pure (.int k)) o fun op => (meaning env (fuel + 1)).eval (.binary op left right) m := by
  obtain ⟨⟨l, hleft, hla⟩, ha⟩ := hl
  obtain ⟨⟨r, hright, hrb⟩, -⟩ := hr
  apply arithmetic_of_continues ha
  intro op e he
  have hop : op ≠ .and ∧ op ≠ .or := by constructor <;> rintro rfl <;> cases he
  rw [binary_of_ok hop hleft hright, binaryOp_of_int hla hrb o.heap he]
  apply continues_ofExcept

theorem closed_binary (hl : Evaluates env fuel left m a n) (hr : Evaluates env fuel right n b o) (op : BinOp) :
    Closed ((meaning env (fuel + 1)).eval (.binary op left right) m) := by
  obtain ⟨⟨l, hleft, hla⟩, ha⟩ := hl
  obtain ⟨⟨r, hright, hrb⟩, -⟩ := hr
  have heval : (meaning env (fuel + 1)).eval (.binary op left right) m =
      afterLeft op l right (meaning env fuel) n :=
    (congrFun (binary_eq (meaning env fuel) op left right) m).trans (bind_of_ok hleft)
  rw [heval]
  refine afterLeft_rule (Q := fun f => Closed (f (meaning env fuel) n)) op l right (fun _ => .bool _ _) ?_ ?_
  · have htruth : truth (meaning env fuel) right n = .ok r.isTruthy o := bind_of_ok hright
    dsimp only
    rw [bind_of_ok htruth]
    exact .bool _ _
  · dsimp only
    rw [bind_of_ok hright]
    exact closed_binaryOp hla hrb ha o.heap op o

theorem exactly_neg (he : Evaluates env fuel e m a n) :
    Exactly (-a) ("-" ++ toString a) (fun k => pure (.int k)) n ((meaning env (fuel + 1)).eval (.neg e) m) := by
  obtain ⟨⟨v, heval, hv⟩, -⟩ := he
  have hneg : negate v = checked (-a) ("-" ++ toString a) := by
    cases v <;> cases hv <;> rfl
  have hresult : (meaning env (fuel + 1)).eval (.neg e) m = ofExcept (negate v) n := bind_of_ok heval
  rw [hresult, hneg]
  exact (continues_ofExcept _ n).exactly

/-- The library function `abs`, in a program that has none of that name. -/
theorem exactly_abs (hprogram : env.program.function? "abs" = none) (he : Evaluates env fuel e m a n) :
    Exactly a.natAbs ("abs(" ++ toString a ++ ")") (fun k => pure (.int k)) n
      ((meaning env (fuel + 1)).eval (.call "abs" [e]) m) := by
  obtain ⟨⟨v, heval, hv⟩, -⟩ := he
  have habs : absolute v = checked a.natAbs ("abs(" ++ toString a ++ ")") := by
    cases v <;> cases hv <;> rfl
  have hresult : (meaning env (fuel + 1)).eval (.call "abs" [e]) m = ofExcept (absolute v) n := by
    cases fuel with
    | zero => cases heval
    | succ fuel =>
      have hargs : [e].mapM (meaning env (fuel + 1)).eval m = .ok [v] n := by
        simp only [List.mapM_cons, List.mapM_nil, bind_of_ok heval]
        rfl
      refine (bind_of_ok hargs).trans ?_
      have hcall : (meaning env (fuel + 1)).call "abs" [v] = callLibrary "abs" [v] := by
        simp [meaning, Meaning.next, callWith, hprogram]
      rw [hcall]
      rfl
  rw [hresult, habs]
  exact (continues_ofExcept _ n).exactly

/-- A compound assignment does the arithmetic on what the slot holds once the operand has its value. -/
theorem arithmetic_assign (hslot : (meaning env fuel).resolve target.toExpr m = .ok slot n)
    (he : Evaluates env fuel e n b o) (hold : Holds slot o a) :
    Arithmetic a b (storing slot target.root? .int) o
      fun op => (meaning env (fuel + 1)).eval (.assign target (some op) e) m := by
  obtain ⟨⟨old, hcontent, hint⟩, ha⟩ := hold
  obtain ⟨⟨v, heval, hv⟩, -⟩ := he
  apply arithmetic_of_continues ha
  intro op result hop
  have hassign : (meaning env (fuel + 1)).eval (.assign target (some op) e) m =
      replacing slot (fun old => binaryOp o.heap op old v) target.root? true o := compound_eq _ op hslot heval
  have hcontinues := continues_replacing (fun old => binaryOp o.heap op old v) target.root? true hcontent
  rw [hassign]
  rwa [binaryOp_of_int hint hv o.heap hop] at hcontinues

theorem exactly_update (s : Step) (before : Bool) (hslot : (meaning env fuel).resolve target.toExpr m = .ok slot o)
    {old : Value} (hold : slot.content o = .ok old) (hint : old.int? = some a) :
    Exactly (a + s.delta) (overflowText s.op a 1) (storing slot target.root? fun k => if before then .int k else old) o
      ((meaning env (fuel + 1)).eval (.update target s before) m) := by
  have hupdate : (meaning env (fuel + 1)).eval (.update target s before) m =
      replacing slot (stepBy s.delta) target.root? before o := stepping_eq _ s before hslot
  have hcontinues := continues_replacing (stepBy s.delta) target.root? before hold
  rw [stepBy_of_int hint] at hcontinues
  rw [hupdate]
  exact hcontinues.exactly

/-- An integer can be stored in a slot that holds one. -/
theorem storing_of_steady (hs : slot.Steady m) (hold : Holds slot m a) (root : Option String) (value : Int → Value)
    (k : Int) : ∃ q, storing slot root value k m = .ok (value k) q ∧ slot.content q = .ok (.int k) := by
  obtain ⟨⟨old, hcontent, hint⟩, -⟩ := hold
  obtain ⟨n, hwrite, hwritten⟩ := writeSlot_of_integer hs hcontent hint (.int k)
  obtain ⟨q, hrecord, hsame⟩ := content_recordRoot root n slot
  exact ⟨q, (bind_of_ok hwrite).trans (bind_of_ok hrecord), hsame.trans hwritten⟩

end

/-- Integer arithmetic wherever it is evaluated: operands, places and slots that hold `a` and `b`, which programs can
hold. -/
structure IntegerArithmetic (env : Env) (fuel : Nat) (a b : Int) : Prop where
  operators : ∀ left right m n o, Evaluates env fuel left m a n → Evaluates env fuel right n b o →
    Arithmetic a b (fun k => pure (.int k)) o fun op => (meaning env (fuel + 1)).eval (.binary op left right) m
  /-- No operator leads to anything but an integer that can be held, a truth value or an error. -/
  closed : ∀ op left right m n o, Evaluates env fuel left m a n → Evaluates env fuel right n b o →
    Closed ((meaning env (fuel + 1)).eval (.binary op left right) m)
  negation : ∀ e m n, Evaluates env fuel e m a n →
    Exactly (-a) ("-" ++ toString a) (fun k => pure (.int k)) n ((meaning env (fuel + 1)).eval (.neg e) m)
  absolute : env.program.function? "abs" = none → ∀ e m n, Evaluates env fuel e m a n →
    Exactly a.natAbs ("abs(" ++ toString a ++ ")") (fun k => pure (.int k)) n
      ((meaning env (fuel + 1)).eval (.call "abs" [e]) m)
  compound : ∀ target slot e m n o, (meaning env fuel).resolve target.toExpr m = .ok slot n →
    Evaluates env fuel e n b o → Holds slot o a →
    Arithmetic a b (storing slot target.root? .int) o
      fun op => (meaning env (fuel + 1)).eval (.assign target (some op) e) m
  step : ∀ target slot s before old m o, (meaning env fuel).resolve target.toExpr m = .ok slot o →
    slot.content o = .ok old → old.int? = some a →
    Exactly (a + s.delta) (overflowText s.op a 1) (storing slot target.root? fun k => if before then .int k else old) o
      ((meaning env (fuel + 1)).eval (.update target s before) m)
  /-- What is stored is there afterwards. A slot can only cease to be steady while the operand of a compound
  assignment is evaluated, which may put a list where there was a string. -/
  steady : ∀ target slot m n, (meaning env fuel).resolve target m = .ok slot n → slot.Steady n
  stores : ∀ slot root value k m, slot.Steady m → Holds slot m a →
    ∃ q, storing slot root value k m = .ok (value k) q ∧ slot.content q = .ok (.int k)

/-- Integer arithmetic is exact or fails, on all integers and truth values. -/
theorem integer_arithmetic (env : Env) (fuel : Nat) (a b : Int) : IntegerArithmetic env fuel a b where
  operators _ _ _ _ _ hl hr := arithmetic_binary hl hr
  closed op _ _ _ _ _ hl hr := closed_binary hl hr op
  negation _ _ _ he := exactly_neg he
  absolute hprogram _ _ _ he := exactly_abs hprogram he
  compound _ _ _ _ _ _ hslot he hold := arithmetic_assign hslot he hold
  step _ _ s before _ _ _ hslot hold hint := exactly_update s before hslot hold hint
  steady _ _ _ _ hslot := steady_of_resolve hslot
  stores _ root value k _ hs hold := storing_of_steady hs hold root value k

/-- The least integer is not divided by -1, nor is there a remainder. -/
theorem least_not_divided :
    (meaning emptyEnv 2).eval (.binary .div (.int minInt) (.int (-1))) Machine.initial =
      .error (.failed ⟨.overflow (overflowText .div minInt (-1)), 1⟩) Machine.initial ∧
    (meaning emptyEnv 2).eval (.binary .mod (.int minInt) (.int (-1))) Machine.initial =
      .error (.failed ⟨.overflow (overflowText .mod minInt (-1)), 1⟩) Machine.initial := by
  have hl : Evaluates emptyEnv 1 (.int minInt) Machine.initial minInt Machine.initial :=
    ⟨⟨.int minInt, rfl, rfl⟩, by decide⟩
  have hr : Evaluates emptyEnv 1 (.int (-1)) Machine.initial (-1) Machine.initial := ⟨⟨.int (-1), rfl, rfl⟩, by decide⟩
  have hleast := ((integer_arithmetic emptyEnv 1 minInt (-1)).operators _ _ _ _ _ hl hr).least rfl rfl
  exact ⟨hleast .div (by simp), hleast .mod (by simp)⟩

end Exec

end CallTrace
